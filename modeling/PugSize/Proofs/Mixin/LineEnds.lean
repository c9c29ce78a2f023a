import PugSize.Proofs.Mixin.Located

/-!
A document with line feeds only, and the same document with a carriage return before each. The two
have the same lines, so the same calls are located in them; a place stands in both behind the same
text, up to line ends, and an exchange between two places leaves them such a pair.
-/

namespace PugSize

namespace Text

theorem stripReturn_cons {c : Char} (hc : c ≠ '\r') (l : Text) :
    stripReturn (c :: l) = c :: stripReturn l := by
  cases l with
  | nil => simp [stripReturn, hc]
  | cons d ds => exact stripReturn_append (a := [c]) (List.cons_ne_nil d ds)

end Text

namespace Buffer

@[simp] theorem addReturns_nil : addReturns [] = [] := rfl

theorem addReturns_cons (c : Char) (cs : Text) :
    addReturns (c :: cs) = (if c = '\n' then ['\r', '\n'] else [c]) ++ addReturns cs := rfl

@[simp] theorem addReturns_append (a b : Text) : addReturns (a ++ b) = addReturns a ++ addReturns b :=
  List.flatMap_append

theorem head?_addReturns (t : Text) : (addReturns t).head? ≠ some '\n' := by
  cases t with
  | nil => simp
  | cons c cs =>
      rw [addReturns_cons]
      split
      · simp
      · rename_i hc
        simpa using hc

@[simp] theorem dropReturns_addReturns (t : Text) : dropReturns (addReturns t) = t := by
  induction t with
  | nil => rfl
  | cons c cs ih =>
      rw [addReturns_cons]
      split
      · rename_i hc
        subst hc
        simp [dropReturns, ih]
      · have hkeep : ¬ (c = '\r' ∧ (addReturns cs).head? = some '\n') :=
          fun h => head?_addReturns cs h.2
        rw [List.singleton_append, dropReturns, if_neg hkeep, ih]

/-- In a text with carriage returns added one stands before each line feed. -/
theorem return_before {t before after : Text} (h : addReturns t = before ++ '\n' :: after) :
    before.getLast? = some '\r' := by
  induction t generalizing before with
  | nil => cases before <;> cases h
  | cons c cs ih =>
      rw [addReturns_cons] at h
      obtain ⟨more, rfl, hrest⟩ | ⟨more, hfront, hrest⟩ := List.append_eq_append_iff.1 h
      · have hlast := ih hrest
        rw [List.getLast?_append, hlast]
        rfl
      · cases more with
        | nil => exact absurd (congrArg List.head? hrest).symm (head?_addReturns cs)
        | cons d ds =>
            obtain ⟨rfl, -⟩ := List.cons.inj hrest
            split at hfront
            · rcases before with _ | ⟨e, _ | ⟨f, before⟩⟩
              · cases hfront
              · obtain ⟨rfl, -⟩ := List.cons.inj hfront
                rfl
              · simp at hfront
            · rename_i hc
              rcases before with _ | ⟨e, before⟩
              · exact absurd (List.cons.inj hfront).1 hc
              · simp at hfront

theorem dropReturns_adapt (b : Buffer) (t : Text) : dropReturns (b.adapt t) = dropReturns t := by
  rw [adapt]
  split
  · exact dropReturns_addReturns _
  · rfl

/-- Whether a text is another one with the line ends of a document. Where these are line feeds it is the same
text; where they are carriage returns with line feeds, a carriage return stands before each line feed, and without
these the texts are the same. -/
structure HasEnds (b : Buffer) (t new : Text) : Prop where
  feeds : b.crlf = false → new = t
  returns : b.crlf = true → ∀ before after, new = before ++ '\n' :: after → before.getLast? = some '\r'
  text : dropReturns new = dropReturns t

theorem hasEnds_adapt (b : Buffer) (t : Text) : b.HasEnds t (b.adapt t) := by
  refine ⟨fun h => ?_, fun h before after hnew => ?_, dropReturns_adapt b t⟩
  · rw [adapt, h]
    rfl
  · rw [adapt, h, if_pos rfl] at hnew
    exact return_before hnew

theorem addReturns_inj {s t : Text} : addReturns s = addReturns t ↔ s = t := by
  constructor
  · intro h
    rw [← dropReturns_addReturns s, h, dropReturns_addReturns]
  · rintro rfl
    rfl

theorem getLast?_addReturns {t : Text} (h : '\r' ∉ t) : (addReturns t).getLast? ≠ some '\r' := by
  cases t using List.reverseRecOn with
  | nil => simp
  | append_singleton t c =>
      have hc : c ≠ '\r' := fun heq => h (by simp [heq])
      rw [addReturns_append, addReturns_cons, addReturns_nil, List.append_nil, List.getLast?_append]
      split
      · simp
      · simpa using hc

theorem width_addReturns_pos {t : Text} (h : t ≠ []) : 0 < (addReturns t).width := by
  apply Text.width_pos
  intro hnil
  exact h (addReturns_inj.1 hnil)

theorem hasCrlf_addReturns {t : Text} (h : '\n' ∈ t) : hasCrlf (addReturns t) = true := by
  induction t with
  | nil => cases h
  | cons c cs ih =>
      rw [addReturns_cons]
      split
      · rfl
      · rename_i hc
        obtain rfl | hcs := List.mem_cons.1 h
        · exact absurd rfl hc
        · rw [List.singleton_append, hasCrlf, ih hcs, Bool.or_true]

theorem map_stripReturn_of_no_return {ls : List Text} (h : ∀ l ∈ ls, '\r' ∉ l) :
    ls.map Text.stripReturn = ls := by
  refine Eq.trans (List.map_congr_left fun l hl => ?_) (List.map_id _)
  exact Text.stripReturn_of_not_mem (h l hl)

/-- Line ends do not change the lines. -/
theorem lines_addReturns {t : Text} (h : '\r' ∉ t) :
    (Text.splitLines (addReturns t)).map Text.stripReturn = Text.splitLines t := by
  induction t with
  | nil => rfl
  | cons c cs ih =>
      simp only [List.mem_cons, not_or] at h
      have hcs := ih h.2
      rw [addReturns_cons, Text.splitLines]
      split
      · have hstrip : Text.stripReturn ['\r'] = [] := rfl
        simp [Text.splitLines, hcs, hstrip]
      · rename_i hc
        have hreturn : c ≠ '\r' := fun heq => h.1 heq.symm
        rw [List.singleton_append, Text.splitLines, if_neg hc, ← hcs]
        cases hls : Text.splitLines (addReturns cs) with
        | nil => exact absurd hls (Text.splitLines_ne_nil _)
        | cons l ls => simp [Text.stripReturn_cons hreturn]

/-- Whether a buffer has line feeds only, and no carriage returns to add to inserted text. -/
structure LineFed (b : Buffer) : Prop where
  crlf : b.crlf = false
  text : '\r' ∉ b.text

/-- The document with a carriage return before every line feed. -/
def withReturns (b : Buffer) : Buffer := ⟨addReturns b.text, true⟩

theorem lineFed_ofText {t : Text} (h : '\r' ∉ t) : (ofText t).LineFed :=
  ⟨hasCrlf_of_no_return h, h⟩

theorem ofText_addReturns {t : Text} (h : '\n' ∈ t) :
    ofText (addReturns t) = (ofText t).withReturns := by
  rw [ofText, hasCrlf_addReturns h]
  rfl

/-- The lines without what is left of their terminators. -/
def lines (b : Buffer) : List Text := b.rawLines.map Text.stripReturn

theorem line?_eq (b : Buffer) (i : Nat) : b.line? i = b.lines[i]? := by
  rw [line?, lines, List.getElem?_map]

theorem lineCount_eq (b : Buffer) : b.lineCount = b.lines.length := by
  rw [lineCount, lines, List.length_map]

variable {b : Buffer}

theorem LineFed.lines (h : b.LineFed) : b.lines = b.rawLines :=
  map_stripReturn_of_no_return fun _ hl hc => h.text (Text.mem_of_mem_splitLines hl hc)

theorem LineFed.lines_withReturns (h : b.LineFed) : b.withReturns.lines = b.lines := by
  rw [h.lines]
  exact lines_addReturns h.text

/-- A place stands in both documents behind the same text, or names no line of either. -/
theorem LineFed.offsetOf (h : b.LineFed) (p : Position) :
    (∃ e, b.offsetOf p = .error e ∧ b.withReturns.offsetOf p = .error e) ∨
      ∃ before after, b.text = before ++ after ∧ b.offsetOf p = .ok before.width ∧
        b.withReturns.offsetOf p = .ok (addReturns before).width := by
  have hlines := h.lines_withReturns
  cases hline : b.line? p.line with
  | none =>
      have hline' : b.withReturns.line? p.line = none := by
        rw [line?_eq, hlines, ← line?_eq, hline]
      refine .inl ⟨.lineOutOfRange p.line b.lineCount, ?_, ?_⟩
      · rw [Buffer.offsetOf, hline]
      · rw [Buffer.offsetOf, hline', lineCount_eq, hlines, ← lineCount_eq]
  | some line =>
      have hline' : b.withReturns.line? p.line = some line := by
        rw [line?_eq, hlines, ← line?_eq, hline]
      -- A character behind the end of the line counts as the end.
      have hclamp : line.take p.character = line.take (min p.character line.length) := by
        rw [List.take_eq_take_min]
      obtain ⟨before, after, -, hdoc, -, hbehind, hoffset, -⟩ :=
        MixinCall.textFrom_eq hline (Nat.min_le_right p.character line.length)
      have hbefore : '\r' ∉ before := fun hc => h.text (by simp [hdoc, hc])
      have hcut : CutsBetween (addReturns before) (addReturns after) :=
        fun hlast => absurd hlast (getLast?_addReturns hbefore)
      have hdoc' : b.withReturns.text = addReturns before ++ addReturns after := by
        rw [← addReturns_append, ← hdoc]
        rfl
      have hplace : Position.behind (addReturns before) =
          ⟨p.line, min p.character line.length⟩ := by
        rw [← hbehind, Position.behind, ← Position.advance_dropReturns, dropReturns_addReturns,
          Position.behind]
      have hoffset' := offsetOf_behind hdoc' hcut
      rw [hplace] at hoffset'
      refine .inr ⟨before, after, hdoc, ?_, ?_⟩
      · rw [Buffer.offsetOf, hline] at hoffset ⊢
        simpa only [hclamp] using hoffset
      · rw [Buffer.offsetOf, hline'] at hoffset' ⊢
        simpa only [hclamp] using hoffset'

theorem LineFed.adapt (h : b.LineFed) (new : Text) : b.adapt new = new := by
  rw [Buffer.adapt, h.crlf]
  rfl

theorem adapt_withReturns {new : Text} (h : '\r' ∉ new) :
    b.withReturns.adapt new = addReturns new := by
  rw [Buffer.adapt, withReturns, if_pos rfl, dropReturns_of_no_return h]

/-- Exchanging a stretch commutes with adding carriage returns. -/
theorem LineFed.replace (h : b.LineFed) {new : Text} (hnew : '\r' ∉ new) (start stop : Position) :
    b.withReturns.replace start stop new = (b.replace start stop new).map withReturns ∧
      ∀ b', b.replace start stop new = .ok b' → b'.LineFed := by
  obtain ⟨e, he, he'⟩ | ⟨before, after, hdoc, hoffset, hoffset'⟩ := h.offsetOf start
  · simp [Buffer.replace, bind, Except.bind, he, he', Except.map]
  obtain ⟨e, he, he'⟩ | ⟨through, rest, hdoc', hthrough, hthrough'⟩ := h.offsetOf stop
  · simp [Buffer.replace, bind, Except.bind, hoffset, hoffset', he, he', Except.map]
  have hparted : (∃ inside, through = before ++ inside ∧ after = inside ++ rest) ∨
      ∃ beyond, beyond ≠ [] ∧ before = through ++ beyond := by
    obtain h | ⟨beyond, hbefore, hrest⟩ := List.append_eq_append_iff.1 (hdoc.symm.trans hdoc')
    · exact .inl h
    · by_cases hnil : beyond = []
      · subst hnil
        exact .inl ⟨[], by simp [hbefore], by simp [hrest]⟩
      · exact .inr ⟨beyond, hnil, hbefore⟩
  obtain ⟨inside, rfl, rfl⟩ | ⟨beyond, hbeyond, rfl⟩ := hparted
  · rw [← List.append_assoc] at hdoc
    have hreturns : b.withReturns.text = addReturns before ++ addReturns inside ++ addReturns rest := by
      rw [← addReturns_append, ← addReturns_append, ← hdoc]
      rfl
    rw [addReturns_append] at hthrough'
    rw [replace_middle new hdoc hoffset hthrough, replace_middle new hreturns hoffset' hthrough',
      h.adapt, adapt_withReturns hnew]
    refine ⟨by simp [Except.map, withReturns], ?_⟩
    rintro b' hb'
    rw [Except.ok.injEq] at hb'
    subst hb'
    refine ⟨h.crlf, ?_⟩
    have htext := h.text
    rw [hdoc] at htext
    simp only [List.mem_append, not_or] at htext ⊢
    exact ⟨⟨htext.1.1, hnew⟩, htext.2⟩
  · have hpos := Text.width_pos hbeyond
    have hpos' := width_addReturns_pos hbeyond
    simp [Buffer.replace, bind, Except.bind, hoffset, hoffset', hthrough, hthrough', hpos, hpos',
      Except.map]

end Buffer

namespace MixinCall

/-- A call is located from the lines alone. -/
theorem locate?_lines {b b' : Buffer} (h : b.lines = b'.lines) (cursor : Position)
    (names : List Text) : locate? b cursor names = locate? b' cursor names := by
  have hfrom (p : Position) : textFrom b p = textFrom b' p := by
    rw [textFrom, textFrom, List.map_drop, List.map_drop, ← Buffer.lines, ← Buffer.lines, h]
  have hread : read? b = read? b' := by
    funext start name
    rw [read?, read?, hfrom]
  have hline : onLine? b cursor names = onLine? b' cursor names := by
    funext i
    rw [onLine?, onLine?, Buffer.line?_eq, Buffer.line?_eq, h, hread]
  rw [locate?, locate?, hline, Buffer.lineCount_eq, Buffer.lineCount_eq, h]

end MixinCall
end PugSize
