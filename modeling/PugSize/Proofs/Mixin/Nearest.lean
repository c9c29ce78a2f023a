import PugSize.Proofs.Mixin.Located
import PugSize.Proofs.Mixin.Spans

/-!
The nearest call around a cursor. Of the calls whose marker stands in the document and that reach from
before the cursor to behind it, the search finds the one that begins on the last line, and on that line the
first; it finds none only if there is none.
-/

namespace PugSize

theorem Text.mem_joinLines {ls : List Text} {c : Char} (h : c ∈ joinLines ls) (hc : c ≠ '\n') :
    ∃ l ∈ ls, c ∈ l := by
  induction ls with
  | nil => cases h
  | cons l ls ih =>
      cases ls with
      | nil => exact ⟨l, List.mem_cons_self, h⟩
      | cons m ms =>
          obtain h | h := List.mem_append.1 h
          · exact ⟨l, List.mem_cons_self, h⟩
          · obtain ⟨k, hk, hck⟩ := ih ((List.mem_cons.1 h).resolve_left hc)
            exact ⟨k, List.mem_cons_of_mem _ hk, hck⟩

namespace MixinCall

/-- A place of a line at which the marker of a name stands. -/
structure Candidate (b : Buffer) (names : List Text) (start : Position) (name : Text) : Prop where
  mem : name ∈ names
  stands : ∃ before after, b.line? start.line = some (before ++ (marker name ++ after)) ∧
    start.character = before.length

/-- A call that begins at a candidate and reaches around a place. -/
structure CallAround (escaped : Text → Prop) (b : Buffer) (cursor : Position) (names : List Text)
    (c : MixinCall) : Prop where
  candidate : Candidate b names c.start c.name
  extent : Extent escaped (textFrom b c.start) c.text
  text : c.text = marker c.name ++ c.arguments ++ [')']
  argumentsOffset : c.argumentsOffset = (marker c.name).width
  stop : c.stop = c.start.advance c.text
  start_le : c.start.le cursor = true
  le_stop : cursor.le c.stop = true

/-- What is to be found: the call around a place that begins on the last line, and on that line the first,
or nothing if no call is around the place. -/
def Nearest (escaped : Text → Prop) (b : Buffer) (cursor : Position) (names : List Text) :
    Option MixinCall → Prop
  | none => ∀ c, ¬ CallAround escaped b cursor names c
  | some c => CallAround escaped b cursor names c ∧ ∀ d, CallAround escaped b cursor names d →
      d.start.line < c.start.line ∨ d.start.line = c.start.line ∧ c.start.character ≤ d.start.character

/-- What is read from a place on are characters of the document, and line feeds. -/
theorem mem_textFrom {b : Buffer} {p : Position} {c : Char} (h : c ∈ textFrom b p) (hc : c ≠ '\n') :
    c ∈ b.text := by
  have hline {l : Text} (hl : l ∈ (b.rawLines.drop p.line).map Text.stripReturn) (hcl : c ∈ l) :
      c ∈ b.text := by
    obtain ⟨raw, hraw, rfl⟩ := List.mem_map.1 hl
    refine Text.mem_of_mem_splitLines (List.mem_of_mem_drop hraw) ?_
    rw [Text.stripReturn] at hcl
    split at hcl
    · exact (List.dropLast_sublist _).subset hcl
    · exact hcl
  rw [textFrom] at h
  cases hlines : (b.rawLines.drop p.line).map Text.stripReturn with
  | nil =>
      rw [hlines] at h
      cases h
  | cons l ls =>
      rw [hlines] at h hline
      obtain ⟨k, hk, hck⟩ := Text.mem_joinLines h hc
      obtain rfl | hk := List.mem_cons.1 hk
      · exact hline List.mem_cons_self (List.mem_of_mem_drop hck)
      · exact hline (List.mem_cons_of_mem _ hk) hck

theorem not_broken_textFrom {b : Buffer} (h : '\\' ∉ b.text) (start : Position) :
    ¬ Broken (textFrom b start) := by
  rintro ⟨n, c, -, hin⟩
  exact h (mem_textFrom (hin.subset List.mem_cons_self) (by decide))

/-- The search for the closing parenthesis ends behind one. -/
theorem take_closingEnd {depth n : Nat} {t : Text} (h : closingEnd? depth (marks t) = some n) :
    t.take n = t.take (n - 1) ++ [')'] := by
  obtain ⟨before, after, hmarks, rfl⟩ := closingEnd?_eq_some h
  have ht : t = before.map Prod.fst ++ ')' :: after.map Prod.fst := by
    rw [← map_fst_marked t .code, ← marks, hmarks, List.map_append, List.map_cons]
  rw [ht, Nat.add_sub_cancel, List.take_left' (List.length_map _), List.append_cons,
    List.take_left' (by simp)]

section

variable {b : Buffer} {cursor : Position} {names : List Text} {escaped : Text → Prop}
  (hnames : ∀ n ∈ names, n ≠ [] ∧ ∀ c ∈ n, isNameChar c = true)
include hnames

/-- A place is where one call begins at most. -/
theorem CallAround.unique {c d : MixinCall} (hc : CallAround escaped b cursor names c)
    (hd : CallAround escaped b cursor names d) (h : c.start = d.start) : c = d := by
  obtain ⟨name, start, stop, text, arguments, argumentsOffset⟩ := c
  obtain ⟨name', start', stop', text', arguments', argumentsOffset'⟩ := d
  obtain rfl : start = start' := h
  obtain ⟨hmem, before, after, hline, hcolumn⟩ := hc.candidate
  obtain ⟨hmem', before', after', hline', hcolumn'⟩ := hd.candidate
  obtain rfl : name = name' := by
    have hlines := Option.some.inj (hline.symm.trans hline')
    obtain ⟨-, hmarkers⟩ := List.append_inj hlines (hcolumn.symm.trans hcolumn')
    exact marker_inj (hnames _ hmem).2 (hnames _ hmem').2 hmarkers
  obtain rfl : text = text' := hc.extent.unique hd.extent
  obtain rfl : arguments = arguments' := by
    have htexts := hc.text.symm.trans hd.text
    exact List.append_cancel_left (List.append_cancel_right htexts)
  obtain rfl : stop = stop' := hc.stop.trans hd.stop.symm
  obtain rfl : argumentsOffset = argumentsOffset' := hc.argumentsOffset.trans hd.argumentsOffset.symm
  rfl

theorem Nearest.unique {found found' : Option MixinCall} (h : Nearest escaped b cursor names found)
    (h' : Nearest escaped b cursor names found') : found = found' := by
  cases found with
  | none =>
      cases found' with
      | none => rfl
      | some d => exact absurd h'.1 (h d)
  | some c =>
      cases found' with
      | none => exact absurd h.1 (h' c)
      | some d =>
          have hstart : c.start = d.start := by
            have hcd := h.2 d h'.1
            have hdc := h'.2 c h.1
            cases hc : c.start
            cases hd : d.start
            rw [hc, hd] at hcd hdc
            simp only at hcd hdc
            rw [Position.mk.injEq]
            omega
          rw [h.1.unique hnames h'.1 hstart]

/-- The calls around a cursor are those that the search reads at a candidate of a line. -/
theorem callAround_iff {c : MixinCall} :
    CallAround NextOfLine b cursor names c ↔
      ∃ line, b.line? c.start.line = some line ∧
        (c.start.character, c.name) ∈ candidates line names ∧
        read? b c.start c.name = some c ∧ c.encloses cursor = true := by
  have hfrom {start : Position} {name before after : Text}
      (hline : b.line? start.line = some (before ++ (marker name ++ after)))
      (hcolumn : start.character = before.length) :
      ∃ rest, textFrom b start = marker name ++ rest := by
    obtain ⟨more, hmore⟩ := textFrom_line hline start.character
    refine ⟨after ++ more, ?_⟩
    rw [hmore, hcolumn, List.drop_left, List.append_assoc]
  constructor
  · intro h
    obtain ⟨hmem, before, after, hline, hcolumn⟩ := h.candidate
    obtain ⟨hne, hname⟩ := hnames _ hmem
    obtain ⟨rest, hrest⟩ := hfrom hline hcolumn
    have hextent := h.extent
    rw [hrest, extent_marker_iff hname] at hextent
    obtain ⟨n, hn, htext⟩ := hextent
    have hargs : rest.take (n - 1) = c.arguments := by
      rw [h.text, List.append_assoc, take_closingEnd hn] at htext
      exact (List.append_cancel_right (List.append_cancel_left htext)).symm
    refine ⟨_, hline, (mem_candidates_iff hname).2 ⟨⟨hmem, hne⟩, before, after, rfl, hcolumn⟩, ?_, ?_⟩
    · have hread : extent? (textFrom b c.start) = some (marker c.name, c.arguments) := by
        rw [hrest, extent?_marker hname, ← marks, hn, Option.map_some, hargs]
      rw [read?, hread, Option.map_some]
      simp only [← h.text, ← h.stop, ← h.argumentsOffset]
    · rw [encloses, h.start_le, h.le_stop, Bool.and_self]
  · rintro ⟨line, hline, hcandidate, hread, hencloses⟩
    have hname := (hnames _ (mem_candidates hcandidate).1).2
    obtain ⟨⟨hmem, -⟩, before, after, rfl, hcolumn⟩ := (mem_candidates_iff hname).1 hcandidate
    obtain ⟨rest, hrest⟩ := hfrom hline hcolumn
    obtain ⟨⟨opening, args⟩, hextent, hcall⟩ := Option.map_eq_some_iff.1 hread
    rw [hrest, extent?_marker hname, ← marks] at hextent
    obtain ⟨n, hn, hparts⟩ := Option.map_eq_some_iff.1 hextent
    obtain ⟨rfl, rfl⟩ := Prod.mk.inj hparts
    have htext : c.text = marker c.name ++ rest.take (n - 1) ++ [')'] := by rw [← hcall]
    rw [encloses, Bool.and_eq_true] at hencloses
    refine ⟨⟨hmem, before, after, hline, hcolumn⟩, ?_, ?_, ?_, ?_, hencloses.1, hencloses.2⟩
    · rw [hrest, extent_marker_iff hname]
      exact ⟨n, hn, by rw [htext, take_closingEnd hn, List.append_assoc]⟩
    · rw [htext, ← hcall]
    · rw [← hcall]
    · rw [htext, ← hcall]

/-- The first call around a cursor that begins on a line is found on it. -/
theorem onLine?_eq_some {i : Nat} {c : MixinCall} (h : onLine? b cursor names i = some c) :
    CallAround NextOfLine b cursor names c ∧ c.start.line = i ∧
      ∀ d, CallAround NextOfLine b cursor names d → d.start.line = i →
        c.start.character ≤ d.start.character := by
  obtain ⟨line, hline, hfound⟩ := Option.bind_eq_some_iff.1 h
  obtain ⟨before, ⟨column, name⟩, after, hcandidates, hread, hbefore⟩ :=
    List.findSome?_eq_some_iff.1 hfound
  obtain ⟨hread, hencloses⟩ := Option.filter_eq_some_iff.1 hread
  obtain ⟨-, -, hname, hstart, -⟩ := read?_eq_some hread
  subst hname
  have hsorted := sorted_candidates line names
  rw [hcandidates] at hsorted
  refine ⟨(callAround_iff hnames).2 ⟨line, ?_, ?_, ?_, hencloses⟩, by rw [hstart], ?_⟩
  · rw [hstart, hline]
  · rw [hstart, hcandidates]
    simp
  · rw [hstart, hread]
  · rintro d hd rfl
    obtain ⟨line', hline', hd, hreadd, henclosesd⟩ := (callAround_iff hnames).1 hd
    obtain rfl : line = line' := Option.some.inj (hline.symm.trans hline')
    rw [hcandidates] at hd
    rw [hstart]
    obtain hd | hd := List.mem_append.1 hd
    · have hnone := hbefore _ hd
      simp only [hreadd, Option.filter_some, henclosesd, if_true] at hnone
      cases hnone
    · obtain hd | hd := List.mem_cons.1 hd
      · exact Nat.le_of_eq (Prod.mk.inj hd).1.symm
      · exact (List.pairwise_cons.1 (List.pairwise_append.1 hsorted).2.1).1 _ hd

/-- On the line of a call around a cursor, one is found. -/
theorem CallAround.onLine? {c : MixinCall} (h : CallAround NextOfLine b cursor names c) :
    MixinCall.onLine? b cursor names c.start.line ≠ none := by
  obtain ⟨line, hline, hcandidate, hread, hencloses⟩ := (callAround_iff hnames).1 h
  rw [MixinCall.onLine?, hline, Option.bind_some, ne_eq, List.findSome?_eq_none_iff]
  intro hnone
  have := hnone _ hcandidate
  simp only [hread, Option.filter_some, hencloses, if_true] at this
  cases this

omit hnames in
/-- It begins on a line that is searched. -/
theorem CallAround.line_lt {c : MixinCall} (h : CallAround NextOfLine b cursor names c) :
    c.start.line < min cursor.line (b.lineCount - 1) + 1 := by
  obtain ⟨-, before, after, hline, -⟩ := h.candidate
  obtain ⟨raw, hraw, -⟩ := Option.map_eq_some_iff.1 hline
  have hcount : c.start.line < b.lineCount := (List.getElem?_eq_some_iff.1 hraw).1
  have hle := h.start_le
  simp only [Position.le, Bool.or_eq_true, Bool.and_eq_true, decide_eq_true_eq, beq_iff_eq] at hle
  omega

theorem nearest_locate? : Nearest NextOfLine b cursor names (locate? b cursor names) := by
  have hsearched {c : MixinCall} (h : CallAround NextOfLine b cursor names c) :
      c.start.line ∈ (List.range (min cursor.line (b.lineCount - 1) + 1)).reverse := by
    rw [List.mem_reverse, List.mem_range]
    exact h.line_lt
  cases hfound : locate? b cursor names with
  | none =>
      intro c hc
      exact hc.onLine? hnames (List.findSome?_eq_none_iff.1 hfound _ (hsearched hc))
  | some c =>
      obtain ⟨above, i, below, hlines, hi, habove⟩ := List.findSome?_eq_some_iff.1 hfound
      obtain ⟨hc, rfl, hfirst⟩ := onLine?_eq_some hnames hi
      refine ⟨hc, fun d hd => ?_⟩
      have hsorted : (above ++ c.start.line :: below).Pairwise (· > ·) := by
        rw [← hlines, List.pairwise_reverse]
        exact List.pairwise_lt_range
      have hmem := hsearched hd
      rw [hlines] at hmem
      obtain hmem | hmem := List.mem_append.1 hmem
      · exact absurd (habove _ hmem) (hd.onLine? hnames)
      · obtain heq | hmem := List.mem_cons.1 hmem
        · exact .inr ⟨heq, hfirst d hd heq⟩
        · exact .inl ((List.pairwise_cons.1 (List.pairwise_append.1 hsorted).2.1).1 _ hmem)

omit hnames in
theorem callAround_nextChar_iff
    (hbroken : ∀ start name, Candidate b names start name → start.le cursor = true →
      ¬ Broken (textFrom b start)) {c : MixinCall} :
    CallAround NextChar b cursor names c ↔ CallAround NextOfLine b cursor names c := by
  constructor
  · rintro ⟨hcandidate, hextent, htext, hoffset, hstop, hle, hle'⟩
    exact ⟨hcandidate, (extent_iff (hbroken _ _ hcandidate hle)).1 hextent, htext, hoffset, hstop, hle,
      hle'⟩
  · rintro ⟨hcandidate, hextent, htext, hoffset, hstop, hle, hle'⟩
    exact ⟨hcandidate, (extent_iff (hbroken _ _ hcandidate hle)).2 hextent, htext, hoffset, hstop, hle,
      hle'⟩

/-- The nearest call around a cursor is located, and none only if there is none, where a backslash escapes
the first character behind it that is no line feed. It may as well escape the character next to it unless
a line behind a candidate ends with a backslash and the next one begins with a quote or a backslash. -/
theorem locate?_nearest :
    (∀ found, locate? b cursor names = found ↔ Nearest NextOfLine b cursor names found) ∧
    ((∀ start name, Candidate b names start name → start.le cursor = true →
        ¬ Broken (textFrom b start)) →
      ∀ found, locate? b cursor names = found ↔ Nearest NextChar b cursor names found) := by
  have hlocated : Nearest NextOfLine b cursor names (locate? b cursor names) := nearest_locate? hnames
  have hiff (found : Option MixinCall) :
      locate? b cursor names = found ↔ Nearest NextOfLine b cursor names found := by
    constructor
    · rintro rfl
      exact hlocated
    · exact hlocated.unique hnames
  refine ⟨hiff, fun hbroken found => ?_⟩
  rw [hiff]
  have hcalls {c : MixinCall} := callAround_nextChar_iff hbroken (c := c)
  cases found with
  | none => simp only [Nearest, hcalls]
  | some c => simp only [Nearest, hcalls]

end

/-- One name is the front of another, and parentheses stand in a string and in a comment. -/
theorem locate?_nearest_commented :
    Nearest NextChar (Buffer.ofText "p\n+img(')', // )\n  (a))".toList) ⟨2, 1⟩
      ["im".toList, "img".toList]
      (some (standing ⟨1, 0⟩ "img".toList "')', // )\n  (a)".toList)) := by
  have hnames : ∀ n ∈ ["im".toList, "img".toList], n ≠ [] ∧ ∀ c ∈ n, isNameChar c = true := by
    simp [isNameChar]
  refine ((locate?_nearest hnames).2 ?_ _).1 (by decide +kernel)
  exact fun start _ _ _ => not_broken_textFrom (by decide) start

/-- The quote that follows a backslash and a line feed ends its string; the search takes it for escaped. -/
theorem locate?_broken_line :
    ¬ Nearest NextChar (Buffer.ofText "+img(\"a\\\n\")".toList) ⟨0, 1⟩ ["img".toList]
      (locate? (Buffer.ofText "+img(\"a\\\n\")".toList) ⟨0, 1⟩ ["img".toList]) := by
  have hnone : locate? (Buffer.ofText "+img(\"a\\\n\")".toList) ⟨0, 1⟩ ["img".toList] = none := by
    decide +kernel
  rw [hnone]
  intro h
  have hbody : StringBody NextChar '"' "a\\\n".toList :=
    .plain (by decide) (by decide) (.escape (t := ['\n']) ⟨_, rfl⟩ .nil)
  have hparens : Parens NextChar "+img(\"a\\\n\")".toList ['(', ')'] :=
    .code rfl (by decide) <| .code rfl (by decide) <| .code rfl (by decide) <| .code rfl (by decide) <|
      .code rfl (by decide) <| .hidden (.string rfl hbody) <| .code rfl (by decide) .nil
  have hextent : Extent NextChar "+img(\"a\\\n\")".toList "+img(\"a\\\n\")".toList := by
    refine ⟨List.prefix_refl _, ⟨_, hparens, by decide, by decide⟩, fun y ps hy hps hcloses => ?_⟩
    have hy' : y <+: "+img(\"a\\\n\"".toList ++ [')'] := hy
    obtain rfl | hshort := List.prefix_concat_iff.1 hy'
    · exact Nat.le_refl _
    · exact absurd (hshort.subset (hps.mem hcloses.mem)) (by decide)
  exact h (standing ⟨0, 0⟩ "img".toList "\"a\\\n\"".toList)
    ⟨⟨by decide, [], "\"a\\".toList, by decide, rfl⟩, hextent, by decide, by decide, by decide, by decide,
      by decide⟩

end MixinCall
end PugSize
