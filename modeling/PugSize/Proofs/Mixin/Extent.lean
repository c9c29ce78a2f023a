import PugSize.Mixin.Call
import PugSize.Proofs.Document.Offsets

/-!
Where a located call stands in its document. The text that a call is read from is the document from
the place on, with its terminators read as line feeds; what the call keeps of it are three stretches,
and the middle one is bounded by the two parentheses.
-/

namespace PugSize

namespace Buffer

theorem dropReturns_line (l rest : Text) (h : '\n' ∉ l) :
    dropReturns (l ++ '\n' :: rest) = Text.stripReturn l ++ '\n' :: dropReturns rest := by
  induction l with
  | nil => rfl
  | cons c cs ih =>
      simp only [List.mem_cons, not_or] at h
      cases cs with
      | nil => by_cases hc : c = '\r' <;> simp [dropReturns, Text.stripReturn, hc]
      | cons d ds =>
          have hd : d ≠ '\n' := fun heq => h.2 (by simp [heq])
          have hhead : ¬ (c = '\r' ∧ (d :: ds ++ '\n' :: rest).head? = some '\n') := by
            simp [hd]
          have hstrip : Text.stripReturn (c :: d :: ds) = c :: Text.stripReturn (d :: ds) :=
            Text.stripReturn_append (a := [c]) (by simp)
          rw [List.cons_append, dropReturns, if_neg hhead, ih h.2, hstrip]
          rfl

/-- Two stretches of a text lose their carriage returns each by itself, unless they part a line end. -/
theorem dropReturns_append {a b : Text} (h : a.getLast? = some '\r' → b.head? ≠ some '\n') :
    dropReturns (a ++ b) = dropReturns a ++ dropReturns b := by
  induction a with
  | nil => rfl
  | cons c cs ih =>
      have hhead : (c = '\r' ∧ (cs ++ b).head? = some '\n') ↔ (c = '\r' ∧ cs.head? = some '\n') := by
        cases cs with
        | nil =>
            refine and_congr_right fun hc => ?_
            simpa using h (congrArg some hc)
        | cons d ds => rfl
      have hrest : dropReturns (cs ++ b) = dropReturns cs ++ dropReturns b := by
        refine ih fun hlast => h ?_
        rw [List.getLast?_cons, hlast]
        rfl
      rw [List.cons_append, dropReturns, dropReturns]
      simp only [hhead, hrest]
      split <;> rfl

/-- Without its carriage returns before line feeds, a text is its stripped lines; only a carriage
return at the very end is left over. -/
theorem dropReturns_joinLines (l : Text) (ls : List Text) (h : ∀ m ∈ l :: ls, '\n' ∉ m) :
    ∃ last, (last = [] ∨ last = ['\r']) ∧
      dropReturns (Text.joinLines (l :: ls)) =
        Text.joinLines ((l :: ls).map Text.stripReturn) ++ last := by
  induction ls generalizing l with
  | nil =>
      have hl : '\n' ∉ l := h l (by simp)
      simp only [Text.joinLines, dropReturns_of_not_mem hl, List.map_cons, List.map_nil]
      by_cases hlast : l.getLast? = some '\r'
      · obtain ⟨init, rfl⟩ := List.getLast?_eq_some_iff.1 hlast
        exact ⟨['\r'], .inr rfl, by rw [Text.stripReturn_concat]; simp⟩
      · exact ⟨[], .inl rfl, by simp [Text.stripReturn, hlast]⟩
  | cons m ms ih =>
      obtain ⟨last, hlast, heq⟩ := ih m fun x hx => h x (by simp [List.mem_cons.1 hx])
      refine ⟨last, hlast, ?_⟩
      have hjoin : Text.joinLines ((l :: m :: ms).map Text.stripReturn) =
          Text.stripReturn l ++ '\n' :: Text.joinLines ((m :: ms).map Text.stripReturn) :=
        Text.joinLines_cons (by simp)
      rw [Text.joinLines_cons (by simp), dropReturns_line _ _ (h l (by simp)), heq, hjoin]
      simp

/-- A stretch of a text with its carriage returns dropped comes from a stretch of the text. -/
theorem dropReturns_eq_append {t u v : Text} (h : dropReturns t = u ++ v) :
    ∃ a b, t = a ++ b ∧ dropReturns a = u ∧ dropReturns b = v ∧ a.getLast? = u.getLast? := by
  induction t generalizing u with
  | nil =>
      obtain ⟨rfl, rfl⟩ := List.append_eq_nil_iff.1 h.symm
      exact ⟨[], [], rfl, rfl, rfl, rfl⟩
  | cons c cs ih =>
      cases u with
      | nil => exact ⟨[], c :: cs, rfl, rfl, h, rfl⟩
      | cons x us =>
          rw [dropReturns] at h
          split at h
          · rename_i hc
            obtain ⟨a, b, rfl, ha, hb, hlast⟩ := ih h
            cases a with
            | nil => simp [dropReturns] at ha
            | cons d ds =>
                have hd : c = '\r' ∧ (d :: ds).head? = some '\n' := by simpa using hc
                refine ⟨c :: d :: ds, b, rfl, ?_, hb, ?_⟩
                · rw [dropReturns, if_pos hd, ha]
                · rw [List.getLast?_cons_cons, hlast]
          · rename_i hc
            obtain ⟨rfl, hcs⟩ := List.cons.inj h
            obtain ⟨a, b, rfl, ha, hb, hlast⟩ := ih hcs
            have hkeep : ¬ (c = '\r' ∧ a.head? = some '\n') := by
              rintro ⟨hr, hhead⟩
              exact hc ⟨hr, by simp [List.head?_append, hhead]⟩
            refine ⟨c :: a, b, rfl, ?_, hb, ?_⟩
            · rw [dropReturns, if_neg hkeep, ha]
            · rw [List.getLast?_cons, List.getLast?_cons, hlast]

theorem dropReturns_eq_cons {t u : Text} {c : Char} (h : dropReturns t = c :: u) (hc : c ≠ '\n') :
    ∃ rest, t = c :: rest := by
  cases t with
  | nil => simp [dropReturns] at h
  | cons d ds =>
      rw [dropReturns] at h
      split at h
      · rename_i hd
        obtain ⟨es, rfl⟩ := List.head?_eq_some_iff.1 hd.2
        simp only [dropReturns, show ¬ ('\n' = '\r') from by decide, false_and, if_false] at h
        exact absurd (List.cons.inj h).1.symm hc
      · exact ⟨ds, by rw [(List.cons.inj h).1]⟩

end Buffer

namespace Position

theorem behind_lines (ls : List Text) (h : ∀ l ∈ ls, '\n' ∉ l) :
    behind (ls.flatMap fun l => l ++ ['\n']) = ⟨ls.length, 0⟩ := by
  induction ls using List.reverseRecOn with
  | nil => rfl
  | append_singleton ls l ih =>
      have hl : '\n' ∉ l := h l (by simp)
      have hls := ih fun m hm => h m (by simp [hm])
      rw [List.flatMap_append, behind_append, hls, List.flatMap_singleton, advance_append,
        advance_of_not_mem _ _ hl]
      simp [advance]

end Position

namespace MixinCall

/-- The document parted at a place of a line. What is read from the place on is the second part
with its carriage returns dropped, but for one at the very end. -/
theorem textFrom_eq {b : Buffer} {i column : Nat} {line : Text} (hline : b.line? i = some line)
    (hcolumn : column ≤ line.length) :
    ∃ before after last, b.text = before ++ after ∧
      before = (b.rawLines.take i).flatMap (fun l => l ++ ['\n']) ++ line.take column ∧
      Position.behind before = ⟨i, column⟩ ∧ b.offsetOf ⟨i, column⟩ = .ok before.width ∧
      (last = [] ∨ last = ['\r']) ∧
      Buffer.dropReturns after = textFrom b ⟨i, column⟩ ++ last := by
  obtain ⟨raw, hraw, rfl⟩ := Option.map_eq_some_iff.1 hline
  obtain ⟨hi, rfl⟩ := List.getElem?_eq_some_iff.1 hraw
  have hdrop : b.rawLines.drop i = b.rawLines[i] :: b.rawLines.drop (i + 1) :=
    List.drop_eq_getElem_cons hi
  have hlines : ∀ l ∈ b.rawLines, '\n' ∉ l := fun l hl => Text.not_mem_of_mem_splitLines hl
  have htext : b.text = (b.rawLines.take i).flatMap (fun l => l ++ ['\n']) ++
      Text.joinLines (b.rawLines.drop i) := by
    rw [← Text.joinLines_append (by rw [hdrop]; exact List.cons_ne_nil _ _),
      List.take_append_drop]
    exact (Text.joinLines_splitLines b.text).symm
  have hparted : Text.joinLines (b.rawLines.drop i) = b.rawLines[i].take column ++
      Text.joinLines (b.rawLines[i].drop column :: b.rawLines.drop (i + 1)) := by
    rw [hdrop]
    cases b.rawLines.drop (i + 1) with
    | nil => exact (List.take_append_drop _ _).symm
    | cons m ms =>
        simp only [Text.joinLines]
        rw [← List.append_assoc, List.take_append_drop]
  obtain ⟨last, hlast, hreturns⟩ := Buffer.dropReturns_joinLines (b.rawLines[i].drop column)
    (b.rawLines.drop (i + 1)) (by
      intro m hm
      obtain rfl | hm := List.mem_cons.1 hm
      · exact fun h => hlines _ (List.getElem_mem hi) (List.mem_of_mem_drop h)
      · exact hlines m (List.mem_of_mem_drop hm))
  refine ⟨_, Text.joinLines (b.rawLines[i].drop column :: b.rawLines.drop (i + 1)), last, ?_, rfl,
    ?_, ?_, hlast, ?_⟩
  · rw [Text.take_stripReturn hcolumn, List.append_assoc, ← hparted, ← htext]
  · have hwhole := Position.behind_lines (b.rawLines.take i) fun l hl =>
      hlines l (List.mem_of_mem_take hl)
    have hpart : '\n' ∉ (Text.stripReturn b.rawLines[i]).take column := by
      rw [Text.take_stripReturn hcolumn]
      exact fun h => hlines _ (List.getElem_mem hi) (List.mem_of_mem_take h)
    rw [Position.behind_append, hwhole, Position.advance_of_not_mem _ _ hpart]
    simp only [List.length_take, Position.mk.injEq]
    omega
  · simp only [Buffer.offsetOf, hline, Buffer.lineStart_eq, Buffer.width_lines, Text.width_append]
  · rw [hreturns, textFrom, hdrop, List.map_cons, List.map_cons, Text.stripReturn_drop hcolumn]

theorem openingEnd?_eq_some {marked : List (Char × Bool)} {n : Nat}
    (h : openingEnd? marked = some n) :
    ∃ before after, marked = before ++ ('(', true) :: after ∧ n = before.length + 1 := by
  induction marked generalizing n with
  | nil => simp [openingEnd?] at h
  | cons x rest ih =>
      obtain ⟨c, isCode⟩ := x
      rw [openingEnd?] at h
      split at h
      · rename_i hx
        obtain ⟨rfl, hcode⟩ := hx
        obtain rfl : isCode = true := hcode
        exact ⟨[], rest, rfl, by simpa using h.symm⟩
      · obtain ⟨m, hm, rfl⟩ := Option.map_eq_some_iff.1 h
        obtain ⟨before, after, rfl, rfl⟩ := ih hm
        exact ⟨(c, isCode) :: before, after, rfl, rfl⟩

theorem closingEnd?_eq_some {marked : List (Char × Bool)} {depth n : Nat}
    (h : closingEnd? depth marked = some n) :
    ∃ before after, marked = before ++ (')', true) :: after ∧ n = before.length + 1 := by
  have hnext : ∀ {x : Char × Bool} {rest : List (Char × Bool)} {d m : Nat},
      (∀ {d n}, closingEnd? d rest = some n →
        ∃ before after, rest = before ++ (')', true) :: after ∧ n = before.length + 1) →
      (closingEnd? d rest).map (· + 1) = some m →
        ∃ before after, x :: rest = before ++ (')', true) :: after ∧ m = before.length + 1 := by
    intro x rest d m ih hm
    obtain ⟨k, hk, rfl⟩ := Option.map_eq_some_iff.1 hm
    obtain ⟨before, after, rfl, rfl⟩ := ih hk
    exact ⟨x :: before, after, rfl, rfl⟩
  induction marked generalizing depth n with
  | nil => simp [closingEnd?] at h
  | cons x rest ih =>
      obtain ⟨c, isCode⟩ := x
      rw [closingEnd?] at h
      split at h
      · exact hnext (fun hd => ih hd) h
      · split at h
        · rename_i hx
          obtain ⟨rfl, hcode⟩ := hx
          obtain rfl : isCode = true := hcode
          split at h
          · exact ⟨[], rest, rfl, by simpa using h.symm⟩
          · exact hnext (fun hd => ih hd) h
        · exact hnext (fun hd => ih hd) h

theorem length_codeFlags (t : Text) (place : Place) : (codeFlags place t).length = t.length := by
  induction t generalizing place with
  | nil => rfl
  | cons c cs ih => cases place <;> simp only [codeFlags] <;> (repeat' split) <;> simp [ih]

theorem map_fst_marked (t : Text) (place : Place) :
    (t.zip (codeFlags place t)).map Prod.fst = t :=
  List.map_fst_zip (Nat.le_of_eq (length_codeFlags t place).symm)

/-- The parts of a call make up the front of the text, with the two parentheses between them. -/
theorem extent?_eq_some {t opening args : Text} (h : extent? t = some (opening, args)) :
    (∃ rest, t = opening ++ args ++ ')' :: rest) ∧ opening.getLast? = some '(' := by
  simp only [extent?, Option.bind_eq_bind, Option.bind_eq_some_iff, Option.pure_def,
    Option.some.injEq, Prod.mk.injEq] at h
  obtain ⟨n, hn, m, hm, rfl, rfl⟩ := h
  obtain ⟨before, after, hmarked, rfl⟩ := openingEnd?_eq_some hn
  have hafter : (t.zip (codeFlags .code t)).drop (before.length + 1) = after := by
    rw [hmarked, ← List.singleton_append, ← List.append_assoc, List.drop_left' (by simp)]
  rw [hafter] at hm
  obtain ⟨inside, rest, rfl, rfl⟩ := closingEnd?_eq_some hm
  have ht : t = before.map Prod.fst ++ '(' :: (inside.map Prod.fst ++ ')' :: rest.map Prod.fst) := by
    rw [← map_fst_marked t .code, hmarked]
    simp
  have hopening : t.take (before.length + 1) = before.map Prod.fst ++ ['('] := by
    rw [ht, List.append_cons, List.take_left' (by simp)]
  have hinside : (t.drop (before.length + 1)).take (inside.length + 1 - 1) =
      inside.map Prod.fst := by
    conv => lhs; rw [ht, List.append_cons, List.drop_left' (by simp)]
    rw [List.take_left' (by simp)]
  refine ⟨⟨rest.map Prod.fst, ?_⟩, by simp [hopening]⟩
  rw [hopening, hinside]
  conv => lhs; rw [ht]
  simp

theorem read?_eq_some {b : Buffer} {start : Position} {name : Text} {call : MixinCall}
    (h : read? b start name = some call) :
    ∃ opening, extent? (textFrom b start) = some (opening, call.arguments) ∧ call.name = name ∧
      call.start = start ∧ call.text = opening ++ call.arguments ++ [')'] ∧
      call.argumentsOffset = opening.width := by
  obtain ⟨⟨opening, args⟩, hextent, rfl⟩ := Option.map_eq_some_iff.1 h
  exact ⟨opening, hextent, rfl, rfl, rfl, rfl⟩

/-- The columns found are places at which the pattern stands. -/
theorem mem_columnsOf {pattern : Text} {column skip k : Nat} {t : Text}
    (h : k ∈ columnsOf pattern column skip t) :
    ∃ before after, t = before ++ after ∧ pattern.isPrefixOf after = true ∧
      k = column + before.length := by
  induction t generalizing column skip with
  | nil => simp [columnsOf] at h
  | cons c cs ih =>
      have hlater : ∀ {s}, k ∈ columnsOf pattern (column + 1) s cs →
          ∃ before after, c :: cs = before ++ after ∧ pattern.isPrefixOf after = true ∧
            k = column + before.length := by
        intro s hs
        obtain ⟨before, after, rfl, hafter, rfl⟩ := ih hs
        exact ⟨c :: before, after, rfl, hafter, by simp only [List.length_cons]; omega⟩
      cases skip with
      | succ n => exact hlater h
      | zero =>
          simp only [columnsOf] at h
          split at h
          · rename_i hprefix
            obtain rfl | h := List.mem_cons.1 h
            · exact ⟨[], c :: cs, rfl, hprefix, rfl⟩
            · exact hlater h
          · exact hlater h

theorem mem_candidates {line name : Text} {names : List Text} {column : Nat}
    (h : (column, name) ∈ candidates line names) :
    name ∈ names ∧ name ≠ [] ∧ column ∈ columnsOf (marker name) 0 0 line := by
  simp only [candidates, List.mem_mergeSort, List.mem_flatMap, List.mem_map, List.mem_filter,
    Prod.mk.injEq] at h
  obtain ⟨name, ⟨hname, hne⟩, column, hcolumn, rfl, rfl⟩ := h
  exact ⟨hname, by simpa using hne, hcolumn⟩

/-- A located call begins at a candidate of its line. -/
theorem locate?_eq_some {b : Buffer} {cursor : Position} {names : List Text} {call : MixinCall}
    (h : locate? b cursor names = some call) :
    ∃ i line column, b.line? i = some line ∧ (column, call.name) ∈ candidates line names ∧
      column ≤ line.length ∧ read? b ⟨i, column⟩ call.name = some call ∧
      call.encloses cursor = true := by
  obtain ⟨i, -, hi⟩ := List.exists_of_findSome?_eq_some h
  obtain ⟨line, hline, hfound⟩ := Option.bind_eq_some_iff.1 hi
  obtain ⟨⟨column, name⟩, hmem, hread⟩ := List.exists_of_findSome?_eq_some hfound
  obtain ⟨hread, henclosed⟩ := Option.filter_eq_some_iff.1 hread
  obtain ⟨before, after, rfl, -, rfl⟩ := mem_columnsOf (mem_candidates hmem).2.2
  obtain ⟨-, -, rfl, -⟩ := read?_eq_some hread
  exact ⟨i, _, _, hline, hmem, by simp, hread, henclosed⟩

/-- The document around a located call: what stands before it, its opening through the parenthesis,
its arguments, and the closing parenthesis with what follows. The arguments extend over the places
behind the first two and the first three of these. -/
theorem locate?_parts {b : Buffer} {cursor : Position} {names : List Text} {call : MixinCall}
    (h : locate? b cursor names = some call) :
    ∃ front opening inside after, b.text = front ++ opening ++ inside ++ ')' :: after ∧
      opening.getLast? = some '(' ∧ b.offsetOf call.start = .ok front.width ∧
      call.text = Buffer.dropReturns opening ++ call.arguments ++ [')'] ∧
      Buffer.dropReturns inside = call.arguments ∧
      call.argumentsExtent =
        (Position.behind (front ++ opening), Position.behind (front ++ opening ++ inside)) := by
  obtain ⟨i, line, column, hline, -, hcolumn, hread, -⟩ := locate?_eq_some h
  obtain ⟨opening, hextent, -, hstart, htext, hoffset⟩ := read?_eq_some hread
  obtain ⟨⟨rest, hrest⟩, hopening⟩ := extent?_eq_some hextent
  obtain ⟨front, doc, last, hdoc, -, hbehind, hoffsetOf, -, hreturns⟩ := textFrom_eq hline hcolumn
  rw [hrest, List.append_assoc, List.append_assoc] at hreturns
  obtain ⟨rawOpening, doc', rfl, hraw, hreturns, hlast⟩ := Buffer.dropReturns_eq_append hreturns
  obtain ⟨inside, doc'', rfl, hinside, hreturns, -⟩ := Buffer.dropReturns_eq_append hreturns
  obtain ⟨after, rfl⟩ := Buffer.dropReturns_eq_cons (by simpa using hreturns) (by decide)
  refine ⟨front, rawOpening, inside, after, by simp [hdoc], by rw [hlast, hopening], ?_, ?_, hinside,
    ?_⟩
  · rw [hstart, hoffsetOf]
  · rw [htext, hraw]
  · rw [argumentsExtent, hstart, ← hbehind, htext, hoffset, List.append_assoc,
      Text.takeBytes_width, Text.takeBytes_width_add, Text.takeBytes_width, ← hraw, ← hinside,
      Position.advance_append, Position.advance_dropReturns, Position.advance_dropReturns,
      Position.behind_append, Position.behind_append, Position.behind_append]

end MixinCall
end PugSize
