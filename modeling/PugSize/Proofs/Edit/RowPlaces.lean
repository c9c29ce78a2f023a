import PugSize.Proofs.Edit.ValueText

/-!
Where the rows of an object stand in its text, and where their values are found. Rows do not overlap, so a
value that is found in a property is that of its row.
-/

namespace PugSize

open Script CharClass

namespace ObjectText

/-- The place of a row in the text of an object, behind the brace and the rows before it. -/
def placeBehind (as : List Row) : Nat := 1 + widthOf (rowsBefore as)

theorem property_span {as : List Row} {r : Row} {bs : List Row} {props : List (Property Expr)}
    (hread : readRows property? 1 (as ++ r :: bs) = some props) {p : Property Expr}
    (hp : props[as.length]? = some p) : p.span = r.span (placeBehind as) := by
  obtain ⟨q, hq, hproperty⟩ := readRows_split hread
  rw [hp, Option.some.injEq] at hq
  subst hq
  obtain ⟨tree, trees, htrees, hspan⟩ := r.trees_eq (placeBehind as)
  rw [placeBehind] at htrees hspan
  rw [htrees] at hproperty
  rw [property?_span hproperty, hspan, placeBehind]

/-- A row ends before every row behind it. -/
theorem span_before {as bs cs ds : List Row} {r s : Row} (h : as ++ r :: bs = cs ++ s :: ds)
    (hlt : as.length < cs.length) :
    (r.span (placeBehind as)).stop < (s.span (placeBehind cs)).start := by
  obtain ⟨mid, rfl, hmid⟩ | ⟨mid, rfl, -⟩ := List.append_eq_append_iff.1 h
  · have hne : mid ≠ [] := by
      rintro rfl
      simp at hlt
    obtain ⟨m, mid, rfl⟩ := List.exists_cons_of_ne_nil hne
    obtain rfl : r = m := (List.cons.inj hmid).1
    simp only [Row.span, placeBehind, rowsBefore, List.flatMap_append, List.flatMap_cons, widthOf_append,
      Row.nodes, widthOf_comma]
    omega
  · rw [List.length_append] at hlt
    omega

theorem width_frontOf (as : List Row) (r : Row) (part : List Node) :
    (frontOf as r part).width = (r.span (placeBehind as)).start + widthOf part := by
  have hbrace : '{'.utf8Size = 1 := rfl
  rw [frontOf, Text.width_cons, ← widthOf, widthOf_append, widthOf_append, Row.span, placeBehind, hbrace,
    ← Nat.add_assoc, ← Nat.add_assoc]

/-- The value of a row that is written with a key stands behind the colon. -/
theorem value_span {key : Text} (hkey : IsKey key) {as : List Row} {r : Row} {bs : List Row}
    {part blank solid : List Node} (hkeyed : Keyed key r.core part (blank ++ solid)) (hblank : Blank blank)
    (hsolid : Solid solid) {props : List (Property Expr)}
    (hread : readRows property? 1 (as ++ r :: bs) = some props) {p : Property Expr}
    (hp : props[as.length]? = some p) :
    p.value.span = ⟨(frontOf as r part).width + widthOf blank,
      (frontOf as r part).width + widthOf blank + widthOf solid⟩ := by
  obtain ⟨q, hq, hproperty⟩ := readRows_split hread
  rw [hp, Option.some.injEq] at hq
  subst hq
  obtain ⟨span, hspan⟩ := property?_keyPart hkey.label hkeyed.part (blank ++ solid) (r.span (placeBehind as)).start
  rw [Row.trees, hkeyed.core] at hproperty
  rw [Row.span, placeBehind, hproperty] at hspan
  obtain ⟨v, hv, rfl⟩ := Option.map_eq_some_iff.1 hspan.symm
  rw [placeRow_append, placeRow_blank hblank, List.nil_append] at hv
  obtain ⟨t, ts, htrees, hstart, hstop⟩ := hsolid.placeRow_eq
    (1 + widthOf (rowsBefore as) + widthOf r.lead + widthOf part + widthOf blank)
  rw [htrees] at hv
  rw [segmentExpr?_span hv, hstart, hstop, width_frontOf, Row.span, placeBehind]

namespace ObjectLayout

variable {t : Text} {rest : List (List Node)} {key : Text}

section

variable {as : List Row} {r : Row} {bs : List Row} (h : ObjectLayout t (as ++ r :: bs) rest)
  {props : List (Property Expr)} (hread : readRows property? 1 (as ++ r :: bs) = some props) {p : Property Expr}
  (hp : props[as.length]? = some p)

include h hread hp

/-- The text of an object up to a property. -/
theorem takeBytes_property : t.takeBytes p.span.start = '{' :: textOf (rowsBefore as) ++ textOf r.lead := by
  have hstart : p.span.start = Text.width ('{' :: textOf (rowsBefore as) ++ textOf r.lead) := by
    rw [property_span hread hp, Row.span, placeBehind, Text.width_append, Text.width_cons, widthOf, widthOf]
    rfl
  have htext : t = ('{' :: textOf (rowsBefore as) ++ textOf r.lead) ++
      (textOf (r.core ++ (r.trail ++ rowsBehind bs rest)) ++ ['}']) := by
    rw [h.text, rowNodes_append, Row.nodes, braced]
    simp
  rw [hstart, htext, Text.takeBytes_width]

/-- The text of an object cut at both ends of a value. -/
theorem value_cut (hkey : IsKey key) {part blank solid : List Node}
    (hkeyed : Keyed key r.core part (blank ++ solid)) (hblank : Blank blank) (hsolid : Solid solid) :
    t.takeBytes p.value.span.start = frontOf as r part ++ textOf blank ∧ t.slice p.value.span = textOf solid ∧
      t.dropBytes p.value.span.stop = textOf r.trail ++ (textOf (rowsBehind bs rest) ++ ['}']) := by
  have htext : t = frontOf as r part ++ textOf blank ++ textOf solid ++
      (textOf r.trail ++ (textOf (rowsBehind bs rest) ++ ['}'])) := by
    rw [h.text, rowNodes_append, Row.nodes, hkeyed.core, braced, frontOf]
    simp
  have hspan : p.value.span = ⟨Text.width (frontOf as r part ++ textOf blank),
      Text.width (frontOf as r part ++ textOf blank) + Text.width (textOf solid)⟩ := by
    rw [value_span hkey hkeyed hblank hsolid hread hp, Text.width_append, ← widthOf, ← widthOf]
  rw [hspan, htext]
  refine ⟨?_, Text.slice_middle _ _ _, ?_⟩
  · rw [List.append_assoc _ (textOf solid), Text.takeBytes_width]
  · rw [← Text.width_append, Text.dropBytes_width]

end

variable (hkey : IsKey key)

include hkey

/-- The value that is found for a key begins inside the last property that is written with it. -/
theorem found_inside {as : List Row} {r : Row} {bs : List Row} (h : ObjectLayout t (as ++ r :: bs) rest)
    {part value : List Node} (hwrites : Writes key r part value)
    (hnone : ∀ b ∈ bs, ∀ part value, ¬ Writes key b part value) :
    ∃ span, valueSpan? t key = some span ∧
      span = ⟨(frontOf as r part).width,
        (frontOf as r part).width + (Text.trimEnd (passed (value ++ r.trail))).width⟩ ∧
      t.slice span = Text.trimEnd (passed (value ++ r.trail)) ∧
      (r.span (placeBehind as)).start ≤ span.start ∧ span.start < (r.span (placeBehind as)).stop := by
  obtain ⟨span, hspan, heq, hslice⟩ := valueSpan?_passed hwrites hkey.label h.tail
    (h.unseen_behind hkey.bare hnone) h.legible
  rw [← h.text] at hspan hslice
  refine ⟨span, hspan, heq, hslice, ?_⟩
  have hwidth : 0 < widthOf value := by
    obtain ⟨after, hlegible⟩ := hwrites.legible h.legible
    rw [lexemesOf_append] at hlegible
    obtain ⟨n, hn, -⟩ := hwrites.value
    exact Text.width_pos (textOf_ne_nil (legible_append.1 hlegible).1 (by rintro rfl; cases hn))
  have hcore : widthOf r.core = widthOf part + widthOf value := by rw [hwrites.core, widthOf_append]
  rw [heq, width_frontOf, Row.span]
  dsimp only
  omega

/-- A value that is found inside a property is that of its row, and no later row is written with the key. -/
theorem row_of_found {rows : List Row} (h : ObjectLayout t rows rest) {props : List (Property Expr)}
    (hread : readRows property? 1 rows = some props) {i : Nat} {p : Property Expr} (hp : props[i]? = some p)
    {span : Span} (hspan : valueSpan? t key = some span) (hstart : p.span.start ≤ span.start)
    (hstop : span.start < p.span.stop) :
    ∃ as r bs part value, rows = as ++ r :: bs ∧ as.length = i ∧ Writes key r part value ∧
      ∀ b ∈ bs, ∀ part value, ¬ Writes key b part value := by
  obtain hnone | ⟨as, r, bs, part, value, rfl, hwrites, hnone⟩ := last_writes key rows
  · rw [h.valueSpan?_unwritten hkey.bare hnone] at hspan
    cases hspan
  · refine ⟨as, r, bs, part, value, rfl, ?_, hwrites, hnone⟩
    obtain ⟨span', hspan', -, -, hstart', hstop'⟩ := h.found_inside hkey hwrites hnone
    obtain rfl : span = span' := Option.some.inj (hspan.symm.trans hspan')
    obtain ⟨cs, s, ds, hsplit, rfl⟩ : ∃ cs s ds, as ++ r :: bs = cs ++ s :: ds ∧ cs.length = i := by
      have hi : i < (as ++ r :: bs).length := by
        rw [← length_readRows hread]
        exact (List.getElem?_eq_some_iff.1 hp).1
      obtain ⟨cs, ds, hsplit, hlength⟩ := exists_split (List.getElem?_eq_getElem hi)
      exact ⟨cs, _, ds, hsplit, hlength⟩
    rw [hsplit] at hread
    rw [property_span hread hp] at hstart hstop
    obtain hlt | heq | hgt := Nat.lt_trichotomy as.length cs.length
    · have := span_before hsplit hlt
      omega
    · exact heq
    · have := span_before hsplit.symm hgt
      omega

end ObjectLayout

end ObjectText

end PugSize
