import PugSize.Edit.Slots
import PugSize.Mixin.Arguments
import PugSize.Proofs.Edit.Pieces
import PugSize.Proofs.Edit.Vacant
import PugSize.Proofs.Script.RowEdits

/-!
Sizes in positional arguments. What is written into the slots of a text is written into its rows: a
row is filled, or rows are added behind the last one. The rewritten text has the same file and both
slots, so writing once more acts on the slots alone.
-/

namespace PugSize

open Script

theorem isDigits_decimal (n : Nat) : IsDigits (decimal n) := by
  have hdigits : decimal n = Nat.toDigits 10 n := by
    rw [decimal, Nat.toString_eq_repr, Nat.toList_repr]
  rw [hdigits]
  exact ⟨Nat.toDigits_ne_nil, fun c hc => Nat.isDigit_of_mem_toDigits (by decide) (by decide) hc⟩

/-- A number is a value. -/
theorem isVacant_digits {t : Text} (h : IsDigits t) : isVacant t = false := not_vacant_of_number [] h

/-- What stands in a slot after a value was written into it. -/
def fillText (overwrite : Bool) (old new : Text) : Text :=
  if overwrite || isVacant old then new else old

theorem Text.slice_part {t a b c : Text} (h : t = a ++ b ++ c) :
    t.slice ⟨a.width, a.width + b.width⟩ = b := by
  rw [h, Text.slice_middle]

namespace Slots

section Texts

variable (size : Size) (overwrite : Bool)

theorem applyAll_insertion (front new back : Text) :
    Replacement.applyAll (front ++ back) [.insertion front.width new] = front ++ new ++ back := by
  have hpieces := @Replacement.applyAll_pieces front [⟨[], new, back⟩] [.insertion front.width new]
    (.refl _) (List.pairwise_singleton _ _)
  simpa [Piece.oldText, Piece.newText] using hpieces

theorem write_one (front back : Text) (start : Nat) :
    write (front ++ back) [⟨start, front.width⟩] size overwrite =
      front ++ (", ".toList ++ [quoteOf (front ++ back) ⟨start, front.width⟩,
        quoteOf (front ++ back) ⟨start, front.width⟩] ++ ", ".toList ++ decimal size.width ++
        ", ".toList ++ decimal size.height) ++ back :=
  applyAll_insertion _ _ _

theorem write_two (front back : Text) (file : Span) (start : Nat) :
    write (front ++ back) [file, ⟨start, front.width⟩] size overwrite =
      front ++ (", ".toList ++ decimal size.width ++ ", ".toList ++ decimal size.height) ++ back :=
  applyAll_insertion _ _ _

theorem write_three {front w back : Text} (file alt : Span) (hw : w ≠ []) :
    write (front ++ w ++ back) [file, alt, ⟨front.width, front.width + w.width⟩] size overwrite =
      front ++ fillText overwrite w (decimal size.width) ++ (", ".toList ++ decimal size.height) ++
        back := by
  have hpos := Text.width_pos hw
  simp only [write, replacements, fill, Text.slice_part rfl, fillText]
  split
  · have hpieces := @Replacement.applyAll_pieces front
      [⟨w, decimal size.width, []⟩, ⟨[], ", ".toList ++ decimal size.height, back⟩] _ (.refl _)
      (by simp [Piece.replacements, Replacement.Before, hpos])
    simpa [Piece.oldText, Piece.newText, Piece.replacements, Replacement.insertion, Span.empty]
      using hpieces
  · have hinsert := applyAll_insertion (front ++ w) (", ".toList ++ decimal size.height) back
    rw [Text.width_append] at hinsert
    exact hinsert

theorem write_four {front w between h back : Text} (file alt : Span) (more : List Span)
    (hw : w ≠ []) :
    write (front ++ w ++ between ++ h ++ back)
        (file :: alt :: ⟨front.width, front.width + w.width⟩ ::
          ⟨(front ++ w ++ between).width, (front ++ w ++ between).width + h.width⟩ :: more)
        size overwrite =
      front ++ fillText overwrite w (decimal size.width) ++ between ++
        fillText overwrite h (decimal size.height) ++ back := by
  have hpos := Text.width_pos hw
  have hslice : (front ++ w ++ between ++ h ++ back).slice ⟨front.width, front.width + w.width⟩ = w :=
    Text.slice_part (c := between ++ h ++ back) (by simp)
  have hslice' : (front ++ w ++ between ++ h ++ back).slice
      ⟨(front ++ w ++ between).width, (front ++ w ++ between).width + h.width⟩ = h :=
    Text.slice_part rfl
  simp only [write, replacements, fill, hslice, hslice', fillText]
  by_cases hfirst : (overwrite || isVacant w) = true
  · by_cases hsecond : (overwrite || isVacant h) = true
    · rw [if_pos hfirst, if_pos hsecond, if_pos hfirst, if_pos hsecond]
      have hpieces := @Replacement.applyAll_pieces front
        [⟨w, decimal size.width, between⟩, ⟨h, decimal size.height, back⟩] _ (.refl _)
        (by simp only [Piece.replacements, List.pairwise_cons, Replacement.Before]; simp; omega)
      simpa [Piece.oldText, Piece.newText, Piece.replacements, Nat.add_assoc] using hpieces
    · rw [if_pos hfirst, if_neg hsecond, if_pos hfirst, if_neg hsecond]
      have hpieces := @Replacement.applyAll_pieces front
        [⟨w, decimal size.width, between ++ h ++ back⟩] _ (.refl _) (List.pairwise_singleton _ _)
      simpa [Piece.oldText, Piece.newText, Piece.replacements] using hpieces
  · by_cases hsecond : (overwrite || isVacant h) = true
    · rw [if_neg hfirst, if_pos hsecond, if_neg hfirst, if_pos hsecond]
      have hpieces := @Replacement.applyAll_pieces (front ++ w ++ between)
        [⟨h, decimal size.height, back⟩] _ (.refl _) (List.pairwise_singleton _ _)
      simpa [Piece.oldText, Piece.newText, Piece.replacements] using hpieces
    · rw [if_neg hfirst, if_neg hsecond, if_neg hfirst, if_neg hsecond, List.append_nil,
        Replacement.applyAll, Replacement.descending, List.mergeSort_nil, List.foldl_nil]

end Texts

section Rows

def numberRow (value : Text) (trail : List Node) (h : Blank trail) : Row :=
  .ofNode (.number value) (solid_number value) trail h

def emptyRow (quote : Char) : Row :=
  .ofNode (.emptyString quote) (solid_singleton rfl rfl) [] blank_nil

/-- A row with a value written into it. -/
def fillRow (overwrite : Bool) (value : Text) (r : Row) : Row :=
  if overwrite || isVacant (textOf r.core) then r.withCore [.number value] (solid_number value) else r

def quoteOfRow (r : Row) : Char := if (textOf r.core).head? = some '\'' then '\'' else '"'

/-- Rows with a size written into the third and the fourth. -/
def fillRows (size : Size) (overwrite : Bool) : List Row → List Row
  | [] => []
  | [file] =>
    [file.withTrail [] blank_nil, emptyRow (quoteOfRow file), numberRow (decimal size.width) [] blank_nil,
      numberRow (decimal size.height) file.trail file.blank_trail]
  | [file, alt] =>
    [file, alt.withTrail [] blank_nil, numberRow (decimal size.width) [] blank_nil,
      numberRow (decimal size.height) alt.trail alt.blank_trail]
  | [file, alt, w] =>
    [file, alt, (fillRow overwrite (decimal size.width) w).withTrail [] blank_nil,
      numberRow (decimal size.height) w.trail w.blank_trail]
  | file :: alt :: w :: h :: more =>
    file :: alt :: fillRow overwrite (decimal size.width) w ::
      fillRow overwrite (decimal size.height) h :: more

@[simp] theorem fillRow_lead (overwrite : Bool) (value : Text) (r : Row) :
    (fillRow overwrite value r).lead = r.lead := by
  unfold fillRow
  split <;> rfl

@[simp] theorem fillRow_trail (overwrite : Bool) (value : Text) (r : Row) :
    (fillRow overwrite value r).trail = r.trail := by
  unfold fillRow
  split <;> rfl

@[simp] theorem textOf_fillRow (overwrite : Bool) (value : Text) (r : Row) :
    textOf (fillRow overwrite value r).core = fillText overwrite (textOf r.core) value := by
  unfold fillRow fillText
  split
  · rw [Row.withCore_core, textOf_number]
  · rfl

theorem core_ne_nil {rows : List Row} {r : Row} {rest : List (List Node)} {after : Text}
    (h : Legible (lexemesOf (rowNodes rows rest)) after) (hr : r ∈ rows) : textOf r.core ≠ [] := by
  obtain ⟨as, bs, rfl⟩ := List.append_of_mem hr
  rw [rowNodes_core, lexemesOf_append, lexemesOf_append _ r.core] at h
  exact textOf_ne_nil (legible_append.1 (legible_append.1 h).1).2 r.solid.ne_nil

variable {size : Size} {overwrite : Bool}

theorem textOf_rowNodes (as : List Row) (r : Row) (bs : List Row) (rest : List (List Node)) :
    textOf (rowNodes (as ++ r :: bs) rest) =
      textOf (rowsBefore as ++ r.lead) ++ textOf r.core ++ textOf (r.trail ++ rowsBehind bs rest) := by
  rw [rowNodes_core, textOf_append, textOf_append]

/-- The offset at which the core of a row ends. -/
theorem span_eq (as : List Row) (r : Row) :
    r.span (widthOf (rowsBefore as)) =
      ⟨Text.width (textOf (rowsBefore as ++ r.lead)),
        Text.width (textOf (rowsBefore as ++ r.lead)) + Text.width (textOf r.core)⟩ := by
  rw [Row.span, textOf_append, Text.width_append]
  rfl

theorem rowSpans_cons (as : List Row) (r : Row) (bs : List Row) :
    rowSpans (widthOf (rowsBefore as)) (r :: bs) =
      r.span (widthOf (rowsBefore as)) :: rowSpans (widthOf (rowsBefore (as ++ [r]))) bs := by
  have hwidth : widthOf (rowsBefore as) + r.width + 1 = widthOf (rowsBefore (as ++ [r])) := by
    simp only [rowsBefore, List.flatMap_append, List.flatMap_cons, List.flatMap_nil, List.append_nil,
      widthOf_append, widthOf_comma, Row.width]
    omega
  rw [rowSpans, hwidth]

/-- Writing into the slots of a text is writing into its rows. -/
theorem write_rows {t : Text} {rows : List Row} {rest : List (List Node)} {after : Text}
    (h : Layout t rows rest after) :
    write t (rowSpans 0 rows) size overwrite ++ [')'] =
      textOf (rowNodes (fillRows size overwrite rows) rest) ++ after := by
  obtain ⟨tail, ht, rfl⟩ := h.exists_tail
  rw [← List.append_assoc, List.append_cancel_right_eq]
  have hne : ∀ r ∈ rows, textOf r.core ≠ [] := fun r hr => core_ne_nil h.legible hr
  have hzero : rowSpans 0 rows = rowSpans (widthOf (rowsBefore [])) rows := rfl
  rw [hzero]
  clear h hzero
  match rows, ht, hne with
  | [], ht, hne =>
      rw [ht, rowSpans, write, replacements, Replacement.applyAll, Replacement.descending,
        List.mergeSort_nil]
      rfl
  | [file], ht, hne =>
      rw [rowSpans_cons, span_eq, ← Text.width_append, rowSpans]
      have hsplit := textOf_rowNodes [] file [] rest
      rw [List.nil_append] at hsplit
      rw [hsplit] at ht
      have hslice : t.slice ⟨Text.width (textOf (rowsBefore [] ++ file.lead)),
          Text.width (textOf (rowsBefore [] ++ file.lead) ++ textOf file.core)⟩ =
            textOf file.core := by
        rw [Text.width_append]
        exact Text.slice_part (by rw [ht, List.append_assoc])
      have hquote : quoteOf t ⟨Text.width (textOf (rowsBefore [] ++ file.lead)),
          Text.width (textOf (rowsBefore [] ++ file.lead) ++ textOf file.core)⟩ =
            quoteOfRow file := by
        rw [quoteOf, quoteOfRow, hslice]
      rw [List.append_assoc] at ht
      subst ht
      rw [write_one, hquote]
      simp [fillRows, rowNodes, commas, Row.nodes, emptyRow, numberRow, Row.ofNode, rowsBehind,
        rowsBefore]
  | [file, alt], ht, hne =>
      rw [rowSpans_cons, rowSpans_cons, List.nil_append, span_eq [file] alt, ← Text.width_append,
        rowSpans]
      have hsplit := textOf_rowNodes [file] alt [] rest
      rw [List.singleton_append] at hsplit
      rw [hsplit, List.append_assoc] at ht
      subst ht
      rw [write_two]
      simp [fillRows, rowNodes, commas, Row.nodes, numberRow, Row.ofNode, rowsBehind, rowsBefore]
  | [file, alt, w], ht, hne =>
      rw [rowSpans_cons, rowSpans_cons, rowSpans_cons, List.nil_append, List.singleton_append,
        span_eq [file, alt] w, rowSpans]
      have hsplit := textOf_rowNodes [file, alt] w [] rest
      rw [List.cons_append, List.singleton_append] at hsplit
      rw [hsplit, List.append_assoc] at ht
      subst ht
      rw [write_three _ _ _ _ (hne w (by simp))]
      simp [fillRows, rowNodes, commas, Row.nodes, numberRow, Row.ofNode, rowsBehind, rowsBefore]
  | file :: alt :: w :: h :: more, ht, hne =>
      rw [rowSpans_cons, rowSpans_cons, rowSpans_cons, rowSpans_cons, List.nil_append,
        List.singleton_append, List.cons_append, List.cons_append, List.nil_append,
        span_eq [file, alt] w, span_eq [file, alt, w] h]
      have hbetween : textOf (rowsBefore [file, alt, w] ++ h.lead) =
          textOf (rowsBefore [file, alt] ++ w.lead) ++ textOf w.core ++
            textOf (w.trail ++ .comma :: h.lead) := by
        simp [rowsBefore, Row.nodes]
      have hsplit := textOf_rowNodes [file, alt, w] h more rest
      rw [List.cons_append, List.cons_append, List.singleton_append, hbetween] at hsplit
      rw [hsplit, List.append_assoc] at ht
      subst ht
      rw [hbetween, write_four _ _ _ _ _ (hne w (by simp))]
      simp [fillRows, rowNodes, commas, Row.nodes, rowsBehind, rowsBefore]

theorem legible_fillRow {as : List Row} {r : Row} {bs : List Row} {rest : List (List Node)}
    {after value : Text} (hvalue : IsDigits value) (hafter : Apart after)
    (h : Legible (lexemesOf (rowNodes (as ++ r :: bs) rest)) after) :
    Legible (lexemesOf (rowNodes (as ++ fillRow overwrite value r :: bs) rest)) after := by
  unfold fillRow
  split
  · exact legible_number hvalue hafter h
  · exact h

theorem legible_fillRows {rows : List Row} {rest : List (List Node)} {after : Text}
    (hafter : Apart after) (h : Legible (lexemesOf (rowNodes rows rest)) after) :
    Legible (lexemesOf (rowNodes (fillRows size overwrite rows) rest)) after := by
  have hwidth := isDigits_decimal size.width
  have hheight := isDigits_decimal size.height
  match rows, h with
  | [], h => exact h
  | [file], h =>
      have hquote : quoteOfRow file = '"' ∨ quoteOfRow file = '\'' := by
        unfold quoteOfRow
        split
        · exact .inr rfl
        · exact .inl rfl
      have hadded := @legible_rows_added [] file rest after
        [.emptyString (quoteOfRow file), .number (decimal size.width), .number (decimal size.height)]
        (by simp [fresh_emptyString hquote, fresh_number hwidth, fresh_number hheight])
        (List.cons_ne_nil _ _) hafter h
      simpa [fillRows, rowNodes, commas, Row.nodes, emptyRow, numberRow, Row.ofNode, rowsBehind,
        rowsBefore, added] using hadded
  | [file, alt], h =>
      have hadded := @legible_rows_added [file] alt rest after
        [.number (decimal size.width), .number (decimal size.height)]
        (by simp [fresh_number hwidth, fresh_number hheight]) (List.cons_ne_nil _ _) hafter h
      simpa [fillRows, rowNodes, commas, Row.nodes, numberRow, Row.ofNode, rowsBehind, rowsBefore,
        added] using hadded
  | [file, alt, w], h =>
      have hfilled := @legible_fillRow overwrite [file, alt] w [] rest after _ hwidth hafter h
      have hadded := @legible_rows_added [file, alt] (fillRow overwrite (decimal size.width) w) rest
        after [.number (decimal size.height)] (by simp [fresh_number hheight])
        (List.cons_ne_nil _ _) hafter hfilled
      simpa [fillRows, rowNodes, commas, Row.nodes, numberRow, Row.ofNode, rowsBehind, rowsBefore,
        added] using hadded
  | file :: alt :: w :: h :: more, hlegible =>
      have hfirst := @legible_fillRow overwrite [file, alt] w (h :: more) rest after _ hwidth hafter
        hlegible
      exact @legible_fillRow overwrite [file, alt, fillRow overwrite (decimal size.width) w] h more
        rest after _ hheight hafter hfirst

/-- A text stays laid out in rows when a size is written into its slots. -/
theorem layout_fillRows {t : Text} {rows : List Row} {rest : List (List Node)} {after : Text}
    (h : Layout t rows rest after) :
    Layout (write t (rowSpans 0 rows) size overwrite) (fillRows size overwrite rows) rest after :=
  ⟨write_rows h, h.tail, h.ending, legible_fillRows h.ending.apart h.legible⟩

theorem reads_leaf {r : Row} {l : Lexeme} {plain : l.isPlain = true} {kind : TokenKind}
    (hkind : l.kind = .token kind) (hcore : r.core = [.leaf l plain]) :
    r.Reads (segmentExpr? false) := by
  rw [Row.Reads, Row.trees, hcore, placeRow, placeRow, Node.tree?, hkind]
  rfl

theorem reads_fillRow {value : Text} {r : Row} (h : r.Reads (segmentExpr? false)) :
    (fillRow overwrite value r).Reads (segmentExpr? false) := by
  unfold fillRow
  split
  · exact reads_leaf rfl rfl
  · exact h

theorem reads_numberRow (value : Text) (trail : List Node) (h : Blank trail) :
    (numberRow value trail h).Reads (segmentExpr? false) :=
  reads_leaf rfl rfl

theorem reads_emptyRow (quote : Char) : (emptyRow quote).Reads (segmentExpr? false) :=
  reads_leaf rfl rfl

theorem reads_fillRows {rows : List Row} (h : ∀ r ∈ rows, r.Reads (segmentExpr? false)) :
    ∀ r ∈ fillRows size overwrite rows, r.Reads (segmentExpr? false) := by
  match rows, h with
  | [], h => exact h
  | [file], h =>
      simp only [fillRows, List.forall_mem_cons, List.not_mem_nil, false_implies, implies_true,
        and_true] at h ⊢
      exact ⟨h, reads_emptyRow _, reads_numberRow _ _ _, reads_numberRow _ _ _⟩
  | [file, alt], h =>
      simp only [fillRows, List.forall_mem_cons, List.not_mem_nil, false_implies, implies_true,
        and_true] at h ⊢
      exact ⟨h.1, h.2, reads_numberRow _ _ _, reads_numberRow _ _ _⟩
  | [file, alt, w], h =>
      simp only [fillRows, List.forall_mem_cons, List.not_mem_nil, false_implies, implies_true,
        and_true] at h ⊢
      exact ⟨h.1, h.2.1, reads_fillRow h.2.2, reads_numberRow _ _ _⟩
  | file :: alt :: w :: h :: more, hreads =>
      simp only [fillRows, List.forall_mem_cons] at hreads ⊢
      exact ⟨hreads.1, hreads.2.1, reads_fillRow hreads.2.2.1, reads_fillRow hreads.2.2.2.1,
        hreads.2.2.2.2⟩

/-- The file is read as before. -/
theorem fillRows_cons (file : Row) (rows : List Row) : ∃ file' rows',
    fillRows size overwrite (file :: rows) = file' :: rows' ∧ file'.trees 0 = file.trees 0 := by
  match rows with
  | [] => exact ⟨_, _, rfl, rfl⟩
  | [alt] => exact ⟨_, _, rfl, rfl⟩
  | [alt, w] => exact ⟨_, _, rfl, rfl⟩
  | alt :: w :: h :: more => exact ⟨_, _, rfl, rfl⟩

theorem fillRow_number {r : Row} {value new : Text} (h : IsDigits value)
    (hcore : r.core = [.number value]) : fillRow false new r = r := by
  rw [fillRow, hcore, textOf_number, isVacant_digits h]
  rfl

theorem fillRow_true (new : Text) (r : Row) :
    fillRow true new r = r.withCore [.number new] (solid_number new) := rfl

theorem fillRow_withTrail (value : Text) (r : Row) (trail : List Node) (h : Blank trail) :
    (fillRow overwrite value r).withTrail trail h = fillRow overwrite value (r.withTrail trail h) := by
  unfold fillRow
  rw [Row.withTrail_core]
  split <;> rfl

theorem fillRow_fillRow_true (value new : Text) (r : Row) :
    fillRow true new (fillRow overwrite value r) = fillRow true new r := by
  rw [fillRow_true, fillRow_true]
  unfold fillRow
  split <;> rfl

/-- A slot that was written into holds a value, or one that is kept. -/
theorem fillRow_fillRow_false {value : Text} (h : IsDigits value) (new : Text) (r : Row) :
    fillRow false new (fillRow overwrite value r) = fillRow overwrite value r := by
  by_cases hfill : (overwrite || isVacant (textOf r.core)) = true
  · have hrow : fillRow overwrite value r = r.withCore [.number value] (solid_number value) :=
      if_pos hfill
    rw [hrow]
    exact fillRow_number h rfl
  · have hrow : fillRow overwrite value r = r := if_neg hfill
    rw [hrow]
    simp only [Bool.or_eq_true, not_or] at hfill
    exact if_neg (by simpa using hfill.2)

variable (again : Size)

theorem fillRows_fillRows_true (rows : List Row) :
    fillRows again true (fillRows size overwrite rows) = fillRows again true rows := by
  match rows with
  | [] => rfl
  | [file] => rfl
  | [file, alt] => rfl
  | [file, alt, w] =>
      simp only [fillRows, fillRow_withTrail, fillRow_fillRow_true]
      rfl
  | file :: alt :: w :: h :: more =>
      rw [fillRows, fillRows, fillRow_fillRow_true, fillRow_fillRow_true, fillRows]

theorem fillRows_fillRows_false (rows : List Row) :
    fillRows again false (fillRows size overwrite rows) = fillRows size overwrite rows := by
  have hwidth := isDigits_decimal size.width
  have hheight := isDigits_decimal size.height
  have hnumber (value new : Text) (trail : List Node) (h : Blank trail) (hvalue : IsDigits value) :
      fillRow false new (numberRow value trail h) = numberRow value trail h :=
    fillRow_number hvalue rfl
  match rows with
  | [] => rfl
  | [file] => rw [fillRows, fillRows, hnumber _ _ _ _ hwidth, hnumber _ _ _ _ hheight]
  | [file, alt] => rw [fillRows, fillRows, hnumber _ _ _ _ hwidth, hnumber _ _ _ _ hheight]
  | [file, alt, w] =>
      rw [fillRows, fillRows, hnumber _ _ _ _ hheight, fillRow_withTrail,
        fillRow_fillRow_false hwidth]
  | file :: alt :: w :: h :: more =>
      rw [fillRows, fillRows, fillRow_fillRow_false hwidth, fillRow_fillRow_false hheight]

end Rows

end Slots

/-- A text is read by position if and only if it is laid out in rows that can be read and the first
of them is a string. -/
theorem PositionalArguments.read_eq_ok {t : Text} {found : PositionalArguments} :
    PositionalArguments.read t = .ok found ↔ ∃ file rows rest after e,
      Layout t (file :: rows) rest after ∧ (∀ r ∈ file :: rows, r.Reads (segmentExpr? false)) ∧
      segmentExpr? false (file.trees 0) = some e ∧ e.str? = some found.file ∧
      found.spans = rowSpans 0 (file :: rows) := by
  have hspan : ∀ t rest e, segmentExpr? false (t :: rest) = some e →
      e.span = ⟨t.span.start, t.lastStop rest⟩ := fun _ _ _ => segmentExpr?_span
  constructor
  · intro h
    unfold PositionalArguments.read readArguments at h
    split at h
    · rename_i args hargs
      obtain ⟨rows, rest, after, hlayout, hrows⟩ := arguments?_eq_some.1 hargs
      have hreads := (readRows_isSome (isSome_segmentExpr?_shift false) 0 rows).1 ⟨_, hrows⟩
      have hspans := readRows_spans hspan hrows
      cases rows with
      | nil =>
          cases hrows
          cases h
      | cons file rows =>
          obtain ⟨e, he, hlater⟩ := Option.bind_eq_some_iff.1 hrows
          obtain ⟨es, -, rfl⟩ := Option.map_eq_some_iff.1 hlater
          simp only [bind, Except.bind] at h
          split at h
          · rename_i path hpath
            cases h
            exact ⟨file, rows, rest, after, e, hlayout, hreads, he, hpath, hspans⟩
          · cases h
    · cases h
  · rintro ⟨file, rows, rest, after, e, hlayout, hreads, he, hpath, hspans⟩
    obtain ⟨args, hrows⟩ := (readRows_isSome (isSome_segmentExpr?_shift false) 0 _).2 hreads
    have hargs := arguments?_eq_some.2 ⟨_, rest, after, hlayout, hrows⟩
    have hspans' := readRows_spans hspan hrows
    rw [readRows, he, Option.bind_some] at hrows
    obtain ⟨es, -, rfl⟩ := Option.map_eq_some_iff.1 hrows
    rw [← hspans] at hspans'
    simp only [PositionalArguments.read, readArguments, hargs, bind, Except.bind, hpath]
    rw [hspans']

/-- Writing once more reads the same file, and finds in the slots what was written or kept. -/
theorem Slots.write_again {t : Text} {found : PositionalArguments}
    (h : PositionalArguments.read t = .ok found) (size : Size) (overwrite : Bool) :
    ∃ spans,
      PositionalArguments.read (write t found.spans size overwrite) = .ok ⟨found.file, spans⟩ ∧
      (∀ again, write (write t found.spans size overwrite) spans again true =
        write t found.spans again true) ∧
      ∀ again, write (write t found.spans size overwrite) spans again false =
        write t found.spans size overwrite := by
  obtain ⟨file, rows, rest, after, e, hlayout, hreads, he, hpath, hspans⟩ :=
    PositionalArguments.read_eq_ok.1 h
  rw [hspans]
  have hrewritten := @layout_fillRows size overwrite t _ rest after hlayout
  refine ⟨rowSpans 0 (fillRows size overwrite (file :: rows)), ?_, ?_, ?_⟩
  · obtain ⟨file', rows', hcons, htrees⟩ := @fillRows_cons size overwrite file rows
    have hreads' := @reads_fillRows size overwrite _ hreads
    rw [hcons] at hrewritten hreads' ⊢
    rw [← htrees] at he
    exact PositionalArguments.read_eq_ok.2 ⟨file', rows', rest, after, e, hrewritten, hreads', he, hpath, rfl⟩
  · intro again
    have hagain := @write_rows again true _ _ rest after hrewritten
    have honce := @write_rows again true _ _ rest after hlayout
    rw [fillRows_fillRows_true, ← honce] at hagain
    exact List.append_cancel_right hagain
  · intro again
    have hagain := @write_rows again false _ _ rest after hrewritten
    rw [fillRows_fillRows_false, ← write_rows hlayout] at hagain
    exact List.append_cancel_right hagain

end PugSize
