import PugSize.Proofs.LineDiff.Rendered
import PugSize.Proofs.Mixin.Extent

/-!
What can be seen of a change. The rendering of two texts has a line marked as removed or added if and
only if the texts differ in more than their line ends. Texts that differ in their line ends alone have
the same lines, and their rendering is empty.
-/

namespace PugSize.LineDiff

/-- What a line of a rendering begins with behind a code for a color. -/
def lineMark? : Text → Option Char
  | '\x1b' :: cs => ((cs.dropWhile (· ≠ 'm')).drop 1).head?
  | cs => cs.head?

/-- Whether a line of a rendering is marked as removed or added. -/
def isMarked (line : Text) : Bool := lineMark? line ∈ [some '-', some '+']

/-- Whether some line of a rendering is marked. -/
def showsChange (rendered : String) : Bool := (Text.splitLines rendered.toList).any isMarked

/-- A text with line feeds for line ends, and with one behind the last line. -/
def evened (t : Text) : Text :=
  if (Buffer.dropReturns t).getLast?.getD '\n' = '\n' then Buffer.dropReturns t
  else Buffer.dropReturns t ++ ['\n']

theorem lineMark?_renderLine (color : Bool) (l : HunkLine Text) :
    lineMark? (renderLine color l).toList = (mark l.change).toList.head? := by
  obtain ⟨c, hc, -, htext⟩ := toList_renderLine l
  have hmark : (mark l.change).toList.head? = some c ∧ c ≠ '\x1b' := by
    unfold Change.ofMark? at hc
    split at hc
    · rw [← Option.some.inj hc]
      decide
    · rw [← Option.some.inj hc]
      decide
    · rw [← Option.some.inj hc]
      decide
    · cases hc
  rw [hmark.1]
  obtain heq | ⟨code, hcode, heq⟩ := renderLine_color color l
  · rw [heq, htext, lineMark?]
    · rfl
    · rintro cs ⟨⟩
      exact hmark.2 rfl
  · have hcodes : ∀ code ∈ ["31", "32"], ('[' :: code.toList).all (· ≠ 'm') = true := by decide
    rw [heq, toList_inColor, lineMark?, ← List.cons_append,
      List.dropWhile_append_of_pos (List.all_eq_true.1 (hcodes code hcode)),
      List.dropWhile_cons_of_neg (by decide), htext]
    rfl

theorem isMarked_renderLine (color : Bool) (l : HunkLine Text) :
    isMarked (renderLine color l).toList = true ↔ l.change ≠ .keep := by
  rw [isMarked, lineMark?_renderLine]
  cases l.change <;> decide

section

variable {α : Type} [BEq α] [LawfulBEq α]

theorem prefixLength_self (as : List α) : prefixLength as as = as.length := by
  induction as with
  | nil => rfl
  | cons a as ih => rw [prefixLength, if_pos (beq_self_eq_true a), ih, List.length_cons]

theorem search_self (as : List α) : search as as = runOf .keep as := by
  rw [search]
  simp [prefixLength_self, runOf]

omit [LawfulBEq α] in
theorem compact_keep (as : List α) : compact (runOf .keep as) = runOf .keep as := by
  cases as with
  | nil => rfl
  | cons a as => rfl

/-- Between equal lists there is nothing to show. -/
theorem hunks_self (as : List α) : hunks as as = [] := by
  rw [hunks, search_self, compact_keep]
  cases as with
  | nil => rfl
  | cons a as =>
      have hblocks : blocks 0 0 Pending.none (joinKept (runOf .keep (a :: as))) =
          [.same (number .keep 0 (a :: as))] := rfl
      simp only [hblocks, trimFirst, trimLast]
      rw [group, if_neg]
      · rfl
      · rw [List.length_take]
        have : contextSize ≤ 2 * contextSize := by decide
        omega

end

theorem render_of_same_lines (color : Bool) {old new : Text} (h : textLines old = textLines new)
    (hne : old ≠ new) : render color old new = "" := by
  rw [render, if_neg hne, h, hunks_self]
  rfl

theorem showsChange_of_lines (color : Bool) (old new : Text) :
    showsChange (render color old new) = true ↔ textLines old ≠ textLines new := by
  by_cases h : textLines old = textLines new
  · refine iff_of_false ?_ (not_not.2 h)
    by_cases hne : old = new
    · rw [render, if_pos hne]
      decide
    · rw [render_of_same_lines color h hne]
      decide
  · refine iff_of_true ?_ h
    obtain ⟨l, hl, hchange⟩ := (soundScript_hunks h).exists_change h
    rw [showsChange, splitLines_render color h, List.any_eq_true]
    have hmem : renderLine color l ∈ renderHunks color (hunks (textLines old) (textLines new)) := by
      refine (List.mem_filter (p := (· ≠ "..."))).1 ?_ |>.1
      rw [renderHunks_lines]
      exact List.mem_map_of_mem hl
    exact ⟨_, List.mem_map_of_mem hmem, (isMarked_renderLine color l).2 hchange⟩

theorem textLines_line {l : Text} (hl : '\n' ∉ l) (rest : Text) :
    textLines (l ++ '\n' :: rest) = Text.stripReturn l :: textLines rest := by
  obtain ⟨init, last, hrest⟩ := (List.eq_nil_or_concat _).resolve_left (Text.splitLines_ne_nil rest)
  rw [List.concat_eq_append] at hrest
  have hsplit : Text.splitLines (l ++ '\n' :: rest) = (l :: init) ++ [last] := by
    rw [Text.splitLines_line hl, hrest, List.cons_append]
  simp only [textLines, hsplit, hrest, List.dropLast_concat, List.getLast?_concat]
  cases last <;> rfl

theorem evened_line {l : Text} (hl : '\n' ∉ l) (rest : Text) :
    evened (l ++ '\n' :: rest) = Text.stripReturn l ++ '\n' :: evened rest := by
  have hlast : (Text.stripReturn l ++ '\n' :: Buffer.dropReturns rest).getLast?.getD '\n' =
      (Buffer.dropReturns rest).getLast?.getD '\n' := by
    rw [List.getLast?_append_cons, List.getLast?_cons, Option.getD_some]
  rw [evened, Buffer.dropReturns_line l rest hl, hlast, evened]
  split
  · rfl
  · rw [List.append_assoc, List.cons_append]

theorem textLines_last {l : Text} (hl : '\n' ∉ l) : textLines l = if l = [] then [] else [l] := by
  rw [textLines, Text.splitLines_of_not_mem hl]
  cases l <;> rfl

theorem evened_last {l : Text} (hl : '\n' ∉ l) : evened l = if l = [] then [] else l ++ ['\n'] := by
  rw [evened, Buffer.dropReturns_of_not_mem hl]
  obtain rfl | ⟨init, c, rfl⟩ := List.eq_nil_or_concat l
  · rfl
  · have hc : c ≠ '\n' := by
      rintro rfl
      exact hl (by simp)
    rw [List.concat_eq_append, List.getLast?_concat, Option.getD_some, if_neg hc, if_neg (by simp)]

theorem flatMap_textLines (t : Text) : (textLines t).flatMap (· ++ ['\n']) = evened t := by
  induction t using Text.line_induction with
  | last l hl =>
      rw [textLines_last hl, evened_last hl]
      split
      · rfl
      · exact List.flatMap_singleton _ _
  | line l rest hl ih =>
      rw [textLines_line hl, evened_line hl, List.flatMap_cons, ih]
      simp

theorem splitLines_ended {ls : List Text} (h : ∀ l ∈ ls, '\n' ∉ l) :
    Text.splitLines (ls.flatMap (· ++ ['\n'])) = ls ++ [[]] := by
  induction ls with
  | nil => rfl
  | cons l ls ih =>
      rw [List.flatMap_cons, List.append_assoc, List.singleton_append,
        Text.splitLines_line (h l List.mem_cons_self), ih fun m hm => h m (List.mem_cons_of_mem l hm),
        List.cons_append]

/-- Texts have the same lines if and only if they differ in their line ends alone. -/
theorem textLines_inj {a b : Text} : textLines a = textLines b ↔ evened a = evened b := by
  rw [← flatMap_textLines, ← flatMap_textLines]
  refine ⟨fun h => by rw [h], fun h => ?_⟩
  have hsplit := congrArg Text.splitLines h
  rw [splitLines_ended fun l hl => not_mem_textLines hl,
    splitLines_ended fun l hl => not_mem_textLines hl] at hsplit
  exact List.append_cancel_right hsplit

/-- A change is shown if and only if it is one of more than line ends. -/
theorem showsChange_render (color : Bool) (old new : Text) :
    showsChange (render color old new) = true ↔ evened old ≠ evened new := by
  rw [showsChange_of_lines, ne_eq, textLines_inj]

end PugSize.LineDiff
