import PugSize.Text.Basic

/-!
The lines of a text. They are separated by line feeds, so there is one more line than line
feeds and joining the lines gives the text again.
-/

namespace PugSize.Text

/-- The stretches between line feeds. -/
def splitLines : Text → List Text
  | [] => [[]]
  | c :: cs =>
    if c = '\n' then [] :: splitLines cs
    else match splitLines cs with
      | [] => [[c]]
      | l :: ls => (c :: l) :: ls

/-- Lines put together, with a line feed between two of them. -/
def joinLines : List Text → Text
  | [] => []
  | [l] => l
  | l :: m :: ls => l ++ '\n' :: joinLines (m :: ls)

theorem splitLines_ne_nil (t : Text) : splitLines t ≠ [] := by
  cases t with
  | nil => simp [splitLines]
  | cons c cs =>
    simp only [splitLines]
    split
    · simp
    · split <;> simp

theorem joinLines_splitLines (t : Text) : joinLines (splitLines t) = t := by
  induction t with
  | nil => rfl
  | cons c cs ih =>
    cases h : splitLines cs with
    | nil => exact absurd h (splitLines_ne_nil cs)
    | cons l ls =>
      rw [h] at ih
      by_cases hc : c = '\n'
      · simp [splitLines, h, hc, joinLines, ih]
      · cases ls with
        | nil => simpa [splitLines, h, hc, joinLines] using ih
        | cons m ms => simpa [splitLines, h, hc, joinLines] using ih

theorem mem_of_mem_splitLines {t l : Text} {c : Char} (hl : l ∈ splitLines t) (hc : c ∈ l) :
    c ∈ t := by
  induction t generalizing l with
  | nil =>
    rw [splitLines, List.mem_singleton] at hl
    rw [hl] at hc
    cases hc
  | cons d ds ih =>
    rw [splitLines] at hl
    split at hl
    · obtain rfl | hl := List.mem_cons.1 hl
      · cases hc
      · exact List.mem_cons_of_mem _ (ih hl hc)
    · split at hl
      · rw [List.mem_singleton.1 hl] at hc
        exact List.mem_cons.2 ((List.mem_cons.1 hc).imp_right nofun)
      · rename_i first rest hsplit
        obtain rfl | hl := List.mem_cons.1 hl
        · obtain rfl | hc := List.mem_cons.1 hc
          · exact List.mem_cons_self
          · exact List.mem_cons_of_mem _ (ih (by rw [hsplit]; exact List.mem_cons_self) hc)
        · exact List.mem_cons_of_mem _ (ih (by rw [hsplit]; exact List.mem_cons_of_mem _ hl) hc)

/-- A line without the carriage return of its terminator. -/
def stripReturn (l : Text) : Text :=
  if l.getLast? = some '\r' then l.dropLast else l

end PugSize.Text
