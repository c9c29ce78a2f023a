import Mathlib.Data.List.Induction
import PugSize.Document.Buffer

/-!
Places and offsets. Every cut of a document that does not fall into a line terminator has a place,
and that place leads back to the offset of the cut. Line terminators that are read as line feeds do
not change the places of what stands between them.
-/

namespace PugSize

namespace Position

/-- The place behind a text at the front of a document. -/
def behind (t : Text) : Position := advance ⟨0, 0⟩ t

theorem advance_append (p : Position) (a b : Text) :
    p.advance (a ++ b) = (p.advance a).advance b := by
  induction a generalizing p with
  | nil => rfl
  | cons c cs ih =>
      simp only [List.cons_append, advance]
      split <;> exact ih _

theorem behind_append (a b : Text) : behind (a ++ b) = (behind a).advance b :=
  advance_append _ a b

theorem advance_of_not_mem (p : Position) (t : Text) (h : '\n' ∉ t) :
    p.advance t = ⟨p.line, p.character + t.length⟩ := by
  induction t generalizing p with
  | nil => rfl
  | cons c cs ih =>
      simp only [List.mem_cons, not_or] at h
      have hc : ¬ c = '\n' := fun heq => h.1 heq.symm
      simp only [advance, hc, if_false, ih _ h.2, List.length_cons, Position.mk.injEq, true_and]
      omega

/-- A carriage return before a line feed is no place of its own to what follows. -/
theorem advance_dropReturns (p : Position) (t : Text) :
    p.advance (Buffer.dropReturns t) = p.advance t := by
  induction t generalizing p with
  | nil => rfl
  | cons c cs ih =>
      simp only [Buffer.dropReturns]
      split
      · rename_i h
        obtain ⟨rfl, hcs⟩ := h
        cases cs with
        | nil => simp at hcs
        | cons d ds =>
            obtain rfl : d = '\n' := by simpa using hcs
            rw [ih]
            simp [advance]
      · simp only [advance]
        split <;> exact ih _

end Position

namespace Text

theorem splitLines_append {a t first : Text} {rest : List Text} (ha : '\n' ∉ a)
    (h : splitLines t = first :: rest) : splitLines (a ++ t) = (a ++ first) :: rest := by
  induction a with
  | nil => exact h
  | cons c cs ih =>
      simp only [List.mem_cons, not_or] at ha
      have hc : ¬ c = '\n' := fun heq => ha.1 heq.symm
      rw [List.cons_append, splitLines, if_neg hc, ih ha.2]
      rfl

theorem splitLines_of_not_mem {l : Text} (h : '\n' ∉ l) : splitLines l = [l] := by
  have := @splitLines_append l [] [] [] h rfl
  rwa [List.append_nil] at this

theorem splitLines_line {l : Text} (h : '\n' ∉ l) (rest : Text) :
    splitLines (l ++ '\n' :: rest) = l :: splitLines rest := by
  have hfeed : splitLines ('\n' :: rest) = [] :: splitLines rest := by
    rw [splitLines, if_pos rfl]
  rw [splitLines_append h hfeed, List.append_nil]

theorem not_mem_of_mem_splitLines {t l : Text} (h : l ∈ splitLines t) : '\n' ∉ l := by
  induction t generalizing l with
  | nil =>
      simp only [splitLines, List.mem_singleton] at h
      simp [h]
  | cons c cs ih =>
      simp only [splitLines] at h
      split at h
      · obtain rfl | h := List.mem_cons.1 h
        · simp
        · exact ih h
      · rename_i hc
        split at h
        · obtain rfl : l = [c] := by simpa using h
          simpa using fun heq => hc heq.symm
        · rename_i first rest hsplit
          obtain rfl | h := List.mem_cons.1 h
          · have hfirst := ih (l := first) (by simp [hsplit])
            simp only [List.mem_cons, not_or]
            exact ⟨fun heq => hc heq.symm, hfirst⟩
          · exact ih (by simp [hsplit, h])

theorem joinLines_cons {l : Text} {ls : List Text} (h : ls ≠ []) :
    joinLines (l :: ls) = l ++ '\n' :: joinLines ls := by
  cases ls with
  | nil => exact absurd rfl h
  | cons m ms => rfl

theorem joinLines_append {as bs : List Text} (h : bs ≠ []) :
    joinLines (as ++ bs) = (as.flatMap fun l => l ++ ['\n']) ++ joinLines bs := by
  induction as with
  | nil => rfl
  | cons a as ih =>
      rw [List.cons_append, joinLines_cons (by simp [h]), ih]
      simp

/-- Every text is a line, or a line that is ended and a text behind it. -/
theorem line_induction {P : Text → Prop} (last : ∀ l, '\n' ∉ l → P l)
    (line : ∀ l rest, '\n' ∉ l → P rest → P (l ++ '\n' :: rest)) (t : Text) : P t := by
  have hlines : ∀ m ∈ splitLines t, '\n' ∉ m := fun _ => not_mem_of_mem_splitLines
  rw [← joinLines_splitLines t]
  generalize hsplit : splitLines t = ls at hlines
  replace hsplit : ls ≠ [] := hsplit ▸ splitLines_ne_nil t
  induction ls with
  | nil => exact absurd rfl hsplit
  | cons l ls ih =>
      have hl := hlines l List.mem_cons_self
      by_cases hls : ls = []
      · rw [hls]
        exact last l hl
      · rw [joinLines_cons hls]
        exact line l _ hl (ih (fun m hm => hlines m (List.mem_cons_of_mem l hm)) hls)

theorem stripReturn_concat (t : Text) (c : Char) :
    stripReturn (t ++ [c]) = if c = '\r' then t else t ++ [c] := by
  simp [stripReturn]

theorem stripReturn_append {a b : Text} (h : b ≠ []) :
    stripReturn (a ++ b) = a ++ stripReturn b := by
  obtain ⟨init, c, rfl⟩ := (List.eq_nil_or_concat b).resolve_left h
  rw [List.concat_eq_append, ← List.append_assoc, stripReturn_concat, stripReturn_concat]
  split <;> simp

theorem length_stripReturn_le (l : Text) : (stripReturn l).length ≤ l.length := by
  unfold stripReturn
  split <;> simp

theorem take_stripReturn {l : Text} {n : Nat} (h : n ≤ (stripReturn l).length) :
    (stripReturn l).take n = l.take n := by
  unfold stripReturn at h ⊢
  split
  · rename_i hlast
    simp only [hlast, if_true, List.length_dropLast] at h
    rw [List.dropLast_eq_take, List.take_take, Nat.min_eq_left h]
  · rfl

/-- Stripping reaches no further back than the characters behind a place of the line. -/
theorem stripReturn_drop {l : Text} {n : Nat} (h : n ≤ (stripReturn l).length) :
    stripReturn (l.drop n) = (stripReturn l).drop n := by
  by_cases hn : l.drop n = []
  · have hl := List.drop_eq_nil_iff.1 hn
    have hs := length_stripReturn_le l
    rw [hn, List.drop_eq_nil_iff.2 (by omega)]
    rfl
  · have hle : n ≤ l.length := Nat.le_trans h (length_stripReturn_le l)
    calc stripReturn (l.drop n)
        = (l.take n ++ stripReturn (l.drop n)).drop n := by
          rw [List.drop_left' (by simp [hle])]
      _ = (stripReturn l).drop n := by
          rw [← stripReturn_append hn, List.take_append_drop]

end Text

namespace Buffer

/-- A cut that leaves line terminators whole: it does not part a carriage return from the end of
its line. -/
def CutsBetween (before after : Text) : Prop :=
  before.getLast? = some '\r' → ∃ c cs, after = c :: cs ∧ c ≠ '\n'

theorem dropReturns_of_not_mem {t : Text} (h : '\n' ∉ t) : dropReturns t = t := by
  induction t with
  | nil => rfl
  | cons c cs ih =>
      simp only [List.mem_cons, not_or] at h
      have hhead : ¬ (c = '\r' ∧ cs.head? = some '\n') := by
        rintro ⟨-, hcs⟩
        exact h.2 (List.mem_of_head? hcs)
      simp only [dropReturns, hhead, if_false, ih h.2]

theorem take_succ_of_drop {α : Type} {xs rest : List α} {x : α} {n : Nat}
    (h : xs.drop n = x :: rest) : xs.take (n + 1) = xs.take n ++ [x] := by
  have hget : xs[n]? = some x := by
    rw [← List.head?_drop, h]
    rfl
  rw [List.take_add_one, hget]
  rfl

@[simp] theorem linesWidth_append (as bs : List Text) :
    linesWidth (as ++ bs) = linesWidth as + linesWidth bs := by
  induction as with
  | nil => simp [linesWidth]
  | cons a as ih => rw [List.cons_append, linesWidth, linesWidth, ih, Nat.add_assoc _ (linesWidth as)]

@[simp] theorem linesWidth_singleton (l : Text) : linesWidth [l] = l.width + 1 := rfl

theorem width_lines (ls : List Text) :
    Text.width (ls.flatMap fun l => l ++ ['\n']) = linesWidth ls := by
  induction ls with
  | nil => rfl
  | cons l ls ih =>
      have hfeed : Text.width ['\n'] = 1 := rfl
      rw [List.flatMap_cons, Text.width_append, Text.width_append, hfeed, ih]
      rfl

theorem lineStart_eq (b : Buffer) (i : Nat) : b.lineStart i = linesWidth (b.rawLines.take i) :=
  rfl

/-- The lines around a cut: those before it are whole, and the line it falls into is parted at the
character of its place. -/
theorem splitLines_cut (before after : Text) :
    ∃ part first rest, Text.splitLines after = first :: rest ∧ (∃ l, before = l ++ part) ∧
      part.length = (Position.behind before).character ∧
      (Text.splitLines (before ++ after)).drop (Position.behind before).line =
        (part ++ first) :: rest ∧
      linesWidth ((Text.splitLines (before ++ after)).take (Position.behind before).line) +
        part.width = before.width := by
  induction before using List.reverseRecOn generalizing after with
  | nil =>
      cases h : Text.splitLines after with
      | nil => exact absurd h (Text.splitLines_ne_nil after)
      | cons first rest =>
          refine ⟨[], first, rest, rfl, ⟨[], rfl⟩, rfl, ?_, rfl⟩
          simpa [Position.behind, Position.advance] using h
  | append_singleton before c ih =>
      obtain ⟨part, first, rest, hsplit, ⟨l, hl⟩, hlength, hdrop, hwidth⟩ := ih (c :: after)
      rw [List.append_assoc, List.singleton_append, Position.behind_append]
      by_cases hc : c = '\n'
      · subst hc
        simp only [Text.splitLines, if_true, List.cons.injEq] at hsplit
        obtain ⟨rfl, rfl⟩ := hsplit
        have hnext : (Position.behind before).advance ['\n'] =
            ⟨(Position.behind before).line + 1, 0⟩ := rfl
        rw [hnext, take_succ_of_drop hdrop, ← List.drop_drop, hdrop]
        cases h : Text.splitLines after with
        | nil => exact absurd h (Text.splitLines_ne_nil after)
        | cons first rest =>
            refine ⟨[], first, rest, rfl, ⟨_, (List.append_nil _).symm⟩, rfl, by simp, ?_⟩
            have hfeed : Text.width ['\n'] = 1 := rfl
            simp only [linesWidth_append, linesWidth_singleton, List.append_nil, Text.width_append,
              Text.width_nil, hfeed]
            omega
      · have hnext : (Position.behind before).advance [c] =
            ⟨(Position.behind before).line, (Position.behind before).character + 1⟩ := by
          simp [Position.advance, hc]
        cases h : Text.splitLines after with
        | nil => exact absurd h (Text.splitLines_ne_nil after)
        | cons first' rest' =>
            simp only [Text.splitLines, hc, if_false, h, List.cons.injEq] at hsplit
            obtain ⟨rfl, rfl⟩ := hsplit
            rw [hnext]
            refine ⟨part ++ [c], first', rest', rfl, ⟨l, by rw [hl]; simp⟩, by simp [hlength], ?_, ?_⟩
            · simpa using hdrop
            · simp only [Text.width_append]
              omega

/-- The place of a cut leads back to its offset. -/
theorem offsetOf_behind {b : Buffer} {before after : Text} (h : b.text = before ++ after)
    (hcut : CutsBetween before after) :
    b.offsetOf (Position.behind before) = .ok before.width := by
  obtain ⟨part, first, rest, hsplit, ⟨l, hl⟩, hlength, hdrop, hwidth⟩ :=
    splitLines_cut before after
  have hget : b.rawLines[(Position.behind before).line]? = some (part ++ first) := by
    rw [rawLines, h, ← List.head?_drop, hdrop]
    rfl
  have hstrip : (Text.stripReturn (part ++ first)).take (Position.behind before).character = part := by
    rw [← hlength]
    by_cases hfirst : first = []
    · subst hfirst
      have hlast : part.getLast? ≠ some '\r' := by
        intro hpart
        obtain ⟨c, cs, rfl, hc⟩ := hcut (by rw [hl, List.getLast?_append, hpart]; rfl)
        simp only [Text.splitLines, hc, if_false] at hsplit
        split at hsplit <;> simp at hsplit
      simp [Text.stripReturn, hlast]
    · rw [Text.stripReturn_append hfirst, List.take_left' rfl]
  simp only [offsetOf, line?, hget, Option.map_some, hstrip, Except.ok.injEq]
  rw [lineStart_eq, rawLines, h]
  exact hwidth

/-- An exchange between two cuts keeps what stands around them. -/
theorem replace_middle {b : Buffer} {start stop : Position} {before inside after : Text}
    (new : Text) (htext : b.text = before ++ inside ++ after)
    (hstart : b.offsetOf start = .ok before.width)
    (hstop : b.offsetOf stop = .ok (before ++ inside).width) :
    b.replace start stop new = .ok { b with text := before ++ b.adapt new ++ after } := by
  have hle : ¬ (before ++ inside).width < before.width := by simp
  simp only [replace, hstart, hstop, bind, Except.bind, hle, if_false, Except.ok.injEq]
  rw [htext, Text.width_append, Text.splice_middle]

end Buffer
end PugSize
