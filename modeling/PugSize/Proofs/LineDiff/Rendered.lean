import PugSize.LineDiff.Render
import PugSize.Proofs.Document.Offsets
import PugSize.Proofs.LineDiff.Hunks

/-!
The rendering of a diff, read back line by line. A line without color is its mark, its number and what
stands behind the colon, so a reader of the rendering sees the lines of the hunks, and they tell what
becomes of the old text in the new one.
-/

namespace PugSize.LineDiff

/-- The kind of line that a mark stands for. -/
def Change.ofMark? : Char → Option Change
  | ' ' => some .keep
  | '-' => some .remove
  | '+' => some .add
  | _ => none

/-- A line of a rendering: a mark, a number counted from one, and the line behind a colon. -/
def readLine? : Text → Option (HunkLine Text)
  | c :: ' ' :: rest =>
    let number := rest.dropWhile (· = ' ')
    match Change.ofMark? c, Nat.ofDigitChars 10 (number.takeWhile Char.isDigit) 0,
        number.dropWhile Char.isDigit with
    | some change, i + 1, ':' :: ' ' :: line => some ⟨change, i, line⟩
    | _, _, _ => none
  | _ => none

theorem toList_padded (n : Nat) :
    ∃ blanks, (padded n).toList = List.replicate blanks ' ' ++ Nat.toDigits 10 n := by
  refine ⟨4 - (toString n).length, ?_⟩
  simp [padded]

theorem toList_renderLine (l : HunkLine Text) :
    ∃ c, Change.ofMark? c = some l.change ∧ (c ≠ '\n' ∧ c ≠ '.') ∧
      (renderLine false l).toList =
        c :: ' ' :: ((padded (l.index + 1)).toList ++ ':' :: ' ' :: l.line) := by
  obtain ⟨change, i, line⟩ := l
  cases change with
  | keep => exact ⟨' ', rfl, by decide, by simp [renderLine, mark, toString]⟩
  | remove => exact ⟨'-', rfl, by decide, by simp [renderLine, mark, toString]⟩
  | add => exact ⟨'+', rfl, by decide, by simp [renderLine, mark, toString]⟩

theorem readLine?_renderLine (l : HunkLine Text) : readLine? (renderLine false l).toList = some l := by
  obtain ⟨c, hc, -, htext⟩ := toList_renderLine l
  obtain ⟨blanks, hpadded⟩ := toList_padded (l.index + 1)
  have hblanks : ∀ d ∈ List.replicate blanks ' ', decide (d = ' ') = true := by
    intro d hd
    rw [List.eq_of_mem_replicate hd]
    rfl
  have hdigits : ∀ d ∈ Nat.toDigits 10 (l.index + 1), d.isDigit = true :=
    fun d hd => Nat.isDigit_of_mem_toDigits (by decide) (by decide) hd
  have hnumber : ((padded (l.index + 1)).toList ++ ':' :: ' ' :: l.line).dropWhile (· = ' ') =
      Nat.toDigits 10 (l.index + 1) ++ ':' :: ' ' :: l.line := by
    rw [hpadded, List.append_assoc, List.dropWhile_append_of_pos hblanks]
    cases hn : Nat.toDigits 10 (l.index + 1) with
    | nil => exact absurd hn Nat.toDigits_ne_nil
    | cons d ds =>
        have hd := hdigits d (by rw [hn]; exact List.mem_cons_self)
        refine List.dropWhile_cons_of_neg ?_
        rw [decide_eq_true_iff]
        rintro rfl
        cases hd
  have htake : (Nat.toDigits 10 (l.index + 1) ++ ':' :: ' ' :: l.line).takeWhile Char.isDigit =
      Nat.toDigits 10 (l.index + 1) := by
    rw [List.takeWhile_append_of_pos hdigits, List.takeWhile_cons_of_neg (by decide), List.append_nil]
  have hdrop : (Nat.toDigits 10 (l.index + 1) ++ ':' :: ' ' :: l.line).dropWhile Char.isDigit =
      ':' :: ' ' :: l.line := by
    rw [List.dropWhile_append_of_pos hdigits, List.dropWhile_cons_of_neg (by decide)]
  rw [htext, readLine?]
  simp only [hnumber, htake, hdrop, hc, Nat.ofDigitChars_ten_toDigits]

/-- In color, a line stands between two codes if it is marked. -/
theorem renderLine_color (color : Bool) (l : HunkLine Text) :
    renderLine color l = renderLine false l ∨
      ∃ code ∈ ["31", "32"], renderLine color l = inColor code (renderLine false l) := by
  obtain ⟨change, i, line⟩ := l
  cases color with
  | false => exact .inl rfl
  | true =>
      cases change with
      | keep => exact .inl rfl
      | remove => exact .inr ⟨"31", by decide, rfl⟩
      | add => exact .inr ⟨"32", by decide, rfl⟩

theorem toList_inColor (code s : String) : (inColor code s).toList =
    '\x1b' :: '[' :: (code.toList ++ 'm' :: (s.toList ++ ['\x1b', '[', '0', 'm'])) := by
  simp [inColor, toString]

theorem not_mem_renderLine (color : Bool) {l : HunkLine Text} (h : '\n' ∉ l.line) :
    '\n' ∉ (renderLine color l).toList := by
  have hplain : '\n' ∉ (renderLine false l).toList := by
    obtain ⟨c, -, ⟨hc, -⟩, htext⟩ := toList_renderLine l
    obtain ⟨blanks, hpadded⟩ := toList_padded (l.index + 1)
    have hdigits : '\n' ∉ Nat.toDigits 10 (l.index + 1) := by
      intro hd
      cases Nat.isDigit_of_mem_toDigits (by decide) (by decide) hd
    simp [htext, hpadded, hdigits, h, Ne.symm hc]
  obtain heq | ⟨code, hcode, heq⟩ := renderLine_color color l
  · rwa [heq]
  · have hfeed : ∀ code ∈ ["31", "32"], '\n' ∉ code.toList := by decide
    rw [heq, toList_inColor]
    simp [hplain, hfeed code hcode]

theorem renderLine_ne_dots (color : Bool) (l : HunkLine Text) : renderLine color l ≠ "..." := by
  intro hdots
  have hchars := congrArg String.toList hdots
  obtain heq | ⟨code, -, heq⟩ := renderLine_color color l
  · obtain ⟨c, -, ⟨-, hc⟩, htext⟩ := toList_renderLine l
    rw [heq, htext] at hchars
    exact hc (List.cons.inj hchars).1
  · rw [heq, toList_inColor] at hchars
    cases hchars

/-- Lines put together with line feeds between them are split again. -/
theorem splitLines_intercalate {ls : List Text} (hne : ls ≠ []) (h : ∀ l ∈ ls, '\n' ∉ l) :
    Text.splitLines (List.intercalate ['\n'] ls) = ls := by
  induction ls with
  | nil => exact absurd rfl hne
  | cons l ls ih =>
      have hl := h l List.mem_cons_self
      cases ls with
      | nil => rw [List.intercalate_singleton, Text.splitLines_of_not_mem hl]
      | cons m ms =>
          have hrest := ih (List.cons_ne_nil m ms) fun k hk => h k (List.mem_cons_of_mem _ hk)
          rw [List.intercalate_cons_cons, List.append_assoc, List.singleton_append,
            Text.splitLines_line hl, hrest]

/-- Without what stands between them, lists put together are their members. -/
theorem filter_intercalate {β : Type} [DecidableEq β] {d : β} {xss : List (List β)}
    (h : ∀ xs ∈ xss, d ∉ xs) : (List.intercalate [d] xss).filter (· ≠ d) = xss.flatten := by
  have hself {xs : List β} (hxs : d ∉ xs) : xs.filter (· ≠ d) = xs := by
    rw [List.filter_eq_self]
    intro x hx
    rw [decide_eq_true_iff]
    rintro rfl
    exact hxs hx
  induction xss with
  | nil => rfl
  | cons xs xss ih =>
      have hxs := hself (h xs List.mem_cons_self)
      cases xss with
      | nil => rw [List.intercalate_singleton, hxs, List.flatten_singleton]
      | cons ys yss =>
          have hrest := ih fun zs hzs => h zs (List.mem_cons_of_mem _ hzs)
          rw [List.intercalate_cons_cons, List.filter_append, List.filter_append, hxs, hrest,
            List.flatten_cons]
          simp

theorem not_mem_textLines {t l : Text} (h : l ∈ textLines t) : '\n' ∉ l := by
  have hended : ∀ k ∈ (Text.splitLines t).dropLast.map Text.stripReturn, '\n' ∉ k := by
    intro k hk
    obtain ⟨part, hpart, rfl⟩ := List.mem_map.1 hk
    have hnone := Text.not_mem_of_mem_splitLines ((List.dropLast_sublist _).subset hpart)
    rw [Text.stripReturn]
    split
    · exact fun hc => hnone ((List.dropLast_sublist _).subset hc)
    · exact hnone
  rw [textLines] at h
  split at h
  · exact hended l h
  · exact hended l h
  · rename_i last _ hlast
    obtain h | h := List.mem_append.1 h
    · exact hended l h
    · rw [List.mem_singleton.1 h]
      exact Text.not_mem_of_mem_splitLines (List.mem_of_getLast? hlast)

/-- A line that is shown is one of the two lists. -/
theorem SoundScript.line_mem {α : Type} {old new : List α} {shown : List (HunkLine α)}
    (h : SoundScript old new shown) {l : HunkLine α} (hl : l ∈ shown) : l.line ∈ old ∨ l.line ∈ new := by
  cases hchange : l.change with
  | keep =>
      obtain ⟨k, -, hk, -⟩ := h.kept l hl hchange
      have hmem := List.mem_of_mem_filter (List.mem_of_getElem? hk)
      exact .inr (List.fst_mem_of_mem_zipIdx hmem)
  | remove => exact .inl (List.mem_of_getElem? (h.removed l hl hchange))
  | add => exact .inr (List.mem_of_getElem? (h.added l hl hchange))

/-- Different lists are told from each other by a line that is not kept. -/
theorem SoundScript.exists_change {α : Type} {old new : List α} {shown : List (HunkLine α)}
    (h : SoundScript old new shown) (hne : old ≠ new) : ∃ l ∈ shown, l.change ≠ .keep := by
  refine Classical.byContradiction fun hnone => hne ?_
  have hnumbers (change : Change) (hchange : change ≠ .keep) : numbers change shown = [] := by
    refine List.eq_nil_iff_forall_not_mem.2 fun i hi => hnone ?_
    obtain ⟨l, hl, rfl, -⟩ := mem_numbers.1 hi
    exact ⟨l, hl, hchange⟩
  have hrest := h.rest
  rw [hnumbers .remove (by decide), hnumbers .add (by decide)] at hrest
  exact (unchanged_nil old).symm.trans (hrest.trans (unchanged_nil new))

theorem renderHunks_lines (color : Bool) (hs : List (List (HunkLine Text))) :
    (renderHunks color hs).filter (· ≠ "...") = hs.flatten.map (renderLine color) := by
  rw [renderHunks, filter_intercalate, List.map_flatten]
  intro xs hxs hdots
  obtain ⟨h, -, rfl⟩ := List.mem_map.1 hxs
  obtain ⟨l, -, hl⟩ := List.mem_map.1 hdots
  exact renderLine_ne_dots color l hl

/-- The lines of a rendering are those of its hunks, with dots between them. -/
theorem splitLines_render (color : Bool) {old new : Text} (h : textLines old ≠ textLines new) :
    Text.splitLines (render color old new).toList =
      (renderHunks color (hunks (textLines old) (textLines new))).map String.toList := by
  have hsound := soundScript_hunks h
  have hne : old ≠ new := fun heq => h (by rw [heq])
  rw [render, if_neg hne, String.toList_intercalate]
  refine splitLines_intercalate ?_ fun t ht => ?_
  · intro hnil
    have hlines := renderHunks_lines color (hunks (textLines old) (textLines new))
    rw [List.map_eq_nil_iff.1 hnil, List.filter_nil] at hlines
    obtain ⟨l, hl, -⟩ := hsound.exists_change h
    exact List.ne_nil_of_mem hl (List.map_eq_nil_iff.1 hlines.symm)
  · obtain ⟨s, hs, rfl⟩ := List.mem_map.1 ht
    by_cases hdots : s = "..."
    · rw [hdots]
      decide
    · have hfiltered : s ∈ (renderHunks color (hunks (textLines old) (textLines new))).filter (· ≠ "...") :=
        List.mem_filter.2 ⟨hs, decide_eq_true hdots⟩
      rw [renderHunks_lines] at hfiltered
      obtain ⟨l, hl, rfl⟩ := List.mem_map.1 hfiltered
      exact not_mem_renderLine color ((hsound.line_mem hl).elim not_mem_textLines not_mem_textLines)

/-- The rendering of two texts with different lines is a sound edit script: leaving out the dots between
hunks, each line of it can be read, and the lines that are read tell what becomes of the old lines. -/
theorem render_sound (old new : Text) (h : textLines old ≠ textLines new) :
    ∃ shown, ((Text.splitLines (render false old new).toList).filter (· ≠ "...".toList)).map readLine? =
        shown.map some ∧
      SoundScript (textLines old) (textLines new) shown := by
  refine ⟨_, ?_, soundScript_hunks h⟩
  have hdots : (fun t : Text => decide (t ≠ "...".toList)) ∘ String.toList =
      fun s => decide (s ≠ "...") := by
    funext s
    rw [Function.comp_apply, decide_eq_decide, ne_eq, String.toList_inj]
  rw [splitLines_render false h, List.filter_map, hdots, renderHunks_lines, List.map_map, List.map_map]
  exact List.map_congr_left fun l _ => readLine?_renderLine l

/-- Two changes far enough apart for the lines between them to be left out. -/
theorem render_sound_hunks :
    textLines "a\nb\nc\nd\ne\nf\ng\n".toList ≠ textLines "b\nc\nd\ne\nf\ng\nh\n".toList ∧
      ∃ shown, ((Text.splitLines (render false "a\nb\nc\nd\ne\nf\ng\n".toList
          "b\nc\nd\ne\nf\ng\nh\n".toList).toList).filter (· ≠ "...".toList)).map readLine? =
          shown.map some ∧
        SoundScript (textLines "a\nb\nc\nd\ne\nf\ng\n".toList)
          (textLines "b\nc\nd\ne\nf\ng\nh\n".toList) shown :=
  ⟨by decide, render_sound _ _ (by decide)⟩

end PugSize.LineDiff
