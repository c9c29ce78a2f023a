import PugSize.Proofs.Mixin.CodeParens
import PugSize.Proofs.Mixin.Extent

/-!
How far a call reaches, as the shortest text whose parentheses close again. The search for the end of a
call finds it where a backslash escapes the first character behind it that is no line feed. That this is
the character next to it makes a difference only where a line ends with a backslash and the next one that
is not empty begins with a quote or a backslash.
-/

namespace PugSize.MixinCall

/-- The depth of parentheses is zero again, behind the first one that opens. -/
def Closes (ps : List Char) : Prop :=
  '(' ∈ ps ∧ (ps.dropWhile (· != '(')).count ')' = (ps.dropWhile (· != '(')).count '('

theorem Closes.mem {ps : List Char} (h : Closes ps) : ')' ∈ ps := by
  obtain ⟨hopen, hcount⟩ := h
  have hfirst : '(' ∈ ps.dropWhile (· != '(') := by
    rw [← List.takeWhile_append_dropWhile (p := (· != '(')) (l := ps), List.mem_append] at hopen
    refine hopen.resolve_left fun hin => ?_
    simpa using List.mem_takeWhile_imp hin
  have hclose : ')' ∈ ps.dropWhile (· != '(') := by
    rw [← List.count_pos_iff, hcount]
    exact List.count_pos_iff.2 hfirst
  exact (List.dropWhile_suffix _).subset hclose

/-- The shortest front of a text that closes the parentheses it opens. -/
structure Extent (escaped : Text → Prop) (t x : Text) : Prop where
  front : x <+: t
  closes : ∃ ps, Parens escaped x ps ∧ Closes ps
  shortest : ∀ y ps, y <+: t → Parens escaped y ps → Closes ps → x.length ≤ y.length

theorem Extent.unique {escaped : Text → Prop} {t x y : Text} (hx : Extent escaped t x)
    (hy : Extent escaped t y) : x = y := by
  obtain ⟨ps, hps, hclosed⟩ := hx.closes
  obtain ⟨qs, hqs, hclosed'⟩ := hy.closes
  have hle := hx.shortest y qs hy.front hqs hclosed'
  have hge := hy.shortest x ps hx.front hps hclosed
  exact (List.prefix_of_prefix_length_le hx.front hy.front hle).eq_of_length (Nat.le_antisymm hle hge)

theorem Parens.mem {escaped : Text → Prop} {t ps : Text} (h : Parens escaped t ps) {c : Char}
    (hc : c ∈ ps) : c ∈ t := by
  induction h with
  | nil => cases hc
  | @code d t ps _ _ _ ih =>
      split at hc
      · exact List.mem_cons.2 ((List.mem_cons.1 hc).imp_right ih)
      · exact List.mem_cons_of_mem _ (ih hc)
  | hidden _ _ ih => exact List.mem_append_right _ (ih hc)

section

variable {name : Text} (hname : ∀ c ∈ name, isNameChar c = true)
include hname

theorem marks_marker (rest : Text) :
    marks (marker name ++ rest) = ((marker name).map fun c => (c, true)) ++ marks rest := by
  rw [marks, codeFlags_marker hname, List.zip_append (by simp), zip_flag, marks]

theorem not_mem_name : '(' ∉ '+' :: name ∧ ')' ∉ '+' :: name := by
  constructor
  all_goals
    intro h
    obtain h | h := List.mem_cons.1 h
    · cases h
    · exact absurd (hname _ h) (by decide)

theorem codeParens_marker (xs : List (Char × Bool)) :
    codeParens (((marker name).map fun c => (c, true)) ++ xs) = '(' :: codeParens xs := by
  have hnone : codeParens (('+' :: name).map fun c => (c, true)) = [] := by
    rw [codeParens, List.map_eq_nil_iff, List.filter_eq_nil_iff]
    intro x hx
    obtain ⟨c, hc, rfl⟩ := List.mem_map.1 hx
    have hopen : c ≠ '(' := by
      rintro rfl
      exact (not_mem_name hname).1 hc
    have hclose : c ≠ ')' := by
      rintro rfl
      exact (not_mem_name hname).2 hc
    simp [hopen, hclose]
  rw [marker, List.map_append, codeParens_append, codeParens_append, hnone]
  rfl

/-- What reaches over the marker closes its parentheses where the depth behind the marker is closed. -/
theorem closes_marker {rest ps : Text} {m : Nat}
    (h : Parens NextOfLine (marker name ++ rest.take m) ps) :
    Closes ps ↔ ClosesAt 1 (marks rest) m := by
  have hparens := codeParens_of_parens h (rest.drop m)
  rw [List.append_assoc, List.take_append_drop, marks_marker hname, List.length_append,
    ← List.length_map (fun c : Char => (c, true)), List.take_length_add_append,
    codeParens_marker hname, List.length_take, ← length_marks, ← List.take_eq_take_min] at hparens
  rw [← hparens, Closes, List.dropWhile_cons_of_neg (by decide), ClosesAt, List.count_cons_self,
    List.count_cons_of_ne (by decide), Nat.add_comm]
  exact and_iff_right List.mem_cons_self

/-- What closes its parentheses reaches over the marker. -/
theorem Closes.over_marker {rest y ps : Text} (hy : y <+: marker name ++ rest)
    (hps : Parens NextOfLine y ps) (h : Closes ps) : ∃ m, y = marker name ++ rest.take m := by
  have hlonger : ¬ y <+: '+' :: name :=
    fun hshort => (not_mem_name hname).1 (hshort.subset (hps.mem h.1))
  have hmarker : marker name <+: y := by
    obtain hshort | hmarker := List.prefix_or_prefix_of_prefix hy (List.prefix_append _ _)
    · obtain rfl | hshort := List.prefix_concat_iff.1 hshort
      · exact List.prefix_refl _
      · exact absurd hshort hlonger
    · exact hmarker
  obtain ⟨part, rfl⟩ := hmarker
  refine ⟨part.length, ?_⟩
  rw [List.prefix_append_right_inj] at hy
  rw [← List.prefix_iff_eq_take.1 hy]

/-- A call reaches from its marker to where the search for the closing parenthesis ends. -/
theorem extent_marker_iff {rest x : Text} :
    Extent NextOfLine (marker name ++ rest) x ↔
      ∃ n, closingEnd? 1 (marks rest) = some n ∧ x = marker name ++ rest.take n := by
  have hfront (n : Nat) : marker name ++ rest.take n <+: marker name ++ rest :=
    (List.prefix_append_right_inj _).2 (List.take_prefix n rest)
  have hextent {n : Nat} (hn : closingEnd? 1 (marks rest) = some n) (hcloses : ClosesAt 1 (marks rest) n)
      (hopen : ∀ m < n, OpenAt 1 (marks rest) m) :
      Extent NextOfLine (marker name ++ rest) (marker name ++ rest.take n) := by
    have hparens : ∃ ps, Parens NextOfLine (marker name ++ rest.take n) ps := by
      obtain ⟨before, after, hmarks, rfl⟩ := closingEnd?_eq_some hn
      have hat : (marks (marker name ++ rest))[(marker name).length + before.length]? =
          some (')', true) := by
        rw [marks_marker hname, List.getElem?_append_right (by simp), hmarks]
        simp
      obtain ⟨ps, hps⟩ := exists_parens hat
      rw [Nat.add_assoc, List.take_length_add_append] at hps
      exact ⟨ps, hps⟩
    obtain ⟨ps, hps⟩ := hparens
    refine ⟨hfront n, ⟨ps, hps, (closes_marker hname hps).2 hcloses⟩, ?_⟩
    intro y qs hy hqs hclosed
    obtain ⟨m, rfl⟩ := hclosed.over_marker hname hy hqs
    have hat := (closes_marker hname hqs).1 hclosed
    have hle : n ≤ m := by
      apply Nat.le_of_not_lt
      intro hlt
      exact Nat.ne_of_lt (hopen m hlt) hat
    rw [List.length_append, List.length_append, List.length_take, List.length_take]
    omega
  obtain ⟨hnone, hopen⟩ | ⟨n, hn, hcloses, hopen⟩ := closingEnd?_cases Nat.one_pos (marks rest)
  · constructor
    · intro h
      obtain ⟨ps, hps, hclosed⟩ := h.closes
      obtain ⟨m, rfl⟩ := hclosed.over_marker hname h.front hps
      exact absurd ((closes_marker hname hps).1 hclosed) (Nat.ne_of_lt (hopen m))
    · rintro ⟨n, hn, -⟩
      rw [hnone] at hn
      cases hn
  · constructor
    · exact fun h => ⟨n, hn, h.unique (hextent hn hcloses hopen)⟩
    · rintro ⟨m, hm, rfl⟩
      obtain rfl : n = m := Option.some.inj (hn.symm.trans hm)
      exact hextent hn hcloses hopen

end

/-- A backslash that ends a line, with a quote or a backslash first on the next line that is not empty. -/
def Broken (t : Text) : Prop :=
  ∃ n c, (c = '\\' ∨ CharClass.isQuote c = true) ∧ '\\' :: (List.replicate (n + 1) '\n' ++ [c]) <:+: t

theorem Broken.mono {t u : Text} (h : Broken t) (htu : t <:+: u) : Broken u := by
  obtain ⟨n, c, hc, hin⟩ := h
  exact ⟨n, c, hc, hin.trans htu⟩

theorem StringBody.nextChar {quote : Char} {body : Text} (h : StringBody NextOfLine quote body)
    (hwhole : ¬ Broken (body ++ [quote])) (hquote : CharClass.isQuote quote = true) :
    StringBody NextChar quote body := by
  induction h with
  | nil => exact .nil
  | @plain c body slash close _ ih =>
      exact .plain slash close (ih fun hb => hwhole (hb.mono (List.suffix_cons _ _).isInfix))
  | @escape t body hescaped _ ih =>
      obtain ⟨n, c, hc, rfl⟩ := hescaped
      have hbody := ih fun hb => hwhole (hb.mono ⟨'\\' :: (List.replicate n '\n' ++ [c]), [], by simp⟩)
      cases n with
      | zero => exact .escape ⟨c, rfl⟩ hbody
      | succ n =>
          have hplain : ¬ (c = '\\' ∨ c = quote) := by
            intro hc
            refine hwhole ⟨n, c, hc.imp_right ?_, [], body ++ [quote], by simp⟩
            rintro rfl
            exact hquote
          rw [not_or] at hplain
          have hrun : ∀ k, StringBody NextChar quote (List.replicate k '\n' ++ c :: body) := by
            intro k
            induction k with
            | zero => exact .plain hplain.1 hplain.2 hbody
            | succ k ihk =>
                refine .plain (by decide) ?_ ihk
                rintro rfl
                cases hquote
          have := @StringBody.escape NextChar quote ['\n'] _ ⟨_, rfl⟩ (hrun n)
          simpa [List.replicate_succ] using this

theorem StringBody.escape_lines {quote : Char} {body : Text} (h : StringBody NextOfLine quote body)
    (hquote : CharClass.isQuote quote = true) {n : Nat}
    (hwhole : ¬ Broken ('\\' :: (List.replicate (n + 1) '\n' ++ (body ++ [quote])))) :
    StringBody NextOfLine quote ('\\' :: (List.replicate (n + 1) '\n' ++ body)) := by
  induction h generalizing n with
  | nil => exact absurd ⟨n, quote, .inr hquote, List.infix_refl _⟩ hwhole
  | @plain c body slash close hbody ih =>
      by_cases hc : c = '\n'
      · subst hc
        have hlines (u : Text) : List.replicate (n + 1) '\n' ++ '\n' :: u =
            List.replicate (n + 1 + 1) '\n' ++ u := by
          rw [List.replicate_succ' (n := n + 1), List.append_assoc, List.singleton_append]
        rw [hlines]
        rw [List.cons_append, hlines] at hwhole
        exact ih hwhole
      · have := @StringBody.escape NextOfLine quote _ _ ⟨n + 1, c, hc, rfl⟩ hbody
        simpa using this
  | @escape t body _ _ _ =>
      exact absurd ⟨n, '\\', .inl rfl, [], t ++ body ++ [quote], by simp⟩ hwhole

theorem StringBody.nextOfLine {quote : Char} {body : Text} (h : StringBody NextChar quote body)
    (hwhole : ¬ Broken (body ++ [quote])) (hquote : CharClass.isQuote quote = true) :
    StringBody NextOfLine quote body := by
  induction h with
  | nil => exact .nil
  | plain slash close _ ih =>
      exact .plain slash close (ih fun hb => hwhole (hb.mono (List.suffix_cons _ _).isInfix))
  | @escape t body hescaped _ ih =>
      obtain ⟨c, rfl⟩ := hescaped
      have hbody := ih fun hb => hwhole (hb.mono ⟨['\\', c], [], by simp⟩)
      by_cases hc : c = '\n'
      · subst hc
        exact hbody.escape_lines hquote (n := 0) hwhole
      · exact .escape ⟨0, c, hc, rfl⟩ hbody

/-- Without a broken line end, both readings of a backslash see the same parentheses. -/
theorem parens_iff {t ps : Text} (h : ¬ Broken t) : Parens NextChar t ps ↔ Parens NextOfLine t ps := by
  have hswap {escaped escaped' : Text → Prop}
      (hbody : ∀ {quote : Char} {body : Text}, StringBody escaped quote body →
        ¬ Broken (body ++ [quote]) → CharClass.isQuote quote = true → StringBody escaped' quote body)
      (hparens : Parens escaped t ps) : Parens escaped' t ps := by
    induction hparens with
    | nil => exact .nil
    | code quote comment _ ih =>
        exact .code quote comment (ih fun hb => h (hb.mono (List.suffix_cons _ _).isInfix))
    | @hidden piece t ps hpiece _ ih =>
        refine .hidden ?_ (ih fun hb => h (hb.mono (List.suffix_append _ _).isInfix))
        cases hpiece with
        | @string quote body hquote hstring =>
            refine .string hquote (hbody hstring (fun hb => h (hb.mono ?_)) hquote)
            exact (List.suffix_cons _ _).isInfix.trans (List.prefix_append _ _).isInfix
        | comment hline => exact .comment hline
  exact ⟨hswap StringBody.nextOfLine, hswap StringBody.nextChar⟩

theorem extent_iff {t x : Text} (h : ¬ Broken t) : Extent NextChar t x ↔ Extent NextOfLine t x := by
  have hparens {y ps : Text} (hy : y <+: t) : Parens NextChar y ps ↔ Parens NextOfLine y ps :=
    parens_iff fun hb => h (hb.mono hy.isInfix)
  constructor
  · rintro ⟨hfront, ⟨ps, hps, hcloses⟩, hshortest⟩
    exact ⟨hfront, ⟨ps, (hparens hfront).1 hps, hcloses⟩,
      fun y qs hy hqs => hshortest y qs hy ((hparens hy).2 hqs)⟩
  · rintro ⟨hfront, ⟨ps, hps, hcloses⟩, hshortest⟩
    exact ⟨hfront, ⟨ps, (hparens hfront).2 hps, hcloses⟩,
      fun y qs hy hqs => hshortest y qs hy ((hparens hy).1 hqs)⟩

end PugSize.MixinCall
