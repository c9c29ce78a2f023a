import PugSize.Proofs.Edit.ValueSearch
import PugSize.Proofs.Edit.Vacant

/-!
Where the value of a property ends. A comment ends a value, also inside brackets, and so does a line
feed outside; in front of the place a number can be put for what was found, and the row is read again
unless the place lies inside brackets.
-/

namespace PugSize

open Script CharClass

namespace ObjectText

/-- Whether a value that goes on with the given nodes ends here. -/
def Stops (ns : List Node) : Prop :=
  ns = [] ∨ ∃ n later, ns = n :: later ∧ n.isTrivia = true ∧
    ∃ x more, nodeMarks 1 n = x :: more ∧ endsValue x = true

/-- Whether a value that goes on with the given nodes ends inside the brackets that come next. -/
def StopsInside (ns : List Node) : Prop :=
  ∃ shape inside later, ns = .group shape inside :: later ∧ ∃ x ∈ marksOf 2 inside, x.2 = .comment

theorem not_ends_of_deep {x : Char × CharClass} (hcomment : x.2 ≠ .comment) (hcode : x.2 ≠ .code 1) :
    endsValue x = false := by
  obtain ⟨c, k⟩ := x
  unfold endsValue
  split
  · rename_i heq
    cases heq
    exact absurd rfl hcomment
  · rename_i heq
    cases heq
    exact absurd rfl hcode
  · rfl

theorem not_ends_of_token {l : Lexeme} {rest : Text} (h : l.Stands rest) (hplain : l.isPlain = true)
    {kind : TokenKind} (hkind : l.kind = .token kind) :
    ∀ x ∈ nodeMarks 1 (.leaf l hplain), endsValue x = false := by
  rintro ⟨c, k⟩ hx
  have hclass := (List.of_mem_zip hx).2
  cases k with
  | code k =>
      have hchar := code_of_token h hplain hkind hx
      simp only [List.mem_cons, List.not_mem_nil, or_false, not_or] at hchar
      by_cases hk : k = 1
      · subst hk
        simp [endsValue, hchar]
      · exact not_ends_of_deep nofun fun heq => hk (CharClass.code.inj heq)
  | literal => rfl
  | comment =>
      obtain ⟨found, text⟩ := l
      simp only at hkind
      subst hkind
      cases kind <;> simp [ofLexeme] at hclass

theorem not_ends_of_group {shape : Bracket} {inside : List Node} {after : Text}
    (h : Legible (Node.group shape inside).lexemes after)
    (hcomment : ∀ x ∈ marksOf 2 inside, x.2 ≠ .comment) :
    ∀ x ∈ nodeMarks 1 (.group shape inside), endsValue x = false := by
  intro x hx
  rw [Node.lexemes, List.cons_append] at h
  have hinside := (legible_append.1 h.2).1
  rw [nodeMarks] at hx
  obtain hx | hx := List.mem_append.1 hx
  · obtain hx | hx := List.mem_append.1 hx
    · cases shape <;> (rw [List.mem_singleton.1 hx]; rfl)
    · refine not_ends_of_deep (hcomment x hx) fun hcode => ?_
      have := le_of_mem_marks _ inside 2 hinside x hx 1 hcode
      omega
  · have hclass := List.mem_singleton.1 (List.of_mem_zip hx).2
    exact not_ends_of_deep (by simp [hclass]) (by simp [hclass])

/-- White space other than a line feed is passed over, all else that is no token ends a value. -/
theorem ends_of_trivia {n : Node} {after : Text} (h : Legible n.lexemes after)
    (hn : n.isTrivia = true) : (∀ x ∈ nodeMarks 1 n, endsValue x = false) ∨
      ∃ x more, nodeMarks 1 n = x :: more ∧ endsValue x = true := by
  cases n with
  | leaf l plain =>
      have hl : l.Stands _ := h.1
      obtain ⟨c, cs, htext⟩ := List.exists_cons_of_ne_nil hl.ne_nil
      have hcomment (hkind : ∃ kind, l.kind = .trivia kind ∧ kind ≠ .blank) :
          ∃ x more, nodeMarks 1 (.leaf l plain) = x :: more ∧ endsValue x = true := by
        obtain ⟨kind, hkind, hne⟩ := hkind
        rw [nodeMarks, ofLexeme, hkind, htext]
        cases kind
        · exact absurd rfl hne
        · exact ⟨_, _, rfl, rfl⟩
        · exact ⟨_, _, rfl, rfl⟩
      simp only [Node.isTrivia] at hn
      split at hn
      · rename_i kind hkind
        cases kind with
        | blank =>
            obtain ⟨d, hd, -⟩ := (Lexeme.stands_blank hkind).1 hl
            have hmarks : nodeMarks 1 (.leaf l plain) = [(d, .code 1)] := by
              rw [nodeMarks, ofLexeme, hkind, hd]
              rfl
            rw [hmarks]
            by_cases hends : endsValue (d, .code 1) = true
            · exact .inr ⟨_, _, rfl, hends⟩
            · refine .inl fun x hx => ?_
              rw [List.mem_singleton.1 hx]
              simpa using hends
        | lineComment => exact .inr (hcomment ⟨_, hkind, by decide⟩)
        | blockComment => exact .inr (hcomment ⟨_, hkind, by decide⟩)
      · cases hn
  | comma => cases hn
  | group shape inside => cases hn

theorem exists_cut {ns : List Node} {after : Text} (h : Legible (lexemesOf ns) after)
    (huncut : Uncut ns) :
    ∃ before behind, ns = before ++ behind ∧ (∀ x ∈ marksOf 1 before, endsValue x = false) ∧
      (Stops behind ∨ StopsInside behind) := by
  induction ns with
  | nil => exact ⟨[], [], rfl, nofun, .inl (.inl rfl)⟩
  | cons n ns ih =>
      rw [lexemesOf_cons] at h
      obtain ⟨hn, hns⟩ := legible_append.1 h
      have hpassed (hmarks : ∀ x ∈ nodeMarks 1 n, endsValue x = false) :
          ∃ before behind, n :: ns = before ++ behind ∧
            (∀ x ∈ marksOf 1 before, endsValue x = false) ∧ (Stops behind ∨ StopsInside behind) := by
        obtain ⟨before, behind, rfl, hbefore, hbehind⟩ :=
          ih hns fun m hm => huncut m (List.mem_cons_of_mem _ hm)
        refine ⟨n :: before, behind, rfl, ?_, hbehind⟩
        intro x hx
        obtain hx | hx := List.mem_append.1 hx
        · exact hmarks x hx
        · exact hbefore x hx
      by_cases htrivia : n.isTrivia = true
      · obtain hmarks | hends := ends_of_trivia hn htrivia
        · exact hpassed hmarks
        · exact ⟨[], n :: ns, rfl, nofun, .inl (.inr ⟨n, ns, rfl, htrivia, hends⟩)⟩
      · cases n with
        | leaf l plain =>
            simp only [Node.isTrivia] at htrivia
            split at htrivia
            · exact absurd rfl htrivia
            · rename_i kind hkind
              exact hpassed (not_ends_of_token hn.1 plain hkind)
        | comma => exact absurd (huncut _ List.mem_cons_self) (by decide)
        | group shape inside =>
            by_cases hcomment : ∃ x ∈ marksOf 2 inside, x.2 = .comment
            · exact ⟨[], _, rfl, nofun, .inr ⟨shape, inside, ns, rfl, hcomment⟩⟩
            · refine hpassed (not_ends_of_group hn fun x hx hk => hcomment ⟨x, hx, hk⟩)

/-- What the search for the end of a value passes of nodes. -/
def passed (ns : List Node) : Text := ((marksOf 1 ns).takeWhile fun x => !endsValue x).map Prod.fst

/-- What stands before a place where the value ends is passed. -/
theorem passed_cut {before behind : List Node} {after : Text} (h : Legible (lexemesOf before) after)
    (hbefore : ∀ x ∈ marksOf 1 before, endsValue x = false) (hstops : Stops behind) :
    passed (before ++ behind) = textOf before := by
  have hnone : (marksOf 1 behind).takeWhile (fun x => !endsValue x) = [] := by
    obtain rfl | ⟨n, ns, rfl, -, x, more, hmarks, hends⟩ := hstops
    · rfl
    · rw [marksOf, hmarks, List.cons_append, List.takeWhile_cons_of_neg (by simp [hends])]
  rw [passed, marksOf_append, List.takeWhile_append_of_pos fun x hx => by simp [hbefore x hx], hnone,
    List.append_nil, fst_marksOf h]

/-- White space that is passed has no comment in it. -/
theorem skipped_of_passed {ns : List Node} {after : Text} (h : Legible (lexemesOf ns) after)
    (hblank : Blank ns) : ∀ c ∈ passed ns, isSkipped c = true := by
  intro c hc
  obtain ⟨x, hx, rfl⟩ := List.mem_map.1 hc
  have hends := List.mem_takeWhile_imp hx
  obtain hcomment | ⟨-, hskipped⟩ := marks_of_blank h hblank 1 x ((List.takeWhile_sublist _).subset hx)
  · obtain ⟨d, k⟩ := x
    obtain rfl : k = .comment := hcomment
    simp [endsValue] at hends
  · exact hskipped

theorem passed_append {ns ms : List Node} {after : Text} (h : Legible (lexemesOf ns) after)
    (hns : ∀ x ∈ marksOf 1 ns, endsValue x = false) : passed (ns ++ ms) = textOf ns ++ passed ms := by
  rw [passed, marksOf_append, List.takeWhile_append_of_pos fun x hx => by simp [hns x hx], List.map_append,
    fst_marksOf h, passed]

theorem takeWhile_congr {α : Type} {p q : α → Bool} {as : List α} (h : ∀ a ∈ as, p a = q a) :
    as.takeWhile p = as.takeWhile q := by
  induction as with
  | nil => rfl
  | cons a as ih =>
      rw [List.takeWhile_cons, List.takeWhile_cons, h a List.mem_cons_self,
        ih fun b hb => h b (List.mem_cons_of_mem _ hb)]

theorem takeWhile_stopped {α : Type} {p : α → Bool} {as : List α} (h : ∃ a ∈ as, p a = false)
    (bs : List α) : (as ++ bs).takeWhile p = as.takeWhile p := by
  rw [List.takeWhile_append, if_neg]
  intro hlength
  obtain ⟨a, ha, hp⟩ := h
  have hall := List.takeWhile_eq_self_iff.1 ((List.takeWhile_sublist p).eq_of_length hlength)
  rw [hall a ha] at hp
  cases hp

theorem passed_stopped {ns : List Node} (hns : ¬ ∀ x ∈ marksOf 1 ns, endsValue x = false) (ms : List Node) :
    passed (ns ++ ms) = passed ns := by
  rw [passed, marksOf_append, takeWhile_stopped (by simpa using hns), passed]

/-- Behind a row stands a comma or the closing brace, and either ends a value. -/
theorem passed_row (ns : List Node) {later : List Node} (hlater : ∀ n, later.head? = some n → n = .comma) :
    ((marksOf 1 (ns ++ later) ++ marked 1 ['}']).takeWhile fun x => !endsValue x).map Prod.fst = passed ns := by
  have hends : ∃ x more, marksOf 1 later ++ marked 1 ['}'] = x :: more ∧ endsValue x = true := by
    cases later with
    | nil => exact ⟨_, _, rfl, rfl⟩
    | cons m ms =>
        obtain rfl := hlater m rfl
        exact ⟨(',', .code 1), _, rfl, rfl⟩
  obtain ⟨x, more, hmore, hends⟩ := hends
  rw [marksOf_append, List.append_assoc, hmore, passed]
  congr 1
  induction marksOf 1 ns with
  | nil => exact List.takeWhile_cons_of_neg (by simp [hends])
  | cons y ys ih => rw [List.cons_append, List.takeWhile_cons, List.takeWhile_cons, ih]

theorem not_isComment_of_marks {n : Node} {after : Text} (h : Legible n.lexemes after)
    (hmarks : ∀ x ∈ nodeMarks 1 n, endsValue x = false) : isComment n = false := by
  apply Bool.eq_false_iff.2
  intro hcomment
  cases n with
  | leaf l plain =>
      obtain ⟨c, cs, htext⟩ := List.exists_cons_of_ne_nil (Lexeme.Stands.ne_nil h.1)
      have hx : (c, CharClass.comment) ∈ nodeMarks 1 (.leaf l plain) := by
        simp only [isComment, Bool.or_eq_true, beq_iff_eq] at hcomment
        obtain hkind | hkind := hcomment
        · rw [nodeMarks, ofLexeme, hkind, htext]
          exact List.mem_cons_self
        · rw [nodeMarks, ofLexeme, hkind, htext]
          exact List.mem_cons_self
      have := hmarks _ hx
      cases this
  | comma => cases hcomment
  | group shape inside => cases hcomment

/-- What is passed goes up to where the value stops, and trimming takes the white space off its end. -/
theorem passed_body {ns body gap behind : List Node} {after : Text} (h : Legible (lexemesOf ns) after)
    (hcut : ns = body ++ gap ++ behind) (hgap : Gap gap)
    (hbody : ∀ n, body.getLast? = some n → isGap n = false)
    (hmarks : ∀ x ∈ marksOf 1 (body ++ gap), endsValue x = false) (hstops : Stops behind) :
    passed ns = textOf (body ++ gap) ∧ Text.trimEnd (passed ns) = textOf body := by
  rw [hcut, lexemesOf_append] at h
  have hbodyGap := (legible_append.1 h).1
  have hpassed : passed ns = textOf (body ++ gap) := by
    rw [hcut]
    exact passed_cut hbodyGap hmarks hstops
  rw [lexemesOf_append] at hbodyGap
  have htrim := @trimEnd_nodes [] body gap _ hgap (by simp) (legible_append.1 hbodyGap).1 (by
    intro n hn
    refine ⟨hbody n hn, ?_⟩
    obtain ⟨init, rfl⟩ := List.getLast?_eq_some_iff.1 hn
    rw [lexemesOf_append, lexemesOf_cons, lexemesOf_nil, List.append_nil] at hbodyGap
    have hn := (legible_append.1 (legible_append.1 hbodyGap).1).2
    have hcomment := not_isComment_of_marks hn fun x hx => hmarks x (by simp [marksOf, hx])
    cases n with
    | leaf l plain => exact (Bool.or_eq_false_iff.1 hcomment).1
    | comma => rfl
    | group shape inside => rfl)
  rw [hpassed]
  exact ⟨rfl, htrim⟩

/-- What is found of a value is a front of the text behind the key. -/
theorem trimEnd_passed_front {ns : List Node} {after : Text} (h : Legible (lexemesOf ns) after) :
    Text.trimEnd (passed ns) <+: textOf ns := by
  rw [← fst_marksOf h 1]
  exact (List.rdropWhile_prefix Text.isBlank _).trans ((List.takeWhile_prefix _).map _)

/-- The text of an object up to the value of a row. -/
def frontOf (as : List Row) (r : Row) (part : List Node) : Text :=
  '{' :: textOf (rowsBefore as ++ r.lead ++ part)

section

variable {key : Text} {as : List Row} {r : Row} {bs : List Row} {rest : List (List Node)}
  {part value : List Node} (hwrites : Writes key r part value)

include hwrites

theorem braced_writes {found behind : List Node} (hcut : value ++ r.trail = found ++ behind) :
    braced (rowNodes (as ++ r :: bs) rest) =
      frontOf as r part ++ textOf found ++ (textOf (behind ++ rowsBehind bs rest) ++ ['}']) := by
  rw [hwrites.rowNodes_eq, hcut, braced, frontOf]
  simp

/-- The value of a row and what stands behind it are legible. -/
theorem Writes.legible {after : Text} (h : Legible (lexemesOf (rowNodes (as ++ r :: bs) rest)) after) :
    ∃ after', Legible (lexemesOf (value ++ r.trail)) after' := by
  rw [hwrites.rowNodes_eq, lexemesOf_append, lexemesOf_append (value ++ r.trail)] at h
  exact ⟨_, (legible_append.1 (legible_append.1 h).2).1⟩

/-- The value that is found is what is passed behind the key, white space at the end apart. -/
theorem valueSpan?_passed (hkey : IsLabel key) (hrest : Rest rest) (hunseen : ∀ b ∈ bs, Unseen key b)
    (h : Legible (lexemesOf (rowNodes (as ++ r :: bs) rest)) ['}']) :
    ∃ span : Span, valueSpan? (braced (rowNodes (as ++ r :: bs) rest)) key = some span ∧
      span = ⟨(frontOf as r part).width,
        (frontOf as r part).width + (Text.trimEnd (passed (value ++ r.trail))).width⟩ ∧
      (braced (rowNodes (as ++ r :: bs) rest)).slice span = Text.trimEnd (passed (value ++ r.trail)) := by
  have hwritten := valueSpan?_written hkey hrest hwrites hunseen h
  rw [passed_row _ (head_rowsBehind bs rest)] at hwritten
  refine ⟨_, hwritten, rfl, ?_⟩
  obtain ⟨after, hlegible⟩ := hwrites.legible h
  obtain ⟨more, hmore⟩ := trimEnd_passed_front hlegible
  have htext : braced (rowNodes (as ++ r :: bs) rest) = frontOf as r part ++
      Text.trimEnd (passed (value ++ r.trail)) ++ (more ++ textOf (rowsBehind bs rest) ++ ['}']) := by
    rw [@braced_writes _ as r bs rest _ _ hwrites (value ++ r.trail) [] (List.append_nil _).symm, ← hmore]
    simp
  rw [htext]
  exact Text.slice_middle _ _ _

end

end ObjectText
end PugSize
