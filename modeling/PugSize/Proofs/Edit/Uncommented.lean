import PugSize.Proofs.Edit.ObjectRows
import PugSize.Proofs.Script.Comments

/-!
Nodes without comments. Their white space is nothing but characters that are skipped, and what the search for
the end of a value passes of them is ended by a line feed alone.
-/

namespace PugSize

open Script CharClass

namespace ObjectText

def Uncommented (ns : List Node) : Prop :=
  ∀ l ∈ lexemesOf ns, l.kind ≠ .trivia .lineComment ∧ l.kind ≠ .trivia .blockComment

theorem kind_of_isTrivia {l : Lexeme} {plain : l.isPlain = true}
    (h : l.kind ≠ .trivia .lineComment ∧ l.kind ≠ .trivia .blockComment)
    (htrivia : (Node.leaf l plain).isTrivia = true) : l.kind = .trivia .blank := by
  simp only [Node.isTrivia] at htrivia
  split at htrivia
  · rename_i kind hkind
    cases kind
    · exact hkind
    · exact absurd hkind h.1
    · exact absurd hkind h.2
  · cases htrivia

theorem uncommented_append {as bs : List Node} :
    Uncommented (as ++ bs) ↔ Uncommented as ∧ Uncommented bs := by
  rw [Uncommented, lexemesOf_append, List.forall_mem_append]
  rfl

/-- Only comments have the class of comments. -/
theorem exists_comment : (ns : List Node) → (depth : Nat) → ∀ x ∈ marksOf depth ns,
    x.2 = .comment → ∃ l ∈ lexemesOf ns, l.kind = .trivia .lineComment ∨ l.kind = .trivia .blockComment
  | [], _, _, hx, _ => absurd hx List.not_mem_nil
  | .leaf l plain :: ns, depth, x, hx, hk => by
      obtain hx | hx := List.mem_append.1 hx
      · refine ⟨l, by simp [Node.lexemes], ?_⟩
        have hclass := (List.of_mem_zip hx).2
        rw [hk] at hclass
        obtain ⟨kind, text⟩ := l
        cases kind with
        | trivia kind =>
            cases kind
            · simp [ofLexeme] at hclass
            · exact .inl rfl
            · exact .inr rfl
        | token kind => cases kind <;> simp [ofLexeme] at hclass
      · obtain ⟨m, hm, hkind⟩ := exists_comment ns depth x hx hk
        exact ⟨m, by simp [hm], hkind⟩
  | .comma :: ns, depth, x, hx, hk => by
      obtain hx | hx := List.mem_append.1 hx
      · rw [List.mem_singleton.1 hx] at hk
        cases hk
      · obtain ⟨m, hm, hkind⟩ := exists_comment ns depth x hx hk
        exact ⟨m, by simp [hm], hkind⟩
  | .group shape inside :: ns, depth, x, hx, hk => by
      obtain hx | hx := List.mem_append.1 hx
      · obtain hx | hx := List.mem_append.1 hx
        · obtain hx | hx := List.mem_append.1 hx
          · rw [List.mem_singleton.1 (List.of_mem_zip hx).2] at hk
            cases hk
          · obtain ⟨m, hm, hkind⟩ := exists_comment inside (depth + 1) x hx hk
            exact ⟨m, by simp [Node.lexemes, hm], hkind⟩
        · rw [List.mem_singleton.1 (List.of_mem_zip hx).2] at hk
          cases hk
      · obtain ⟨m, hm, hkind⟩ := exists_comment ns depth x hx hk
        exact ⟨m, by simp [hm], hkind⟩

theorem Uncommented.not_comment {ns : List Node} (h : Uncommented ns) {depth : Nat} {x : Char × CharClass}
    (hx : x ∈ marksOf depth ns) : x.2 ≠ .comment := by
  intro hk
  obtain ⟨l, hl, hkind⟩ := exists_comment ns depth x hx hk
  exact hkind.elim (h l hl).1 (h l hl).2

/-- Whether nodes have no line feed outside brackets and literals. -/
def OneLine (ns : List Node) : Prop := ('\n', CharClass.code 1) ∉ marksOf 1 ns

/-- Without comments nodes on one line are passed over as a whole. -/
theorem not_ends_of_oneLine {ns : List Node} {after : Text} (hlegible : Legible (lexemesOf ns) after)
    (h : Uncommented ns) (huncut : Uncut ns) (hline : OneLine ns) :
    ∀ x ∈ marksOf 1 ns, endsValue x = false := by
  obtain ⟨before, behind, rfl, hbefore, hbehind⟩ := exists_cut hlegible huncut
  have hnil : behind = [] := by
    obtain (hnil | ⟨n, later, rfl, htrivia, x, more, hmarks, hends⟩) |
      ⟨shape, inside, later, rfl, x, hx, hk⟩ := hbehind
    · exact hnil
    · have hx : x ∈ marksOf 1 (before ++ n :: later) := by
        rw [marksOf_append, marksOf, hmarks]
        simp
      have hn : Legible (lexemesOf [n]) (written (lexemesOf later) ++ after) := by
        rw [lexemesOf_append, lexemesOf_cons] at hlegible
        rw [lexemesOf_cons, lexemesOf_nil, List.append_nil]
        exact (legible_append.1 (legible_append.1 hlegible).2).1
      have hone : Blank [n] := fun m hm => by rwa [List.mem_singleton.1 hm]
      obtain hk | ⟨hcode, hskipped⟩ := marks_of_blank hn hone 1 x (by
        rw [marksOf, hmarks]
        exact List.mem_append_left _ List.mem_cons_self)
      · exact absurd hk (h.not_comment hx)
      · obtain ⟨c, k⟩ := x
        simp only at hcode hskipped
        subst hcode
        simp only [endsValue, Bool.or_eq_true, beq_iff_eq] at hends
        obtain (rfl | rfl) | rfl := hends
        · cases hskipped
        · cases hskipped
        · exact absurd hx hline
    · refine absurd hk (@Uncommented.not_comment _ h 1 x ?_)
      rw [marksOf_append, marksOf, nodeMarks]
      simp [hx]
  rwa [hnil, List.append_nil]

theorem endsValue_skipped {x : Char × CharClass} (hcode : x.2 = .code 1) (hskipped : isSkipped x.1 = true) :
    endsValue x = (x.1 == '\n') := by
  obtain ⟨c, k⟩ := x
  simp only at hcode hskipped
  subst hcode
  have hcomma : c ≠ ',' := by
    rintro rfl
    cases hskipped
  have hbrace : c ≠ '}' := by
    rintro rfl
    cases hskipped
  simp [endsValue, hcomma, hbrace]

namespace Uncommented

variable {ns : List Node} {after : Text} (h : Uncommented ns) (hlegible : Legible (lexemesOf ns) after)
  (hblank : Blank ns)

include h hlegible hblank

theorem marks : ∀ x ∈ marksOf 1 ns, x.2 = .code 1 ∧ isSkipped x.1 = true := by
  intro x hx
  exact (marks_of_blank hlegible hblank 1 x hx).resolve_left (h.not_comment hx)

/-- White space without comments is skipped. -/
theorem skipped : ∀ c ∈ textOf ns, isSkipped c = true := by
  intro c hc
  rw [← fst_marksOf hlegible 1] at hc
  obtain ⟨x, hx, rfl⟩ := List.mem_map.1 hc
  exact (h.marks hlegible hblank x hx).2

/-- White space is a gap if there is no byte-order mark in it. -/
theorem gap_iff : Gap ns ↔ '\ufeff' ∉ textOf ns := by
  constructor
  · intro hgap hmem
    have := hgap.text _ hmem
    revert this
    decide
  · intro hmark n hn
    obtain ⟨as, bs, rfl⟩ := List.append_of_mem hn
    have htrivia := hblank n hn
    rw [lexemesOf_append, lexemesOf_cons] at hlegible
    have hstands := (legible_append.1 (legible_append.1 hlegible).2).1
    cases n with
    | leaf l plain =>
        have hkind := kind_of_isTrivia (h l (by simp [Node.lexemes])) htrivia
        obtain ⟨c, htext, hc⟩ := (Lexeme.stands_blank hkind).1 hstands.1
        have hne : c ≠ '\ufeff' := by
          rintro rfl
          exact hmark (by rw [textOf_append, textOf_cons, textOf_leaf, htext]; simp)
        rw [isSkipped, Bool.or_eq_true, beq_iff_eq] at hc
        simp [isGap, hkind, htext, hc.resolve_right hne]
    | comma => cases htrivia
    | group shape inside => cases htrivia

/-- White space is passed up to a line feed. -/
theorem passed_blank : passed ns = (textOf ns).takeWhile (· != '\n') := by
  have hmarks := h.marks hlegible hblank
  rw [passed, ← fst_marksOf hlegible 1]
  generalize marksOf 1 ns = marks at hmarks
  induction marks with
  | nil => rfl
  | cons x xs ih =>
      obtain ⟨hx, hxs⟩ := List.forall_mem_cons.1 hmarks
      have hends : endsValue x = (x.1 == '\n') := endsValue_skipped hx.1 hx.2
      rw [List.takeWhile_cons, List.map_cons, List.takeWhile_cons, hends]
      by_cases hline : x.1 = '\n'
      · simp [hline]
      · simp [hline, ih hxs]

end Uncommented

/-- An object without comments has none among its nodes. -/
theorem ObjectLayout.uncommented_of_comments {t : Text} {rows : List Row} {rest : List (List Node)}
    (h : ObjectLayout t rows rest) (hnone : comments t = []) : Uncommented (rowNodes rows rest) := by
  have henclosed : Enclosed t (lexemesOf (rowNodes rows rest)) := ⟨h.text, h.legible⟩
  rw [henclosed.comments_eq, List.filter_eq_nil_iff] at hnone
  intro l hl
  simpa [Lexeme.isComment] using hnone l hl

/-- An object in whose text no comment is scanned has none among its nodes. -/
theorem ObjectLayout.uncommented {t : Text} {rows : List Row} {rest : List (List Node)}
    (h : ObjectLayout t rows rest)
    (hcomment : ∀ l ∈ (scan t).1, l.kind ≠ .trivia .lineComment ∧ l.kind ≠ .trivia .blockComment) :
    Uncommented (rowNodes rows rest) :=
  h.uncommented_of_comments (List.filter_eq_nil_iff.2 fun l hl => by simp [Lexeme.isComment, hcomment l hl])

end ObjectText

end PugSize
