import Mathlib
import PugSize.Proofs.Edit.FoundPlace
import PugSize.Proofs.Edit.ObjectRows
import PugSize.Proofs.Edit.WholeValue

/-!
Comments that stay when properties are written. A value ends before a comment, also inside brackets, and a
property is added behind what is seen of an object and before its closing brace. So a write takes no comment
out of an object and puts none in, whatever the object holds.
-/

namespace PugSize

open Script

namespace CharClass

theorem isComment_of_mem {depth : Nat} {l : Lexeme} {k : CharClass} (h : k ∈ ofLexeme depth l) :
    (k == comment) = l.isComment := by
  obtain ⟨kind, text⟩ := l
  cases kind with
  | trivia kind =>
      cases kind
      all_goals
        obtain ⟨-, -, rfl⟩ := List.mem_map.1 h
        rfl
  | token kind =>
      have hclass : k ≠ comment := by
        rintro rfl
        cases kind <;> simp [ofLexeme] at h
      rw [beq_eq_false_iff_ne.2 hclass]
      rfl

/-- The characters of lexemes, and whether they belong to a comment. -/
def commentFlags (ls : List Lexeme) : List (Char × Bool) := ls.flatMap fun l => l.text.map (·, l.isComment)

theorem commentFlags_cons (l : Lexeme) (ls : List Lexeme) :
    commentFlags (l :: ls) = l.text.map (·, l.isComment) ++ commentFlags ls := List.flatMap_cons

theorem commentFlags_append (as bs : List Lexeme) :
    commentFlags (as ++ bs) = commentFlags as ++ commentFlags bs := List.flatMap_append

/-- The class of comments is that of the characters of comments. -/
theorem map_marksOf (after : Text) : (ns : List Node) → (depth : Nat) → Legible (lexemesOf ns) after →
    (marksOf depth ns).map (fun x => (x.1, x.2 == comment)) = commentFlags (lexemesOf ns)
  | [], _, _ => rfl
  | .leaf l plain :: ns, depth, h => by
      have hns := map_marksOf after ns depth h.2
      have hzip : (l.text.zip (ofLexeme depth l)).map (fun x => (x.1, x.2 == comment)) =
          l.text.map (·, l.isComment) := by
        calc (l.text.zip (ofLexeme depth l)).map (fun x => (x.1, x.2 == comment))
            = (l.text.zip (ofLexeme depth l)).map (fun x => (x.1, l.isComment)) :=
              List.map_congr_left fun x hx => by rw [isComment_of_mem (List.of_mem_zip hx).2]
          _ = ((l.text.zip (ofLexeme depth l)).map Prod.fst).map (·, l.isComment) := by
              rw [List.map_map]
              rfl
          _ = l.text.map (·, l.isComment) := by
              rw [List.map_fst_zip (Nat.le_of_eq (length_ofLexeme h.1 depth).symm)]
      rw [marksOf, nodeMarks, List.map_append, hns, hzip, lexemesOf_cons, Node.lexemes,
        List.singleton_append, commentFlags_cons]
  | .comma :: ns, depth, h => by
      have hns := map_marksOf after ns depth h.2
      rw [marksOf, nodeMarks, List.map_append, hns]
      rfl
  | .group shape inside :: ns, depth, h => by
      rw [lexemesOf_cons, Node.lexemes, List.append_assoc, List.cons_append] at h
      obtain ⟨hinside, hrest⟩ := legible_append.1 h.2
      have hin := map_marksOf _ inside (depth + 1) hinside
      have hns := map_marksOf after ns depth hrest.2
      rw [marksOf, nodeMarks, List.map_append, List.map_append, List.map_append, hin, hns, lexemesOf_cons,
        Node.lexemes, commentFlags_append, commentFlags_append, commentFlags_cons]
      cases shape <;> rfl
  termination_by ns => sizeOf ns

/-- Up to the first comment among lexemes. -/
theorem takeWhile_commentFlags {ls : List Lexeme} {after : Text} (h : Legible ls after) :
    ((commentFlags ls).takeWhile fun x => !x.2).map Prod.fst =
      written (ls.takeWhile fun l => !l.isComment) := by
  induction ls with
  | nil => rfl
  | cons l ls ih =>
      obtain ⟨c, cs, htext⟩ := List.exists_cons_of_ne_nil h.1.ne_nil
      rw [commentFlags_cons]
      cases hcomment : l.isComment with
      | true =>
          rw [htext, List.map_cons, List.cons_append, List.takeWhile_cons_of_neg (by simp),
            List.takeWhile_cons_of_neg (by simp [hcomment])]
          rfl
      | false =>
          rw [List.takeWhile_append_of_pos (by simp), List.map_append, ih h.2, List.map_map,
            List.takeWhile_cons_of_pos (by simp [hcomment]), written_cons]
          congr 1
          exact List.map_id _

/-- Lexemes without a comment among the classes of their characters hold no comment. -/
theorem not_isComment {ns : List Node} {after : Text} (h : Legible (lexemesOf ns) after) (depth : Nat)
    (hmarks : ∀ x ∈ marksOf depth ns, x.2 ≠ comment) : ∀ l ∈ lexemesOf ns, l.isComment = false := by
  intro l hl
  obtain ⟨rest, hstands⟩ := h.mem hl
  obtain ⟨c, cs, htext⟩ := List.exists_cons_of_ne_nil hstands.ne_nil
  have hmem : (c, l.isComment) ∈ (marksOf depth ns).map (fun x => (x.1, x.2 == comment)) := by
    rw [map_marksOf after ns depth h, commentFlags, List.mem_flatMap]
    exact ⟨l, hl, List.mem_map.2 ⟨c, by rw [htext]; exact List.mem_cons_self, rfl⟩⟩
  obtain ⟨x, hx, heq⟩ := List.mem_map.1 hmem
  rw [← (Prod.mk.inj heq).2]
  exact beq_eq_false_iff_ne.2 (hmarks x hx)

end CharClass

open CharClass

namespace ObjectText

theorem not_comment_of_passed {x : Char × CharClass} (h : endsValue x = false) : x.2 ≠ .comment := by
  obtain ⟨c, k⟩ := x
  rintro rfl
  cases h

/-- The first comment among nodes. -/
theorem exists_first_comment {ns : List Node} {depth : Nat} (h : ∃ x ∈ marksOf depth ns, x.2 = .comment) :
    ∃ upTo l later, lexemesOf ns = upTo ++ l :: later ∧ (∀ m ∈ upTo, m.isComment = false) ∧
      l.isComment = true ∧ (lexemesOf ns).takeWhile (fun m => !m.isComment) = upTo := by
  obtain ⟨x, hx, hk⟩ := h
  obtain ⟨m, hm, hkind⟩ := exists_comment ns depth x hx hk
  have hm' : m.isComment = true := by
    obtain hkind | hkind := hkind <;> simp [Lexeme.isComment, hkind]
  have hdrop := List.head?_dropWhile_not (fun l : Lexeme => !l.isComment) (lexemesOf ns)
  cases hlater : (lexemesOf ns).dropWhile fun l => !l.isComment with
  | nil =>
      have := List.dropWhile_eq_nil_iff.1 hlater m hm
      simp [hm'] at this
  | cons l later =>
      rw [hlater] at hdrop
      refine ⟨_, l, later, ?_, fun n hn => by simpa using List.mem_takeWhile_imp hn, by simpa using hdrop, rfl⟩
      rw [← hlater, List.takeWhile_append_dropWhile]

/-- What is found of a value that is cut inside brackets: all up to the first comment there. -/
theorem passed_inside {before inside more : List Node} {shape : Bracket} {after : Text}
    (h : Legible (lexemesOf (before ++ .group shape inside :: more)) after)
    (hbefore : ∀ x ∈ marksOf 1 before, endsValue x = false)
    (hcomment : ∃ x ∈ marksOf 2 inside, x.2 = .comment) :
    ∃ upTo l later, lexemesOf inside = upTo ++ l :: later ∧ (∀ m ∈ upTo, m.isComment = false) ∧
      l.isComment = true ∧ passed (before ++ .group shape inside :: more) =
        written (lexemesOf before ++ shape.opening :: upTo) := by
  rw [lexemesOf_append] at h
  obtain ⟨hbeforeLegible, hgroup⟩ := legible_append.1 h
  rw [lexemesOf_cons, Node.lexemes, List.append_assoc, List.cons_append] at hgroup
  have hinside := (legible_append.1 hgroup.2).1
  have hends : ∀ x ∈ marksOf 2 inside, (!endsValue x) = !(x.2 == .comment) := by
    intro x hx
    by_cases hk : x.2 = .comment
    · obtain ⟨c, k⟩ := x
      simp only at hk
      subst hk
      rfl
    · rw [beq_eq_false_iff_ne.2 hk, not_ends_of_deep hk fun hcode => ?_]
      have := le_of_mem_marks _ inside 2 hinside x hx 1 hcode
      omega
  have hstop : ∃ x ∈ marksOf 2 inside, (!endsValue x) = false := by
    obtain ⟨x, hx, hk⟩ := hcomment
    exact ⟨x, hx, by rw [hends x hx, hk]; rfl⟩
  obtain ⟨upTo, l, later, hlexemes, hupTo, hl, htake⟩ := exists_first_comment hcomment
  have hfound : ((marksOf 2 inside).takeWhile fun x => !endsValue x).map Prod.fst = written upTo := by
    rw [← htake, ← takeWhile_commentFlags hinside, ← map_marksOf _ inside 2 hinside, List.takeWhile_map,
      List.map_map, takeWhile_congr hends]
    rfl
  obtain ⟨c, hopening, hmarks, hc⟩ : ∃ c, shape.opening.text = [c] ∧
      nodeMarks 1 (.group shape inside) =
        (c, .code 1) :: (marksOf 2 inside ++ shape.closing.text.zip [.code 2]) ∧
      endsValue (c, .code 1) = false := by
    cases shape <;> exact ⟨_, rfl, rfl, rfl⟩
  refine ⟨upTo, l, later, hlexemes, hupTo, hl, ?_⟩
  rw [passed_append hbeforeLegible hbefore, written_append, written_cons, ← hfound, passed, marksOf, hmarks,
    hopening, List.cons_append, List.append_assoc, List.takeWhile_cons_of_pos (by simp [hc]),
    takeWhile_stopped hstop]
  rfl

/-- Trimming takes the white space off that stands at the end of lexemes. -/
theorem exists_trimmed {ls : List Lexeme} {after : Text} (h : Legible ls after)
    (hcomment : ∀ l ∈ ls, l.isComment = false) :
    ∃ body gap, ls = body ++ gap ∧ (∀ l ∈ gap, l.isBlank = true) ∧
      Text.trimEnd (written ls) = written body := by
  induction ls using List.reverseRecOn generalizing after with
  | nil => exact ⟨[], [], rfl, List.forall_mem_nil _, rfl⟩
  | append_singleton ls l ih =>
      obtain ⟨hls, hl, -⟩ := legible_append.1 h
      have hwritten : written (ls ++ [l]) = written ls ++ l.text := by simp
      by_cases hgap : l.isBlank = true ∧ ∀ c ∈ l.text, Text.isBlank c = true
      · obtain ⟨body, gap, rfl, hblank, htrim⟩ := ih hls fun m hm => hcomment m (by simp [hm])
        refine ⟨body, gap ++ [l], List.append_assoc _ _ _, ?_, ?_⟩
        · exact List.forall_mem_append.2 ⟨hblank, by simpa using hgap.1⟩
        · rw [← htrim, hwritten, Text.trimEnd, Text.trimEnd, List.reverse_append,
            List.dropWhile_append_of_pos fun c hc => hgap.2 c (List.mem_reverse.1 hc)]
      · refine ⟨ls ++ [l], [], (List.append_nil _).symm, List.forall_mem_nil _, ?_⟩
        obtain ⟨init, c, htext, hc⟩ : ∃ init c, l.text = init ++ [c] ∧ Text.isBlank c = false := by
          cases hkind : l.kind with
          | token kind =>
              obtain ⟨init, c, hzip, hc⟩ := last_of_token hl hkind 0
              have htext := congrArg (List.map Prod.fst) hzip
              rw [List.map_fst_zip (Nat.le_of_eq (length_ofLexeme hl 0).symm), List.map_append] at htext
              refine ⟨_, c, htext, ?_⟩
              simp only [isSkipped, Bool.or_eq_false_iff] at hc
              exact hc.1
          | trivia kind =>
              have hblank : l.kind = .trivia .blank := by
                have hnot := hcomment l (by simp)
                cases kind <;> simp [Lexeme.isComment, hkind] at hnot ⊢
              obtain ⟨c, htext, -⟩ := (Lexeme.stands_blank hblank).1 hl
              refine ⟨[], c, htext, ?_⟩
              simpa [Lexeme.isBlank, hblank, htext] using hgap
        have htrim := @Text.trimEnd_append (written ls ++ init ++ [c]) [] (List.forall_mem_nil _) (by
          intro d hd
          rw [List.getLast?_concat, Option.some.injEq] at hd
          rwa [← hd])
        rwa [List.append_nil, List.append_assoc, ← htext, ← hwritten] at htrim

theorem apart_written {ls : List Lexeme} {after : Text} (h : Legible ls after)
    (hfirst : ∀ l, ls.head? = some l → l.isClosed = true ∨ l.kind = .trivia .lineComment)
    (hafter : Apart after) : Apart (written ls ++ after) := by
  cases ls with
  | nil => exact hafter
  | cons l ls =>
      rw [written_cons, List.append_assoc]
      exact h.1.apart_text (hfirst l rfl) _

/-- Lexemes between others can be exchanged for a number. -/
theorem legible_number {front body behind : List Lexeme} {value after : Text}
    (h : Legible (front ++ body ++ behind) after) (hvalue : IsDigits value)
    (hfront : ∀ l, front.getLast? = some l → l.isClosed = true)
    (hbehind : ∀ l, behind.head? = some l → l.isClosed = true ∨ l.kind = .trivia .lineComment)
    (hafter : Apart after) : Legible (front ++ (⟨.token .number, value⟩ : Lexeme) :: behind) after := by
  obtain ⟨hfirst, hlast⟩ := legible_append.1 h
  exact legible_append.2 ⟨(legible_append.1 hfirst).1.swap_closed hfront,
    stands_number hvalue (apart_written hlast hbehind hafter), hlast⟩

/-- What writing a property makes of the nodes of an object: nodes with the same comments and without
brackets that were not there, or, where a value has a comment in its brackets, lexemes with the same
comments. -/
inductive Commented (ns : List Node) (t : Text) : Prop
  | nodes {ns' : List Node} (enclosed : Enclosed t (lexemesOf ns'))
      (comments : (lexemesOf ns').filter Lexeme.isComment = (lexemesOf ns).filter Lexeme.isComment)
      (groups : ∀ shape inside, .group shape inside ∈ ns' → .group shape inside ∈ ns)
  | cut {ls : List Lexeme} (enclosed : Enclosed t ls)
      (comments : ls.filter Lexeme.isComment = (lexemesOf ns).filter Lexeme.isComment)
      (nested : ¬ Whole ns)

theorem Commented.refl {ns : List Node} (h : Legible (lexemesOf ns) ['}']) : Commented ns (braced ns) :=
  .nodes ⟨rfl, h⟩ rfl fun _ _ => id

theorem filter_exchanged {front body behind : List Lexeme} {value : Text}
    (hbody : ∀ l ∈ body, l.isComment = false) :
    (front ++ (⟨.token .number, value⟩ : Lexeme) :: behind).filter Lexeme.isComment =
      (front ++ body ++ behind).filter Lexeme.isComment := by
  have hnone : body.filter Lexeme.isComment = [] :=
    List.filter_eq_nil_iff.2 fun l hl => by simp [hbody l hl]
  rw [List.filter_append, List.filter_append, List.filter_append, hnone, List.append_nil]
  rfl

/-- White space, comments and commas begin with a lexeme that stands behind anything. -/
theorem first_lexeme {ns : List Node} (h : ∀ n, ns.head? = some n → n.isTrivia = true ∨ n = .comma) :
    ∀ l, (lexemesOf ns).head? = some l → l.isClosed = true ∨ l.kind = .trivia .lineComment := by
  intro l hl
  cases ns with
  | nil => cases hl
  | cons n ns =>
      obtain hn | rfl := h n rfl
      · cases n with
        | leaf m plain =>
            obtain rfl := Option.some.inj hl
            obtain hclosed | ⟨kind, hkind⟩ | hline := m.closed_or
            · exact .inl hclosed
            · rw [Node.isTrivia, hkind] at hn
              cases hn
            · exact .inr hline
        | comma => cases hn
        | group shape inside => cases hn
      · obtain rfl := Option.some.inj hl
        exact .inl rfl

namespace FoundAt

variable {key : Text} {ns front value behind : List Node} {span : Span}
  (h : FoundAt key ns span front value behind)

include h

/-- The lexemes that are found of a value can be exchanged for a number. -/
theorem exchanged (hlegible : Legible (lexemesOf ns) ['}']) {new : Text} (hnew : IsDigits new)
    {body later : List Lexeme} (hbody : Text.trimEnd (passed value) = written body)
    (hsplit : lexemesOf (value ++ behind) = body ++ later) (hcomment : ∀ l ∈ body, l.isComment = false)
    (hlater : ∀ l, later.head? = some l → l.isClosed = true ∨ l.kind = .trivia .lineComment) :
    Enclosed ((braced ns).splice span new) (lexemesOf front ++ (⟨.token .number, new⟩ : Lexeme) :: later) ∧
      (lexemesOf front ++ (⟨.token .number, new⟩ : Lexeme) :: later).filter Lexeme.isComment =
        (lexemesOf ns).filter Lexeme.isComment := by
  have hlexemes : lexemesOf ns = lexemesOf front ++ body ++ later := by
    rw [h.nodes, lexemesOf_append, hsplit, List.append_assoc]
  have htext : braced ns = ('{' :: textOf front) ++ written body ++ (written later ++ ['}']) := by
    rw [braced, textOf, hlexemes, written_append, written_append]
    simp [textOf]
  rw [hlexemes] at hlegible ⊢
  refine ⟨⟨?_, legible_number hlegible hnew h.shut hlater (.cons (by decide))⟩, filter_exchanged hcomment⟩
  rw [htext, h.span, hbody, Text.splice_middle, written_append, written_cons]
  simp [textOf]

theorem legible_value (hlegible : Legible (lexemesOf ns) ['}']) : ∃ after, Legible (lexemesOf value) after := by
  rw [h.nodes, lexemesOf_append, lexemesOf_append value] at hlegible
  exact ⟨_, (legible_append.1 (legible_append.1 hlegible).2).1⟩

/-- A value that is exchanged up to a place outside its brackets. -/
theorem commented_nodes (hlegible : Legible (lexemesOf ns) ['}']) {new : Text} (hnew : IsDigits new)
    {before later : List Node} (hcut : value = before ++ later)
    (hbefore : ∀ x ∈ marksOf 1 before, endsValue x = false) (hstops : Stops later) :
    Commented ns ((braced ns).splice span new) := by
  obtain ⟨body, gap, rfl, hgap, hlast⟩ := exists_body before
  obtain ⟨after, hvalue⟩ := h.legible_value hlegible
  obtain ⟨-, htrim⟩ := passed_body hvalue hcut hgap hlast hbefore hstops
  have hcomment : ∀ l ∈ lexemesOf body, l.isComment = false := by
    rw [hcut, List.append_assoc, lexemesOf_append] at hvalue
    exact not_isComment (legible_append.1 hvalue).1 1 fun x hx => not_comment_of_passed (hbefore x (by simp [hx]))
  have hfirst : ∀ n, (gap ++ (later ++ behind)).head? = some n → n.isTrivia = true ∨ n = .comma := by
    intro n hn
    cases gap with
    | nil =>
        obtain rfl | ⟨m, ms, rfl, hm, -⟩ := hstops
        · exact .inr (h.comma n hn)
        · rw [← Option.some.inj hn]
          exact .inl hm
    | cons m ms =>
        rw [← Option.some.inj hn]
        exact .inl (isTrivia_of_isGap (hgap m List.mem_cons_self))
  have hsplit : lexemesOf (value ++ behind) = lexemesOf body ++ lexemesOf (gap ++ (later ++ behind)) := by
    rw [hcut]
    simp
  have hlexemes : lexemesOf (front ++ .number new :: (gap ++ (later ++ behind))) =
      lexemesOf front ++ (⟨.token .number, new⟩ : Lexeme) :: lexemesOf (gap ++ (later ++ behind)) :=
    lexemesOf_append _ _
  obtain ⟨henclosed, hcomments⟩ :=
    h.exchanged hlegible hnew htrim hsplit hcomment (first_lexeme hfirst)
  rw [← hlexemes] at henclosed hcomments
  refine .nodes henclosed hcomments fun shape inside hmem => ?_
  rw [h.nodes, hcut]
  simp only [List.mem_append, List.mem_cons] at hmem ⊢
  obtain hmem | hmem | hmem := hmem
  · exact .inl hmem
  · cases hmem
  · tauto

/-- A value that is exchanged up to the first comment inside its brackets. -/
theorem commented_cut (hlegible : Legible (lexemesOf ns) ['}']) {new : Text} (hnew : IsDigits new)
    {before later : List Node} (hcut : value = before ++ later)
    (hbefore : ∀ x ∈ marksOf 1 before, endsValue x = false) (hstops : StopsInside later) :
    Commented ns ((braced ns).splice span new) := by
  obtain ⟨shape, inside, more, rfl, hcomment⟩ := hstops
  obtain ⟨after, hvalue⟩ := h.legible_value hlegible
  rw [hcut] at hvalue
  obtain ⟨upTo, l, rest, hinside, hupTo, hl, hpassed⟩ := passed_inside hvalue hbefore hcomment
  have hsplit : lexemesOf (value ++ behind) = (lexemesOf before ++ shape.opening :: upTo) ++
      (l :: (rest ++ shape.closing :: lexemesOf (more ++ behind))) := by
    rw [hcut]
    simp [Node.lexemes, hinside]
  have hfound : ∀ m ∈ lexemesOf before ++ shape.opening :: upTo, m.isComment = false := by
    rw [lexemesOf_append] at hvalue
    refine List.forall_mem_append.2 ⟨not_isComment (legible_append.1 hvalue).1 1 fun x hx =>
      not_comment_of_passed (hbefore x hx), List.forall_mem_cons.2 ⟨by cases shape <;> rfl, hupTo⟩⟩
  have hlegibleFound := hlegible
  rw [h.nodes, lexemesOf_append, hsplit] at hlegibleFound
  obtain ⟨body, gap, hbody, hgap, htrim⟩ :=
    exists_trimmed (legible_append.1 (legible_append.1 hlegibleFound).2).1 hfound
  rw [← hpassed, ← hcut] at htrim
  rw [hbody, List.append_assoc] at hsplit
  have hfirst : ∀ m, (gap ++ l :: (rest ++ shape.closing :: lexemesOf (more ++ behind))).head? = some m →
      m.isClosed = true ∨ m.kind = .trivia .lineComment := by
    intro m hm
    cases gap with
    | nil =>
        obtain rfl := Option.some.inj hm
        simp only [Lexeme.isComment, Bool.or_eq_true, beq_iff_eq] at hl
        obtain hl | hl := hl
        · exact .inr hl
        · exact .inl (by simp [Lexeme.isClosed, hl])
    | cons g gs =>
        obtain rfl := Option.some.inj hm
        have hg : g.kind = .trivia .blank := by simpa [Lexeme.isBlank] using hgap g List.mem_cons_self
        exact .inl (by simp [Lexeme.isClosed, hg])
  obtain ⟨henclosed, hcomments⟩ := h.exchanged hlegible hnew htrim hsplit
    (fun m hm => hfound m (by rw [hbody]; exact List.mem_append_left _ hm)) hfirst
  refine .cut henclosed hcomments fun hwhole => ?_
  obtain ⟨x, hx, hk⟩ := hcomment
  exact hwhole shape inside (by rw [h.nodes, hcut]; simp) x hx hk

end FoundAt

/-- Comments among white space and comments, as nodes and as lexemes. -/
theorem Blank.filter_isComment {ns : List Node} (h : Blank ns) :
    (lexemesOf ns).filter Lexeme.isComment = lexemesOf (ns.filter isComment) := by
  induction ns with
  | nil => rfl
  | cons n ns ih =>
      have hns := ih fun m hm => h m (List.mem_cons_of_mem _ hm)
      have hn := h n List.mem_cons_self
      cases n with
      | leaf l plain =>
          rw [lexemesOf_cons, Node.lexemes, List.singleton_append, List.filter_cons, List.filter_cons, hns]
          change (if l.isComment = true then _ else _) = lexemesOf (if l.isComment = true then _ else _)
          split <;> rfl
      | comma => cases hn
      | group shape inside => cases hn

theorem no_group_of_blank {ns : List Node} (h : Blank ns) {shape : Bracket} {inside : List Node} :
    .group shape inside ∉ ns := fun hmem => by
  have := h _ hmem
  cases this

theorem mem_commaBehind {front : List Node} {n : Node} (h : n ∈ commaBehind front) : n = .comma := by
  unfold commaBehind at h
  split at h
  · cases h
  · cases h
  · exact List.mem_singleton.1 h

section

variable {ns : List Node} (h : Legible (lexemesOf ns) ['}']) {e : PropertyEdit} (hkey : IsKey e.key)
  (hvalue : IsDigits e.value)

include h hkey hvalue

/-- A property that is added. -/
theorem commented_append : Commented ns (append (braced ns) e.text) := by
  obtain ⟨front, back, lead, trail, hplace, -, -, htext⟩ := exists_place h e.text
  have hlead := hplace.blank_lead
  have htrail := hplace.blank_trail
  refine .nodes ⟨?_, hplace.legible h hkey.bare hvalue⟩ ?_ ?_
  · rw [htext, ← textOf_propertyNodes, ← textOf]
    simp
  · have hadded : (lexemesOf (propertyNodes e.key e.value)).filter Lexeme.isComment = [] := rfl
    have hcomma : (lexemesOf (commaBehind front)).filter Lexeme.isComment = [] := by
      unfold commaBehind
      split <;> rfl
    have hblank : (lexemesOf back).filter Lexeme.isComment =
        (lexemesOf lead).filter Lexeme.isComment ++ (lexemesOf trail).filter Lexeme.isComment := by
      have hboth : Blank (lead ++ trail) := List.forall_mem_append.2 ⟨hlead, htrail⟩
      rw [← List.filter_append, ← lexemesOf_append, Blank.filter_isComment hboth, hplace.comments,
        Blank.filter_isComment hplace.blank_back]
    rw [hplace.nodes]
    simp only [lexemesOf_append, List.filter_append, hadded, hcomma, hblank, List.nil_append,
      List.append_assoc]
  · intro shape inside hmem
    rw [hplace.nodes]
    simp only [List.mem_append] at hmem ⊢
    obtain (hmem | hmem) | (hmem | hmem) | hmem := hmem
    · exact .inl hmem
    · cases mem_commaBehind hmem
    · exact absurd hmem (no_group_of_blank hlead)
    · simp [propertyNodes, nameNode, colonNode, Node.space, Node.number] at hmem
    · exact absurd hmem (no_group_of_blank htrail)

/-- A property that is written, if need be in place of its value. -/
theorem commented_write (overwrite : Bool) : Commented ns (write overwrite (braced ns) e) := by
  unfold write
  split
  · rename_i span hspan
    split
    · obtain ⟨front, value, behind, hfound⟩ := valueSpan?_foundAt hkey h hspan
      obtain ⟨after, hlegible⟩ := hfound.legible_value h
      obtain ⟨before, later, hcut, hbefore, hstops | hinside⟩ := exists_cut hlegible hfound.uncut
      · exact hfound.commented_nodes h hvalue hcut hbefore hstops
      · exact hfound.commented_cut h hvalue hcut hbefore hinside
    · exact .refl h
  · exact commented_append h hkey hvalue

end

/-- Properties written into an object without a comment inside the brackets that it holds. -/
theorem commented_writeAll {ns : List Node} (h : Legible (lexemesOf ns) ['}']) (hwhole : Whole ns)
    (overwrite : Bool) {edits : List PropertyEdit} (hedits : ∀ e ∈ edits, IsKey e.key ∧ IsDigits e.value) :
    Commented ns (writeAll overwrite (braced ns) edits) := by
  induction edits generalizing ns with
  | nil => exact .refl h
  | cons e edits ih =>
      obtain ⟨hkey, hvalue⟩ := hedits e List.mem_cons_self
      rw [writeAll, List.foldl_cons, ← writeAll]
      cases commented_write h hkey hvalue overwrite with
      | @nodes ns' henclosed hcomments hgroups =>
          have hwhole' : Whole ns' := fun shape inside hmem => hwhole shape inside (hgroups shape inside hmem)
          have htext : write overwrite (braced ns) e = braced ns' := henclosed.text
          rw [htext]
          cases ih henclosed.legible hwhole' fun e' he => hedits e' (List.mem_cons_of_mem _ he) with
          | nodes henclosed' hcomments' hgroups' =>
              exact .nodes henclosed' (hcomments'.trans hcomments) fun shape inside hmem =>
                hgroups shape inside (hgroups' shape inside hmem)
          | cut henclosed' hcomments' hnested => exact absurd hwhole' hnested
      | cut henclosed hcomments hnested => exact absurd hwhole hnested

/-- Whether a comment stands inside brackets that an object holds. -/
def nestsComment (t : Text) : Bool := commentInside 0 (scan t.tail.dropLast).1

/-- The comments of an object stay when properties are written into it, whatever it holds: those of any
object if one property is written, and if more are, those of an object without a comment inside the
brackets that it holds. -/
theorem writeAll_comments {t : Text} {ts : List Token} (h : Braces t ts) (hnested : WellNested ts)
    (overwrite : Bool) {edits : List PropertyEdit} (hedits : ∀ e ∈ edits, IsKey e.key ∧ IsDigits e.value)
    (hflat : edits.length ≤ 1 ∨ nestsComment t = false) :
    (∃ ts', Braces (writeAll overwrite t edits) ts') ∧
      comments (writeAll overwrite t edits) = comments t := by
  obtain ⟨ls, henclosed, rfl⟩ := h.enclosed
  obtain ⟨ns, rfl⟩ := (wellNested_iff henclosed.legible.spelled 1).1 hnested
  obtain rfl : t = braced ns := henclosed.text
  have hlegible := henclosed.legible
  have hcommented : Commented ns (writeAll overwrite (braced ns) edits) := by
    obtain hshort | hflat := hflat
    · cases edits with
      | nil => exact .refl hlegible
      | cons e edits =>
          obtain rfl : edits = [] := List.eq_nil_of_length_eq_zero (by simpa using hshort)
          obtain ⟨hkey, hvalue⟩ := hedits e List.mem_cons_self
          exact commented_write hlegible hkey hvalue overwrite
    · refine commented_writeAll hlegible (whole_of_scan hlegible.alone ?_) overwrite hedits
      have hinner : (braced ns).tail.dropLast = textOf ns := by simp [braced]
      rwa [nestsComment, hinner] at hflat
  rw [henclosed.comments_eq]
  cases hcommented with
  | nodes henclosed' hcomments => exact ⟨⟨_, henclosed'.braces⟩, henclosed'.comments_eq.trans hcomments⟩
  | cut henclosed' hcomments => exact ⟨⟨_, henclosed'.braces⟩, henclosed'.comments_eq.trans hcomments⟩

/-- A value is cut before the comment in its brackets, and the comment stays. -/
theorem writeAll_comments_cut :
    ∃ ts ts', Braces "\x7b a: [/* b */ 1], // c\n \x7d".toList ts ∧ WellNested ts ∧
      nestsComment "\x7b a: [/* b */ 1], // c\n \x7d".toList = true ∧
      writeAll true "\x7b a: [/* b */ 1], // c\n \x7d".toList [⟨['a'], "640".toList⟩] =
        "\x7b a: 640/* b */ 1], // c\n \x7d".toList ∧
      Braces "\x7b a: 640/* b */ 1], // c\n \x7d".toList ts' ∧
      comments "\x7b a: 640/* b */ 1], // c\n \x7d".toList =
        [⟨.trivia .blockComment, "/* b */".toList⟩, ⟨.trivia .lineComment, "// c".toList⟩] := by
  have hbraces : Braces "\x7b a: [/* b */ 1], // c\n \x7d".toList
      [⟨.ident, ['a'], 2⟩, ⟨.colon, [':'], 3⟩, ⟨.lbracket, ['['], 5⟩, ⟨.number, ['1'], 14⟩,
        ⟨.rbracket, [']'], 15⟩, ⟨.comma, [','], 16⟩] :=
    ⟨⟨.lbrace, ['{'], 0⟩, ⟨.rbrace, ['}'], 24⟩, by cbv, rfl, rfl, rfl, rfl⟩
  have hnested : WellNested [⟨.ident, ['a'], 2⟩, ⟨.colon, [':'], 3⟩, ⟨.lbracket, ['['], 5⟩,
      ⟨.number, ['1'], 14⟩, ⟨.rbracket, [']'], 15⟩, ⟨.comma, [','], 16⟩] :=
    .token rfl rfl (.token rfl rfl (@WellNested.group _ _ .square [_] _ rfl rfl
      (.token rfl rfl .nil) (.token rfl rfl .nil)))
  have hwrite : writeAll true "\x7b a: [/* b */ 1], // c\n \x7d".toList [⟨['a'], "640".toList⟩] =
      "\x7b a: 640/* b */ 1], // c\n \x7d".toList := by cbv
  obtain ⟨⟨ts', hbraces'⟩, hcomments⟩ := @writeAll_comments _ _ hbraces hnested true
    [⟨['a'], "640".toList⟩] (by
      rw [List.forall_mem_singleton]
      exact ⟨⟨⟨'a', [], rfl, by decide⟩, List.all_eq_true.1 (by decide)⟩, by decide,
        List.all_eq_true.1 (by decide)⟩) (.inl (Nat.le_refl 1))
  rw [hwrite] at hbraces' hcomments
  refine ⟨_, ts', hbraces, hnested, by cbv, hwrite, hbraces', hcomments.trans ?_⟩
  cbv

end ObjectText
end PugSize
