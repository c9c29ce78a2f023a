import PugSize.Proofs.Script.Nesting
import PugSize.Script.Descent

/-!
The trees that tokens make, told by the tokens from the left. The tokens of nodes make the trees of the
nodes, so tokens that have segments make them.
-/

namespace PugSize.Script

mutual

/-- Tokens without a comma outside their brackets, and the trees that they make. -/
inductive Segment : List Token → List Tree → Prop
  | nil : Segment [] []
  | leaf {t : Token} {ts : List Token} {trees : List Tree} (hopens : t.kind.opens? = none)
      (hdelimits : t.kind.delimits = false) (later : Segment ts trees) : Segment (t :: ts) (.leaf t :: trees)
  | group {opening closing : Token} {shape : Bracket} {inside ts : List Token} {segs : List (List Tree)}
      {trees : List Tree} (hopens : opening.kind.opens? = some shape)
      (hcloses : closing.kind.closes? = some shape) (within : Segments inside segs)
      (later : Segment ts trees) :
      Segment (opening :: (inside ++ closing :: ts))
        (.group shape ⟨opening.start, closing.stop⟩ segs :: trees)

/-- Tokens with commas between their segments. -/
inductive Segments : List Token → List (List Tree) → Prop
  | last {ts : List Token} {trees : List Tree} (h : Segment ts trees) : Segments ts [trees]
  | comma {t : Token} {ts more : List Token} {trees : List Tree} {segs : List (List Tree)}
      (h : Segment ts trees) (hcomma : t.kind = .comma) (later : Segments more segs) :
      Segments (ts ++ t :: more) (trees :: segs)

end

namespace TokenKind

variable {kind : TokenKind} {shape : Bracket}

theorem delimits_of_opens? (h : kind.opens? = some shape) : kind.delimits = false := by
  cases kind <;> first | rfl | cases h

theorem delimits_of_closes? (h : kind.closes? = some shape) : kind.delimits = true := by
  rw [delimits, h, Option.isSome_some, Bool.or_true]

theorem closes?_of_delimits (h : kind.delimits = false) : kind.closes? = none := by
  cases hcloses : kind.closes? with
  | none => rfl
  | some shape =>
      rw [delimits_of_closes? hcloses] at h
      cases h

theorem ne_of_delimits {kind' : TokenKind} (h : kind.delimits = false) (h' : kind'.delimits = true) :
    kind ≠ kind' := by
  rintro rfl
  rw [h] at h'
  cases h'

theorem ne_of_opens? {kind' : TokenKind} (h : kind.opens? = some shape) (h' : kind'.opens? = none) :
    kind ≠ kind' := by
  rintro rfl
  rw [h] at h'
  cases h'

theorem eq_of_opens? {kind' : TokenKind} (h : kind.opens? = some shape)
    (h' : kind'.opens? = some shape) : kind = kind' := by
  cases kind <;> cases h <;> cases kind' <;> cases h' <;> rfl

theorem eq_of_closes? {kind' : TokenKind} (h : kind.closes? = some shape)
    (h' : kind'.closes? = some shape) : kind = kind' := by
  cases kind <;> cases h <;> cases kind' <;> cases h' <;> rfl

end TokenKind

theorem Tree.lastStop_cons (t u : Tree) (rest : List Tree) : t.lastStop (u :: rest) = u.lastStop rest := by
  rw [Tree.lastStop, Tree.lastStop, List.getLast?_cons, Option.getD_some]

namespace Segment

theorem eq_nil {ts : List Token} (h : Segment ts []) : ts = [] := by
  cases h
  rfl

/-- The last of some trees ends where the last of their tokens does, the token of a tree before them if they
are none. -/
theorem lastStop {before : Token} (tree : Tree) (hbefore : before.stop = tree.span.stop) :
    {ts : List Token} → {trees : List Tree} → Segment ts trees →
      ∃ last, (before :: ts).getLast? = some last ∧ last.stop = tree.lastStop trees
  | _, _, .nil => ⟨before, rfl, hbefore⟩
  | _, _, @leaf t _ _ _ _ later => by
      obtain ⟨last, hlast, hstop⟩ := lastStop (.leaf t) rfl later
      exact ⟨last, by rw [List.getLast?_cons_cons, hlast], by rw [hstop, Tree.lastStop_cons]⟩
  | _, _, @group opening closing shape _ _ segs _ _ _ _ later => by
      obtain ⟨last, hlast, hstop⟩ :=
        lastStop (.group shape ⟨opening.start, closing.stop⟩ segs) rfl later
      refine ⟨last, ?_, by rw [hstop, Tree.lastStop_cons]⟩
      rw [List.getLast?_cons_cons, ← List.cons_append, List.getLast?_append, hlast, Option.some_or]

/-- The trees of a segment begin and end where the tokens do, and the first token is no delimiter. -/
theorem bounds {ts : List Token} {tree : Tree} {trees : List Tree} (h : Segment ts (tree :: trees)) :
    ∃ first last, ts.head? = some first ∧ ts.getLast? = some last ∧ first.kind.delimits = false ∧
      first.start = tree.span.start ∧ last.stop = tree.lastStop trees := by
  cases h with
  | @leaf t ts _ hopens hdelimits later =>
      obtain ⟨last, hlast, hstop⟩ := lastStop (.leaf t) rfl later
      exact ⟨t, last, rfl, hlast, hdelimits, rfl, hstop⟩
  | @group opening closing shape inside ts segs _ hopens hcloses within later =>
      obtain ⟨last, hlast, hstop⟩ :=
        lastStop (.group shape ⟨opening.start, closing.stop⟩ segs) rfl later
      refine ⟨opening, last, rfl, ?_, TokenKind.delimits_of_opens? hopens, rfl, hstop⟩
      rw [← List.cons_append, List.getLast?_append, hlast, Option.some_or]

end Segment

namespace Segments

theorem ne_nil {ts : List Token} {segs : List (List Tree)} (h : Segments ts segs) : segs ≠ [] := by
  cases h <;> exact List.cons_ne_nil _ _

theorem leaf {t : Token} {ts : List Token} {segs : List (List Tree)} (hopens : t.kind.opens? = none)
    (hdelimits : t.kind.delimits = false) (h : Segments ts segs) :
    Segments (t :: ts) (consTree (some (.leaf t)) segs) := by
  cases h with
  | last h => exact .last (.leaf hopens hdelimits h)
  | comma h hcomma later => exact .comma (.leaf hopens hdelimits h) hcomma later

theorem group {opening closing : Token} {shape : Bracket} {inside ts : List Token}
    {inner segs : List (List Tree)} (hopens : opening.kind.opens? = some shape)
    (hcloses : closing.kind.closes? = some shape) (within : Segments inside inner) (h : Segments ts segs) :
    Segments (opening :: (inside ++ closing :: ts))
      (consTree (some (.group shape ⟨opening.start, closing.stop⟩ inner)) segs) := by
  cases h with
  | last h => exact .last (.group hopens hcloses within h)
  | comma h hcomma later =>
      have := Segments.comma (.group hopens hcloses within h) hcomma later
      rwa [List.cons_append, List.append_assoc, List.cons_append] at this

end Segments

/-- The tokens of nodes make the trees of the nodes. -/
theorem segments_lexemesOf (offset : Nat) :
    (ns : List Node) → Segments (Token.ofLexemes offset (lexemesOf ns)) (place offset ns)
  | [] => .last .nil
  | .comma :: ns => .comma .nil rfl (segments_lexemesOf (offset + 1) ns)
  | .leaf l plain :: ns => by
      rw [lexemesOf_cons, Node.lexemes, List.singleton_append, ofLexemes_leaf, place]
      have hlater := segments_lexemesOf (offset + l.text.width) ns
      obtain ⟨kind, text⟩ := l
      cases kind with
      | trivia kind => exact hlater
      | token kind =>
          obtain ⟨⟨hopens, hcloses⟩, hcomma⟩ : (kind.opens? = none ∧ kind.closes? = none) ∧ kind ≠ .comma := by
            simpa [Lexeme.isPlain] using plain
          exact hlater.leaf hopens (by simp [TokenKind.delimits, hcloses, hcomma])
  | .group shape inside :: ns => by
      obtain ⟨opening, closing, htokens, hopens, hcloses, hstart, hstop⟩ :=
        ofLexemes_group offset shape inside
      have hwidth : (written (Node.group shape inside).lexemes).width = widthOf inside + 2 := by
        rw [← widthOf_group shape inside, widthOf, textOf, lexemesOf_cons, lexemesOf_nil, List.append_nil]
      have hgroup := Segments.group hopens hcloses (segments_lexemesOf (offset + 1) inside)
        (segments_lexemesOf (offset + (widthOf inside + 2)) ns)
      rw [hstart, hstop] at hgroup
      rw [lexemesOf_cons, ofLexemes_append, htokens, hwidth, List.append_assoc, List.singleton_append,
        List.cons_append, place, Node.tree?]
      exact hgroup
  termination_by ns => sizeOf ns

/-- Tokens that have segments make them. -/
theorem segments_of_eq_some {ls : List Lexeme} (hspelled : Spelled ls) {offset : Nat}
    {segs : List (List Tree)} (h : segments? (Token.ofLexemes offset ls) = some segs) :
    Segments (Token.ofLexemes offset ls) segs := by
  obtain ⟨ns, rfl, rfl⟩ := (segments?_eq_some hspelled).1 h
  exact segments_lexemesOf offset ns

end PugSize.Script
