import PugSize.Script.Expr
import PugSize.Proofs.Script.Nodes

/-!
Reading does not depend on where a text stands. Trees moved by some bytes read as the same
expressions, moved by as many bytes.
-/

namespace PugSize

namespace Span

theorem shift_stop (s : Span) (n : Nat) : (s.shift n).stop = s.stop + n := rfl

end Span

namespace Script

def Token.shift (n : Nat) (t : Token) : Token := { t with start := t.start + n }

theorem Token.span_shift (n : Nat) (t : Token) : (t.shift n).span = t.span.shift n := by
  simp only [Token.span, Token.stop, Token.shift, Span.shift, Span.mk.injEq, true_and]
  omega

mutual

def Tree.shift (n : Nat) : Tree → Tree
  | .leaf t => .leaf (t.shift n)
  | .group shape span segs => .group shape (span.shift n) (Tree.shiftSegments n segs)

def Tree.shiftSegment (n : Nat) : List Tree → List Tree
  | [] => []
  | t :: ts => t.shift n :: Tree.shiftSegment n ts

def Tree.shiftSegments (n : Nat) : List (List Tree) → List (List Tree)
  | [] => []
  | ts :: segs => Tree.shiftSegment n ts :: Tree.shiftSegments n segs

end

mutual

def Expr.shift (n : Nat) : Expr → Expr
  | .str value span => .str value (span.shift n)
  | .number span => .number (span.shift n)
  | .keyword word span => .keyword word (span.shift n)
  | .array elements span => .array (Expr.shiftElements n elements) (span.shift n)
  | .object props span => .object (Expr.shiftProperties n props) (span.shift n)
  | .other span => .other (span.shift n)

def Expr.shiftElements (n : Nat) : List Expr → List Expr
  | [] => []
  | e :: es => e.shift n :: Expr.shiftElements n es

def Expr.shiftProperties (n : Nat) : List (Property Expr) → List (Property Expr)
  | [] => []
  | ⟨key, span, value⟩ :: ps => ⟨key, span.shift n, value.shift n⟩ :: Expr.shiftProperties n ps

end

def Property.shift (n : Nat) (p : Property Expr) : Property Expr :=
  ⟨p.key, p.span.shift n, p.value.shift n⟩

theorem Expr.shiftProperties_eq (n : Nat) (ps : List (Property Expr)) :
    Expr.shiftProperties n ps = ps.map (Property.shift n) := by
  induction ps with
  | nil => rfl
  | cons p ps ih => rw [Expr.shiftProperties, ih, List.map_cons, Property.shift]

theorem Tree.shiftSegment_eq (n : Nat) (ts : List Tree) :
    Tree.shiftSegment n ts = ts.map (Tree.shift n) := by
  induction ts with
  | nil => rfl
  | cons t ts ih => rw [Tree.shiftSegment, ih, List.map_cons]

theorem Tree.shiftSegments_eq (n : Nat) (segs : List (List Tree)) :
    Tree.shiftSegments n segs = segs.map (Tree.shiftSegment n) := by
  induction segs with
  | nil => rfl
  | cons ts segs ih => rw [Tree.shiftSegments, ih, List.map_cons]

theorem Tree.span_shift (n : Nat) (t : Tree) : (t.shift n).span = t.span.shift n := by
  cases t with
  | leaf t => exact Token.span_shift n t
  | group shape span segs => rfl

theorem Tree.lastStop_shift (n : Nat) (t : Tree) (rest : List Tree) :
    (t.shift n).lastStop (Tree.shiftSegment n rest) = t.lastStop rest + n := by
  rw [Tree.shiftSegment_eq, Tree.lastStop, Tree.lastStop, List.getLast?_map]
  cases rest.getLast? with
  | none => rw [Option.map_none, Option.getD_none, Option.getD_none, Tree.span_shift, Span.shift_stop]
  | some u => rw [Option.map_some, Option.getD_some, Option.getD_some, Tree.span_shift, Span.shift_stop]

theorem Expr.span_shift (n : Nat) (e : Expr) : (e.shift n).span = e.span.shift n := by
  cases e <;> rfl

theorem Expr.str?_shift (n : Nat) (e : Expr) : (e.shift n).str? = e.str? := by
  cases e <;> rfl

theorem Tree.isEmpty_shiftSegment (n : Nat) (ts : List Tree) :
    (Tree.shiftSegment n ts).isEmpty = ts.isEmpty := by
  cases ts <;> rfl

theorem Tree.isEmpty_shiftSegments (n : Nat) (segs : List (List Tree)) :
    (Tree.shiftSegments n segs).isEmpty = segs.isEmpty := by
  cases segs <;> rfl

theorem Expr.ofToken_shift (n : Nat) (t : Token) :
    Expr.ofToken (t.shift n) = (Expr.ofToken t).shift n := by
  obtain ⟨kind, text, start⟩ := t
  have hspan : Token.span ⟨kind, text, start + n⟩ = (Token.span ⟨kind, text, start⟩).shift n :=
    Token.span_shift n ⟨kind, text, start⟩
  change Expr.ofToken ⟨kind, text, start + n⟩ = (Expr.ofToken ⟨kind, text, start⟩).shift n
  simp only [Expr.ofToken, hspan]
  cases kind
  case ident =>
    by_cases hword : text ∈ keywords
    · simp only [hword, if_true, Expr.shift]
    · simp only [hword, if_false, Expr.shift]
  all_goals rfl

theorem Expr.ofLeaf_shift (n : Nat) (t : Token) (rest : List Tree) :
    Expr.ofLeaf (t.shift n) (Tree.shiftSegment n rest) = (Expr.ofLeaf t rest).shift n := by
  rw [Expr.ofLeaf, Expr.ofLeaf, Tree.isEmpty_shiftSegment]
  split
  · exact Expr.ofToken_shift n t
  · simp only [Expr.shift, Span.shift, ← Tree.lastStop_shift, Tree.shift, Token.shift]

theorem Token.key?_shift (n : Nat) (t : Token) : (t.shift n).key? = t.key? := rfl

mutual

theorem Tree.expr?_shift (n : Nat) :
    (t : Tree) → Tree.expr? (t.shift n) = (Tree.expr? t).map (Expr.shift n)
  | .leaf t => by rw [Tree.shift, Tree.expr?, Tree.expr?, Expr.ofToken_shift, Option.map_some]
  | .group .round span segs => rfl
  | .group .square span segs => by
      rw [Tree.shift, Tree.expr?, Tree.expr?, elements?_shift n segs, Option.map_map, Option.map_map]
      congr 1
  | .group .curly span segs => by
      rw [Tree.shift, Tree.expr?, Tree.expr?, properties?_shift n segs, Option.map_map, Option.map_map]
      congr 1

theorem segmentExpr?_shift (n : Nat) (spreads : Bool) :
    (ts : List Tree) → segmentExpr? spreads (Tree.shiftSegment n ts) =
      (segmentExpr? spreads ts).map (Expr.shift n)
  | [] => rfl
  | .leaf t :: rest => by
      rw [Tree.shiftSegment, Tree.shift, segmentExpr?, segmentExpr?]
      by_cases h : spreads = true ∧ t.kind = .spread
      · have h' : spreads = true ∧ (t.shift n).kind = .spread := h
        rw [if_pos h, if_pos h', segmentExpr?_shift n false rest, Option.map_map, Option.map_map]
        congr 1
        funext e
        simp only [Function.comp_apply, Expr.shift, Span.shift, ← Tree.lastStop_shift, Tree.shift,
          Token.shift]
      · have h' : ¬ (spreads = true ∧ (t.shift n).kind = .spread) := h
        rw [if_neg h, if_neg h', Expr.ofLeaf_shift, Option.map_some]
  | .group shape span segs :: rest => by
      rw [Tree.shiftSegment, Tree.shift, segmentExpr?, segmentExpr?, ← Tree.shift,
        Tree.expr?_shift n (.group shape span segs), Option.map_map, Option.map_map,
        Tree.isEmpty_shiftSegment]
      congr 1
      funext e
      simp only [Function.comp_apply]
      split
      · rfl
      · simp only [Expr.shift, Span.shift, ← Tree.lastStop_shift, Tree.shift]

theorem elements?_shift (n : Nat) :
    (segs : List (List Tree)) → elements? (Tree.shiftSegments n segs) =
      (elements? segs).map (Expr.shiftElements n)
  | [] => rfl
  | [] :: later => by
      rw [Tree.shiftSegments, Tree.shiftSegment, elements?, elements?, elements?_shift n later]
  | (t :: rest) :: later => by
      rw [Tree.shiftSegments, Tree.shiftSegment, elements?, elements?, ← Tree.shiftSegment,
        segmentExpr?_shift n true (t :: rest), elements?_shift n later]
      cases segmentExpr? true (t :: rest) with
      | none => rfl
      | some e =>
          simp only [Option.map_some, Option.bind_some, Option.map_map]
          congr 1

theorem propertyValue?_shift (n : Nat) :
    (ts : List Tree) → propertyValue? (Tree.shiftSegment n ts) =
      (propertyValue? ts).map (Expr.shift n)
  | [] => rfl
  | .leaf t :: rest => by
      rw [Tree.shiftSegment, Tree.shift, propertyValue?, propertyValue?,
        segmentExpr?_shift n false rest]
      by_cases h : t.kind = .colon
      · have h' : (t.shift n).kind = .colon := h
        rw [if_pos h, if_pos h']
      · have h' : ¬ (t.shift n).kind = .colon := h
        rw [if_neg h, if_neg h', Option.map_some]
        simp only [Expr.shift, Span.shift, ← Tree.lastStop_shift, Tree.shift, Token.shift]
  | .group shape span segs :: rest => by
      rw [Tree.shiftSegment, Tree.shift, propertyValue?, propertyValue?, Option.map_some]
      simp only [Expr.shift, Span.shift, ← Tree.lastStop_shift, Tree.shift]

theorem property?_shift (n : Nat) :
    (ts : List Tree) → property? (Tree.shiftSegment n ts) = (property? ts).map (Property.shift n)
  | [] => rfl
  | .leaf t :: rest => by
      have hstop : (Tree.leaf (t.shift n)).lastStop (Tree.shiftSegment n rest) =
          (Tree.leaf t).lastStop rest + n := Tree.lastStop_shift n (.leaf t) rest
      rw [Tree.shiftSegment, Tree.shift, property?, property?, hstop, segmentExpr?_shift n false rest,
        propertyValue?_shift n rest, Tree.isEmpty_shiftSegment, Token.key?_shift]
      by_cases h : t.kind = .spread
      · have h' : (t.shift n).kind = .spread := h
        rw [if_pos h, if_pos h', Option.map_map, Option.map_map]
        congr 1
      · have h' : ¬ (t.shift n).kind = .spread := h
        rw [if_neg h, if_neg h']
        cases t.key? with
        | none => rfl
        | some key =>
            simp only [Option.bind_some]
            split
            · have hident : (t.shift n).kind = t.kind := rfl
              rw [hident]
              split
              · rw [Token.span_shift]
                rfl
              · rfl
            · rw [Option.map_map, Option.map_map]
              congr 1
  | .group shape span segs :: rest => by
      have hstop : (Tree.group shape (span.shift n) (Tree.shiftSegments n segs)).lastStop
          (Tree.shiftSegment n rest) = (Tree.group shape span segs).lastStop rest + n :=
        Tree.lastStop_shift n (.group shape span segs) rest
      have hlength : (Tree.shiftSegments n segs).length = segs.length := by
        rw [Tree.shiftSegments_eq, List.length_map]
      rw [Tree.shiftSegment, Tree.shift, property?, property?, hstop, hlength,
        propertyValue?_shift n rest]
      split
      · rw [Option.map_map, Option.map_map]
        congr 1
      · rfl

theorem properties?_shift (n : Nat) :
    (segs : List (List Tree)) → properties? (Tree.shiftSegments n segs) =
      (properties? segs).map (Expr.shiftProperties n)
  | [] => rfl
  | [] :: later => by
      rw [Tree.shiftSegments, Tree.shiftSegment, properties?, properties?,
        Tree.isEmpty_shiftSegments]
      split <;> rfl
  | (t :: rest) :: later => by
      rw [Tree.shiftSegments, Tree.shiftSegment, properties?, properties?, ← Tree.shiftSegment,
        property?_shift n (t :: rest), properties?_shift n later]
      cases property? (t :: rest) with
      | none => rfl
      | some p =>
          simp only [Option.map_some, Option.bind_some, Option.map_map]
          congr 1

end

theorem consTree_shift (n : Nat) (t : Option Tree) (segs : List (List Tree)) :
    Tree.shiftSegments n (consTree t segs) =
      consTree (t.map (Tree.shift n)) (Tree.shiftSegments n segs) := by
  cases t with
  | none => rfl
  | some t => cases segs <;> rfl

/-- The trees of nodes that stand some bytes later are moved by as many bytes. -/
theorem place_shift (n : Nat) (offset : Nat) :
    (ns : List Node) → place (offset + n) ns = Tree.shiftSegments n (place offset ns)
  | [] => rfl
  | .comma :: ns => by
      have hnext : offset + n + 1 = offset + 1 + n := by omega
      rw [place, place, hnext, place_shift n (offset + 1) ns]
      rfl
  | .leaf l plain :: ns => by
      have hnext : offset + n + l.text.width = offset + l.text.width + n := by omega
      have htree : Node.tree? (offset + n) (.leaf l plain) =
          (Node.tree? offset (.leaf l plain)).map (Tree.shift n) := by
        rw [Node.tree?, Node.tree?]
        split <;> rfl
      rw [place, place, hnext, place_shift n (offset + l.text.width) ns, htree, consTree_shift]
  | .group shape inside :: ns => by
      have hnext : offset + n + (widthOf inside + 2) = offset + (widthOf inside + 2) + n := by omega
      have hinside : offset + n + 1 = offset + 1 + n := by omega
      rw [place, place, Node.tree?, Node.tree?, hnext, hinside,
        place_shift n (offset + (widthOf inside + 2)) ns, place_shift n (offset + 1) inside,
        consTree_shift]
      rfl
  termination_by ns => sizeOf ns

end Script
end PugSize
