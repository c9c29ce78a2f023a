import PugSize.Proofs.Script.Nesting

/-!
The value of a property. It is the end of the core of its row, so it is told from the core, wherever the
row stands; behind a colon it is an expression that is read by itself.
-/

namespace PugSize.Script

def Bracket.closingKind : Bracket → TokenKind
  | .round => .rparen
  | .square => .rbracket
  | .curly => .rbrace

/-- The kind of the last token of a tree. -/
def Tree.lastKind : Tree → TokenKind
  | .leaf t => t.kind
  | .group shape _ _ => shape.closingKind

/-- The kind of the last token of nodes, if there is one. -/
def lastKind? (ns : List Node) : Option TokenKind :=
  (Token.ofLexemes 0 (lexemesOf ns)).getLast?.map Token.kind

theorem map_kind_ofLexemes (offset : Nat) (ls : List Lexeme) :
    (Token.ofLexemes offset ls).map Token.kind = (Token.ofLexemes 0 ls).map Token.kind := by
  induction ls generalizing offset with
  | nil => rfl
  | cons l ls ih =>
      rw [Token.ofLexemes, Token.ofLexemes]
      split
      · rw [List.map_cons, List.map_cons, ih (offset + _), ih (0 + _)]
      · exact (ih _).trans (ih _).symm

theorem lastKind?_append (as bs : List Node) :
    lastKind? (as ++ bs) = (lastKind? bs).or (lastKind? as) := by
  simp only [lastKind?, ← List.getLast?_map]
  rw [lexemesOf_append, ofLexemes_append, List.map_append, List.getLast?_append, map_kind_ofLexemes]

theorem Node.lastKind?_eq {n : Node} (hcomma : n.isComma = false) (offset : Nat) :
    lastKind? [n] = (n.tree? offset).map Tree.lastKind := by
  cases n with
  | leaf l plain =>
      obtain ⟨kind, text⟩ := l
      cases kind <;> rfl
  | comma => cases hcomma
  | group shape inside =>
      rw [lastKind?, lexemesOf_cons, lexemesOf_nil, List.append_nil, Node.lexemes, List.cons_append,
        ofLexemes_leaf, ofLexemes_append, ← List.append_assoc]
      cases shape <;> exact congrArg (Option.map Token.kind) List.getLast?_concat

/-- The last token of nodes is that of their last tree. -/
theorem lastKind?_eq {ns : List Node} (huncut : Uncut ns) (offset : Nat) :
    lastKind? ns = (placeRow offset ns).getLast?.map Tree.lastKind := by
  induction ns generalizing offset with
  | nil => rfl
  | cons n ns ih =>
      have hlater := ih (fun m hm => huncut m (List.mem_cons_of_mem _ hm)) (offset + widthOf [n])
      have hn := n.lastKind?_eq (huncut n List.mem_cons_self) offset
      have hnodes : n :: ns = [n] ++ ns := rfl
      rw [hnodes, lastKind?_append, hlater, hn, ← hnodes, placeRow, List.getLast?_append, Option.map_or]
      congr 1
      cases n.tree? offset <;> rfl

/-- A value at the end of trees; behind a colon it is the expression of the trees there. -/
def EndsIn (ts : List Tree) (value : Expr) : Prop :=
  ∃ init u rest, ts = init ++ u :: rest ∧ value.span = ⟨u.span.start, u.lastStop rest⟩ ∧
    (init.getLast?.map Tree.lastKind = some .colon → segmentExpr? false (u :: rest) = some value)

theorem propertyValue?_ends {ts : List Tree} {value : Expr} (h : propertyValue? ts = some value)
    {key : Tree} (hkey : key.lastKind ≠ .colon) : EndsIn (key :: ts) value := by
  have hbefore (u : Tree) (rest : List Tree) (hspan : value.span = ⟨u.span.start, u.lastStop rest⟩) :
      EndsIn (key :: u :: rest) value :=
    ⟨[key], u, rest, rfl, hspan, fun hcolon => absurd (Option.some.inj hcolon) hkey⟩
  cases ts with
  | nil => cases h
  | cons t rest =>
      cases t with
      | leaf t =>
          rw [propertyValue?] at h
          split at h
          · cases rest with
            | nil => cases h
            | cons u rest => exact ⟨[key, .leaf t], u, rest, rfl, segmentExpr?_span h, fun _ => h⟩
          · cases h
            exact hbefore _ _ rfl
      | group shape span segs =>
          cases h
          exact hbefore _ _ rfl

theorem Token.key?_ne_colon {t : Token} {key : Text} (h : t.key? = some key) : t.kind ≠ .colon := by
  intro hkind
  rw [Token.key?, hkind] at h
  cases h

/-- The value of a property is the end of its segment. -/
theorem property?_ends {ts : List Tree} {p : Property Expr} (h : property? ts = some p) :
    EndsIn ts p.value := by
  cases ts with
  | nil => cases h
  | cons t rest =>
      cases t with
      | leaf t =>
          rw [property?] at h
          split at h
          · obtain ⟨e, -, rfl⟩ := Option.map_eq_some_iff.1 h
            exact ⟨[], .leaf t, rest, rfl, rfl, nofun⟩
          · obtain ⟨key, hkey, hform⟩ := Option.bind_eq_some_iff.1 h
            split at hform
            · rename_i hempty
              obtain rfl := List.isEmpty_iff.1 hempty
              split at hform
              · cases hform
                exact ⟨[], .leaf t, [], rfl, rfl, nofun⟩
              · cases hform
            · obtain ⟨value, hvalue, rfl⟩ := Option.map_eq_some_iff.1 hform
              exact propertyValue?_ends hvalue (Token.key?_ne_colon hkey)
      | group shape span segs =>
          rw [property?] at h
          split at h
          · obtain ⟨value, hvalue, rfl⟩ := Option.map_eq_some_iff.1 h
            exact propertyValue?_ends hvalue (by cases shape <;> exact nofun)
          · cases h

/-- The last trees of nodes are those of the last nodes. -/
theorem exists_behind {offset : Nat} {ns : List Node} {init rest : List Tree} {u : Tree} (huncut : Uncut ns)
    (hlast : ∃ n, ns.getLast? = some n ∧ n.isTrivia = false)
    (h : placeRow offset ns = init ++ u :: rest) :
    ∃ before after, ns = before ++ after ∧ Solid after ∧
      placeRow (offset + widthOf before) after = u :: rest := by
  induction ns generalizing offset init with
  | nil =>
      obtain ⟨n, hn, -⟩ := hlast
      cases hn
  | cons n ns ih =>
      have hlater {init' : List Tree}
          (hrest : placeRow (offset + widthOf [n]) ns = init' ++ u :: rest) :
          ∃ before after, n :: ns = before ++ after ∧ Solid after ∧
            placeRow (offset + widthOf before) after = u :: rest := by
        have hne : ns ≠ [] := by
          rintro rfl
          exact List.append_ne_nil_of_right_ne_nil init' (List.cons_ne_nil u rest) hrest.symm
        obtain ⟨m, ms, rfl⟩ := List.exists_cons_of_ne_nil hne
        rw [List.getLast?_cons_cons] at hlast
        obtain ⟨before, after, hparts, hafter, htrees⟩ :=
          ih (fun x hx => huncut x (List.mem_cons_of_mem _ hx)) hlast hrest
        refine ⟨n :: before, after, by rw [hparts]; rfl, hafter, ?_⟩
        rw [widthOf_cons, ← Nat.add_assoc]
        exact htrees
      rw [placeRow] at h
      by_cases htrivia : n.isTrivia = true
      · rw [Node.tree?_of_isTrivia htrivia] at h
        exact hlater h
      · rw [Bool.not_eq_true] at htrivia
        obtain ⟨t, ht, -⟩ := Node.tree?_solid htrivia (huncut n List.mem_cons_self) offset
        rw [ht, Option.toList_some, List.singleton_append] at h
        cases init with
        | nil =>
            refine ⟨[], n :: ns, rfl, ⟨huncut, ⟨n, rfl, htrivia⟩, hlast⟩, ?_⟩
            rw [widthOf_nil, Nat.add_zero, placeRow, ht]
            exact h
        | cons v init =>
            obtain ⟨-, hrest⟩ := List.cons.inj h
            exact hlater hrest

/-- The value of a property is the end of its core. -/
theorem Solid.exists_value {core : List Node} (hcore : Solid core) {offset : Nat} {p : Property Expr}
    (h : property? (placeRow offset core) = some p) :
    ∃ part value, core = part ++ value ∧ Solid value ∧
      p.value.span = ⟨offset + widthOf part, offset + widthOf core⟩ ∧
      (lastKind? part = some .colon →
        segmentExpr? false (placeRow (offset + widthOf part) value) = some p.value) := by
  obtain ⟨init, u, rest, htrees, hspan, hread⟩ := property?_ends h
  obtain ⟨part, value, rfl, hvalue, hplace⟩ := exists_behind hcore.uncut hcore.last htrees
  have hinit : placeRow offset part = init := by
    rw [placeRow_append, hplace] at htrees
    exact List.append_cancel_right htrees
  have huncut : Uncut part := fun n hn => hcore.uncut n (List.mem_append_left _ hn)
  obtain ⟨t, ts, heq, hstart, hstop⟩ := hvalue.placeRow_eq (offset + widthOf part)
  rw [heq] at hplace
  obtain ⟨rfl, rfl⟩ := List.cons.inj hplace
  refine ⟨part, value, rfl, hvalue, by rw [hspan, hstart, hstop, widthOf_append, Nat.add_assoc], ?_⟩
  rw [lastKind?_eq huncut offset, hinit, heq]
  exact hread

end PugSize.Script
