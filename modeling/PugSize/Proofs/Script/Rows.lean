import PugSize.Proofs.Script.Moved

/-!
Argument lists and objects row by row. The commas part nodes into segments; a segment is blank, or
it is a row, in which white space and comments stand around a solid core. Where each row is read by
itself, only the last segment may be blank.
-/

namespace PugSize.Script

namespace Node

/-- Whether a node is white space or a comment. -/
def isTrivia : Node → Bool
  | .leaf l _ =>
    match l.kind with
    | .trivia _ => true
    | .token _ => false
  | .comma => false
  | .group _ _ => false

def isComma : Node → Bool
  | .comma => true
  | _ => false

theorem tree?_of_isTrivia {n : Node} (h : n.isTrivia = true) (offset : Nat) :
    n.tree? offset = none := by
  cases n with
  | leaf l plain =>
      simp only [isTrivia, tree?] at h ⊢
      split at h
      · rename_i hkind
        rw [hkind]
      · cases h
  | comma => rfl
  | group shape inside => cases h

theorem tree?_solid {n : Node} (htrivia : n.isTrivia = false) (hcomma : n.isComma = false)
    (offset : Nat) : ∃ t, n.tree? offset = some t ∧ t.span = ⟨offset, offset + widthOf [n]⟩ := by
  cases n with
  | leaf l plain =>
      simp only [isTrivia, tree?] at htrivia ⊢
      split at htrivia
      · cases htrivia
      · rename_i kind hkind
        rw [hkind]
        refine ⟨_, rfl, ?_⟩
        rw [Tree.span, Token.span, Token.stop, widthOf_leaf]
  | comma => cases hcomma
  | group shape inside => exact ⟨_, rfl, by rw [Tree.span, widthOf_group]⟩

theorem tree?_shift (n : Node) (m offset : Nat) :
    n.tree? (offset + m) = (n.tree? offset).map (Tree.shift m) := by
  cases n with
  | leaf l plain =>
      rw [tree?, tree?]
      split <;> rfl
  | comma => rfl
  | group shape inside =>
      have hinside : offset + m + 1 = offset + 1 + m := by omega
      have hstop : offset + m + (widthOf inside + 2) = offset + (widthOf inside + 2) + m := by omega
      rw [tree?, tree?, hinside, hstop, place_shift]
      rfl

end Node

/-- Nodes without a comma among them. -/
def Uncut (ns : List Node) : Prop := ∀ n ∈ ns, n.isComma = false

/-- Nodes that are white space and comments. -/
def Blank (ns : List Node) : Prop := ∀ n ∈ ns, n.isTrivia = true

theorem Blank.uncut {ns : List Node} (h : Blank ns) : Uncut ns := by
  intro n hn
  cases n with
  | leaf l plain => rfl
  | comma => exact absurd (h _ hn) (by decide)
  | group shape inside => rfl

/-- The trees of nodes at an offset, commas apart. -/
def placeRow (offset : Nat) : List Node → List Tree
  | [] => []
  | n :: ns => (n.tree? offset).toList ++ placeRow (offset + widthOf [n]) ns

theorem placeRow_append (offset : Nat) (as bs : List Node) :
    placeRow offset (as ++ bs) = placeRow offset as ++ placeRow (offset + widthOf as) bs := by
  induction as generalizing offset with
  | nil => rfl
  | cons a as ih =>
      rw [List.cons_append, placeRow, placeRow, ih, List.append_assoc, widthOf_cons a as,
        Nat.add_assoc offset]

theorem placeRow_blank {ns : List Node} (h : Blank ns) (offset : Nat) : placeRow offset ns = [] := by
  induction ns generalizing offset with
  | nil => rfl
  | cons n ns ih =>
      rw [placeRow, Node.tree?_of_isTrivia (h n List.mem_cons_self),
        ih fun m hm => h m (List.mem_cons_of_mem _ hm)]
      rfl

/-- Nodes of which no tree remains are white space and comments. -/
theorem blank_of_placeRow {ns : List Node} (huncut : Uncut ns) {offset : Nat} (h : placeRow offset ns = []) :
    Blank ns := by
  induction ns generalizing offset with
  | nil => exact nofun
  | cons n ns ih =>
      obtain ⟨hn, hns⟩ := List.forall_mem_cons.1 huncut
      rw [placeRow, List.append_eq_nil_iff] at h
      refine List.forall_mem_cons.2 ⟨?_, ih hns h.2⟩
      apply Classical.byContradiction
      intro htrivia
      obtain ⟨t, ht, -⟩ := Node.tree?_solid (Bool.eq_false_iff.2 htrivia) hn offset
      rw [ht] at h
      cases h.1

theorem placeRow_shift (m offset : Nat) (ns : List Node) :
    placeRow (offset + m) ns = Tree.shiftSegment m (placeRow offset ns) := by
  induction ns generalizing offset with
  | nil => rfl
  | cons n ns ih =>
      have hnext : offset + m + widthOf [n] = offset + widthOf [n] + m := by omega
      rw [placeRow, placeRow, Node.tree?_shift, hnext, ih, Tree.shiftSegment_eq,
        Tree.shiftSegment_eq, List.map_append]
      cases n.tree? offset <;> rfl

theorem consTree_append (t : Option Tree) (ts : List Tree) (segs : List (List Tree)) :
    consTree t (ts :: segs) = (t.toList ++ ts) :: segs := by
  cases t <;> rfl

theorem place_append_comma {ns : List Node} (h : Uncut ns) (offset : Nat) (later : List Node) :
    place offset (ns ++ .comma :: later) =
      placeRow offset ns :: place (offset + widthOf ns + 1) later := by
  induction ns generalizing offset with
  | nil => rfl
  | cons n ns ih =>
      have hih := ih (fun m hm => h m (List.mem_cons_of_mem _ hm)) (offset + widthOf [n])
      have hwidth : offset + widthOf (n :: ns) = offset + widthOf [n] + widthOf ns := by
        rw [widthOf_cons, Nat.add_assoc]
      rw [placeRow, hwidth, List.cons_append]
      cases n with
      | leaf l plain =>
          rw [widthOf_leaf] at hih ⊢
          rw [place, hih, consTree_append]
      | comma => exact absurd (h _ List.mem_cons_self) (by decide)
      | group shape inside =>
          rw [widthOf_group] at hih ⊢
          rw [place, hih, consTree_append]

theorem place_uncut {ns : List Node} (h : Uncut ns) (offset : Nat) :
    place offset ns = [placeRow offset ns] := by
  induction ns generalizing offset with
  | nil => rfl
  | cons n ns ih =>
      have hih := ih (fun m hm => h m (List.mem_cons_of_mem _ hm)) (offset + widthOf [n])
      rw [placeRow]
      cases n with
      | leaf l plain =>
          rw [widthOf_leaf] at hih ⊢
          rw [place, hih, consTree_append]
      | comma => exact absurd (h _ List.mem_cons_self) (by decide)
      | group shape inside =>
          rw [widthOf_group] at hih ⊢
          rw [place, hih, consTree_append]

/-- Segments with a comma between two of them. -/
def commas : List (List Node) → List Node
  | [] => []
  | seg :: segs => seg ++ segs.flatMap (.comma :: ·)

theorem commas_cons (seg : List Node) {segs : List (List Node)} (h : segs ≠ []) :
    commas (seg :: segs) = seg ++ .comma :: commas segs := by
  cases segs with
  | nil => exact absurd rfl h
  | cons s ss => simp [commas]

/-- Nodes parted at the commas. -/
theorem exists_commas (ns : List Node) :
    ∃ segs, segs ≠ [] ∧ (∀ seg ∈ segs, Uncut seg) ∧ commas segs = ns := by
  induction ns with
  | nil => exact ⟨[[]], List.cons_ne_nil _ _, by simp [Uncut], rfl⟩
  | cons n ns ih =>
      obtain ⟨segs, hne, huncut, rfl⟩ := ih
      by_cases hcomma : n.isComma = true
      · have hn : n = .comma := by
          cases n with
          | comma => rfl
          | leaf l plain => cases hcomma
          | group shape inside => cases hcomma
        refine ⟨[] :: segs, List.cons_ne_nil _ _, ?_, ?_⟩
        · intro seg hseg
          obtain rfl | hseg := List.mem_cons.1 hseg
          · exact nofun
          · exact huncut seg hseg
        · rw [commas_cons [] hne, hn]
          rfl
      · cases segs with
        | nil => exact absurd rfl hne
        | cons seg segs =>
            refine ⟨(n :: seg) :: segs, List.cons_ne_nil _ _, ?_, rfl⟩
            intro s hs
            obtain rfl | hs := List.mem_cons.1 hs
            · intro m hm
              obtain rfl | hm := List.mem_cons.1 hm
              · simpa using hcomma
              · exact huncut seg List.mem_cons_self m hm
            · exact huncut s (List.mem_cons_of_mem _ hs)

/-- The trees of segments the first of which stands at an offset. -/
def placeAll (offset : Nat) : List (List Node) → List (List Tree)
  | [] => []
  | seg :: segs => placeRow offset seg :: placeAll (offset + widthOf seg + 1) segs

theorem place_commas {segs : List (List Node)} (hne : segs ≠ []) (h : ∀ seg ∈ segs, Uncut seg)
    (offset : Nat) : place offset (commas segs) = placeAll offset segs := by
  induction segs generalizing offset with
  | nil => exact absurd rfl hne
  | cons seg segs ih =>
      have hseg := h seg List.mem_cons_self
      cases segs with
      | nil =>
          rw [commas, List.flatMap_nil, List.append_nil, place_uncut hseg]
          rfl
      | cons s ss =>
          rw [commas_cons seg (List.cons_ne_nil _ _), place_append_comma hseg,
            ih (List.cons_ne_nil _ _) (fun t ht => h t (List.mem_cons_of_mem _ ht))]
          rfl

/-- Whether nodes begin and end with more than white space and comments. -/
structure Solid (ns : List Node) : Prop where
  uncut : Uncut ns
  first : ∃ n, ns.head? = some n ∧ n.isTrivia = false
  last : ∃ n, ns.getLast? = some n ∧ n.isTrivia = false

theorem Solid.uncut_behind {front back : List Node} (h : Solid (front ++ back)) : Uncut back :=
  fun n hn => h.uncut n (List.mem_append_right _ hn)

theorem Solid.last_behind {front back : List Node} (h : Solid (front ++ back)) {n : Node}
    (hn : back.getLast? = some n) : n.isTrivia = false := by
  obtain ⟨m, hm, htrivia⟩ := h.last
  rw [List.getLast?_append, hn, Option.some_or, Option.some.injEq] at hm
  rwa [hm]

theorem Solid.eq_nil_of_blank {front back : List Node} (h : Solid (front ++ back)) (hback : Blank back) :
    back = [] := by
  obtain rfl | ⟨init, n, rfl⟩ := List.eq_nil_or_concat back
  · rfl
  · rw [List.concat_eq_append] at h hback
    have htrivia := h.last_behind List.getLast?_concat
    rw [hback n (by simp)] at htrivia
    cases htrivia

/-- A segment that is not blank: a core with white space and comments around it. -/
structure Row where
  lead : List Node
  core : List Node
  trail : List Node
  blank_lead : Blank lead
  solid : Solid core
  blank_trail : Blank trail

namespace Row

def nodes (r : Row) : List Node := r.lead ++ r.core ++ r.trail

def width (r : Row) : Nat := widthOf r.nodes

/-- The stretch of the core of a row at an offset. -/
def span (offset : Nat) (r : Row) : Span :=
  ⟨offset + widthOf r.lead, offset + widthOf r.lead + widthOf r.core⟩

theorem uncut (r : Row) : Uncut r.nodes := by
  intro n hn
  simp only [nodes, List.mem_append] at hn
  obtain (hn | hn) | hn := hn
  · exact r.blank_lead.uncut n hn
  · exact r.solid.uncut n hn
  · exact r.blank_trail.uncut n hn

end Row

/-- A segment is blank or a row. -/
theorem exists_row {ns : List Node} (h : Uncut ns) : Blank ns ∨ ∃ r : Row, r.nodes = ns := by
  induction ns with
  | nil => exact .inl nofun
  | cons n ns ih =>
      obtain hblank | ⟨r, rfl⟩ := ih fun m hm => h m (List.mem_cons_of_mem _ hm)
      · by_cases hn : n.isTrivia = true
        · refine .inl ?_
          intro m hm
          obtain rfl | hm := List.mem_cons.1 hm
          · exact hn
          · exact hblank m hm
        · have hsolid : Solid [n] :=
            ⟨fun m hm => h m (by rw [List.mem_singleton.1 hm]; exact List.mem_cons_self),
              ⟨n, rfl, by simpa using hn⟩, ⟨n, rfl, by simpa using hn⟩⟩
          exact .inr ⟨⟨[], [n], ns, nofun, hsolid, hblank⟩, rfl⟩
      · by_cases hn : n.isTrivia = true
        · have hlead : Blank (n :: r.lead) := by
            intro m hm
            obtain rfl | hm := List.mem_cons.1 hm
            · exact hn
            · exact r.blank_lead m hm
          exact .inr ⟨⟨n :: r.lead, r.core, r.trail, hlead, r.solid, r.blank_trail⟩, rfl⟩
        · have hsolid : Solid (n :: (r.lead ++ r.core)) := by
            refine ⟨?_, ⟨n, rfl, by simpa using hn⟩, ?_⟩
            · intro m hm
              apply h m
              simp only [Row.nodes, List.mem_cons, List.mem_append] at hm ⊢
              exact hm.imp_right .inl
            · obtain ⟨m, hm, hlast⟩ := r.solid.last
              refine ⟨m, ?_, hlast⟩
              rw [← List.cons_append, List.getLast?_append, hm, Option.some_or]
          refine .inr ⟨⟨[], n :: (r.lead ++ r.core), r.trail, nofun, hsolid, r.blank_trail⟩, ?_⟩
          simp [Row.nodes]

theorem Solid.ne_nil {ns : List Node} (h : Solid ns) : ns ≠ [] := by
  rintro rfl
  obtain ⟨n, hn, -⟩ := h.first
  cases hn

/-- The trees of a solid core begin and end where the core does. -/
theorem Solid.placeRow_eq {ns : List Node} (h : Solid ns) (offset : Nat) :
    ∃ t rest, placeRow offset ns = t :: rest ∧ t.span.start = offset ∧
      t.lastStop rest = offset + widthOf ns := by
  obtain ⟨first, hfirst, hfirstTrivia⟩ := h.first
  obtain ⟨last, hlast, hlastTrivia⟩ := h.last
  obtain ⟨ns', rfl⟩ := List.head?_eq_some_iff.1 hfirst
  obtain ⟨t, ht, htspan⟩ :=
    Node.tree?_solid hfirstTrivia (h.uncut first List.mem_cons_self) offset
  refine ⟨t, placeRow (offset + widthOf [first]) ns', by rw [placeRow, ht]; rfl, by rw [htspan], ?_⟩
  obtain rfl | ⟨init, m, rfl⟩ := List.eq_nil_or_concat ns'
  · rw [placeRow, Tree.lastStop, List.getLast?_nil, Option.getD_none, htspan]
  · rw [List.concat_eq_append] at hlast h ⊢
    rw [← List.cons_append, List.getLast?_concat, Option.some.injEq] at hlast
    subst hlast
    obtain ⟨u, hu, huspan⟩ := Node.tree?_solid hlastTrivia (h.uncut m (by simp))
      (offset + widthOf [first] + widthOf init)
    have hwidth : widthOf (first :: (init ++ [m])) =
        widthOf [first] + widthOf init + widthOf [m] := by
      rw [widthOf_cons, widthOf_append, Nat.add_assoc]
    rw [Tree.lastStop, placeRow_append, placeRow, hu, placeRow, Option.toList_some, List.append_nil,
      List.getLast?_concat, Option.getD_some, huspan, hwidth]
    simp only [Nat.add_assoc]

namespace Row

/-- The trees of a row at an offset. -/
def trees (offset : Nat) (r : Row) : List Tree := placeRow (offset + widthOf r.lead) r.core

theorem placeRow_nodes (offset : Nat) (r : Row) : placeRow offset r.nodes = r.trees offset := by
  rw [nodes, List.append_assoc, placeRow_append, placeRow_append, placeRow_blank r.blank_lead,
    placeRow_blank r.blank_trail, List.nil_append, List.append_nil, trees]

theorem trees_eq (offset : Nat) (r : Row) : ∃ t rest, r.trees offset = t :: rest ∧
    (⟨t.span.start, t.lastStop rest⟩ : Span) = r.span offset := by
  obtain ⟨t, rest, htrees, hstart, hstop⟩ := r.solid.placeRow_eq (offset + widthOf r.lead)
  refine ⟨t, rest, htrees, ?_⟩
  rw [hstart, hstop, span]

theorem trees_shift (m offset : Nat) (r : Row) :
    r.trees (offset + m) = Tree.shiftSegment m (r.trees offset) := by
  have hlead : offset + m + widthOf r.lead = offset + widthOf r.lead + m := by omega
  rw [trees, trees, hlead, placeRow_shift]

end Row

/-- Segments read one by one; only the last may be empty. -/
def rowsOf? {α : Type} (read : List Tree → Option α) : List (List Tree) → Option (List α)
  | [] => some []
  | [] :: later => if later.isEmpty then some [] else none
  | (t :: rest) :: later =>
    (read (t :: rest)).bind fun a => (rowsOf? read later).map (a :: ·)

theorem argumentsOf?_eq (segs : List (List Tree)) :
    argumentsOf? segs = rowsOf? (segmentExpr? false) segs := by
  induction segs with
  | nil => rfl
  | cons seg segs ih =>
      cases seg with
      | nil => rw [argumentsOf?, rowsOf?]
      | cons t rest => rw [argumentsOf?, rowsOf?, ih]

theorem properties?_eq (segs : List (List Tree)) :
    properties? segs = rowsOf? property? segs := by
  induction segs with
  | nil => rfl
  | cons seg segs ih =>
      cases seg with
      | nil => rw [properties?, rowsOf?]
      | cons t rest => rw [properties?, rowsOf?, ih]

/-- Rows read one by one, the first of which stands at an offset. -/
def readRows {α : Type} (read : List Tree → Option α) (offset : Nat) : List Row → Option (List α)
  | [] => some []
  | r :: rows =>
    (read (r.trees offset)).bind fun a => (readRows read (offset + r.width + 1) rows).map (a :: ·)

/-- What may stand behind the last row: nothing, or a comma and a blank segment. -/
def Rest (segs : List (List Node)) : Prop := segs = [] ∨ ∃ blank, segs = [blank] ∧ Blank blank

theorem Rest.uncut {segs : List (List Node)} (h : Rest segs) : ∀ seg ∈ segs, Uncut seg := by
  obtain rfl | ⟨blank, rfl, hblank⟩ := h
  · exact nofun
  · intro seg hseg
    rw [List.mem_singleton.1 hseg]
    exact hblank.uncut

/-- Segments are read if and only if they are rows that are read, but for a blank one at the end. -/
theorem rowsOf?_eq_some {α : Type} {read : List Tree → Option α} {segs : List (List Node)}
    (h : ∀ seg ∈ segs, Uncut seg) {offset : Nat} {found : List α} :
    rowsOf? read (placeAll offset segs) = some found ↔
      ∃ rows rest, segs = rows.map Row.nodes ++ rest ∧ Rest rest ∧
        readRows read offset rows = some found := by
  constructor
  · intro hread
    induction segs generalizing offset found with
    | nil => exact ⟨[], [], rfl, .inl rfl, hread⟩
    | cons seg segs ih =>
        obtain hblank | ⟨r, rfl⟩ := exists_row (h seg List.mem_cons_self)
        · rw [placeAll, placeRow_blank hblank, rowsOf?] at hread
          split at hread
          · rename_i hempty
            cases segs with
            | nil => exact ⟨[], [seg], rfl, .inr ⟨seg, rfl, hblank⟩, hread⟩
            | cons s ss => cases hempty
          · cases hread
        · obtain ⟨t, rest, htrees, -⟩ := r.trees_eq offset
          rw [placeAll, r.placeRow_nodes, htrees, rowsOf?, ← htrees] at hread
          obtain ⟨a, ha, hlater⟩ := Option.bind_eq_some_iff.1 hread
          obtain ⟨as, has, rfl⟩ := Option.map_eq_some_iff.1 hlater
          obtain ⟨rows, rest, rfl, hrest, hrows⟩ :=
            ih (fun s hs => h s (List.mem_cons_of_mem _ hs)) has
          refine ⟨r :: rows, rest, rfl, hrest, ?_⟩
          rw [readRows, ha, Option.bind_some, Row.width, hrows, Option.map_some]
  · rintro ⟨rows, rest, rfl, hrest, hrows⟩
    clear h
    induction rows generalizing offset found with
    | nil =>
        obtain rfl | ⟨blank, rfl, hblank⟩ := hrest
        · exact hrows
        · rw [List.map_nil, List.nil_append, placeAll, placeRow_blank hblank]
          exact hrows
    | cons r rows ih =>
        obtain ⟨t, ts, htrees, -⟩ := r.trees_eq offset
        obtain ⟨a, ha, hlater⟩ := Option.bind_eq_some_iff.1 hrows
        obtain ⟨as, has, rfl⟩ := Option.map_eq_some_iff.1 hlater
        rw [List.map_cons, List.cons_append, placeAll, r.placeRow_nodes, htrees, rowsOf?, ← htrees, ha,
          Option.bind_some, ← Row.width, ih has, Option.map_some]

/-- The nodes of rows and of what stands behind the last. -/
def rowNodes (rows : List Row) (rest : List (List Node)) : List Node :=
  commas (rows.map Row.nodes ++ rest)

theorem rowsOf?_place {α : Type} {read : List Tree → Option α} {ns : List Node} {offset : Nat}
    {found : List α} :
    rowsOf? read (place offset ns) = some found ↔
      ∃ rows rest, ns = rowNodes rows rest ∧ Rest rest ∧ readRows read offset rows = some found := by
  constructor
  · intro h
    obtain ⟨segs, hne, huncut, rfl⟩ := exists_commas ns
    rw [place_commas hne huncut] at h
    obtain ⟨rows, rest, rfl, hrest, hrows⟩ := (rowsOf?_eq_some huncut).1 h
    exact ⟨rows, rest, rfl, hrest, hrows⟩
  · rintro ⟨rows, rest, rfl, hrest, hrows⟩
    have huncut : ∀ seg ∈ rows.map Row.nodes ++ rest, Uncut seg := by
      intro seg hseg
      obtain hseg | hseg := List.mem_append.1 hseg
      · obtain ⟨r, -, rfl⟩ := List.mem_map.1 hseg
        exact r.uncut
      · exact hrest.uncut seg hseg
    by_cases hne : rows.map Row.nodes ++ rest = []
    · obtain ⟨hrows', rfl⟩ := List.append_eq_nil_iff.1 hne
      obtain rfl := List.map_eq_nil_iff.1 hrows'
      exact hrows
    · rw [rowNodes, place_commas hne huncut]
      exact (rowsOf?_eq_some huncut).2 ⟨rows, rest, rfl, hrest, hrows⟩

end PugSize.Script
