import PugSize.Proofs.Script.Fresh

/-!
Rows that are edited. A text laid out in rows is parted before and behind the core of a row; the core
can be exchanged for a number, and values can be added behind the core of the last row.
-/

namespace PugSize.Script

/-- Rows, each with the comma behind it. -/
def rowsBefore (rows : List Row) : List Node := rows.flatMap fun r => r.nodes ++ [.comma]

/-- Segments, each with the comma before it. -/
def rowsBehind (rows : List Row) (rest : List (List Node)) : List Node :=
  (rows.map Row.nodes ++ rest).flatMap (.comma :: ·)

theorem rowNodes_append (as : List Row) (r : Row) (bs : List Row) (rest : List (List Node)) :
    rowNodes (as ++ r :: bs) rest = rowsBefore as ++ r.nodes ++ rowsBehind bs rest := by
  induction as with
  | nil => rfl
  | cons a as ih =>
      have hne : (as ++ r :: bs).map Row.nodes ++ rest ≠ [] := by simp
      rw [rowNodes, List.cons_append, List.map_cons, List.cons_append, commas_cons _ hne, ← rowNodes, ih]
      simp [rowsBefore]

/-- The nodes of an array or object, parted before and behind the core of a row. -/
theorem rowNodes_core (as : List Row) (r : Row) (bs : List Row) (rest : List (List Node)) :
    rowNodes (as ++ r :: bs) rest =
      rowsBefore as ++ r.lead ++ r.core ++ (r.trail ++ rowsBehind bs rest) := by
  rw [rowNodes_append, Row.nodes]
  simp

theorem rowNodes_cons (r : Row) (rows : List Row) (rest : List (List Node)) :
    rowNodes (r :: rows) rest = r.lead ++ (r.core ++ (r.trail ++ rowsBehind rows rest)) :=
  (rowNodes_append [] r rows rest).trans (by simp [rowsBefore, Row.nodes])

namespace Row

def withCore (r : Row) (core : List Node) (h : Solid core) : Row := { r with core, solid := h }

def withTrail (r : Row) (trail : List Node) (h : Blank trail) : Row :=
  { r with trail, blank_trail := h }

section

variable (r : Row) (ns : List Node)

@[simp] theorem withCore_lead (h : Solid ns) : (r.withCore ns h).lead = r.lead := rfl

@[simp] theorem withCore_core (h : Solid ns) : (r.withCore ns h).core = ns := rfl

@[simp] theorem withCore_trail (h : Solid ns) : (r.withCore ns h).trail = r.trail := rfl

@[simp] theorem withTrail_lead (h : Blank ns) : (r.withTrail ns h).lead = r.lead := rfl

@[simp] theorem withTrail_core (h : Blank ns) : (r.withTrail ns h).core = r.core := rfl

@[simp] theorem withTrail_trail (h : Blank ns) : (r.withTrail ns h).trail = ns := rfl

end

end Row

theorem solid_singleton {n : Node} (htrivia : n.isTrivia = false) (hcomma : n.isComma = false) :
    Solid [n] := by
  refine ⟨?_, ⟨n, rfl, htrivia⟩, ⟨n, rfl, htrivia⟩⟩
  intro m hm
  rw [List.mem_singleton.1 hm]
  exact hcomma

theorem solid_number (t : Text) : Solid [.number t] := solid_singleton rfl rfl

theorem blank_nil : Blank [] := nofun

theorem blank_space : Blank [.space] := by
  intro n hn
  rw [List.mem_singleton.1 hn]
  rfl

/-- A row of one node behind a space. -/
def Row.ofNode (n : Node) (h : Solid [n]) (trail : List Node) (htrail : Blank trail) : Row :=
  ⟨[.space], [n], trail, blank_space, h, htrail⟩

theorem textOf_ne_nil {ns : List Node} {after : Text} (h : Legible (lexemesOf ns) after)
    (hne : ns ≠ []) : textOf ns ≠ [] := by
  cases ns with
  | nil => exact absurd rfl hne
  | cons n ns =>
      rw [textOf_cons]
      apply List.append_ne_nil_of_left_ne_nil
      cases n with
      | leaf l plain =>
          rw [textOf_leaf]
          exact h.1.ne_nil
      | comma => exact List.cons_ne_nil _ _
      | group shape inside => cases shape <;> exact List.cons_ne_nil _ _

/-- The last lexeme of a solid core is a token. -/
theorem Solid.last_token {core : List Node} (h : Solid core) {l : Lexeme}
    (hl : (lexemesOf core).getLast? = some l) : ∃ kind, l.kind = .token kind := by
  obtain ⟨n, hn, htrivia⟩ := h.last
  obtain ⟨init, rfl⟩ := List.getLast?_eq_some_iff.1 hn
  rw [lexemesOf_append, lexemesOf_cons, lexemesOf_nil, List.append_nil] at hl
  cases n with
  | leaf m plain =>
      rw [Node.lexemes, List.getLast?_concat, Option.some.injEq] at hl
      subst hl
      simp only [Node.isTrivia] at htrivia
      split at htrivia
      · cases htrivia
      · rename_i kind hkind
        exact ⟨kind, hkind⟩
  | comma =>
      rw [Node.lexemes, List.getLast?_concat, Option.some.injEq] at hl
      exact ⟨.comma, by rw [← hl]; rfl⟩
  | group shape inside =>
      rw [Node.lexemes, ← List.append_assoc, List.getLast?_concat, Option.some.injEq] at hl
      subst hl
      cases shape <;> exact ⟨_, rfl⟩

theorem Solid.lexemes_ne_nil {core : List Node} (h : Solid core) : lexemesOf core ≠ [] := by
  obtain ⟨n, hn, -⟩ := h.first
  obtain ⟨ns, rfl⟩ := List.head?_eq_some_iff.1 hn
  cases n <;> exact List.cons_ne_nil _ _

/-- What stands before a core is shut: a line comment there would take in the core. -/
theorem shut_lead {front lead core post : List Node} {after : Text} (hfront : Shut front)
    (hlead : Blank lead) (hcore : Solid core)
    (h : Legible (lexemesOf (front ++ lead ++ core ++ post)) after) : Shut (front ++ lead) := by
  intro l hl
  obtain rfl | ⟨init, n, rfl⟩ := List.eq_nil_or_concat lead
  · rw [List.append_nil] at hl
    exact hfront l hl
  rw [List.concat_eq_append] at hl hlead h
  have hn := hlead n (by simp)
  cases n with
  | leaf m plain =>
      have hm : m = l := by
        simpa [Node.lexemes] using hl
      subst hm
      obtain hclosed | ⟨kind, hkind⟩ | hline := m.closed_or
      · exact hclosed
      · rw [Node.isTrivia, hkind] at hn
        cases hn
      · obtain ⟨first, hfirst, htrivia⟩ := hcore.first
        obtain ⟨later, rfl⟩ := List.head?_eq_some_iff.1 hfirst
        have hnodes : front ++ (init ++ [.leaf m plain]) ++ first :: later ++ post =
            (front ++ init) ++ .leaf m plain :: first :: (later ++ post) := by simp
        rw [hnodes, lexemesOf_append, lexemesOf_cons, lexemesOf_cons, Node.lexemes,
          List.singleton_append] at h
        obtain ⟨-, hstands, hlater⟩ := legible_append.1 h
        obtain ⟨hfirstLegible, -⟩ := legible_append.1 hlater
        have hnode := Node.head_not_skipped hfirstLegible htrivia
        have htext : textOf [first] ≠ [] := by
          have hnode : Legible (lexemesOf [first]) (written (lexemesOf (later ++ post)) ++ after) := by
            rwa [lexemesOf_cons, lexemesOf_nil, List.append_nil]
          exact textOf_ne_nil hnode (by simp)
        obtain ⟨c, cs, hc⟩ := List.exists_cons_of_ne_nil htext
        have hwritten : written first.lexemes = c :: cs := by
          rw [← hc, textOf, lexemesOf_cons, lexemesOf_nil, List.append_nil]
        have hnewline := (hstands.lineComment hline).2 c (by rw [written_append, hwritten]; rfl)
        have hskipped := hnode c (by rw [hc]; rfl)
        rw [hnewline] at hskipped
        cases hskipped
  | comma => cases hn
  | group shape inside => cases hn

theorem shut_rowsBefore (rows : List Row) : Shut (rowsBefore rows) := by
  intro l hl
  obtain rfl | ⟨init, r, rfl⟩ := List.eq_nil_or_concat rows
  · cases hl
  · have : commaLexeme = l := by
      simpa [rowsBefore, Node.lexemes] using hl
    rw [← this]
    rfl

theorem apart_behind {trail : List Node} (htrail : Blank trail) {rows : List Row}
    {rest : List (List Node)} {after : Text} (hafter : Apart after)
    (h : Legible (lexemesOf (trail ++ rowsBehind rows rest)) after) :
    Apart (textOf (trail ++ rowsBehind rows rest) ++ after) := by
  apply apart_textOf h _ hafter
  intro n hn
  cases trail with
  | nil =>
      refine .inr ?_
      rw [List.nil_append, rowsBehind] at hn
      cases hsegs : rows.map Row.nodes ++ rest with
      | nil =>
          rw [hsegs] at hn
          cases hn
      | cons seg segs =>
          rw [hsegs] at hn
          simpa using hn.symm
  | cons m ms =>
      obtain rfl : m = n := Option.some.inj hn
      exact .inl (htrail m List.mem_cons_self)

/-- The core of a row can be exchanged for a number. -/
theorem legible_number {as : List Row} {r : Row} {bs : List Row} {rest : List (List Node)}
    {after t : Text} (ht : IsDigits t) (hafter : Apart after)
    (h : Legible (lexemesOf (rowNodes (as ++ r :: bs) rest)) after) :
    Legible (lexemesOf (rowNodes (as ++ r.withCore [.number t] (solid_number t) :: bs) rest))
      after := by
  rw [rowNodes_core] at h
  rw [rowNodes_core, Row.withCore_lead, Row.withCore_core, Row.withCore_trail]
  have hpost : Legible (lexemesOf (r.trail ++ rowsBehind bs rest)) after := by
    rw [lexemesOf_append] at h
    exact (legible_append.1 h).2
  have hshut := shut_lead (shut_rowsBefore as) r.blank_lead r.solid h
  refine h.exchange hshut ?_
  exact ⟨stands_number ht (apart_behind r.blank_trail hafter hpost), trivial⟩

/-- Values can be added behind the core of the last row. -/
theorem legible_rows_added {as : List Row} {r : Row} {rest : List (List Node)} {after : Text}
    {ns : List Node} (hns : ∀ n ∈ ns, Fresh n) (hne : ns ≠ []) (hafter : Apart after)
    (h : Legible (lexemesOf (rowNodes (as ++ [r]) rest)) after) :
    Legible (lexemesOf (rowsBefore as ++ r.lead ++ r.core ++ added ns ++
      (r.trail ++ rowsBehind [] rest))) after := by
  rw [rowNodes_core] at h
  have hpost : Legible (lexemesOf (r.trail ++ rowsBehind [] rest)) after := by
    rw [lexemesOf_append] at h
    exact (legible_append.1 h).2
  refine h.insert hns hne ?_ (apart_behind r.blank_trail hafter hpost)
  intro l hl
  rw [lexemesOf_append, List.getLast?_append_of_ne_nil _ r.solid.lexemes_ne_nil] at hl
  exact r.solid.last_token hl

/-- A text laid out in rows, up to the parenthesis put behind it. -/
theorem Layout.exists_tail {t : Text} {rows : List Row} {rest : List (List Node)} {after : Text}
    (h : Layout t rows rest after) :
    ∃ tail, t = textOf (rowNodes rows rest) ++ tail ∧ after = tail ++ [')'] := by
  obtain ⟨ls, -, rfl, -⟩ := h.ending
  have htext := h.text
  obtain ⟨tail, htail⟩ : ∃ tail, ')' :: written ls = tail ++ [')'] := by
    obtain heq | ⟨init, c, hinit⟩ := List.eq_nil_or_concat (')' :: written ls)
    · cases heq
    · rw [List.concat_eq_append] at hinit
      rw [hinit, ← List.append_assoc] at htext
      obtain ⟨-, hc⟩ := List.append_inj' htext rfl
      exact ⟨init, by rw [hinit, List.cons.inj hc |>.1]⟩
  rw [htail, ← List.append_assoc] at htext
  exact ⟨tail, List.append_cancel_right htext, htail⟩

theorem Ending.apart {after : Text} (h : Ending after) : Apart after := by
  obtain ⟨ls, -, rfl, -⟩ := h
  exact .cons (by decide)

end PugSize.Script
