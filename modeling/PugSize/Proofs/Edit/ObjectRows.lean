import PugSize.Proofs.Edit.Appended
import PugSize.Proofs.Edit.RowWrite

/-!
Objects laid out in rows. Writing a property keeps the layout: the value of a row is exchanged, or a
row is added behind the others.
-/

namespace PugSize

open Script CharClass

namespace ObjectText

/-- A text that is an object laid out in rows. -/
structure ObjectLayout (t : Text) (rows : List Row) (rest : List (List Node)) : Prop where
  text : t = braced (rowNodes rows rest)
  legible : Legible (lexemesOf (rowNodes rows rest)) ['}']
  tail : Rest rest
  reads : ∀ r ∈ rows, r.Reads property?

/-- The node of a key without quotes. -/
def nameNode (key : Text) : Node := .leaf ⟨.token (bareKind key), key⟩ (by unfold bareKind; split <;> rfl)

/-- The nodes of a property that is written anew. -/
def propertyNodes (key value : Text) : List Node := [nameNode key, colonNode, .space, .number value]

theorem textOf_propertyNodes (e : PropertyEdit) : textOf (propertyNodes e.key e.value) = e.text := by
  simp [propertyNodes, textOf, Node.lexemes, nameNode, colonNode, Node.space, Node.number, PropertyEdit.text]

theorem keyPart_fresh (key : Text) : KeyPart key [nameNode key, colonNode, .space] := by
  refine @KeyPart.mk key _ _ [] [.space] (isName_bare key) nofun ?_
  intro n hn
  rw [List.mem_singleton.1 hn]
  rfl

theorem solid_propertyNodes (key value : Text) : Solid (propertyNodes key value) :=
  (keyPart_fresh key).solid value (fun _ hn => absurd hn List.not_mem_nil) nofun

theorem legible_propertyNodes {key value : Text} (hkey : IsBare key) (hvalue : IsDigits value)
    {after : Text} (hafter : Apart after) :
    Legible (lexemesOf (propertyNodes key value)) after := by
  refine ⟨?_, ?_, stands_blank (by decide) _, stands_number hvalue hafter, trivial⟩
  · rw [Lexeme.stands_other (by simp)]
    apply firstLexeme?_bare hkey
    intro c hc
    rw [← Option.some.inj hc]
    decide
  · rw [Lexeme.stands_other (by decide)]
    exact firstLexeme?_mark (rfl : markKind? ':' = some .colon) _

/-- A row for a property that is written anew. -/
def newRow (key value : Text) (lead trail : List Node) (hlead : Blank lead) (htrail : Blank trail) :
    Row :=
  ⟨lead, propertyNodes key value, trail, hlead, solid_propertyNodes key value, htrail⟩

theorem apart_of_blank {ns : List Node} {after : Text} (hns : Blank ns)
    (h : Legible (lexemesOf ns) after) (hafter : Apart after) : Apart (textOf ns ++ after) :=
  apart_textOf h (fun n hn => .inl (hns n (List.mem_of_mem_head? hn))) hafter

section

variable {ns front back lead trail : List Node} (hplace : Place ns front back lead trail)
  (h : Legible (lexemesOf ns) ['}'])

include hplace h

/-- The front goes on with a comma as well. -/
theorem Place.legible_comma (after : Text) : Legible (lexemesOf front) (',' :: after) := by
  rw [hplace.nodes, lexemesOf_append] at h
  obtain ⟨hfront, -⟩ := legible_append.1 h
  refine hfront.swap (apart_comma _) ?_
  intro l hl
  obtain hclosed | ⟨kind, hkind⟩ | hline := l.closed_or
  · exact (hfront.last hl).closed hclosed
  · exact (hfront.last hl).apart hkind (apart_comma _) fun _ => by simp
  · obtain rfl | ⟨init, n, rfl⟩ := List.eq_nil_or_concat front
    · cases hl
    · rw [List.concat_eq_append] at *
      have hn := (hplace.last n List.getLast?_concat).1
      rw [lexemesOf_append, lexemesOf_cons, lexemesOf_nil, List.append_nil] at hl
      cases n with
      | leaf m plain =>
          rw [Node.lexemes, List.getLast?_concat, Option.some.injEq] at hl
          rw [isLineComment, hl, hline] at hn
          cases hn
      | comma =>
          rw [Node.lexemes, List.getLast?_concat, Option.some.injEq] at hl
          rw [← hl] at hline
          cases hline
      | group shape inside =>
          rw [Node.lexemes, ← List.append_assoc, List.getLast?_concat, Option.some.injEq] at hl
          rw [← hl] at hline
          cases shape <;> cases hline

/-- The nodes with a property in its place are legible. -/
theorem Place.legible {key value : Text} (hkey : IsBare key) (hvalue : IsDigits value) :
    Legible (lexemesOf (front ++ commaBehind front ++ (lead ++ propertyNodes key value ++ trail)))
      ['}'] := by
  have hclose : Apart ['}'] := .cons (by decide)
  have hrow : Legible (lexemesOf (lead ++ propertyNodes key value ++ trail)) ['}'] := by
    rw [lexemesOf_append, lexemesOf_append]
    exact legible_append.2 ⟨legible_append.2 ⟨hplace.legible_lead _, legible_propertyNodes hkey hvalue
      (apart_of_blank hplace.blank_trail hplace.legible_trail hclose)⟩, hplace.legible_trail⟩
  rw [lexemesOf_append (front ++ _)]
  refine legible_append.2 ⟨?_, hrow⟩
  obtain rfl | ⟨init, n, rfl⟩ := List.eq_nil_or_concat front
  · trivial
  · rw [List.concat_eq_append] at *
    by_cases hn : n = .comma
    · subst hn
      rw [commaBehind_comma, List.append_nil]
      refine (hplace.legible_comma h []).swap_closed ?_
      intro l hl
      have hcomma : lexemesOf [.comma] = [commaLexeme] := rfl
      rw [lexemesOf_append, hcomma, List.getLast?_concat, Option.some.injEq] at hl
      rw [← hl]
      rfl
    · rw [commaBehind_other init hn, lexemesOf_append]
      exact legible_append.2 ⟨hplace.legible_comma h _, stands_comma _, trivial⟩

end

/-- A stretch that ends with a node that is no white space and no comment ends before blank nodes. -/
theorem exists_blank_front {as bs front back : List Node} (h : as ++ bs = front ++ back)
    (hback : Blank back) (hlast : ∀ n, as.getLast? = some n → n.isTrivia = false) :
    ∃ more, front = as ++ more ∧ bs = more ++ back := by
  obtain ⟨more, hfront, hbs⟩ | ⟨extra, has, hback'⟩ := List.append_eq_append_iff.1 h
  · exact ⟨more, hfront, hbs⟩
  · obtain rfl | ⟨init, n, rfl⟩ := List.eq_nil_or_concat extra
    · exact ⟨[], by rw [has]; simp, by rw [hback']; rfl⟩
    · rw [List.concat_eq_append] at has hback'
      have htrivia := hlast n (by rw [has, ← List.append_assoc, List.getLast?_concat])
      rw [hback n (by rw [hback']; simp)] at htrivia
      cases htrivia

theorem rowsBefore_append (as : List Row) (r : Row) :
    rowsBefore (as ++ [r]) = rowsBefore as ++ r.nodes ++ [.comma] := by
  simp [rowsBefore]

theorem rowNodes_blank (rows : List Row) (blank : List Node) :
    rowNodes rows [blank] = rowsBefore rows ++ blank := by
  induction rows with
  | nil => simp [rowNodes, commas, rowsBefore]
  | cons r rows ih =>
      have hne : rows.map Row.nodes ++ [blank] ≠ [] := by simp
      rw [rowNodes, List.map_cons, List.cons_append, commas_cons _ hne, ← rowNodes, ih]
      simp [rowsBefore]

theorem last_rowsBefore (rows : List Row) :
    rowsBefore rows = [] ∨ ∃ init, rowsBefore rows = init ++ [.comma] := by
  obtain rfl | ⟨as, r, rfl⟩ := List.eq_nil_or_concat rows
  · exact .inl rfl
  · rw [List.concat_eq_append, rowsBefore_append]
    exact .inr ⟨_, rfl⟩

theorem rowsBefore_eq_nil {rows : List Row} : rowsBefore rows = [] ↔ rows = [] := by
  cases rows with
  | nil => exact ⟨fun _ => rfl, fun _ => rfl⟩
  | cons r rows => simp [rowsBefore]

/-- No comma is put behind rows that each have theirs. -/
theorem commaBehind_rowsBefore (rows : List Row) : commaBehind (rowsBefore rows) = [] := by
  obtain hnil | ⟨init, hinit⟩ := last_rowsBefore rows
  · rw [hnil]
    rfl
  · rw [hinit, commaBehind_comma]

/-- A comma is put behind a core and the white space and comments that follow it. -/
theorem commaBehind_core (before : List Node) {core more : List Node} (hcore : Solid core) (hmore : Blank more) :
    commaBehind (before ++ core ++ more) = [.comma] := by
  obtain rfl | ⟨init, n, rfl⟩ := List.eq_nil_or_concat more
  · obtain ⟨last, hlast, htrivia⟩ := hcore.last
    obtain ⟨init, rfl⟩ := List.getLast?_eq_some_iff.1 hlast
    have hne : last ≠ .comma := by
      rintro rfl
      have := hcore.uncut .comma (List.mem_of_getLast? hlast)
      cases this
    rw [List.append_nil, ← List.append_assoc, commaBehind_other _ hne]
  · rw [List.concat_eq_append] at hmore ⊢
    have hne : n ≠ .comma := by
      rintro rfl
      have := hmore .comma (by simp)
      cases this
    rw [← List.append_assoc, commaBehind_other _ hne]

/-- Before a row stands the brace or a comma. -/
theorem exists_stop_before (as : List Row) :
    ∃ front c, '{' :: textOf (rowsBefore as) = front ++ [c] ∧ isSkipped c = false := by
  obtain hnil | ⟨init, hinit⟩ := last_rowsBefore as
  · exact ⟨[], '{', by rw [hnil]; rfl, by decide⟩
  · exact ⟨'{' :: textOf init, ',', by rw [hinit, textOf_append]; rfl, by decide⟩

/-- Behind a row stands a comma or the brace. -/
theorem exists_stop_behind (bs : List Row) (rest : List (List Node)) :
    ∃ c more, textOf (rowsBehind bs rest) ++ ['}'] = c :: more ∧ isSkipped c = false := by
  cases hrows : rowsBehind bs rest with
  | nil => exact ⟨'}', [], rfl, by decide⟩
  | cons n ns =>
      obtain rfl := head_rowsBehind bs rest n (by rw [hrows]; rfl)
      exact ⟨',', _, rfl, by decide⟩

/-- Whether a comma may be put behind the front: the last node there that is no white space and no
comment is not a comma that the patcher has missed. -/
def Sound (rows : List Row) (rest : List (List Node)) (front : List Node) : Prop :=
  (∀ n, front.getLast? = some n → n.isTrivia = false) ∨ (rest = [] ∧ rows ≠ [])

theorem eq_nil_of_last {front as more : List Node} (hfront : front = as ++ more) (hmore : Blank more)
    (hlast : ∀ n, front.getLast? = some n → n.isTrivia = false) : more = [] := by
  apply Classical.byContradiction
  intro hne
  obtain ⟨init, n, rfl⟩ := (List.eq_nil_or_concat more).resolve_left hne
  rw [List.concat_eq_append] at hfront hmore
  have htrivia := hlast n (by rw [hfront, ← List.append_assoc, List.getLast?_concat])
  rw [hmore n (by simp)] at htrivia
  cases htrivia

/-- The white space before the closing brace. -/
def lastGap {α : Type} (rest trails : List (List α)) : List α :=
  match rest with
  | [] => trails.getLast?.getD []
  | gap :: _ => gap

/-- What stands behind each row when another one follows: the last has lost the white space before the brace. -/
def bareTrails {α : Type} (rest trails : List (List α)) : List (List α) :=
  match rest with
  | [] => trails.dropLast ++ trails.getLast?.toList.map fun _ => []
  | _ :: _ => trails

section

variable {rows : List Row} {rest : List (List Node)} {front back lead trail : List Node}
  (hplace : Place (rowNodes rows rest) front back lead trail) (key value : Text)

/-- A property in its place makes up a row behind the others. -/
theorem rowNodes_added (hrest : Rest rest) (hsound : Sound rows rest front) :
    ∃ rows' : List Row, rows'.map Row.core = rows.map Row.core ∧
      rows'.map Row.lead = rows.map Row.lead ∧
      ((∀ n, front.getLast? = some n → n.isTrivia = false) →
        rows'.map Row.trail = bareTrails rest (rows.map Row.trail) ∧
        back = lastGap rest (rows.map Row.trail) ∧ (front = [] ↔ rows = [])) ∧
      front ++ commaBehind front ++ (lead ++ propertyNodes key value ++ trail) =
        rowNodes (rows' ++ [newRow key value lead trail hplace.blank_lead hplace.blank_trail]) [] := by
  have hnew (rows' : List Row) :
      rowNodes (rows' ++ [newRow key value lead trail hplace.blank_lead hplace.blank_trail]) [] =
        rowsBefore rows' ++ (lead ++ propertyNodes key value ++ trail) := by
    rw [rowNodes_append]
    simp [rowsBehind, newRow, Row.nodes]
  have hnodes := hplace.nodes
  have hbefore : ∀ n, (rowsBefore rows).getLast? = some n → n.isTrivia = false := by
    intro n hn
    obtain hnil | ⟨init, hinit⟩ := last_rowsBefore rows
    · rw [hnil] at hn
      cases hn
    · rw [hinit, List.getLast?_concat, Option.some.injEq] at hn
      rw [← hn]
      rfl
  obtain rfl | ⟨blank, rfl, hblank⟩ := hrest
  · obtain rfl | ⟨as, r, rfl⟩ := List.eq_nil_or_concat rows
    · obtain ⟨rfl, rfl⟩ := List.append_eq_nil_iff.1 hnodes.symm
      exact ⟨[], rfl, rfl, fun _ => ⟨rfl, rfl, by simp⟩, by rw [hnew]; rfl⟩
    · rw [List.concat_eq_append] at *
      have hrow : rowsBefore as ++ r.lead ++ r.core ++ r.trail = front ++ back := by
        rw [← hnodes, rowNodes_core]
        simp [rowsBehind]
      have hsolid : ∀ n, (rowsBefore as ++ r.lead ++ r.core).getLast? = some n → n.isTrivia = false := by
        intro n hn
        obtain ⟨last, hlast, htrivia⟩ := r.solid.last
        rw [List.getLast?_append, hlast, Option.some_or, Option.some.injEq] at hn
        rwa [← hn]
      obtain ⟨more, rfl, hmore⟩ := exists_blank_front hrow hplace.blank_back hsolid
      have hblank : Blank more := fun n hn => r.blank_trail n (by rw [hmore]; simp [hn])
      refine ⟨as ++ [r.withTrail more hblank], by simp, by simp, fun hseen => ?_, ?_⟩
      · obtain rfl := eq_nil_of_last rfl hblank hseen
        exact ⟨by simp [bareTrails], by simp [lastGap, hmore], by simp [r.solid.ne_nil]⟩
      · rw [hnew, rowsBefore_append, commaBehind_core _ r.solid hblank, Row.nodes]
        simp
  · rw [rowNodes_blank] at hnodes
    obtain ⟨more, hfront, hmore⟩ := exists_blank_front hnodes hplace.blank_back hbefore
    have hblankMore : Blank more := fun n hn => hblank n (by rw [hmore]; exact List.mem_append_left _ hn)
    obtain rfl := eq_nil_of_last hfront hblankMore (hsound.resolve_right (by simp))
    rw [List.append_nil] at hfront
    rw [List.nil_append] at hmore
    refine ⟨rows, rfl, rfl, fun _ => ⟨rfl, hmore.symm, by rw [hfront, rowsBefore_eq_nil]⟩, ?_⟩
    rw [hnew, hfront, commaBehind_rowsBefore, List.append_nil]

end

theorem exists_same_row {rows rows' : List Row} (hcore : rows'.map Row.core = rows.map Row.core)
    (hlead : rows'.map Row.lead = rows.map Row.lead) {i : Nat} {r : Row} (hr : rows'[i]? = some r) :
    ∃ s, rows[i]? = some s ∧ s.core = r.core ∧ s.lead = r.lead := by
  have hcore' := congrArg (·[i]?) hcore
  have hlead' := congrArg (·[i]?) hlead
  simp only [List.getElem?_map, hr, Option.map_some] at hcore' hlead'
  obtain ⟨s, hs, hcore'⟩ := Option.map_eq_some_iff.1 hcore'.symm
  rw [hs, Option.map_some, Option.some.injEq] at hlead'
  exact ⟨s, hs, hcore', hlead'.symm⟩

namespace ObjectLayout

section

variable {key t : Text} {rows : List Row} {rest : List (List Node)} (h : ObjectLayout t rows rest) {r : Row}
  (hr : r ∈ rows) (hnamed : Named key r.core)

include h hr hnamed

/-- A row of an object is written with a key if and only if its core is. -/
theorem isWritten_core : isWritten key (textOf r.core) = true ↔ ∃ part value, Keyed key r.core part value := by
  obtain ⟨as, bs, rfl⟩ := List.append_of_mem hr
  have hlegible := h.legible
  rw [rowNodes_core, List.append_assoc, lexemesOf_append] at hlegible
  have hcore := (legible_append.1 hlegible).2
  constructor
  · intro hwritten
    obtain ⟨n, hn⟩ := keyLength?_of_isWritten hnamed.label hwritten
      (textOf (r.trail ++ rowsBehind bs rest) ++ ['}'])
    rw [← List.append_assoc, ← textOf_append] at hn
    obtain ⟨part, value, hparts, hpart, hvalue, -⟩ :=
      exists_part hnamed (h.reads r hr) hcore (head_rowsBehind bs rest) hn
    exact ⟨part, value, hparts, hpart, hvalue⟩
  · rintro ⟨part, value, hkeyed⟩
    exact hkeyed.isWritten

/-- A row is passed over if and only if it is not written with the key. -/
theorem unseen_iff : Unseen key r ↔ ∀ part value, ¬ Writes key r part value := by
  constructor
  · intro hunseen part value hwrites
    have hwritten := hunseen hwrites.lead
    rw [hwrites.isWritten] at hwritten
    cases hwritten
  · intro hnone hspaced
    rw [Bool.eq_false_iff]
    intro hwritten
    obtain ⟨part, value, hkeyed⟩ := (h.isWritten_core hr hnamed).1 hwritten
    exact hnone part value ⟨hkeyed, hspaced⟩

end

section

variable {key t : Text} {rest : List (List Node)} (hkey : IsBare key)

include hkey

/-- Where no row is written with a key that needs no quotes, no value is found for it. -/
theorem valueSpan?_unwritten {rows : List Row} (h : ObjectLayout t rows rest)
    (hnone : ∀ r ∈ rows, ∀ part value, ¬ Writes key r part value) : valueSpan? t key = none := by
  rw [h.text]
  exact valueSpan?_unseen hkey.label h.tail (fun r hr => (h.unseen_iff hr (.inl hkey)).2 (hnone r hr)) h.legible

theorem unseen_behind {as : List Row} {r : Row} {bs : List Row} (h : ObjectLayout t (as ++ r :: bs) rest)
    (hnone : ∀ b ∈ bs, ∀ part value, ¬ Writes key b part value) : ∀ b ∈ bs, Unseen key b :=
  fun b hb => (h.unseen_iff (by simp [hb]) (.inl hkey)).2 (hnone b hb)

end

variable {t : Text} {rest : List (List Node)} {e : PropertyEdit}

/-- Adding a property keeps the rows, white space behind the last one apart. -/
theorem added (hkey : IsBare e.key) (hvalue : IsDigits e.value) {rows : List Row} (h : ObjectLayout t rows rest)
    {front back lead trail : List Node}
    (hplace : Place (rowNodes rows rest) front back lead trail) (hsound : Sound rows rest front) :
    ∃ rows' : List Row, rows'.map Row.core = rows.map Row.core ∧
      rows'.map Row.lead = rows.map Row.lead ∧
      ((∀ n, front.getLast? = some n → n.isTrivia = false) →
        rows'.map Row.trail = bareTrails rest (rows.map Row.trail) ∧
        back = lastGap rest (rows.map Row.trail) ∧ (front = [] ↔ rows = [])) ∧
      front ++ commaBehind front ++ (lead ++ propertyNodes e.key e.value ++ trail) =
        rowNodes (rows' ++ [newRow e.key e.value lead trail hplace.blank_lead hplace.blank_trail]) [] ∧
      ObjectLayout ('{' :: textOf (front ++ commaBehind front ++ lead) ++ e.text ++ textOf trail ++ ['}'])
        (rows' ++ [newRow e.key e.value lead trail hplace.blank_lead hplace.blank_trail]) [] := by
  obtain ⟨rows', hcore, hlead, htrail, hnodes⟩ := rowNodes_added hplace e.key e.value h.tail hsound
  refine ⟨rows', hcore, hlead, htrail, hnodes, ⟨?_, ?_, .inl rfl, ?_⟩⟩
  · rw [← hnodes, braced, ← textOf_propertyNodes]
    simp
  · rw [← hnodes]
    exact hplace.legible h.legible hkey hvalue
  · intro r hr
    obtain hr | hr := List.mem_append.1 hr
    · obtain ⟨i, hi⟩ := List.getElem?_of_mem hr
      obtain ⟨s, hs, hcore', hlead'⟩ := exists_same_row hcore hlead hi
      have hreads := h.reads s (List.mem_of_getElem? hs)
      rw [Row.Reads, Row.trees, hcore', hlead'] at hreads
      exact hreads
    · rw [List.mem_singleton.1 hr]
      exact @reads_number e.key hkey.label _ (keyPart_fresh e.key) e.value _ [] rfl

/-- Writing the value of a row exchanges what is found of it. -/
theorem rewritten (hkey : IsLabel e.key) (hvalue : IsDigits e.value) {as : List Row} {r : Row} {bs : List Row}
    (h : ObjectLayout t (as ++ r :: bs) rest)
    {part value body gap behind : List Node} (hwrites : Writes e.key r part value)
    (hunseen : ∀ b ∈ bs, Unseen e.key b)
    (hcut : value ++ r.trail = body ++ gap ++ behind) (hgap : Gap gap)
    (hbody : ∀ n, body.getLast? = some n → isGap n = false)
    (hmarks : ∀ x ∈ marksOf 1 (body ++ gap), endsValue x = false) (hstops : Stops behind) :
    ∃ (span : Span) (r' : Row), valueSpan? t e.key = some span ∧ t.slice span = textOf body ∧
      r'.lead = r.lead ∧ r'.nodes = r.lead ++ (part ++ .number e.value :: (gap ++ behind)) ∧
      (∃ more, r'.core = part ++ .number e.value :: more ∧ Remains value body more) ∧
      ObjectLayout (t.splice span e.value) (as ++ r' :: bs) rest := by
  have hbs : ∀ b ∈ bs, b.Reads property? := fun b hb => h.reads b (by simp [hb])
  have hcut' : value ++ r.trail = body ++ (gap ++ behind) := by rw [hcut, List.append_assoc]
  have hfollow : Follow (gap ++ behind) := by
    intro n hn
    cases gap with
    | nil =>
        obtain rfl | ⟨m, later, rfl, hm, -⟩ := hstops
        · cases hn
        · rwa [← Option.some.inj hn]
    | cons m ms =>
        obtain rfl : m = n := Option.some.inj hn
        exact isTrivia_of_isGap (hgap m List.mem_cons_self)
  obtain ⟨r', hlead, hnodes, more, hcore, hmore⟩ := exists_rewritten hwrites hcut' e.value
  obtain ⟨after, hlegible⟩ := hwrites.legible h.legible
  obtain ⟨-, hfound⟩ := passed_body hlegible hcut hgap hbody hmarks hstops
  obtain ⟨span, hspan, heq, hslice⟩ := valueSpan?_passed hwrites hkey h.tail hunseen h.legible
  rw [hfound] at heq hslice
  rw [← h.text] at hspan hslice
  have htext := h.text
  rw [braced_writes hwrites hcut'] at htext
  refine ⟨span, r', hspan, hslice, hlead, hnodes, ⟨more, hcore, hmore⟩, ⟨?_, ?_, h.tail, ?_⟩⟩
  · rw [heq, htext, Text.splice_middle, braced, rowNodes_append, hnodes, frontOf]
    simp
  · exact legible_rewritten hwrites hcut' hfollow hvalue hnodes (.cons (by decide)) h.legible
  · intro s hs
    simp only [List.mem_append, List.mem_cons] at hs
    obtain hs | rfl | hs := hs
    · exact h.reads s (by simp [hs])
    · exact reads_number hkey hwrites.part e.value hcore
    · exact hbs s hs

end ObjectLayout

end ObjectText
end PugSize
