import PugSize.Proofs.Edit.ObjectRows

/-!
The margins of an object: the texts of the white space around the cores of its rows. Margins and cores make up
the text, so what is shown of the two is shown of the text, and the margins can be told from it. A property that
is added extends the margins in a way that its own text has no part in.
-/

namespace PugSize

open Script

namespace ObjectText

structure Margins where
  leads : List Text
  trails : List Text
  rest : List Text

def marginsOf (rows : List Row) (rest : List (List Node)) : Margins :=
  ⟨rows.map fun r => textOf r.lead, rows.map fun r => textOf r.trail, rest.map textOf⟩

/-- The margins once a property has been added, which may get an indentation on a line of its own. -/
def Margins.add (m : Margins) (indent : Option Text) : Margins :=
  let (lead, trail) := addedMargins indent m.leads.isEmpty (lastGap m.rest m.trails)
  ⟨m.leads ++ [lead], bareTrails m.rest m.trails ++ [trail], []⟩

theorem addedMargins_injective {indent indent' : Option Text} {isFirst : Bool} {gap : Text}
    (h : (addedMargins indent isFirst gap).1 = (addedMargins indent' isFirst gap).1) : indent = indent' := by
  have hline (above indent : Text) : [' '] ≠ above ++ '\n' :: indent := by
    intro heq
    have hmem : '\n' ∈ [' '] := by
      rw [heq]
      exact List.mem_append_right _ List.mem_cons_self
    simp at hmem
  cases indent with
  | none =>
      cases indent' with
      | none => rfl
      | some indent' => exact absurd h (hline _ _)
  | some indent =>
      cases indent' with
      | none => exact absurd h.symm (hline _ _)
      | some indent' => rw [(List.cons.inj (List.append_cancel_left h)).2]

namespace Margins

theorem leads_add (m : Margins) (indent : Option Text) :
    (m.add indent).leads = m.leads ++ [(addedMargins indent m.leads.isEmpty (lastGap m.rest m.trails)).1] := rfl

theorem leads_start (m : Margins) (indents : List (Option Text)) : m.leads <+: (indents.foldl add m).leads := by
  induction indents generalizing m with
  | nil => exact List.prefix_rfl
  | cons indent indents ih => exact (List.prefix_append _ _).trans (ih (m.add indent))

/-- The indentations of the properties that have been added can be told from the margins. -/
theorem eq_of_leads {m : Margins} {indents indents' : List (Option Text)}
    (h : (indents.foldl add m).leads = (indents'.foldl add m).leads) : indents = indents' := by
  have hlonger (m : Margins) (indent : Option Text) (indents : List (Option Text)) :
      m.leads ≠ ((indent :: indents).foldl add m).leads := by
    intro heq
    have hle := ((m.add indent).leads_start indents).length_le
    rw [List.foldl_cons] at heq
    rw [← heq, leads_add, List.length_append, List.length_singleton] at hle
    omega
  induction indents generalizing m indents' with
  | nil =>
      cases indents' with
      | nil => rfl
      | cons indent' indents' => exact absurd h (hlonger m indent' indents')
  | cons indent indents ih =>
      cases indents' with
      | nil => exact absurd h.symm (hlonger m indent indents)
      | cons indent' indents' =>
          rw [List.foldl_cons, List.foldl_cons] at h
          have hstart := (m.add indent).leads_start indents
          have hstart' := (m.add indent').leads_start indents'
          rw [h] at hstart
          have hleads : (m.add indent).leads = (m.add indent').leads :=
            (List.prefix_of_prefix_length_le hstart hstart' (by simp [leads_add])).eq_of_length
              (by simp [leads_add])
          rw [leads_add, leads_add] at hleads
          obtain rfl := addedMargins_injective (List.cons.inj (List.append_cancel_left hleads)).1
          rw [ih h]

end Margins

theorem lastGap_map (rest trails : List (List Node)) :
    textOf (lastGap rest trails) = lastGap (rest.map textOf) (trails.map textOf) := by
  cases rest with
  | nil =>
      simp only [lastGap, List.map_nil, List.getLast?_map]
      cases trails.getLast? <;> rfl
  | cons gap gaps => rfl

theorem bareTrails_map (rest trails : List (List Node)) :
    (bareTrails rest trails).map textOf = bareTrails (rest.map textOf) (trails.map textOf) := by
  cases rest with
  | nil =>
      simp only [bareTrails, List.map_nil, List.map_append, List.getLast?_map, List.map_dropLast]
      cases trails.getLast? <;> rfl
  | cons gap gaps => rfl

theorem forall₂_of_map {α β : Type} {f : α → β} {as bs : List α} (h : as.map f = bs.map f) :
    List.Forall₂ (fun a b => f a = f b) as bs := by
  have hmaps : List.Forall₂ Eq (as.map f) (bs.map f) := by rw [List.forall₂_eq_eq_eq, h]
  rwa [List.forall₂_map_left_iff, List.forall₂_map_right_iff] at hmaps

section

variable {R : Text → Text → Prop} (hrefl : ∀ t, R t t) (happend : ∀ {a b c d}, R a b → R c d → R (a ++ c) (b ++ d))

include hrefl happend

theorem rel_commas {segs segs' : List (List Node)}
    (h : List.Forall₂ (fun as bs => R (textOf as) (textOf bs)) segs segs') :
    R (textOf (commas segs)) (textOf (commas segs')) := by
  cases h with
  | nil => exact hrefl _
  | @cons seg seg' segs segs' hseg hsegs =>
      rw [commas, commas, textOf_append, textOf_append]
      refine happend hseg ?_
      induction hsegs with
      | nil => exact hrefl _
      | cons hseg hsegs ih =>
          rw [List.flatMap_cons, List.flatMap_cons, textOf_append, textOf_append, textOf_comma_cons,
            textOf_comma_cons]
          exact happend (happend (hrefl [',']) hseg) ih

/-- What can be said of the cores of objects with the same margins can be said of their texts. -/
theorem rel_rowNodes {rows rows' : List Row} {rest rest' : List (List Node)}
    (hmargins : marginsOf rows rest = marginsOf rows' rest')
    (hcores : List.Forall₂ (fun r s => R (textOf r.core) (textOf s.core)) rows rows') :
    R (textOf (rowNodes rows rest)) (textOf (rowNodes rows' rest')) := by
  rw [marginsOf, marginsOf, Margins.mk.injEq] at hmargins
  obtain ⟨hleads, htrails, hrest⟩ := hmargins
  have hnodes : List.Forall₂ (fun as bs => R (textOf as) (textOf bs)) (rows.map Row.nodes) (rows'.map Row.nodes) := by
    induction hcores with
    | nil => exact .nil
    | @cons r s rows rows' hcore hcores ih =>
        rw [List.map_cons, List.map_cons, List.cons.injEq] at hleads htrails
        refine .cons ?_ (ih hleads.2 htrails.2)
        rw [Row.nodes, Row.nodes, textOf_append, textOf_append, textOf_append, textOf_append, hleads.1, htrails.1]
        exact happend (happend (hrefl _) hcore) (hrefl _)
  have hrests : List.Forall₂ (fun as bs => R (textOf as) (textOf bs)) rest rest' :=
    (forall₂_of_map hrest).imp fun as bs heq => heq ▸ hrefl _
  exact rel_commas hrefl happend (List.rel_append hnodes hrests)

end

/-- Objects with the same margins and the same cores have the same text. -/
theorem textOf_rowNodes_eq {rows rows' : List Row} {rest rest' : List (List Node)}
    (hmargins : marginsOf rows rest = marginsOf rows' rest') (hcores : rows.map Row.core = rows'.map Row.core) :
    textOf (rowNodes rows rest) = textOf (rowNodes rows' rest') := by
  refine rel_rowNodes (fun _ => rfl) (fun h h' => by rw [h, h']) hmargins ?_
  exact (forall₂_of_map hcores).imp fun r s heq => by rw [heq]

/-- The margins of an object to which a property is added. -/
theorem marginsOf_added {rows rows' : List Row} {rest : List (List Node)} {front back lead trail : List Node}
    {key value : Text} {hlead : Blank lead} {htrail : Blank trail} {indent : Option Text}
    (hleads : rows'.map Row.lead = rows.map Row.lead)
    (htrails : rows'.map Row.trail = bareTrails rest (rows.map Row.trail))
    (hback : back = lastGap rest (rows.map Row.trail)) (hfront : front = [] ↔ rows = [])
    (hplaced : (textOf lead, textOf trail) = addedMargins indent front.isEmpty (textOf back)) :
    marginsOf (rows' ++ [newRow key value lead trail hlead htrail]) [] = (marginsOf rows rest).add indent := by
  have hleadTexts := congrArg (List.map textOf) hleads
  have htrailTexts := congrArg (List.map textOf) htrails
  rw [bareTrails_map, List.map_map, List.map_map] at htrailTexts
  rw [List.map_map, List.map_map] at hleadTexts
  have hisEmpty : front.isEmpty = (rows.map fun r => textOf r.lead).isEmpty := by
    rw [Bool.eq_iff_iff, List.isEmpty_iff, List.isEmpty_iff, hfront, List.map_eq_nil_iff]
  rw [hback, lastGap_map, List.map_map, hisEmpty] at hplaced
  simp only [marginsOf, Margins.add, List.map_append, List.map_cons, List.map_nil, newRow]
  rw [← Function.comp_def textOf Row.trail, ← hplaced]
  rw [Margins.mk.injEq]
  exact ⟨congrArg (· ++ [textOf lead]) hleadTexts, congrArg (· ++ [textOf trail]) htrailTexts, rfl⟩

theorem skipped_unique {w w' u u' : Text} (hw : ∀ c ∈ w, isSkipped c = true) (hw' : ∀ c ∈ w', isSkipped c = true)
    (hu : ∃ c cs, u = c :: cs ∧ isSkipped c = false) (hu' : ∃ c cs, u' = c :: cs ∧ isSkipped c = false)
    (h : w ++ u = w' ++ u') : w = w' ∧ u = u' := by
  have htake {w u : Text} (hw : ∀ c ∈ w, isSkipped c = true) (hu : ∃ c cs, u = c :: cs ∧ isSkipped c = false) :
      (w ++ u).takeWhile isSkipped = w := by
    obtain ⟨c, cs, rfl, hc⟩ := hu
    rw [List.takeWhile_append_of_pos hw, List.takeWhile_cons_of_neg (by simp [hc]), List.append_nil]
  have heq := htake hw hu
  rw [h, htake hw' hu'] at heq
  subst heq
  exact ⟨rfl, List.append_cancel_left h⟩

theorem exists_head {core : List Node} {after : Text} (h : Solid core) (hlegible : Legible (lexemesOf core) after) :
    ∃ c cs, textOf core = c :: cs ∧ isSkipped c = false := by
  obtain ⟨n, hn, htrivia⟩ := h.first
  obtain ⟨ns, rfl⟩ := List.head?_eq_some_iff.1 hn
  have hone : Legible (lexemesOf [n] ++ lexemesOf ns) after := by
    rw [lexemesOf_cons] at hlegible
    rwa [lexemesOf_cons, lexemesOf_nil, List.append_nil]
  have hfirst := (legible_append.1 hone).1
  obtain ⟨c, cs, hc⟩ := List.exists_cons_of_ne_nil (textOf_ne_nil hfirst (List.cons_ne_nil n []))
  rw [lexemesOf_cons, lexemesOf_nil, List.append_nil] at hfirst
  refine ⟨c, cs ++ textOf ns, ?_, Node.head_not_skipped hfirst htrivia c (by rw [hc]; rfl)⟩
  rw [textOf_cons, hc, List.cons_append]

/-- Whether a row shows where its margins end. -/
structure SeenRow (r : Row) : Prop where
  lead : ∀ c ∈ textOf r.lead, isSkipped c = true
  core : ∃ c cs, textOf r.core = c :: cs ∧ isSkipped c = false
  trail : ∀ c ∈ textOf r.trail, isSkipped c = true

theorem SeenRow.unique {r s : Row} (hr : SeenRow r) (hs : SeenRow s) (hcore : r.core = s.core) {x x' : Text}
    (hx : ∃ c cs, x = c :: cs ∧ isSkipped c = false) (hx' : ∃ c cs, x' = c :: cs ∧ isSkipped c = false)
    (h : textOf r.nodes ++ x = textOf s.nodes ++ x') : textOf r.lead = textOf s.lead ∧ x = x' := by
  have hfront {r : Row} (hr : SeenRow r) (x : Text) :
      ∃ c cs, textOf r.core ++ (textOf r.trail ++ x) = c :: cs ∧ isSkipped c = false := by
    obtain ⟨c, cs, hcore, hc⟩ := hr.core
    exact ⟨c, cs ++ (textOf r.trail ++ x), by rw [hcore, List.cons_append], hc⟩
  simp only [Row.nodes, textOf_append, List.append_assoc] at h
  obtain ⟨hlead, hbehind⟩ := skipped_unique hr.lead hs.lead (hfront hr x) (hfront hs x') h
  rw [hcore] at hbehind
  exact ⟨hlead, (skipped_unique hr.trail hs.trail hx hx' (List.append_cancel_left hbehind)).2⟩

theorem textOf_rowsBehind_cons (r : Row) (rows : List Row) (rest : List (List Node)) :
    textOf (rowsBehind (r :: rows) rest) ++ ['}'] =
      ',' :: (textOf r.nodes ++ (textOf (rowsBehind rows rest) ++ ['}'])) := by
  rw [rowsBehind, List.map_cons, List.cons_append, List.flatMap_cons, ← rowsBehind, textOf_append,
    textOf_comma_cons]
  simp

theorem braced_cons (r : Row) (rows : List Row) (rest : List (List Node)) :
    braced (rowNodes (r :: rows) rest) = '{' :: (textOf r.nodes ++ (textOf (rowsBehind rows rest) ++ ['}'])) := by
  rw [← List.nil_append (r :: rows), rowNodes_append, braced]
  simp [rowsBefore]

section

variable {rest rest' : List (List Node)} {rows rows' : List Row} (hseen : ∀ r ∈ rows, SeenRow r)
  (hseen' : ∀ r ∈ rows', SeenRow r) (hcores : rows.map Row.core = rows'.map Row.core)

include hseen hseen' hcores

theorem leads_behind
    (h : textOf (rowsBehind rows rest) ++ ['}'] = textOf (rowsBehind rows' rest') ++ ['}']) :
    rows.map (fun r => textOf r.lead) = rows'.map fun r => textOf r.lead := by
  induction rows generalizing rows' with
  | nil => rw [List.map_eq_nil_iff.1 hcores.symm]
  | cons r rows ih =>
      obtain ⟨s, rows', rfl, hcore, hcores⟩ := List.map_eq_cons_iff.1 hcores.symm
      obtain ⟨hr, hseen⟩ := List.forall_mem_cons.1 hseen
      obtain ⟨hs, hseen'⟩ := List.forall_mem_cons.1 hseen'
      rw [textOf_rowsBehind_cons, textOf_rowsBehind_cons] at h
      obtain ⟨hlead, hbehind⟩ := hr.unique hs hcore.symm (exists_stop_behind rows rest)
        (exists_stop_behind rows' rest') (List.cons.inj h).2
      rw [List.map_cons, List.map_cons, hlead, ih hseen hseen' hcores.symm hbehind]

/-- The margins before the cores can be told from the text and the cores. -/
theorem leads_unique (h : braced (rowNodes rows rest) = braced (rowNodes rows' rest')) :
    rows.map (fun r => textOf r.lead) = rows'.map fun r => textOf r.lead := by
  cases rows with
  | nil => rw [List.map_eq_nil_iff.1 hcores.symm]
  | cons r rows =>
      obtain ⟨s, rows', rfl, -, -⟩ := List.map_eq_cons_iff.1 hcores.symm
      rw [braced_cons, braced_cons] at h
      refine @leads_behind rest rest' _ _ hseen hseen' hcores ?_
      rw [textOf_rowsBehind_cons, textOf_rowsBehind_cons, (List.cons.inj h).2]

end

end ObjectText

end PugSize
