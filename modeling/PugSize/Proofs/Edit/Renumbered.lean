import Mathlib.Data.List.Forall2
import PugSize.Proofs.Document.Offsets
import PugSize.Proofs.Edit.Shaped

/-!
Texts that differ in their numbers only. Their lines begin with the same white space, so a property that is added
on a line of its own gets the same indentation in both.
-/

namespace PugSize

open Script

/-- A text with other numbers in the place of some. -/
inductive Renumbered : Text → Text → Prop
  | nil : Renumbered [] []
  | cons (c : Char) {t t' : Text} (h : Renumbered t t') : Renumbered (c :: t) (c :: t')
  | number {v v' t t' : Text} (hv : IsDigits v) (hv' : IsDigits v') (h : Renumbered t t') :
      Renumbered (v ++ t) (v' ++ t')

namespace Renumbered

theorem refl (t : Text) : Renumbered t t := by
  induction t with
  | nil => exact .nil
  | cons c t ih => exact .cons c ih

theorem append {t t' u u' : Text} (h : Renumbered t t') (hu : Renumbered u u') :
    Renumbered (t ++ u) (t' ++ u') := by
  induction h with
  | nil => exact hu
  | cons c h ih => exact .cons c ih
  | number hv hv' h ih =>
      rw [List.append_assoc, List.append_assoc]
      exact .number hv hv' ih

theorem not_mem_number {v : Text} (hv : IsDigits v) {c : Char} (hc : c.isDigit = false) : c ∉ v := by
  intro hmem
  rw [hv.2 c hmem] at hc
  cases hc

theorem takeWhile_number {v : Text} (hv : IsDigits v) (t : Text) : (v ++ t).takeWhile Text.isBlank = [] := by
  obtain ⟨c, cs, rfl⟩ := List.exists_cons_of_ne_nil hv.1
  rw [List.cons_append, List.takeWhile_cons_of_neg]
  rw [isBlank_of_isDigit (hv.2 c List.mem_cons_self)]
  exact Bool.false_ne_true

theorem isAllBlank_number {v : Text} (hv : IsDigits v) (t : Text) : Text.isAllBlank (v ++ t) = false := by
  obtain ⟨c, cs, rfl⟩ := List.exists_cons_of_ne_nil hv.1
  rw [List.cons_append, Text.isAllBlank, List.all_cons, isBlank_of_isDigit (hv.2 c List.mem_cons_self)]
  rfl

/-- A character that is no digit has its last place in both texts or in none. -/
theorem cut {t t' : Text} (h : Renumbered t t') {c : Char} (hc : c.isDigit = false) :
    (c ∉ t ∧ c ∉ t') ∨ ∃ u w u' w', t = u ++ c :: w ∧ t' = u' ++ c :: w' ∧ c ∉ w ∧ c ∉ w' ∧
      Renumbered u u' ∧ Renumbered w w' := by
  induction h with
  | nil => exact .inl ⟨List.not_mem_nil, List.not_mem_nil⟩
  | @cons d t t' h ih =>
      obtain ⟨ht, ht'⟩ | ⟨u, w, u', w', rfl, rfl, hw, hw', hu, hback⟩ := ih
      · by_cases hd : c = d
        · subst hd
          exact .inr ⟨[], t, [], t', rfl, rfl, ht, ht', .nil, h⟩
        · exact .inl ⟨List.not_mem_cons_of_ne_of_not_mem hd ht, List.not_mem_cons_of_ne_of_not_mem hd ht'⟩
      · exact .inr ⟨d :: u, w, d :: u', w', rfl, rfl, hw, hw', .cons d hu, hback⟩
  | @number v v' t t' hv hv' h ih =>
      obtain ⟨ht, ht'⟩ | ⟨u, w, u', w', rfl, rfl, hw, hw', hu, hback⟩ := ih
      · exact .inl ⟨List.not_mem_append (not_mem_number hv hc) ht, List.not_mem_append (not_mem_number hv' hc) ht'⟩
      · exact .inr ⟨v ++ u, w, v' ++ u', w', by simp, by simp, hw, hw', .number hv hv' hu, hback⟩

theorem lines {t t' : Text} (h : Renumbered t t') :
    List.Forall₂ Renumbered (Text.splitLines t) (Text.splitLines t') := by
  induction h with
  | nil => exact .cons .nil .nil
  | @cons c t t' h ih =>
      obtain ⟨l, ls, hsplit⟩ := List.exists_cons_of_ne_nil (Text.splitLines_ne_nil t)
      obtain ⟨l', ls', hsplit'⟩ := List.exists_cons_of_ne_nil (Text.splitLines_ne_nil t')
      rw [hsplit, hsplit'] at ih
      rw [Text.splitLines, Text.splitLines, hsplit, hsplit']
      split
      · exact .cons .nil ih
      · obtain ⟨hfirst, hrest⟩ := List.forall₂_cons.1 ih
        exact .cons (.cons c hfirst) hrest
  | @number v v' t t' hv hv' h ih =>
      have hline : ('\n' : Char).isDigit = false := by decide
      obtain ⟨l, ls, hsplit⟩ := List.exists_cons_of_ne_nil (Text.splitLines_ne_nil t)
      obtain ⟨l', ls', hsplit'⟩ := List.exists_cons_of_ne_nil (Text.splitLines_ne_nil t')
      rw [hsplit, hsplit', List.forall₂_cons] at ih
      rw [Text.splitLines_append (not_mem_number hv hline) hsplit,
        Text.splitLines_append (not_mem_number hv' hline) hsplit']
      exact .cons (.number hv hv' ih.1) ih.2

/-- White space at the front of the two texts is the same. -/
theorem takeWhile_eq {t t' : Text} (h : Renumbered t t') :
    t.takeWhile Text.isBlank = t'.takeWhile Text.isBlank := by
  induction h with
  | nil => rfl
  | cons c h ih => rw [List.takeWhile_cons, List.takeWhile_cons, ih]
  | number hv hv' h ih => rw [takeWhile_number hv, takeWhile_number hv']

theorem isAllBlank_eq {t t' : Text} (h : Renumbered t t') : Text.isAllBlank t = Text.isAllBlank t' := by
  induction h with
  | nil => rfl
  | cons c h ih => rw [Text.isAllBlank, Text.isAllBlank, List.all_cons, List.all_cons, ← Text.isAllBlank, ih]; rfl
  | number hv hv' h ih => rw [isAllBlank_number hv, isAllBlank_number hv']

theorem eq_of_isAllBlank {t t' : Text} (h : Renumbered t t') (hblank : Text.isAllBlank t = true) : t = t' := by
  have htake := h.takeWhile_eq
  have hblank' := hblank
  rw [h.isAllBlank_eq] at hblank'
  rwa [List.takeWhile_eq_self_iff.2 (List.all_eq_true.1 hblank),
    List.takeWhile_eq_self_iff.2 (List.all_eq_true.1 hblank')] at htake

end Renumbered

namespace ObjectText

theorem propertyIndent_eq {lead lead' : Text} (h : Renumbered lead lead') (close : Text) :
    propertyIndent lead close = propertyIndent lead' close := by
  have hlines := List.rel_filter (p := fun l => !Text.isAllBlank l) (q := fun l => !Text.isAllBlank l)
    (fun l l' hl => by simp only [hl.isAllBlank_eq]) (List.forall₂_drop 1 h.lines)
  rw [propertyIndent, propertyIndent]
  have hreverse := List.rel_reverse hlines
  rw [List.getLast?_eq_head?_reverse, List.getLast?_eq_head?_reverse]
  revert hreverse
  generalize (List.filter _ _).reverse = ls, (List.filter _ _).reverse = ls'
  intro hreverse
  cases hreverse with
  | nil => rfl
  | cons hline hlines => exact hline.takeWhile_eq

/-- The indentation of a property that is added does not depend on the numbers of the text. -/
theorem lineIndent?_eq {t t' : Text} (h : Renumbered t t') : lineIndent? t = lineIndent? t' := by
  have hbrace : ('}' : Char).isDigit = false := by decide
  have hline : ('\n' : Char).isDigit = false := by decide
  obtain ⟨ht, ht'⟩ | ⟨head, tail, head', tail', rfl, rfl, htail, htail', hhead, -⟩ := h.cut hbrace
  · rw [lineIndent?, lineIndent?, cutAtLast?_eq_none ht, cutAtLast?_eq_none ht']
  simp only [lineIndent?, cutAtLast?_append htail, cutAtLast?_append htail', Option.bind_some]
  obtain ⟨ht, ht'⟩ | ⟨u, close, u', close', rfl, rfl, hclose, hclose', hu, hlast⟩ := hhead.cut hline
  · rw [cutAtLast?_eq_none ht, cutAtLast?_eq_none ht']
  simp only [cutAtLast?_append hclose, cutAtLast?_append hclose', Option.bind_some, List.drop_succ_cons,
    List.drop_zero]
  rw [← hlast.isAllBlank_eq]
  split
  · rename_i hblank
    rw [hlast.eq_of_isAllBlank hblank, propertyIndent_eq (hu.append (.refl _))]
  · rfl

/-- A core with another number in the place of the one that was written with its key. -/
inductive Twin : List Node → List Node → Prop
  | same (core : List Node) : Twin core core
  | number {key : Text} {part : List Node} (hpart : KeyPart key part) {v v' : Text} (hv : IsDigits v)
      (hv' : IsDigits v') : Twin (part ++ [.number v]) (part ++ [.number v'])

theorem Twin.symm {core core' : List Node} (h : Twin core core') : Twin core' core := by
  cases h with
  | same => exact .same core
  | number hpart hv hv' => exact .number hpart hv' hv

theorem Twin.text {core core' : List Node} (h : Twin core core') : Renumbered (textOf core) (textOf core') := by
  cases h with
  | same => exact .refl _
  | number hpart hv hv' =>
      rw [textOf_append, textOf_append, textOf_number, textOf_number]
      have hnumber := Renumbered.number hv hv' .nil
      rw [List.append_nil, List.append_nil] at hnumber
      exact (Renumbered.refl _).append hnumber

theorem Twin.keyed {core core' : List Node} (h : Twin core core') {key : Text} {part value : List Node}
    (hkeyed : Keyed key core part value) : ∃ value', Keyed key core' part value' := by
  cases h with
  | same => exact ⟨value, hkeyed⟩
  | @number key' part' hpart v v' hv hv' =>
      obtain rfl := hpart.unique hkeyed.part hkeyed.core
      obtain ⟨rfl, -⟩ := Keyed.unique (hpart.keyed rfl) hkeyed
      exact ⟨_, hpart.keyed rfl⟩

section

variable {α β : Type} {R : α → β → Prop} {as : List α} {bs : List β} (h : List.Forall₂ R as bs)

include h

theorem forall₂_set {a : α} {b : β} (hab : R a b) (i : Nat) : List.Forall₂ R (as.set i a) (bs.set i b) := by
  induction h generalizing i with
  | nil => exact .nil
  | cons hfirst hrest ih =>
      cases i with
      | zero => exact .cons hab hrest
      | succ i => exact .cons hfirst (ih i)

theorem forall₂_getElem? {i : Nat} {a : α} (ha : as[i]? = some a) : ∃ b, bs[i]? = some b ∧ R a b := by
  induction h generalizing i with
  | nil => cases ha
  | @cons a b as bs hfirst hrest ih =>
      cases i with
      | zero =>
          obtain rfl := Option.some.inj ha
          exact ⟨b, rfl, hfirst⟩
      | succ i => exact ih ha

end

section

variable {cores cores' : List (List Node)} (h : List.Forall₂ Twin cores cores')

include h

theorem twins_symm : List.Forall₂ Twin cores' cores := (h.imp fun _ _ => Twin.symm).flip

theorem unkeyed_twins {key : Text} (hnone : Unkeyed key cores) : Unkeyed key cores' := by
  intro c' hc' part value hkeyed
  obtain ⟨i, hi⟩ := List.getElem?_of_mem hc'
  obtain ⟨c, hc, htwin⟩ := forall₂_getElem? (twins_symm h) hi
  obtain ⟨value', hkeyed'⟩ := htwin.keyed hkeyed
  exact hnone c (List.mem_of_getElem? hc) part value' hkeyed'

theorem lastKeyed_twins {key : Text} {i : Nat} {part value : List Node} (hlast : LastKeyed key cores i part value) :
    ∃ value', LastKeyed key cores' i part value' := by
  obtain ⟨c, hc, hkeyed⟩ := hlast.keyed
  obtain ⟨c', hc', htwin⟩ := forall₂_getElem? h hc
  obtain ⟨value', hkeyed'⟩ := htwin.keyed hkeyed
  refine ⟨value', ⟨c', hc', hkeyed'⟩, ?_⟩
  intro j d' hij hd' part value hkeyed
  obtain ⟨d, hd, htwin⟩ := forall₂_getElem? (twins_symm h) hd'
  obtain ⟨value', hkeyed'⟩ := htwin.keyed hkeyed
  exact hlast.later j d hij hd part value' hkeyed'

/-- Other numbers written with the same key leave the cores the same, numbers apart. -/
theorem Step.twins {e e' : PropertyEdit} (hkey : e'.key = e.key) (hvalue : IsDigits e.value)
    (hvalue' : IsDigits e'.value) {cores₁ cores₁' : List (List Node)} (hstep : Step e cores cores₁)
    (hstep' : Step e' cores' cores₁') : List.Forall₂ Twin cores₁ cores₁' := by
  obtain ⟨key, v⟩ := e
  obtain ⟨key', v'⟩ := e'
  obtain rfl : key' = key := hkey
  cases hstep with
  | set hlast =>
      obtain ⟨value', hlast'⟩ := lastKeyed_twins h hlast
      obtain rfl := (@Step.set ⟨key', v'⟩ _ _ _ _ hlast').unique hstep'
      obtain ⟨c, -, hkeyed⟩ := hlast.keyed
      exact forall₂_set h (.number hkeyed.part hvalue hvalue') _
  | add hnone =>
      obtain rfl := (@Step.add ⟨key', v'⟩ _ (unkeyed_twins h hnone)).unique hstep'
      exact List.rel_append h (.cons (.number (keyPart_fresh key') hvalue hvalue') .nil)

end

namespace Shaped

variable {t t' : Text} {m m' : Margins} {cores cores' : List (List Node)}

theorem renumbered (h : Shaped t m cores) (h' : Shaped t' m cores') (htwins : List.Forall₂ Twin cores cores') :
    Renumbered t t' := by
  obtain ⟨rows, rest, h, hmargins, rfl⟩ := h
  obtain ⟨rows', rest', h', hmargins', rfl⟩ := h'
  rw [List.forall₂_map_left_iff, List.forall₂_map_right_iff] at htwins
  have hnodes := rel_rowNodes Renumbered.refl Renumbered.append (hmargins.trans hmargins'.symm)
    (htwins.imp fun _ _ => Twin.text)
  rw [h.text, h'.text, braced, braced]
  exact (hnodes.cons '{').append (.refl _)

theorem addedIndents_twin {e e' : PropertyEdit} (h : Shaped t m cores) (h' : Shaped t' m cores')
    (htwins : List.Forall₂ Twin cores cores') (hsame : e'.key = e.key) (hkey : IsKey e.key)
    (hvalue : IsDigits e.value) (hvalue' : IsDigits e'.value) (hready : Ready e.key cores)
    (hready' : Ready e'.key cores') : addedIndents true t [e] = addedIndents true t' [e'] := by
  have hkey' : IsKey e'.key := hsame ▸ hkey
  obtain hnone | ⟨i, part, value, hlast, hline⟩ := hready
  · have hnone' : Unkeyed e'.key cores' := hsame ▸ unkeyed_twins htwins hnone
    rw [(h.write_new hkey hvalue hnone true).1, (h'.write_new hkey' hvalue' hnone' true).1,
      lineIndent?_eq (h.renumbered h' htwins)]
  · obtain ⟨value', hlast'⟩ := lastKeyed_twins htwins hlast
    rw [← hsame] at hlast'
    obtain hnone' | ⟨j, part', value', hlast', hline'⟩ := hready'
    · exact absurd hnone' hlast'.not_unkeyed
    · rw [(h.write_known hkey hvalue hlast hline true).1, (h'.write_known hkey' hvalue' hlast' hline' true).1]

/-- Which properties are added, and with which indentations, does not depend on the numbers that are written. -/
theorem addedIndents_twins {edits edits' : List PropertyEdit} (h : Shaped t m cores) (h' : Shaped t' m cores')
    (htwins : List.Forall₂ Twin cores cores') (hsame : edits'.map PropertyEdit.key = edits.map PropertyEdit.key)
    (hdistinct : edits.Pairwise fun d e => d.key ≠ e.key) (hkeys : ∀ e ∈ edits, IsKey e.key)
    (hvalues : ∀ e ∈ edits, IsDigits e.value) (hvalues' : ∀ e ∈ edits', IsDigits e.value)
    (hready : ∀ e ∈ edits, Ready e.key cores) (hready' : ∀ e ∈ edits, Ready e.key cores') :
    addedIndents true t edits = addedIndents true t' edits' := by
  induction edits generalizing t t' m cores cores' edits' with
  | nil =>
      obtain rfl := List.map_eq_nil_iff.1 hsame
      rfl
  | cons e edits ih =>
      obtain ⟨e', edits', rfl, hkeyEq, hsame⟩ := List.map_eq_cons_iff.1 hsame
      obtain ⟨hother, hdistinct⟩ := List.pairwise_cons.1 hdistinct
      obtain ⟨hkey, hkeys⟩ := List.forall_mem_cons.1 hkeys
      obtain ⟨hvalue, hvalues⟩ := List.forall_mem_cons.1 hvalues
      obtain ⟨hvalue', hvalues'⟩ := List.forall_mem_cons.1 hvalues'
      obtain ⟨he, hready⟩ := List.forall_mem_cons.1 hready
      obtain ⟨he', hready'⟩ := List.forall_mem_cons.1 hready'
      rw [← hkeyEq] at he'
      have hone := h.addedIndents_twin h' htwins hkeyEq hkey hvalue hvalue' he he'
      obtain ⟨cores₁, hturn, h₁⟩ := h.turn hkey hvalue he true
      obtain ⟨cores₁', hturn', h₁'⟩ := h'.turn (hkeyEq ▸ hkey) hvalue' he' true
      -- The margins stay the same, because the same indentation has been added to both.
      rw [← hone] at h₁'
      rw [addedIndents_cons, addedIndents_cons true t', hone]
      refine congrArg _ (ih h₁ h₁' (Step.twins htwins hkeyEq hvalue hvalue' hturn.step hturn'.step) hsame hdistinct
        hkeys hvalues hvalues' ?_ ?_)
      · exact fun d hd => hturn.ready (hother d hd) (hready d hd)
      · exact fun d hd => hturn'.ready (hkeyEq ▸ hother d hd) (hready' d hd)

end Shaped

end ObjectText

end PugSize
