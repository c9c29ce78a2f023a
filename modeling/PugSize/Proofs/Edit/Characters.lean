import PugSize.Proofs.Edit.Appended
import PugSize.Proofs.Edit.Slots

/-!
The characters of edited argument texts. They come from the text, from what is written into it, and
from the marks that separate arguments and properties.
-/

namespace PugSize

namespace Text

variable {c : Char} {t : Text}

theorem mem_of_mem_takeBytes {n : Nat} (h : c ∈ takeBytes n t) : c ∈ t := by
  induction t generalizing n with
  | nil => exact h
  | cons d ds ih =>
      rw [takeBytes] at h
      split at h
      · exact List.mem_cons.2 ((List.mem_cons.1 h).imp_right ih)
      · cases h

theorem mem_of_mem_dropBytes {n : Nat} (h : c ∈ dropBytes n t) : c ∈ t := by
  induction t generalizing n with
  | nil => exact h
  | cons d ds ih =>
      rw [dropBytes] at h
      split at h
      · exact List.mem_cons_of_mem _ (ih h)
      · exact h

theorem mem_of_mem_slice {s : Span} (h : c ∈ t.slice s) : c ∈ t :=
  mem_of_mem_dropBytes (mem_of_mem_takeBytes h)

theorem mem_splice {s : Span} {new : Text} (h : c ∈ t.splice s new) : c ∈ t ∨ c ∈ new := by
  rw [splice, List.mem_append, List.mem_append] at h
  obtain (h | h) | h := h
  · exact .inl (mem_of_mem_takeBytes h)
  · exact .inr h
  · exact .inl (mem_of_mem_dropBytes h)

theorem mem_of_mem_trimEnd (h : c ∈ trimEnd t) : c ∈ t := by
  rw [trimEnd, List.mem_reverse] at h
  exact List.mem_reverse.1 (List.dropWhile_subset _ h)

end Text

theorem Replacement.mem_applyAll {c : Char} {t : Text} {rs : List Replacement}
    (h : c ∈ applyAll t rs) : c ∈ t ∨ ∃ r ∈ rs, c ∈ r.text := by
  have hall (ss : List Replacement) (u : Text) (hu : c ∈ ss.foldl apply u) :
      c ∈ u ∨ ∃ r ∈ ss, c ∈ r.text := by
    induction ss generalizing u with
    | nil => exact .inl hu
    | cons s ss ih =>
        obtain hs | ⟨r, hr, hc⟩ := ih _ hu
        · obtain hc | hc := Text.mem_splice hs
          · exact .inl hc
          · exact .inr ⟨s, List.mem_cons_self, hc⟩
        · exact .inr ⟨r, List.mem_cons_of_mem _ hr, hc⟩
  obtain hc | ⟨r, hr, hc⟩ := hall _ _ h
  · exact .inl hc
  · exact .inr ⟨r, List.mem_mergeSort.1 hr, hc⟩

namespace Slots

/-- A slot is written with digits, and what is added between slots are commas, spaces and quotes. -/
theorem mem_write {c : Char} {t : Text} {spans : List Span} {size : Size} {overwrite : Bool}
    (h : c ∈ write t spans size overwrite) :
    c ∈ t ∨ c.isDigit = true ∨ c ∈ [',', ' ', '"', '\''] := by
  have hdigits := fun n (hc : c ∈ decimal n) => (isDigits_decimal n).2 c hc
  have hquote (file : Span) : quoteOf t file = '"' ∨ quoteOf t file = '\'' := by
    unfold quoteOf
    split
    · exact .inr rfl
    · exact .inl rfl
  have hfill {slot : Span} {n : Nat} {r : Replacement} (hr : r ∈ fill t overwrite slot (decimal n))
      (hc : c ∈ r.text) : c.isDigit = true := by
    unfold fill at hr
    split at hr
    · rw [List.mem_singleton.1 hr] at hc
      exact hdigits n hc
    · cases hr
  have hcomma : ∀ d ∈ ", ".toList, d = ',' ∨ d = ' ' := by simp
  obtain hc | ⟨r, hr, hc⟩ := Replacement.mem_applyAll h
  · exact .inl hc
  right
  unfold replacements at hr
  split at hr
  · cases hr
  · rename_i file
    rw [List.mem_singleton.1 hr] at hc
    simp only [Replacement.insertion, List.mem_append, List.mem_cons, List.not_mem_nil,
      or_false] at hc ⊢
    have hfile := hquote file
    grind
  · rw [List.mem_singleton.1 hr] at hc
    simp only [Replacement.insertion, List.mem_append, List.mem_cons, List.not_mem_nil,
      or_false] at hc ⊢
    grind
  · obtain hr | hr := List.mem_append.1 hr
    · exact .inl (hfill hr hc)
    · rw [List.mem_singleton.1 hr] at hc
      obtain hc | hc := List.mem_append.1 hc
      · obtain rfl | rfl := hcomma c hc <;> simp
      · exact .inl (hdigits _ hc)
  · obtain hr | hr := List.mem_append.1 hr
    · exact .inl (hfill hr hc)
    · exact .inl (hfill hr hc)

end Slots

namespace ObjectText

variable {c : Char} {t : Text}

theorem cutAtLast?_eq_some {d : Char} {head tail : Text} (h : cutAtLast? d t = some (head, tail)) :
    t = head ++ tail ∧ tail.head? = some d := by
  by_cases hd : d ∈ t
  · obtain ⟨u, w, rfl, hw⟩ := exists_last_place hd
    rw [cutAtLast?_append hw, Option.some.injEq, Prod.mk.injEq] at h
    obtain ⟨rfl, rfl⟩ := h
    exact ⟨rfl, rfl⟩
  · rw [cutAtLast?_eq_none hd] at h
    cases h

theorem mem_addInline {head tail prop : Text} (h : c ∈ addInline head tail prop) :
    c ∈ head ∨ c ∈ tail ∨ c ∈ prop ∨ c ∈ [',', ' '] := by
  have hbody : ∀ d ∈ Text.trimEnd head, d ∈ head := fun d => Text.mem_of_mem_trimEnd
  have hgap : ∀ d ∈ head.drop (Text.trimEnd head).length, d ∈ head := fun d => List.mem_of_mem_drop
  have hcomma : ", ".toList = [',', ' '] := rfl
  unfold addInline at h
  simp only [hcomma] at h
  split at h <;> simp only [List.mem_append, List.mem_cons, List.not_mem_nil, or_false] at h ⊢ <;>
    grind

theorem mem_withComma {marked : List (Char × CharClass)} (h : c ∈ withComma marked) :
    c ∈ marked.map Prod.fst ∨ c = ',' := by
  have hpart {part : List (Char × CharClass)} (hsub : ∀ x ∈ part, x ∈ marked)
      (hc : c ∈ part.map Prod.fst) : c ∈ marked.map Prod.fst := by
    obtain ⟨x, hx, rfl⟩ := List.mem_map.1 hc
    exact List.mem_map_of_mem (hsub x hx)
  have hafter (p : Char × CharClass → Bool) :
      ∀ x ∈ (marked.reverse.takeWhile p).reverse, x ∈ marked := fun x hx =>
    List.mem_reverse.1 (List.takeWhile_subset _ (List.mem_reverse.1 hx))
  unfold withComma at h
  dsimp only at h
  split at h
  · exact .inl (hpart (hafter _) h)
  · rename_i d k before hdropped
    have hupTo : ∀ x ∈ ((d, k) :: before).reverse, x ∈ marked := by
      intro x hx
      rw [List.mem_reverse, ← hdropped] at hx
      exact List.mem_reverse.1 (List.dropWhile_subset _ hx)
    split at h
    · exact .inl ((List.mem_append.1 h).elim (hpart hupTo) (hpart (hafter _)))
    · obtain h | h := List.mem_append.1 h
      · exact .inl (hpart hupTo h)
      · obtain rfl | h := List.mem_cons.1 h
        · exact .inr rfl
        · exact .inl (hpart (hafter _) h)

theorem mem_addLine {lead close tail prop : Text} (hclose : Text.isAllBlank close = true)
    (h : c ∈ addLine lead close tail prop) :
    c ∈ lead ∨ c ∈ close ∨ c ∈ tail ∨ c ∈ prop ∨ c ∈ [',', ' ', '\t', '\n'] := by
  have hlead : ∀ d ∈ (lead.zip (CharClass.ofText (lead ++ close ++ tail))).map Prod.fst, d ∈ lead := by
    intro d hd
    obtain ⟨x, hx, rfl⟩ := List.mem_map.1 hd
    exact (List.of_mem_zip hx).1
  simp only [addLine, List.mem_append, List.mem_cons, List.not_mem_nil, or_false] at h ⊢
  obtain (((h | h) | h) | h | h) | h := h
  · obtain hc | rfl := mem_withComma h
    · exact .inl (hlead c hc)
    · simp
  · have hindent := (mem_propertyIndent (fun d hd => List.all_eq_true.1 hclose d hd) h).2
    grind
  all_goals simp [h]

theorem mem_append {prop : Text} (h : c ∈ append t prop) :
    c ∈ t ∨ c ∈ prop ∨ c ∈ [',', ' ', '\t', '\n'] := by
  unfold append at h
  split at h
  · exact .inl h
  rename_i head tail hcut
  obtain ⟨rfl, -⟩ := cutAtLast?_eq_some hcut
  have hinline (hc : c ∈ addInline head tail prop) :
      c ∈ head ++ tail ∨ c ∈ prop ∨ c ∈ [',', ' ', '\t', '\n'] := by
    have := mem_addInline hc
    simp only [List.mem_append, List.mem_cons, List.not_mem_nil, or_false] at this ⊢
    grind
  split at h
  · rename_i lines line hline
    obtain ⟨rfl, -⟩ := cutAtLast?_eq_some hline
    dsimp only at h
    split at h
    · rename_i hblank
      have hline' : ∀ d ∈ line.drop 1, d ∈ line := fun d => List.mem_of_mem_drop
      have := mem_addLine hblank h
      simp only [List.mem_append, List.mem_cons, List.not_mem_nil, or_false] at this ⊢
      grind
    · exact hinline h
  · exact hinline h

theorem mem_write {overwrite : Bool} {e : PropertyEdit} (h : c ∈ write overwrite t e) :
    c ∈ t ∨ c ∈ e.key ∨ c ∈ e.value ∨ c ∈ [',', ' ', '\t', '\n', ':'] := by
  unfold write at h
  split at h
  · split at h
    · obtain hc | hc := Text.mem_splice h
      · exact .inl hc
      · exact .inr (.inr (.inl hc))
    · exact .inl h
  · have hcolon : ": ".toList = [':', ' '] := rfl
    have := mem_append h
    simp only [PropertyEdit.text, hcolon, List.mem_append, List.mem_cons, List.not_mem_nil,
      or_false] at this ⊢
    grind

theorem mem_writeAll {overwrite : Bool} {edits : List PropertyEdit}
    (h : c ∈ writeAll overwrite t edits) :
    c ∈ t ∨ (∃ e ∈ edits, c ∈ e.key ∨ c ∈ e.value) ∨ c ∈ [',', ' ', '\t', '\n', ':'] := by
  induction edits generalizing t with
  | nil => exact .inl h
  | cons e edits ih =>
      obtain hc | ⟨e', he', hc⟩ | hc := ih h
      · obtain hc | hc | hc | hc := mem_write hc
        · exact .inl hc
        · exact .inr (.inl ⟨e, List.mem_cons_self, .inl hc⟩)
        · exact .inr (.inl ⟨e, List.mem_cons_self, .inr hc⟩)
        · exact .inr (.inr hc)
      · exact .inr (.inl ⟨e', List.mem_cons_of_mem _ he', hc⟩)
      · exact .inr (.inr hc)

end ObjectText
end PugSize
