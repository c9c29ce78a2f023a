import PugSize.Proofs.Edit.ValueCut

/-!
A number written for the value of a row. The key and the colon before it stay, so the row is read
with the same key, and whatever stood behind the value goes on behind the number.
-/

namespace PugSize

open Script CharClass

namespace ObjectText

theorem KeyPart.uncut {key : Text} {part : List Node} (h : KeyPart key part) : Uncut part := by
  obtain ⟨plain, hname, hgap, hgap'⟩ := h
  rename_i name gap gap'
  have hblank {ns : List Node} (hns : Gap ns) : Uncut ns :=
    Blank.uncut fun n hn => isTrivia_of_isGap (hns n hn)
  intro n hn
  simp only [List.mem_append, List.mem_cons, List.cons_append] at hn
  obtain rfl | hn | rfl | hn := hn
  · rfl
  · exact hblank hgap n hn
  · rfl
  · exact hblank hgap' n hn

/-- A key with its colon ends with the colon or with white space. -/
theorem KeyPart.shut {key : Text} {part : List Node} (h : KeyPart key part) (front : List Node) :
    Shut (front ++ part) := by
  obtain ⟨plain, hname, hgap, hgap'⟩ := h
  rename_i name gap gap'
  intro l hl
  obtain rfl | ⟨init, n, rfl⟩ := List.eq_nil_or_concat gap'
  · have hnodes : front ++ (.leaf name plain :: gap ++ colonNode :: []) =
        (front ++ .leaf name plain :: gap) ++ [colonNode] := by simp
    have hcolon : lexemesOf [colonNode] = [⟨.token .colon, [':']⟩] := rfl
    rw [hnodes, lexemesOf_append, hcolon, List.getLast?_concat, Option.some.injEq] at hl
    rw [← hl]
    rfl
  · rw [List.concat_eq_append] at hl hgap'
    have hn := hgap' n (by simp)
    have hnodes : front ++ (.leaf name plain :: gap ++ colonNode :: (init ++ [n])) =
        (front ++ .leaf name plain :: gap ++ colonNode :: init) ++ [n] := by simp
    rw [hnodes, lexemesOf_append, lexemesOf_cons, lexemesOf_nil, List.append_nil] at hl
    cases n with
    | leaf m plain' =>
        rw [Node.lexemes, List.getLast?_concat, Option.some.injEq] at hl
        simp only [isGap, Bool.and_eq_true, beq_iff_eq] at hn
        rw [← hl, Lexeme.isClosed, hn.1]
        rfl
    | comma => cases hn
    | group shape inside => cases hn

theorem KeyPart.head {key : Text} {part : List Node} (h : KeyPart key part) :
    ∃ n more, part = n :: more ∧ n.isTrivia = false := by
  obtain ⟨plain, hname, hgap, hgap'⟩ := h
  refine ⟨_, _, rfl, ?_⟩
  obtain rfl | rfl | ⟨q, -, rfl⟩ := hname
  · rfl
  · rfl
  · rfl

/-- The core of a row with a number for the front of its value. -/
theorem KeyPart.solid {key : Text} {part more : List Node} (h : KeyPart key part) (t : Text)
    (hmore : Uncut more) (hlast : ∀ n, more.getLast? = some n → n.isTrivia = false) :
    Solid (part ++ .number t :: more) := by
  refine ⟨?_, ?_, ?_⟩
  · intro n hn
    obtain hn | hn := List.mem_append.1 hn
    · exact h.uncut n hn
    · obtain rfl | hn := List.mem_cons.1 hn
      · rfl
      · exact hmore n hn
  · obtain ⟨n, ns, rfl, hn⟩ := h.head
    exact ⟨n, rfl, hn⟩
  · obtain rfl | ⟨init, n, rfl⟩ := List.eq_nil_or_concat more
    · exact ⟨.number t, List.getLast?_concat, rfl⟩
    · rw [List.concat_eq_append] at hlast ⊢
      refine ⟨n, ?_, hlast n List.getLast?_concat⟩
      rw [← List.cons_append, ← List.append_assoc, List.getLast?_concat]

/-- What is read of a row that is written with its key. -/
theorem property?_keyPart {key : Text} (hkey : IsLabel key) {part : List Node} (h : KeyPart key part)
    (value : List Node) (offset : Nat) :
    ∃ span, property? (placeRow offset (part ++ value)) =
      (segmentExpr? false (placeRow (offset + widthOf part) value)).map fun v => ⟨some key, span, v⟩ := by
  obtain ⟨plain, hname, hgap, hgap'⟩ := h
  rename_i name gap gap'
  obtain ⟨kind, hkind, hspread, hfound⟩ := key?_of_isName hkey hname
  have hblank {ns : List Node} (hns : Gap ns) : Blank ns := fun n hn => isTrivia_of_isGap (hns n hn)
  have htrees : placeRow offset (.leaf name plain :: gap ++ colonNode :: gap' ++ value) =
      .leaf ⟨kind, name.text, offset⟩ ::
        .leaf ⟨.colon, [':'], offset + widthOf (.leaf name plain :: gap)⟩ ::
        placeRow (offset + widthOf (.leaf name plain :: gap ++ colonNode :: gap')) value := by
    rw [placeRow_append, placeRow_append, List.cons_append, placeRow, placeRow_blank (hblank hgap),
      placeRow, placeRow_blank (hblank hgap'), Node.tree?, hkind]
    rfl
  rw [htrees]
  simp only [property?, if_neg hspread, hfound, Option.bind_some, List.isEmpty_cons,
    Bool.false_eq_true, if_false, propertyValue?, if_true]
  exact ⟨_, rfl⟩

section

variable {key : Text} (hkey : IsLabel key) {part : List Node} (h : KeyPart key part) (t : Text)

include hkey h

/-- A row with a number behind the colon is read. -/
theorem reads_number {r : Row} {more : List Node} (hcore : r.core = part ++ .number t :: more) :
    r.Reads property? := by
  obtain ⟨span, hread⟩ := property?_keyPart hkey h (.number t :: more) (widthOf r.lead)
  rw [Row.Reads, Row.trees, Nat.zero_add, hcore, hread, Option.isSome_map]
  rfl

end

/-- Whether nodes go on behind a number without a change to it. -/
def Follow (ns : List Node) : Prop := ∀ n, ns.head? = some n → n.isTrivia = true

/-- What remains of a value behind the nodes found in it, which may reach past its end. -/
inductive Remains (value body : List Node) : List Node → Prop
  | behind {more : List Node} (h : value = body ++ more) : Remains value body more
  | nothing {extra : List Node} (h : body = value ++ extra) (hblank : Blank extra) : Remains value body []

theorem Remains.eq {value body more : List Node} (h : Remains value body more) (hmore : more ≠ []) :
    value = body ++ more := by
  cases h with
  | behind h => exact h
  | nothing => exact absurd rfl hmore

/-- A number behind a key and its colon makes up a core that is written with the key. -/
theorem KeyPart.keyed {key new : Text} {ns part more : List Node} (h : KeyPart key part)
    (hcore : ns = part ++ .number new :: more) : Keyed key ns part (.number new :: more) :=
  ⟨hcore, h, _, rfl, rfl⟩

theorem Writes.congr {key : Text} {r s : Row} {part value : List Node} (h : Writes key r part value)
    (hcore : s.core = r.core) (hlead : s.lead = r.lead) : Writes key s part value :=
  ⟨hcore ▸ h.toKeyed, hlead ▸ h.lead⟩

/-- A row is written with its key still when a number has taken the place of its value. -/
theorem Writes.renewed {key new : Text} {r r' : Row} {part value more : List Node} (h : Writes key r part value)
    (hcore : r'.core = part ++ .number new :: more) (hlead : r'.lead = r.lead) :
    Writes key r' part (.number new :: more) :=
  ⟨h.part.keyed hcore, hlead ▸ h.lead⟩

/-- A row whose value begins with a number in place of the nodes found. -/
theorem exists_rewritten {key : Text} {r : Row} {part value : List Node} (hwrites : Writes key r part value)
    {body later : List Node} (hcut : value ++ r.trail = body ++ later) (t : Text) :
    ∃ r' : Row, r'.lead = r.lead ∧ r'.nodes = r.lead ++ (part ++ .number t :: later) ∧
      ∃ more, r'.core = part ++ .number t :: more ∧ Remains value body more := by
  have hparts (more trail : List Node) (hlater : later = more ++ trail) :
      r.lead ++ (part ++ .number t :: more) ++ trail = r.lead ++ (part ++ .number t :: later) := by
    rw [hlater]
    simp
  obtain ⟨extra, hbody, htrail⟩ | ⟨more, hvalue, hlater⟩ := List.append_eq_append_iff.1 hcut
  · have hblank : Blank later := fun n hn => r.blank_trail n (by rw [htrail]; exact List.mem_append_right _ hn)
    have hextra : Blank extra := fun n hn => r.blank_trail n (by rw [htrail]; exact List.mem_append_left _ hn)
    exact ⟨⟨r.lead, part ++ [.number t], later, r.blank_lead,
      hwrites.part.solid t (fun n hn => absurd hn List.not_mem_nil) nofun, hblank⟩,
      rfl, hparts [] later rfl, [], rfl, .nothing hbody hextra⟩
  · have hsolid : Solid (part ++ body ++ more) := by
      rw [List.append_assoc, ← hvalue, ← hwrites.core]
      exact r.solid
    exact ⟨⟨r.lead, part ++ .number t :: more, r.trail, r.blank_lead,
      hwrites.part.solid t hsolid.uncut_behind (fun n hn => hsolid.last_behind hn), r.blank_trail⟩,
      rfl, hparts more r.trail hlater, more, rfl, .behind hvalue⟩

/-- The nodes found in a row can be exchanged for a number. -/
theorem legible_rewritten {key : Text} {as : List Row} {r r' : Row} {bs : List Row}
    {rest : List (List Node)} {part value body later : List Node} (hwrites : Writes key r part value)
    (hcut : value ++ r.trail = body ++ later) (hlater : Follow later) {t after : Text} (ht : IsDigits t)
    (hnodes : r'.nodes = r.lead ++ (part ++ .number t :: later)) (hafter : Apart after)
    (h : Legible (lexemesOf (rowNodes (as ++ r :: bs) rest)) after) :
    Legible (lexemesOf (rowNodes (as ++ r' :: bs) rest)) after := by
  have hold : rowNodes (as ++ r :: bs) rest =
      (rowsBefore as ++ r.lead ++ part) ++ body ++ (later ++ rowsBehind bs rest) := by
    rw [hwrites.rowNodes_eq, hcut]
    simp
  have hnew : rowNodes (as ++ r' :: bs) rest =
      (rowsBefore as ++ r.lead ++ part) ++ [.number t] ++ (later ++ rowsBehind bs rest) := by
    rw [rowNodes_append, hnodes]
    simp
  rw [hold] at h
  rw [hnew]
  have hpost := h
  rw [lexemesOf_append] at hpost
  have happart : Apart (textOf (later ++ rowsBehind bs rest) ++ after) := by
    refine apart_textOf (legible_append.1 hpost).2 ?_ hafter
    intro n hn
    cases later with
    | nil => exact .inr (head_rowsBehind bs rest n hn)
    | cons m ms =>
        obtain rfl : m = n := Option.some.inj hn
        exact .inl (hlater m rfl)
  exact h.exchange (hwrites.part.shut _) ⟨stands_number ht happart, trivial⟩

end ObjectText
end PugSize
