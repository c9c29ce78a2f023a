import PugSize.Proofs.Edit.CoreTurns

/-!
Objects without comments, told by their margins and their cores. A property that is written makes up one turn on
the cores. The margins change where it is added, by the indentation that is looked up in the text then.
-/

namespace PugSize

open Script

namespace ObjectText

/-- A text that is an object without comments, with these margins and these cores. -/
def Shaped (t : Text) (m : Margins) (cores : List (List Node)) : Prop :=
  ∃ rows rest, PlainLayout t rows rest ∧ marginsOf rows rest = m ∧ rows.map Row.core = cores

/-- The indentations that are looked up for the properties that are added, one after the other. -/
def addedIndents (overwrite : Bool) (t : Text) : List PropertyEdit → List (Option Text)
  | [] => []
  | e :: edits =>
    let later := addedIndents overwrite (write overwrite t e) edits
    match valueSpan? t e.key with
    | none => lineIndent? t :: later
    | some _ => later

theorem addedIndents_cons (overwrite : Bool) (t : Text) (e : PropertyEdit) (edits : List PropertyEdit) :
    addedIndents overwrite t (e :: edits) =
      addedIndents overwrite t [e] ++ addedIndents overwrite (write overwrite t e) edits := by
  simp only [addedIndents]
  split <;> rfl

theorem PlainLayout.seen {t : Text} {rows : List Row} {rest : List (List Node)} (h : PlainLayout t rows rest) :
    ∀ r ∈ rows, SeenRow r := by
  intro r hr
  obtain ⟨as, bs, rfl⟩ := List.append_of_mem hr
  have hlegible := h.legible
  have hplain := h.plain
  rw [rowNodes_core] at hlegible hplain
  simp only [lexemesOf_append, legible_append] at hlegible
  simp only [plain_append] at hplain
  obtain ⟨⟨⟨-, hlead⟩, hcore⟩, htrail, -⟩ := hlegible
  obtain ⟨⟨⟨-, hleadPlain⟩, -⟩, htrailPlain, -⟩ := hplain
  exact ⟨hleadPlain.uncommented.skipped hlead r.blank_lead, exists_head r.solid hcore,
    htrailPlain.uncommented.skipped htrail r.blank_trail⟩

namespace Shaped

variable {t t' : Text} {m m' : Margins} {cores cores' : List (List Node)}

theorem text_eq (h : Shaped t m cores) (h' : Shaped t' m cores) : t = t' := by
  obtain ⟨rows, rest, h, hmargins, hcores⟩ := h
  obtain ⟨rows', rest', h', hmargins', hcores'⟩ := h'
  rw [h.text, h'.text, braced, braced,
    textOf_rowNodes_eq (hmargins.trans hmargins'.symm) (hcores.trans hcores'.symm)]

theorem leads_eq (h : Shaped t m cores) (h' : Shaped t m' cores) : m.leads = m'.leads := by
  obtain ⟨rows, rest, h, rfl, hcores⟩ := h
  obtain ⟨rows', rest', h', rfl, hcores'⟩ := h'
  exact leads_unique h.seen h'.seen (hcores.trans hcores'.symm) (h.text.symm.trans h'.text)

section

variable (h : Shaped t m cores) {e : PropertyEdit} (hkey : IsKey e.key) (hvalue : IsDigits e.value)

include h hkey hvalue

theorem write_new (hnone : Unkeyed e.key cores) (overwrite : Bool) :
    addedIndents overwrite t [e] = [lineIndent? t] ∧
      Shaped (write overwrite t e) (m.add (lineIndent? t)) (cores ++ [propertyNodes e.key e.value]) := by
  obtain ⟨rows, rest, h, rfl, rfl⟩ := h
  obtain ⟨hspan, rows', rest', hlayout, hmargins, hcores⟩ := h.write_new hkey hvalue hnone overwrite
  refine ⟨?_, rows', rest', hlayout, hmargins, hcores⟩
  simp only [addedIndents, hspan]

theorem write_known {i : Nat} {part value : List Node} (hlast : LastKeyed e.key cores i part value)
    (hline : OneLine value) (overwrite : Bool) :
    addedIndents overwrite t [e] = [] ∧
      (overwrite = false ∧ isVacant (textOf value) = false ∧ write overwrite t e = t ∨
        Shaped (write overwrite t e) m (cores.set i (part ++ [.number e.value]))) := by
  obtain ⟨rows, rest, h, rfl, rfl⟩ := h
  obtain ⟨span, hspan, hslice, rows', hlayout, hmargins, hcores⟩ := h.write_known hkey hvalue hlast hline
  refine ⟨?_, ?_⟩
  · simp only [addedIndents, hspan]
  · simp only [write, hspan, hslice]
    cases hwrites : overwrite || isVacant (textOf value)
    · obtain ⟨hkeep, hvacant⟩ := Bool.or_eq_false_iff.1 hwrites
      exact .inl ⟨hkeep, hvacant, rfl⟩
    · exact .inr ⟨rows', rest, hlayout, hmargins, hcores⟩

/-- A property that is written makes up a turn on the cores, and adds its indentation to the margins if it is
new. -/
theorem turn (hready : Ready e.key cores) (overwrite : Bool) :
    ∃ cores', Turn overwrite e cores cores' ∧
      Shaped (write overwrite t e) ((addedIndents overwrite t [e]).foldl Margins.add m) cores' := by
  obtain hnone | ⟨i, part, value, hlast, hline⟩ := hready
  · obtain ⟨hindents, hshaped⟩ := h.write_new hkey hvalue hnone overwrite
    rw [hindents]
    exact ⟨_, .write (.add hnone), hshaped⟩
  · obtain ⟨hindents, ⟨hkeep, hvacant, heq⟩ | hshaped⟩ := h.write_known hkey hvalue hlast hline overwrite
    · rw [hindents, heq]
      exact ⟨cores, .keep hkeep ⟨i, part, value, hlast, hline, hvacant⟩, h⟩
    · rw [hindents]
      exact ⟨_, .write (.set hlast), hshaped⟩

end

/-- Properties written one after the other make up turns on the cores. -/
theorem turns {edits : List PropertyEdit} (h : Shaped t m cores)
    (hdistinct : edits.Pairwise fun d e => d.key ≠ e.key) (hkeys : ∀ e ∈ edits, IsKey e.key)
    (hvalues : ∀ e ∈ edits, IsDigits e.value) (hready : ∀ e ∈ edits, Ready e.key cores) (overwrite : Bool) :
    ∃ cores', Turns overwrite edits cores cores' ∧
      Shaped (writeAll overwrite t edits) ((addedIndents overwrite t edits).foldl Margins.add m)
        cores' := by
  induction edits generalizing t m cores with
  | nil => exact ⟨cores, .nil cores, h⟩
  | cons e edits ih =>
      obtain ⟨hother, hdistinct⟩ := List.pairwise_cons.1 hdistinct
      obtain ⟨hkey, hkeys⟩ := List.forall_mem_cons.1 hkeys
      obtain ⟨hvalue, hvalues⟩ := List.forall_mem_cons.1 hvalues
      obtain ⟨he, hready⟩ := List.forall_mem_cons.1 hready
      obtain ⟨cores₁, hturn, h₁⟩ := h.turn hkey hvalue he overwrite
      obtain ⟨cores', hturns, h'⟩ := ih h₁ hdistinct hkeys hvalues
        fun d hd => hturn.ready (hother d hd) (hready d hd)
      rw [addedIndents_cons, List.foldl_append]
      exact ⟨cores', .cons hturn hturns, h'⟩

/-- Nothing is added for keys that are there. -/
theorem addedIndents_settled {edits : List PropertyEdit} (h : Shaped t m cores)
    (hdistinct : edits.Pairwise fun d e => d.key ≠ e.key) (hkeys : ∀ e ∈ edits, IsKey e.key)
    (hvalues : ∀ e ∈ edits, IsDigits e.value) (hsettled : ∀ e ∈ edits, Settled e.key cores) (overwrite : Bool) :
    addedIndents overwrite t edits = [] := by
  induction edits generalizing t m cores with
  | nil => rfl
  | cons e edits ih =>
      obtain ⟨hother, hdistinct⟩ := List.pairwise_cons.1 hdistinct
      obtain ⟨hkey, hkeys⟩ := List.forall_mem_cons.1 hkeys
      obtain ⟨hvalue, hvalues⟩ := List.forall_mem_cons.1 hvalues
      obtain ⟨he, hsettled⟩ := List.forall_mem_cons.1 hsettled
      obtain ⟨cores₁, hturn, h₁⟩ := h.turn hkey hvalue he.ready overwrite
      obtain ⟨i, part, value, hlast, hline, -⟩ := he
      rw [addedIndents_cons, (h.write_known hkey hvalue hlast hline overwrite).1]
      exact ih h₁ hdistinct hkeys hvalues fun d hd => hturn.settled_other (hother d hd) (hsettled d hd)

/-- Where nothing is to be overwritten, values that stand for something stay. -/
theorem writeAll_settled {edits : List PropertyEdit} (h : Shaped t m cores) (hkeys : ∀ e ∈ edits, IsKey e.key)
    (hvalues : ∀ e ∈ edits, IsDigits e.value) (hsettled : ∀ e ∈ edits, Settled e.key cores) :
    writeAll false t edits = t := by
  induction edits with
  | nil => rfl
  | cons e edits ih =>
      obtain ⟨hkey, hkeys⟩ := List.forall_mem_cons.1 hkeys
      obtain ⟨hvalue, hvalues⟩ := List.forall_mem_cons.1 hvalues
      obtain ⟨⟨i, part, value, hlast, hline, hstands⟩, hsettled⟩ := List.forall_mem_cons.1 hsettled
      obtain ⟨rows, rest, hlayout, -, rfl⟩ := h
      obtain ⟨span, hspan, hslice, -⟩ := hlayout.write_known hkey hvalue hlast hline
      have hwrite : write false t e = t := by
        simp [write, hspan, hslice, hstands]
      rw [writeAll, List.foldl_cons, hwrite]
      exact ih hkeys hvalues hsettled

end Shaped

/-- Properties written one after the other make up a run on the cores. -/
theorem PlainLayout.writeAll_run {t : Text} {rows : List Row} {rest : List (List Node)} (h : PlainLayout t rows rest)
    {edits : List PropertyEdit} (hdistinct : edits.Pairwise fun d e => d.key ≠ e.key)
    (hkeys : ∀ e ∈ edits, IsKey e.key) (hvalues : ∀ e ∈ edits, IsDigits e.value)
    (hready : ∀ e ∈ edits, Ready e.key (rows.map Row.core)) (isNew : PropertyEdit → Bool)
    (hnew : ∀ e ∈ edits, isNew e = true ↔ Unkeyed e.key (rows.map Row.core)) :
    ∃ rows' rest', PlainLayout (writeAll true t edits) rows' rest' ∧
      Run edits (edits.filter isNew) (rows.map Row.core) (rows'.map Row.core) := by
  have hshaped : Shaped t (marginsOf rows rest) (rows.map Row.core) := ⟨rows, rest, h, rfl, rfl⟩
  obtain ⟨cores', hturns, rows', rest', hlayout, -, rfl⟩ := hshaped.turns hdistinct hkeys hvalues hready true
  exact ⟨rows', rest', hlayout, hturns.run hdistinct isNew hnew⟩

end ObjectText

end PugSize
