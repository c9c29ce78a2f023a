import PugSize.Proofs.Edit.StruckValues

/-!
Values that are kept where nothing is to be overwritten. The patcher judges a value by the front of it, up to a
comment or to the end of a line; a property whose value stands for something keeps it unless that front is an
empty literal.
-/

namespace PugSize

open Script CharClass

namespace ObjectText

/-- Which properties seem to have no value is told from the rows. -/
theorem ObjectLayout.seemsEmpty_iff {t : Text} {rows : List Row} {rest : List (List Node)}
    (h : ObjectLayout t rows rest) {props : List (Property Expr)}
    (hread : readRows property? 1 rows = some props) {key : Text} (hkey : IsKey key) {i : Nat} :
    SeemsEmpty t props key i ↔ Struck key rows i := by
  constructor
  · rintro ⟨p, hlast, hvacant⟩
    obtain ⟨r, part, value, hlast'⟩ := h.lastWrites_of_lastSeen hread hkey hlast
    rw [h.valueFront_eq hkey hread hlast.place hlast'.place hlast'.writes.toKeyed] at hvacant
    exact ⟨r, part, value, hlast', hvacant⟩
  · rintro ⟨r, part, value, hlast, hvacant⟩
    obtain ⟨p, hlast'⟩ := h.lastSeen_of_lastWrites hread hkey hlast
    rw [← h.valueFront_eq hkey hread hlast'.place hlast.place hlast.writes.toKeyed] at hvacant
    exact ⟨p, hlast', hvacant⟩

/-- Where nothing is to be overwritten, properties written into an object leave an object, in which each
property keeps its place and its key. A value that stands for something keeps its text if and only if its property
is not taken for one without a value under any of the keys. -/
theorem writeAll_keeps {t : Text} {props : List (Property Expr)} {edits : List PropertyEdit}
    (hobject : arguments? t = some [.object props ⟨0, t.width⟩])
    (hdistinct : edits.Pairwise fun d e => d.key ≠ e.key)
    (hkeys : ∀ e ∈ edits, IsKey e.key) (hvalues : ∀ e ∈ edits, IsDigits e.value)
    (hcomma : (∃ e ∈ edits, ∀ p ∈ props, ¬ IsSeen t e.key p) → SeesComma t)
    {i : Nat} {p : Property Expr} (hp : props[i]? = some p)
    (hstands : isVacant (t.slice p.value.span) = false) :
    ∃ props' q,
      arguments? (writeAll false t edits) = some [.object props' ⟨0, (writeAll false t edits).width⟩] ∧
      props'[i]? = some q ∧ q.key = p.key ∧
      ((writeAll false t edits).slice q.value.span = t.slice p.value.span ↔
        ∀ e ∈ edits, ¬ SeemsEmpty t props e.key i) := by
  obtain ⟨rows, rest, h, hread⟩ := arguments?_object.1 hobject
  obtain ⟨r, front, back, hr, htext, hproperty⟩ := h.row hread hp
  have hrows : rows ≠ [] := by
    rintro rfl
    cases hr
  have hclear : Clear false (edits.map PropertyEdit.key) t := by
    refine ⟨fun hnone => hcomma ?_, nofun⟩
    obtain ⟨key, hkey, hspan⟩ := hnone
    obtain ⟨e, he, rfl⟩ := List.mem_map.1 hkey
    exact ⟨e, he, h.unseen hread (hkeys e he) hspan⟩
  have hkeysMem : ∀ key ∈ edits.map PropertyEdit.key, IsKey key := by
    intro key hkey
    obtain ⟨e, he, rfl⟩ := List.mem_map.1 hkey
    exact hkeys e he
  obtain ⟨rows', rest', h', hrun⟩ := (h.clear hrows hkeysMem hclear).writeAll
    fun e he => ⟨List.mem_map_of_mem he, hvalues e he⟩
  obtain ⟨props', hread'⟩ := (isSome_property?_rows 1 rows').2 h'.reads
  obtain ⟨r', hr', hcases⟩ := hrun.stands hdistinct hkeys hvalues hr
    (valueText?_eq r.solid hproperty htext) hstands
  obtain ⟨q, front', back', hq, htext', hproperty'⟩ := h'.toObjectLayout.property hread' hr'
  have hvalueText := valueText?_eq r'.solid hproperty' htext'
  refine ⟨props', q, arguments?_object.2 ⟨rows', rest', h'.toObjectLayout, hread'⟩, hq, ?_⟩
  have hseems (e : PropertyEdit) (he : e ∈ edits) : SeemsEmpty t props e.key i ↔ Struck e.key rows i :=
    h.seemsEmpty_iff hread (hkeys e he)
  obtain ⟨hnone, hcore⟩ | ⟨⟨e, he, hstruck, part, value, more, hkeyed, hcore⟩, hchanged⟩ := hcases
  · rw [hcore] at hproperty' hvalueText
    refine ⟨key_of_core hproperty' hproperty, iff_of_true ?_ fun e he hempty => hnone e he ((hseems e he).1 hempty)⟩
    exact Option.some.inj (hvalueText.symm.trans (valueText?_eq r.solid hproperty htext))
  · have hkeyed' : Keyed e.key r'.core part (.number e.value :: more) := ⟨hcore, hkeyed.part, _, rfl, rfl⟩
    rw [(keyed_property hproperty (hkeys e he) hkeyed).1, (keyed_property hproperty' (hkeys e he) hkeyed').1]
    refine ⟨rfl, iff_of_false (fun hslice => hchanged ?_) fun hall => ?_⟩
    · rw [hvalueText, hslice]
    · exact hall e he ((hseems e he).2 hstruck)

theorem writeAll_keeps_noted :
    ∃ props' q,
      arguments? (writeAll false "\x7b a: 1 /* c */, b: null \x7d".toList [⟨['a'], ['2']⟩, ⟨['b'], ['3']⟩]) =
        some [.object props' ⟨0, (writeAll false "\x7b a: 1 /* c */, b: null \x7d".toList
          [⟨['a'], ['2']⟩, ⟨['b'], ['3']⟩]).width⟩] ∧
      props'[0]? = some q ∧ q.key = some ['a'] ∧
      (writeAll false "\x7b a: 1 /* c */, b: null \x7d".toList [⟨['a'], ['2']⟩, ⟨['b'], ['3']⟩]).slice
        q.value.span = ['1'] := by
  have hobject : arguments? "\x7b a: 1 /* c */, b: null \x7d".toList =
      some [.object [⟨some ['a'], ⟨2, 6⟩, .number ⟨5, 6⟩⟩,
        ⟨some ['b'], ⟨16, 23⟩, .keyword "null".toList ⟨19, 23⟩⟩] ⟨0, 25⟩] := by cbv
  obtain ⟨props', q, hread, hq, hkey, hkept⟩ := @writeAll_keeps _ _ [⟨['a'], ['2']⟩, ⟨['b'], ['3']⟩] hobject
    (by decide) (by
      rw [List.forall_mem_cons, List.forall_mem_singleton]
      exact ⟨⟨⟨'a', [], rfl, by decide⟩, List.all_eq_true.1 (by decide)⟩,
        ⟨'b', [], rfl, by decide⟩, List.all_eq_true.1 (by decide)⟩) (by
      rw [List.forall_mem_cons, List.forall_mem_singleton]
      exact ⟨⟨by decide, List.all_eq_true.1 (by decide)⟩, by decide, List.all_eq_true.1 (by decide)⟩)
    (fun _ => by decide +kernel) 0 _ rfl (by decide +kernel)
  refine ⟨props', q, hread, hq, hkey, hkept.2 ?_⟩
  rw [List.forall_mem_cons, List.forall_mem_singleton]
  constructor
  · rintro ⟨p, ⟨hp, -, -⟩, hfront⟩
    cases hp
    exact absurd hfront (by decide +kernel)
  · rintro ⟨p, ⟨hp, hseen, -⟩, -⟩
    cases hp
    exact absurd hseen.name (by decide +kernel)

/-- A comment before a value hides it: the value is taken for one that is missing. -/
theorem writeAll_loses_hidden :
    arguments? "\x7b width: /* c */ 10 \x7d".toList =
        some [.object [⟨some "width".toList, ⟨2, 19⟩, .number ⟨17, 19⟩⟩] ⟨0, 21⟩] ∧
      Text.slice "\x7b width: /* c */ 10 \x7d".toList ⟨17, 19⟩ = "10".toList ∧ isVacant "10".toList = false ∧
      ∀ props' q, arguments? (writeAll false "\x7b width: /* c */ 10 \x7d".toList
          [⟨"width".toList, "640".toList⟩]) = some [.object props' ⟨0, 24⟩] → q ∈ props' →
        Text.slice (writeAll false "\x7b width: /* c */ 10 \x7d".toList [⟨"width".toList, "640".toList⟩])
          q.value.span ≠ "10".toList := by
  have hobject : arguments? "\x7b width: /* c */ 10 \x7d".toList =
      some [.object [⟨some "width".toList, ⟨2, 19⟩, .number ⟨17, 19⟩⟩] ⟨0, 21⟩] := by cbv
  have hwrite : writeAll false "\x7b width: /* c */ 10 \x7d".toList [⟨"width".toList, "640".toList⟩] =
      "\x7b width: 640/* c */ 10 \x7d".toList := by cbv
  have hread : arguments? "\x7b width: 640/* c */ 10 \x7d".toList =
      some [.object [⟨some "width".toList, ⟨2, 22⟩, .other ⟨9, 22⟩⟩] ⟨0, 24⟩] := by cbv
  refine ⟨hobject, by decide +kernel, by decide +kernel, fun props' q hread' hq => ?_⟩
  rw [hwrite, hread] at hread'
  cases hread'
  rw [hwrite, List.mem_singleton.1 hq]
  decide +kernel

end ObjectText

end PugSize
