import PugSize.Proofs.Mixin.Entries

/-!
What every registry made of entries satisfies, whatever the entries are: it has rules, its names and the
keys of its collections are not empty, and the names that it lists are those that are found in it.
-/

namespace PugSize

open Toml (Value)

/-- Whether an image slot has an image key, and no key of it is empty. -/
structure ImageSlot.Filled (s : ImageSlot) : Prop where
  imageKeys : s.imageKeys ≠ []
  imageKey : ∀ key ∈ s.imageKeys, key ≠ []
  widthKey : s.widthKey ≠ []
  heightKey : s.heightKey ≠ []

namespace Registry

open RuleEntry

theorem filled_of_usable? {s : SlotEntry} {slot : ImageSlot} (h : SlotEntry.usable? s = some slot) :
    slot.Filled := by
  simp only [SlotEntry.usable?] at h
  split at h
  · cases h
  · rename_i hne
    cases h
    simp only [Bool.or_eq_true, List.isEmpty_iff, not_or] at hne
    exact ⟨hne.1.1, fun key hkey => by simpa using (List.mem_filter.1 hkey).2, hne.1.2, hne.2⟩

theorem reading_of_not_isCollection {name typeName : Text} {e : RuleEntry}
    (h : isCollection typeName = false) :
    e.reading name typeName = .rule ⟨name, .positional⟩ ∨
      e.reading name typeName = .rule ⟨name, .options e.optionKeys⟩ ∨
      e.reading name typeName = .unsupported name typeName := by
  rw [isCollection] at h
  rw [reading]
  split
  · exact .inl rfl
  · split
    · exact .inr (.inl rfl)
    · rw [if_neg (by simp [h])]
      exact .inr (.inr rfl)

/-- A rule has the name of its entry, and a collection has its usable sources, of which there are some. -/
theorem rule?_eq_some {x : Member} {r : Rule} (h : x.rule? = some r) :
    r.name = x.1.1 ∧ ∀ slots, r.shape = .collection slots →
      slots ≠ [] ∧ ∀ slot ∈ slots, slot.Filled := by
  rw [Member.rule?] at h
  cases htype : isCollection x.1.2 with
  | true =>
      rw [reading_of_isCollection htype] at h
      by_cases hslots : x.2.slots.filterMap SlotEntry.usable? = []
      · rw [if_pos hslots] at h
        cases h
      · rw [if_neg hslots] at h
        cases h
        refine ⟨rfl, fun slots hshape => ?_⟩
        cases hshape
        refine ⟨hslots, fun slot hslot => ?_⟩
        obtain ⟨s, -, hs⟩ := List.mem_filterMap.1 hslot
        exact filled_of_usable? hs
  | false =>
      obtain hread | hread | hread := @reading_of_not_isCollection x.1.1 x.1.2 x.2 htype
      all_goals
        rw [hread] at h
        cases h
      · exact ⟨rfl, fun slots hshape => by cases hshape⟩
      · exact ⟨rfl, fun slots hshape => by cases hshape⟩

theorem shapeless?_eq_some {x : Member} {u : ShapelessRule} (h : x.shapeless? = some u) :
    u.name = x.1.1 := by
  cases htype : isCollection x.1.2 with
  | true =>
      rw [(collection_member htype).1] at h
      cases h
  | false =>
      rw [Member.shapeless?] at h
      obtain hread | hread | hread := @reading_of_not_isCollection x.1.1 x.1.2 x.2 htype
      all_goals
        rw [hread] at h
        cases h
      rfl

theorem name_of_mem_members {entries : List Value} {x : Member} (h : x ∈ members entries) :
    x.1.1 ≠ [] := by
  obtain ⟨v, -, hv⟩ := List.mem_filterMap.1 (mem_of_mem_firstByKey h)
  exact (named?_eq_some.1 hv).2.2.1

theorem mem_rules {entries : List Value} {r : Rule} (h : r ∈ (ofEntries entries).rules) :
    r ∈ fallbackRules ∨ ∃ x ∈ members entries, x.rule? = some r := by
  rw [ofEntries_eq, ofMembers] at h
  dsimp only at h
  split at h
  · exact .inl h
  · exact .inr (List.mem_filterMap.1 h)

/-- What is found under a name: the rules before the shapeless ones. -/
theorem lookup_cases (r : Registry) (name : Text) :
    (∃ rule ∈ r.rules, rule.name = name ∧ r.lookup name = .rule rule) ∨
      (∀ rule ∈ r.rules, rule.name ≠ name) ∧
        ((∃ u ∈ r.unsupported, u.name = name ∧ r.lookup name = .unsupported u) ∨
          (∀ u ∈ r.unsupported, u.name ≠ name) ∧ r.lookup name = .unknown) := by
  rw [lookup]
  cases hrule : r.rules.find? fun rule => rule.name == name with
  | some rule =>
      exact .inl ⟨rule, List.mem_of_find?_eq_some hrule, by simpa using List.find?_some hrule, rfl⟩
  | none =>
      have hrules : ∀ rule ∈ r.rules, rule.name ≠ name := by simpa using hrule
      refine .inr ⟨hrules, ?_⟩
      cases hother : r.unsupported.find? fun u => u.name == name with
      | some u =>
          exact .inl ⟨u, List.mem_of_find?_eq_some hother, by simpa using List.find?_some hother, rfl⟩
      | none => exact .inr ⟨by simpa using hother, rfl⟩

theorem mem_names {r : Registry} {name : Text} :
    name ∈ r.names ↔ (∃ rule ∈ r.rules, rule.name = name) ∨ ∃ u ∈ r.unsupported, u.name = name := by
  rw [names, List.mem_eraseDups, List.mem_append, List.mem_map, List.mem_map]

theorem mem_names_iff_lookup {r : Registry} {name : Text} :
    name ∈ r.names ↔ r.lookup name ≠ .unknown := by
  rw [mem_names]
  obtain ⟨rule, hrule, hname, hfound⟩ | ⟨hrules, ⟨u, hu, hname, hfound⟩ | ⟨hothers, hfound⟩⟩ :=
    lookup_cases r name
  · exact iff_of_true (.inl ⟨rule, hrule, hname⟩) (by simp [hfound])
  · exact iff_of_true (.inr ⟨u, hu, hname⟩) (by simp [hfound])
  · refine iff_of_false ?_ (by simp [hfound])
    rintro (⟨rule, hrule, hname⟩ | ⟨u, hu, hname⟩)
    · exact hrules rule hrule hname
    · exact hothers u hu hname

theorem nodup_eraseDups {α : Type} [BEq α] [LawfulBEq α] (xs : List α) : xs.eraseDups.Nodup := by
  match xs with
  | [] => exact .nil
  | x :: xs =>
      rw [List.eraseDups_cons]
      refine List.nodup_cons.2 ⟨fun h => ?_, nodup_eraseDups _⟩
      simpa using List.mem_eraseDups.1 h
termination_by xs.length
decreasing_by
  have := List.length_filter_le (fun y => !y == x) xs
  simp only [List.length_cons]
  omega

/-- Whether a registry has rules, all with names and with complete collections, and is looked up by
the names that it lists. -/
structure WellFormed (r : Registry) : Prop where
  rules : r.rules ≠ []
  rule_name : ∀ rule ∈ r.rules, rule.name ≠ []
  unsupported_name : ∀ u ∈ r.unsupported, u.name ≠ []
  collection : ∀ rule ∈ r.rules, ∀ slots, rule.shape = .collection slots →
    slots ≠ [] ∧ ∀ slot ∈ slots, slot.Filled
  names_nodup : r.names.Nodup
  mem_names : ∀ name, name ∈ r.names ↔ r.lookup name ≠ .unknown
  unsupported : ∀ name u, r.lookup name = .unsupported u →
    u.name = name ∧ ∀ rule ∈ r.rules, rule.name ≠ name

theorem wellFormed_ofEntries (entries : List Value) : (ofEntries entries).WellFormed where
  rules := by
    rw [ofEntries_eq, ofMembers]
    dsimp only
    split
    · exact List.cons_ne_nil _ _
    · rename_i h
      simpa using h
  rule_name := by
    intro rule hrule
    obtain hstandard | ⟨x, hx, hread⟩ := mem_rules hrule
    · simp only [fallbackRules, List.mem_cons, List.not_mem_nil, or_false] at hstandard
      obtain rfl | rfl := hstandard <;> decide
    · rw [(rule?_eq_some hread).1]
      exact name_of_mem_members hx
  unsupported_name := by
    intro u hu
    rw [ofEntries_eq] at hu
    obtain ⟨x, hx, hread⟩ := List.mem_filterMap.1 hu
    rw [shapeless?_eq_some hread]
    exact name_of_mem_members hx
  collection := by
    intro rule hrule slots hslots
    obtain hstandard | ⟨x, hx, hread⟩ := mem_rules hrule
    · simp only [fallbackRules, List.mem_cons, List.not_mem_nil, or_false] at hstandard
      obtain rfl | rfl := hstandard <;> cases hslots
    · exact (rule?_eq_some hread).2 slots hslots
  names_nodup := nodup_eraseDups _
  mem_names := fun _ => mem_names_iff_lookup
  unsupported := by
    intro name u hu
    obtain ⟨rule, -, -, hfound⟩ | ⟨hrules, ⟨u', -, hname, hfound⟩ | ⟨-, hfound⟩⟩ :=
      lookup_cases (ofEntries entries) name
    · cases hu.symm.trans hfound
    · cases hu.symm.trans hfound
      exact ⟨hname, hrules⟩
    · cases hu.symm.trans hfound

end Registry
end PugSize
