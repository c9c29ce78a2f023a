import Mathlib
import PugSize.Mixin.Registry

/-!
Entries that are dropped. Of the members of a list with one key the first counts, so a further member
matters only where none with its key stands before it. An entry that is dropped for its form leaves the
registry as it is, but for a collection without usable sources: it still takes the place of the next
entry with its name and type.
-/

namespace PugSize

open Toml (Value)

namespace Registry

section Keys

variable {κ α : Type} [BEq κ] [LawfulBEq κ]

/-- Of the keys seen before, only which ones they are matters. -/
theorem firstByKey_congr {seen seen' : List κ} (h : ∀ k, k ∈ seen ↔ k ∈ seen') (xs : List (κ × α)) :
    firstByKey seen xs = firstByKey seen' xs := by
  induction xs generalizing seen seen' with
  | nil => rfl
  | cons x xs ih =>
      obtain ⟨k, a⟩ := x
      have hk : seen.contains k = seen'.contains k := by
        rw [Bool.eq_iff_iff, List.contains_iff_mem, List.contains_iff_mem, h]
      have hcons : ∀ k', k' ∈ k :: seen ↔ k' ∈ k :: seen' := by simp [h]
      rw [firstByKey, firstByKey, hk, ih h, ih hcons]

theorem firstByKey_append (seen : List κ) (xs ys : List (κ × α)) :
    firstByKey seen (xs ++ ys) =
      firstByKey seen xs ++ firstByKey (xs.map Prod.fst ++ seen) ys := by
  induction xs generalizing seen with
  | nil => rfl
  | cons x xs ih =>
      obtain ⟨k, a⟩ := x
      rw [List.cons_append, firstByKey, firstByKey]
      split
      · rename_i hseen
        rw [ih, List.map_cons]
        congr 1
        apply firstByKey_congr
        intro k'
        have : k' = k → k' ∈ seen := fun heq => heq ▸ List.contains_iff_mem.1 hseen
        simp only [List.cons_append, List.mem_append, List.mem_cons]
        tauto
      · rw [ih, List.map_cons, List.cons_append]
        congr 2
        apply firstByKey_congr
        intro k'
        simp only [List.cons_append, List.mem_append, List.mem_cons]
        tauto

omit [LawfulBEq κ] in
theorem mem_of_mem_firstByKey {seen : List κ} {xs : List (κ × α)} {x : κ × α}
    (h : x ∈ firstByKey seen xs) : x ∈ xs := by
  induction xs generalizing seen with
  | nil => cases h
  | cons y xs ih =>
      obtain ⟨k, a⟩ := y
      rw [firstByKey] at h
      split at h
      · exact List.mem_cons_of_mem _ (ih h)
      · obtain rfl | h := List.mem_cons.1 h
        · exact List.mem_cons_self
        · exact List.mem_cons_of_mem _ (ih h)

/-- What leaving a key out takes away is the first member with the key. -/
theorem firstByKey_parted {k : κ} {seen : List κ} (hseen : k ∉ seen) (xs : List (κ × α)) :
    (xs.find? (·.1 == k) = none ∧ firstByKey (k :: seen) xs = firstByKey seen xs) ∨
      ∃ a before after, xs.find? (·.1 == k) = some (k, a) ∧
        firstByKey seen xs = before ++ (k, a) :: after ∧
        firstByKey (k :: seen) xs = before ++ after := by
  induction xs generalizing seen with
  | nil => exact .inl ⟨rfl, rfl⟩
  | cons x xs ih =>
      obtain ⟨k', a⟩ := x
      by_cases hk : k' = k
      · subst hk
        refine .inr ⟨a, [], firstByKey (k' :: seen) xs, by simp, ?_, ?_⟩
        · rw [firstByKey, if_neg (by simpa using hseen), List.nil_append]
        · rw [firstByKey, if_pos (by simp), List.nil_append]
      · have hfind : ((k', a) :: xs).find? (·.1 == k) = xs.find? (·.1 == k) := by
          rw [List.find?_cons_of_neg (by simpa using hk)]
        have hcontains : (k :: seen).contains k' = seen.contains k' := by
          rw [List.contains_cons, beq_false_of_ne hk, Bool.false_or]
        rw [hfind, firstByKey, firstByKey, hcontains]
        by_cases hk' : seen.contains k' = true
        · rw [if_pos hk', if_pos hk']
          exact ih hseen
        · have hswap : firstByKey (k' :: k :: seen) xs = firstByKey (k :: k' :: seen) xs :=
            firstByKey_congr (by simp only [List.mem_cons]; tauto) xs
          have hlater : k ∉ k' :: seen := by simp [hseen, Ne.symm hk]
          rw [if_neg hk', if_neg hk', hswap]
          obtain ⟨hnone, hsame⟩ | ⟨b, before, after, hsome, hwith, hwithout⟩ := ih hlater
          · exact .inl ⟨hnone, by rw [hsame]⟩
          · exact .inr ⟨b, (k', a) :: before, after, hsome, by rw [hwith]; rfl, by rw [hwithout]; rfl⟩

end Keys

/-- An entry with its normalized name and type. -/
abbrev Member := (Text × Text) × RuleEntry

def Member.rule? (x : Member) : Option Rule :=
  match x.2.reading x.1.1 x.1.2 with
  | .rule r => some r
  | _ => none

def Member.shapeless? (x : Member) : Option ShapelessRule :=
  match x.2.reading x.1.1 x.1.2 with
  | .unsupported name typeName => some ⟨name, typeName⟩
  | _ => none

/-- The entries that count. -/
def members (entries : List Value) : List Member := firstByKey [] (entries.filterMap named?)

def ofMembers (xs : List Member) : Registry :=
  ⟨if (xs.filterMap Member.rule?).isEmpty then fallbackRules else xs.filterMap Member.rule?,
    xs.filterMap Member.shapeless?⟩

theorem ofEntries_eq (entries : List Value) : ofEntries entries = ofMembers (members entries) := by
  simp only [ofEntries, readings, List.filterMap_map]
  rfl

/-- A member that is no rule and no shapeless one does not count. -/
theorem ofMembers_idle {x : Member} (hrule : x.rule? = none) (hshapeless : x.shapeless? = none)
    (xs ys : List Member) : ofMembers (xs ++ x :: ys) = ofMembers (xs ++ ys) := by
  have hrules : (xs ++ x :: ys).filterMap Member.rule? = (xs ++ ys).filterMap Member.rule? := by
    rw [List.filterMap_append, List.filterMap_cons_none hrule, List.filterMap_append]
  have hothers : (xs ++ x :: ys).filterMap Member.shapeless? =
      (xs ++ ys).filterMap Member.shapeless? := by
    rw [List.filterMap_append, List.filterMap_cons_none hshapeless, List.filterMap_append]
  rw [ofMembers, ofMembers, hrules, hothers]

/-- A member that is a rule counts: without it there is one rule less, or the two standard rules in
place of one. -/
theorem ofMembers_rule {x : Member} {r : Rule} (hrule : x.rule? = some r) (xs ys : List Member) :
    ofMembers (xs ++ x :: ys) ≠ ofMembers (xs ++ ys) := by
  intro h
  have hlength := congrArg (fun registry => registry.rules.length) h
  simp only [ofMembers, List.filterMap_append, List.filterMap_cons_some hrule] at hlength
  rw [if_neg (by simp)] at hlength
  split at hlength
  · rename_i hnone
    obtain ⟨hbefore, hafter⟩ := List.append_eq_nil_iff.1 (List.isEmpty_iff.1 hnone)
    simp [hbefore, hafter, fallbackRules] at hlength
  · simp only [List.length_append, List.length_cons] at hlength
    omega

end Registry

namespace RuleEntry

/-- Whether a source has an image key, a width key and a height key that are not blank. -/
def Usable (s : SlotEntry) : Prop :=
  (∃ key ∈ s.imageKeys, Text.trim key ≠ []) ∧ Text.trim s.widthKey ≠ [] ∧ Text.trim s.heightKey ≠ []

theorem isSome_usable? (s : SlotEntry) : (SlotEntry.usable? s).isSome = true ↔ Usable s := by
  have hkeys : ((s.imageKeys.map Text.trim).filter fun key => !key.isEmpty) = [] ↔
      ¬ ∃ key ∈ s.imageKeys, Text.trim key ≠ [] := by
    simp [List.filter_eq_nil_iff]
  rw [SlotEntry.usable?, Usable]
  split
  · rename_i h
    simp only [Bool.or_eq_true, List.isEmpty_iff, hkeys] at h
    simp only [Option.isSome_none, Bool.false_eq_true, false_iff]
    rintro ⟨hkey, hwidth, hheight⟩
    obtain (h | h) | h := h
    exacts [h hkey, hwidth h, hheight h]
  · rename_i h
    simp only [Bool.or_eq_true, List.isEmpty_iff, hkeys] at h
    simp only [Option.isSome_some, true_iff]
    simpa only [not_or, not_not, and_assoc] using h

theorem usableSlots_eq_nil {slots : List SlotEntry} :
    slots.filterMap SlotEntry.usable? = [] ↔ ∀ s ∈ slots, ¬ Usable s := by
  rw [List.filterMap_eq_nil_iff]
  refine forall₂_congr fun s _ => ?_
  rw [← isSome_usable?, Bool.not_eq_true, Option.isSome_eq_false_iff, Option.isNone_iff_eq_none]

/-- Whether a type is that of collections. -/
def isCollection (typeName : Text) : Bool := isType typeName ["dataCollection", "dataArray"]

theorem reading_of_isCollection {name typeName : Text} {e : RuleEntry}
    (h : isCollection typeName = true) :
    e.reading name typeName =
      if e.slots.filterMap SlotEntry.usable? = [] then .unusable
      else .rule ⟨name, .collection (e.slots.filterMap SlotEntry.usable?)⟩ := by
  have hname : String.ofList typeName = "dataCollection" ∨ String.ofList typeName = "dataArray" := by
    simpa [isCollection, isType] using h
  have hpositional : isType typeName ["positional", "imgArgs"] = false := by
    obtain hname | hname := hname <;> simp [isType, hname]
  have hoptions : isType typeName ["optionsObject", "pictureOpts"] = false := by
    obtain hname | hname := hname <;> simp [isType, hname]
  rw [isCollection] at h
  rw [reading, if_neg (by simp [hpositional]), if_neg (by simp [hoptions]), if_pos h]
  cases e.slots.filterMap SlotEntry.usable? <;> simp

/-- An entry that is dropped: one that cannot be read, one without a name or a type, or a collection
none of whose sources is usable. -/
inductive Malformed (v : Value) : Prop
  | unread (h : ofValue? v = none)
  | unnamed (e : RuleEntry) (h : ofValue? v = some e) (name : plainName e.name = [])
  | untyped (e : RuleEntry) (h : ofValue? v = some e) (typeName : Text.trim e.typeName = [])
  | sourceless (e : RuleEntry) (h : ofValue? v = some e)
      (typeName : isCollection (Text.trim e.typeName) = true) (slots : ∀ s ∈ e.slots, ¬ Usable s)

end RuleEntry

namespace Registry

open RuleEntry

theorem named?_eq_some {v : Value} {x : Member} :
    named? v = some x ↔ ofValue? v = some x.2 ∧ x.1 = (plainName x.2.name, Text.trim x.2.typeName) ∧
      x.1.1 ≠ [] ∧ x.1.2 ≠ [] := by
  obtain ⟨⟨name, typeName⟩, e⟩ := x
  simp only [named?, Option.bind_eq_some_iff]
  constructor
  · rintro ⟨e', he', hx⟩
    split at hx
    · cases hx
    · rename_i hne
      cases hx
      simp only [Bool.or_eq_true, List.isEmpty_iff, not_or] at hne
      exact ⟨he', rfl, hne.1, hne.2⟩
  · rintro ⟨he, hx, hname, htype⟩
    refine ⟨e, he, ?_⟩
    obtain ⟨rfl, rfl⟩ := Prod.mk.inj hx
    rw [if_neg (by simpa using ⟨hname, htype⟩)]

/-- A dropped entry has no name or no type, or it is a collection without usable sources. -/
theorem named?_of_malformed {v : Value} (h : Malformed v) :
    named? v = none ∨ ∃ x : Member, named? v = some x ∧ isCollection x.1.2 = true ∧
      ∀ s ∈ x.2.slots, ¬ Usable s := by
  cases hv : named? v with
  | none => exact .inl rfl
  | some x =>
      obtain ⟨he, hkey, hname, htype⟩ := named?_eq_some.1 hv
      obtain ⟨hkeyName, hkeyType⟩ := Prod.mk.inj hkey
      refine .inr ⟨x, rfl, ?_⟩
      cases h with
      | unread h => rw [he] at h; cases h
      | unnamed e h name =>
          cases he.symm.trans h
          exact absurd (hkeyName.trans name) hname
      | untyped e h typeName =>
          cases he.symm.trans h
          exact absurd (hkeyType.trans typeName) htype
      | sourceless e h typeName slots =>
          cases he.symm.trans h
          exact ⟨hkeyType ▸ typeName, slots⟩

theorem members_append (as bs : List Value) :
    members (as ++ bs) = members as ++
      firstByKey ((as.filterMap named?).map Prod.fst) (bs.filterMap named?) := by
  rw [members, List.filterMap_append, firstByKey_append, List.append_nil, members]

/-- What a collection contributes: a rule if it has a usable source, and nothing else. -/
theorem collection_member {x : Member} (h : isCollection x.1.2 = true) :
    x.shapeless? = none ∧ (x.rule?.isSome = true ↔ ∃ s ∈ x.2.slots, Usable s) := by
  rw [Member.shapeless?, Member.rule?, reading_of_isCollection h]
  by_cases hslots : x.2.slots.filterMap SlotEntry.usable? = []
  · have hnone := usableSlots_eq_nil.1 hslots
    rw [if_pos hslots]
    simpa using hnone
  · have hsome := mt usableSlots_eq_nil.2 hslots
    rw [if_neg hslots]
    simpa using hsome

/-- What an entry with a name and a type does to the members behind it: nothing if its name and type are
known before it; otherwise it is a member, and the next one with its name and type is none any more. -/
theorem members_insert {v : Value} {x : Member} (hx : named? v = some x) (as bs : List Value) :
    (x.1 ∈ (as.filterMap named?).map Prod.fst ∧ members (as ++ v :: bs) = members (as ++ bs)) ∨
      x.1 ∉ (as.filterMap named?).map Prod.fst ∧
        ((bs.filterMap named?).find? (·.1 == x.1) = none ∧
          (∃ before after, members (as ++ v :: bs) = before ++ x :: after ∧
            members (as ++ bs) = before ++ after) ∨
        ∃ e before between after, (bs.filterMap named?).find? (·.1 == x.1) = some (x.1, e) ∧
          members (as ++ v :: bs) = before ++ x :: (between ++ after) ∧
          members (as ++ bs) = before ++ between ++ (x.1, e) :: after) := by
  have hwith : members (as ++ v :: bs) = members as ++
      firstByKey ((as.filterMap named?).map Prod.fst) (x :: bs.filterMap named?) := by
    rw [members_append, List.filterMap_cons_some hx]
  by_cases hseen : x.1 ∈ (as.filterMap named?).map Prod.fst
  · rw [firstByKey, if_pos (List.contains_iff_mem.2 hseen), ← members_append] at hwith
    exact .inl ⟨hseen, hwith⟩
  · rw [firstByKey, if_neg (mt List.contains_iff_mem.1 hseen)] at hwith
    refine .inr ⟨hseen, ?_⟩
    obtain ⟨hnone, hsame⟩ | ⟨e, before, after, hlater, hkeep, hskip⟩ :=
      firstByKey_parted hseen (bs.filterMap named?)
    · exact .inl ⟨hnone, members as, _, hwith, by rw [members_append, hsame]⟩
    · refine .inr ⟨e, members as, before, after, hlater, by rw [hwith, hskip], ?_⟩
      rw [members_append, hkeep, List.append_assoc]

/-- Whether an entry takes the place of a later one: it has a name and a type that no entry before it
has, and the first entry with them behind it has a usable source. -/
def Shadows (as : List Value) (v : Value) (bs : List Value) : Prop :=
  ∃ x later : Member, named? v = some x ∧ x.1 ∉ (as.filterMap named?).map Prod.fst ∧
    (bs.filterMap named?).find? (·.1 == x.1) = some later ∧ ∃ s ∈ later.2.slots, Usable s

/-- An entry that is dropped leaves the registry as it is, wherever it stands, unless it takes the
place of a later collection. -/
theorem ofEntries_insert {v : Value} (h : Malformed v) (as bs : List Value) :
    ofEntries (as ++ v :: bs) = ofEntries (as ++ bs) ↔ ¬ Shadows as v bs := by
  obtain hv | ⟨x, hx, htype, hslots⟩ := named?_of_malformed h
  · have hsame : (as ++ v :: bs).filterMap named? = (as ++ bs).filterMap named? := by
      rw [List.filterMap_append, List.filterMap_cons_none hv, List.filterMap_append]
    have hkept : ¬ Shadows as v bs := by
      rintro ⟨x, later, hx, -⟩
      rw [hv] at hx
      cases hx
    rw [ofEntries_eq, ofEntries_eq, members, members, hsame]
    exact iff_of_true rfl hkept
  obtain ⟨hshapeless, hrule⟩ := collection_member htype
  have hrule : x.rule? = none := by
    rw [← Option.not_isSome_iff_eq_none, hrule]
    exact fun ⟨s, hs, husable⟩ => hslots s hs husable
  have hshadows : Shadows as v bs ↔ x.1 ∉ (as.filterMap named?).map Prod.fst ∧
      ∃ later, (bs.filterMap named?).find? (·.1 == x.1) = some later ∧ ∃ s ∈ later.2.slots, Usable s := by
    simp only [Shadows, hx, Option.some.injEq, exists_and_left, exists_eq_left']
  rw [ofEntries_eq, ofEntries_eq, hshadows]
  obtain ⟨hseen, hsame⟩ | ⟨hseen, ⟨hnone, before, after, hwith, hwithout⟩ |
      ⟨e, before, between, after, hlater, hwith, hwithout⟩⟩ := members_insert hx as bs
  · rw [hsame]
    exact iff_of_true rfl fun hnew => hnew.1 hseen
  · rw [hwith, hwithout, ofMembers_idle hrule hshapeless, hnone]
    exact iff_of_true rfl (by simp)
  · obtain ⟨hshapeless', hrule'⟩ := @collection_member (x.1, e) htype
    have husable : (∃ later, some (x.1, e) = some later ∧ ∃ s ∈ later.2.slots, Usable s) ↔
        (Member.rule? (x.1, e)).isSome = true := by
      rw [hrule']
      simp only [Option.some.injEq, exists_eq_left']
    rw [hwith, hwithout, ofMembers_idle hrule hshapeless, hlater, husable, and_iff_right hseen,
      ← List.append_assoc]
    cases hfound : Member.rule? (x.1, e) with
    | none =>
        rw [ofMembers_idle hfound hshapeless']
        exact iff_of_true rfl (by simp)
    | some r => exact iff_of_false (ofMembers_rule hfound _ _).symm (by simp)

/-- A collection without usable sources, before one with its name and another type. -/
theorem ofEntries_insert_other_type :
    let collection (typeName : String) (sources : List Value) : Value :=
      .table (("sources".toList, .array sources) ::
        stringTable [("name", "+cards("), ("type", typeName)])
    let source : Value := .table (stringTable
      [("image_key", "image"), ("width_key", "width"), ("height_key", "height")])
    let idle := collection "dataArray" [.table (stringTable [("image_key", " ")])]
    let entries := [collection "dataCollection" [source]]
    Malformed idle ∧ ¬ Shadows [] idle entries ∧
      ofEntries ([] ++ idle :: entries) = ofEntries ([] ++ entries) := by
  intro collection source idle entries
  have hidle : Malformed idle := by
    refine .sourceless ⟨"+cards(".toList, "dataArray".toList, none, none, none, none, none, none,
      [⟨[[' ']], [], []⟩]⟩ (by cbv) (by decide) ?_
    intro s hs
    obtain rfl := List.mem_singleton.1 hs
    rintro ⟨⟨key, hkey, hne⟩, -⟩
    obtain rfl := List.mem_singleton.1 hkey
    exact hne (by decide)
  have hkept : ¬ Shadows [] idle entries := by
    rintro ⟨x, later, hx, -, hlater, -⟩
    have hkey : x.1 = ("cards".toList, "dataArray".toList) := by
      have hnamed : (named? idle).map Prod.fst = some ("cards".toList, "dataArray".toList) := by
        decide +kernel
      rw [hx] at hnamed
      exact Option.some.inj hnamed
    have hother : (entries.filterMap named?).map Prod.fst =
        [("cards".toList, "dataCollection".toList)] := by
      decide +kernel
    have hsame : later.1 = x.1 := by simpa using List.find?_some hlater
    have hmem : later.1 ∈ (entries.filterMap named?).map Prod.fst :=
      List.mem_map_of_mem (List.mem_of_find?_eq_some hlater)
    rw [hsame, hkey, hother] at hmem
    exact absurd hmem (by decide)
  exact ⟨hidle, hkept, (ofEntries_insert hidle [] entries).2 hkept⟩

/-- A collection without sources hides the one with its name and type behind it. -/
theorem ofEntries_insert_shadowing :
    let collection (sources : List Value) : Value :=
      .table (("sources".toList, .array sources) ::
        stringTable [("name", "cards"), ("type", "dataArray")])
    let source : Value := .table (stringTable
      [("image_key", "image"), ("width_key", "width"), ("height_key", "height")])
    Malformed (collection []) ∧
      (ofEntries [collection [], collection [source]]).lookup "cards".toList = .unknown ∧
      (ofEntries [collection [source]]).lookup "cards".toList =
        .rule ⟨"cards".toList,
          .collection [⟨["image".toList], "width".toList, "height".toList⟩]⟩ := by
  intro collection source
  refine ⟨?_, ?_, ?_⟩
  · exact .sourceless ⟨"cards".toList, "dataArray".toList, none, none, none, none, none, none, []⟩
      (by cbv) (by decide) nofun
  · decide +kernel
  · decide +kernel

end Registry

end PugSize
