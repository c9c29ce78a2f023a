import Mathlib
import PugSize.Image.Svg
import PugSize.Proofs.Edit.Vacant

/-!
The root tag of a document and its attributes. A search for an attribute passes over text in which none
with its name begins, and over attributes with other names, and takes the first one with its own; and the
tag itself is found behind whatever does not open it.
-/

namespace PugSize.Svg

variable {name t u v : Text} {c d : Char}

/-- Whether a character can stand for one of a name. -/
def Matches (n d : Char) : Prop := d.toLower = n.toLower ∨ (n.toLower = 's' ∧ d = 'ſ')

instance (n d : Char) : Decidable (Matches n d) :=
  inferInstanceAs (Decidable (_ ∨ _))

theorem afterName?_cons_eq_some {n : Char} {ns cs rest : Text} :
    afterName? (n :: ns) (d :: cs) = some rest ↔ Matches n d ∧ afterName? ns cs = some rest := by
  rw [afterName?]
  split
  · rename_i h
    exact (and_iff_right h).symm
  · rename_i h
    exact iff_of_false nofun fun hboth => h hboth.1

theorem afterName?_append_self (name rest : Text) : afterName? name (name ++ rest) = some rest := by
  induction name with
  | nil => rfl
  | cons n ns ih => exact afterName?_cons_eq_some.2 ⟨.inl rfl, ih⟩

theorem afterName?_append {rest : Text} (h : afterName? name t = some rest) (v : Text) :
    afterName? name (t ++ v) = some (rest ++ v) := by
  induction name generalizing t with
  | nil =>
      cases h
      rfl
  | cons n ns ih =>
      cases t with
      | nil => cases h
      | cons c cs =>
          obtain ⟨hc, hrest⟩ := afterName?_cons_eq_some.1 h
          exact afterName?_cons_eq_some.2 ⟨hc, ih hrest⟩

/-- A name does not run into a character that stands for none of its own. -/
theorem afterName?_append_none (h : afterName? name t = none) (hd : ∀ n ∈ name, ¬Matches n d) :
    afterName? name (t ++ d :: v) = none := by
  induction name generalizing t with
  | nil => cases t <;> cases h
  | cons n ns ih =>
      cases t with
      | nil => exact if_neg (hd n List.mem_cons_self)
      | cons c cs =>
          rw [List.cons_append, afterName?]
          split
          · rename_i hc
            rw [afterName?, if_pos hc] at h
            exact ih h fun n hn => hd n (List.mem_cons_of_mem _ hn)
          · rfl

/-- Whether an attribute with a name begins here, as far as the quote that opens its value. -/
def begins (name : Text) : Text → Bool
  | [] => false
  | c :: cs =>
    Text.isBlank c && match (afterName? name cs).map fun rest => rest.dropWhile Text.isBlank with
      | some ('=' :: rest) => (rest.dropWhile Text.isBlank).head?.any isQuote
      | _ => false

/-- Whether no attribute with a name begins anywhere in a text. -/
def Unstated (name t : Text) : Prop := ∀ u, u <:+ t → begins name u = false

theorem begins_iff : begins name t = true ↔ ∃ blank cs behind value quote more,
    t = blank :: cs ∧ Text.isBlank blank = true ∧ afterName? name cs = some behind ∧
      behind.dropWhile Text.isBlank = '=' :: value ∧
      value.dropWhile Text.isBlank = quote :: more ∧ isQuote quote = true := by
  constructor
  · intro h
    cases t with
    | nil => cases h
    | cons blank cs =>
        obtain ⟨hblank, h⟩ := Bool.and_eq_true_iff.1 h
        split at h
        · rename_i value hequals
          obtain ⟨behind, hname, hbehind⟩ := Option.map_eq_some_iff.1 hequals
          obtain ⟨quote, hhead, hquote⟩ := (Option.any_eq_true _ _).1 h
          obtain ⟨more, hmore⟩ := List.head?_eq_some_iff.1 hhead
          exact ⟨blank, cs, behind, value, quote, more, rfl, hblank, hname, hbehind, hmore, hquote⟩
        · cases h
  · rintro ⟨blank, cs, behind, value, quote, more, rfl, hblank, hname, hequals, hmore, hquote⟩
    simp [begins, hblank, hname, hequals, hmore, hquote]

theorem begins_append (h : begins name t = true) (v : Text) : begins name (t ++ v) = true := by
  obtain ⟨blank, cs, behind, value, quote, more, rfl, hblank, hname, hequals, hmore, hquote⟩ :=
    begins_iff.1 h
  refine begins_iff.2 ⟨blank, cs ++ v, behind ++ v, value ++ v, quote, more ++ v, rfl, hblank,
    afterName?_append hname v, ?_, ?_, hquote⟩
  · rw [List.dropWhile_append, hequals]
    rfl
  · rw [List.dropWhile_append, hmore]
    rfl

theorem attributeHere?_of_begins (h : begins name t = false) : attributeHere? name t = none := by
  unfold attributeHere?
  split
  · rfl
  · rename_i blank cs
    split
    · rename_i hblank
      split
      · rename_i value hequals
        split
        · rename_i quote more hmore
          obtain ⟨behind, hname, hbehind⟩ := Option.map_eq_some_iff.1 hequals
          have hquote : isQuote quote = false := by
            apply Bool.eq_false_iff.2
            intro hquote
            rw [begins_iff.2 ⟨blank, cs, behind, value, quote, more, rfl, hblank, hname, hbehind, hmore,
              hquote⟩] at h
            cases h
          rw [hquote]
          rfl
        · rfl
      · rfl
    · rfl

namespace Unstated

theorem of_append_right (h : Unstated name (u ++ v)) : Unstated name v :=
  fun w hw => h w (hw.trans (List.suffix_append u v))

theorem of_append_left (h : Unstated name (u ++ v)) : Unstated name u := by
  rintro w ⟨front, rfl⟩
  apply Bool.eq_false_iff.2
  intro hw
  have hlonger := h (w ++ v) ⟨front, (List.append_assoc ..).symm⟩
  rw [begins_append hw v] at hlonger
  cases hlonger

end Unstated

/-- What ends an attribute that only seems to begin: a bracket, or white space that neither an equals sign
nor a quote follows. -/
structure Ends (name v : Text) : Prop where
  first : ∃ d rest, v = d :: rest ∧ ∀ n ∈ name, ¬Matches n d
  next : ∃ d rest, v.dropWhile Text.isBlank = d :: rest ∧ d ≠ '=' ∧ isQuote d = false

/-- No attribute begins in a text that one begins in only with what ends it. -/
theorem begins_append_ends (hv : Ends name v) (h : begins name (c :: u) = false) :
    begins name (c :: (u ++ v)) = false := by
  apply Bool.eq_false_iff.2
  intro hlonger
  obtain ⟨_, _, behind, value, quote, more, heq, hblank, hname, hequals, hmore, hquote⟩ :=
    begins_iff.1 hlonger
  obtain ⟨rfl, rfl⟩ := List.cons.inj heq
  obtain ⟨d, rest, hfirst, hd⟩ := hv.first
  obtain ⟨x, rest', hnext, hne, hx⟩ := hv.next
  cases hu : afterName? name u with
  | none =>
      rw [hfirst, afterName?_append_none hu hd] at hname
      cases hname
  | some r =>
      obtain rfl := Option.some.inj ((afterName?_append hu v).symm.trans hname)
      cases hr : r.dropWhile Text.isBlank with
      | nil =>
          rw [List.dropWhile_append, hr, List.isEmpty_nil, if_pos rfl, hnext] at hequals
          exact hne (List.cons.inj hequals).1
      | cons y ys =>
          rw [List.dropWhile_append, hr, List.isEmpty_cons, if_neg Bool.false_ne_true, List.cons_append] at hequals
          obtain ⟨rfl, rfl⟩ := List.cons.inj hequals
          cases hys : ys.dropWhile Text.isBlank with
          | nil =>
              rw [List.dropWhile_append, hys, List.isEmpty_nil, if_pos rfl, hnext] at hmore
              obtain ⟨rfl, -⟩ := List.cons.inj hmore
              rw [hx] at hquote
              cases hquote
          | cons z zs =>
              rw [List.dropWhile_append, hys, List.isEmpty_cons, if_neg Bool.false_ne_true, List.cons_append] at hmore
              obtain ⟨rfl, -⟩ := List.cons.inj hmore
              rw [begins_iff.2 ⟨c, u, r, ys, z, zs, rfl, hblank, hu, hr, hys, hquote⟩] at h
              cases h

theorem attribute?_cons (name : Text) (c : Char) (t : Text) :
    attribute? name (c :: t) =
      match attributeHere? name (c :: t) with
      | some value => some (Text.trim value)
      | none => attribute? name t := by
  rfl

theorem attribute?_skip (h : attributeHere? name (c :: t) = none) :
    attribute? name (c :: t) = attribute? name t := by
  rw [attribute?_cons, h]

/-- Text in which no attribute with a name begins is passed over. -/
theorem attribute?_append (hu : Unstated name u) (hv : Ends name v) :
    attribute? name (u ++ v) = attribute? name v := by
  induction u with
  | nil => rfl
  | cons c u ih =>
      have hbegins := begins_append_ends hv (hu (c :: u) (List.suffix_refl _))
      rw [List.cons_append, attribute?_skip (attributeHere?_of_begins hbegins)]
      exact ih fun w hw => hu w (hw.trans (List.suffix_cons c u))

/-- An attribute as it is written, behind white space. -/
def written (blank : Char) (name value : Text) : Text := blank :: name ++ '=' :: '"' :: value ++ ['"']

theorem attributeHere?_of_not_blank (h : Text.isBlank c = false) (t : Text) :
    attributeHere? name (c :: t) = none := by
  unfold attributeHere?
  simp only [h, Bool.false_eq_true, if_false]

/-- A word that does not begin like a name is passed over, with the white space before it. -/
theorem attribute?_word {n : Char} {ns word : Text} (hc : ¬Matches n c)
    (hword : ∀ d ∈ c :: word, Text.isBlank d = false) (blank : Char) (t : Text) :
    attribute? (n :: ns) (blank :: c :: word ++ t) = attribute? (n :: ns) t := by
  have hhere : attributeHere? (n :: ns) (blank :: c :: (word ++ t)) = none := by
    have hname : afterName? (n :: ns) (c :: (word ++ t)) = none := if_neg hc
    unfold attributeHere?
    simp only [hname, Option.map_none, ite_self]
  rw [List.cons_append, List.cons_append, attribute?_skip hhere]
  clear hc hhere
  induction word generalizing c with
  | nil =>
      exact attribute?_skip (attributeHere?_of_not_blank (hword c List.mem_cons_self) _)
  | cons d ds ih =>
      rw [attribute?_skip (attributeHere?_of_not_blank (hword c List.mem_cons_self) _)]
      exact ih (List.forall_mem_of_forall_mem_cons hword)

/-- An attribute that is found. -/
theorem attribute?_written {blank : Char} {value : Text} (hblank : Text.isBlank blank = true)
    (hsome : value ≠ []) (hvalue : ∀ c ∈ value, isQuote c = false) (t : Text) :
    attribute? name (written blank name value ++ t) = some (Text.trim value) := by
  have hname : afterName? name (name ++ '=' :: '"' :: (value ++ '"' :: t)) =
      some ('=' :: '"' :: (value ++ '"' :: t)) := afterName?_append_self name _
  have htake : (value ++ '"' :: t).takeWhile (fun x => !isQuote x) = value := by
    rw [List.takeWhile_append_of_pos (by simpa using hvalue), List.takeWhile_cons_of_neg (by decide),
      List.append_nil]
  have hlength : value.length < (value ++ '"' :: t).length := by simp
  have htext : written blank name value ++ t = blank :: (name ++ '=' :: '"' :: (value ++ '"' :: t)) := by
    simp [written]
  have hhere : attributeHere? name (blank :: (name ++ '=' :: '"' :: (value ++ '"' :: t))) = some value := by
    unfold attributeHere?
    have hequals : ('=' :: '"' :: (value ++ '"' :: t)).dropWhile Text.isBlank =
        '=' :: '"' :: (value ++ '"' :: t) := rfl
    have hquote : ('"' :: (value ++ '"' :: t)).dropWhile Text.isBlank = '"' :: (value ++ '"' :: t) := rfl
    simp only [hblank, if_true, hname, Option.map_some, hequals, hquote, htake]
    simp [hsome, isQuote]
  rw [htext, attribute?_cons, hhere]

/-- The names of the attributes that state a size. -/
def sizeNames : List Text := ["width".toList, "height".toList, "viewBox".toList]

theorem toLower_of_isBlank (h : Text.isBlank c = true) : c.toLower = c := by
  refine dif_neg fun hupper => ?_
  have hleast : 65 ≤ c.toNat := hupper.1
  have hmost : c.toNat ≤ 90 := hupper.2
  simp only [Text.isBlank, Bool.or_eq_true, Bool.and_eq_true, decide_eq_true_eq, beq_iff_eq] at h
  omega

/-- No name has white space in it. -/
theorem not_matches_of_isBlank {n : Char} (hn : Text.isBlank n.toLower = false)
    (hd : Text.isBlank d = true) : ¬Matches n d := by
  rintro (h | ⟨-, rfl⟩)
  · rw [toLower_of_isBlank hd] at h
    rw [h, hn] at hd
    cases hd
  · revert hd
    decide

theorem isBlank_toLower_of_mem (hname : name ∈ sizeNames) {n : Char} (hn : n ∈ name) :
    Text.isBlank n.toLower = false ∧ ¬Matches n '>' := by
  have hall : ∀ n ∈ sizeNames.flatten, Text.isBlank n.toLower = false ∧ ¬Matches n '>' :=
    List.all_iff_forall_prop.1 (by decide)
  exact hall n (List.mem_flatten.2 ⟨name, hname, hn⟩)

theorem ends_bracket (hname : name ∈ sizeNames) : Ends name ['>'] where
  first := ⟨'>', [], rfl, fun _ hn => (isBlank_toLower_of_mem hname hn).2⟩
  next := ⟨'>', [], rfl, by decide, by decide⟩

theorem ends_written {blank : Char} {other value : Text} (hblank : Text.isBlank blank = true)
    (hname : name ∈ sizeNames) (hother : other ∈ sizeNames) (t : Text) :
    Ends name (written blank other value ++ t) where
  first := ⟨blank, _, rfl, fun _ hn => not_matches_of_isBlank (isBlank_toLower_of_mem hname hn).1 hblank⟩
  next := by
    have hheads : ∀ other ∈ sizeNames, ∃ d ds, other = d :: ds ∧ Text.isBlank d = false ∧ d ≠ '=' ∧
        isQuote d = false := by
      simp only [sizeNames, List.forall_mem_cons]
      exact ⟨⟨'w', _, rfl, by decide⟩, ⟨'h', _, rfl, by decide⟩, ⟨'v', _, rfl, by decide⟩, nofun⟩
    obtain ⟨d, ds, rfl, hd, hne, hquote⟩ := hheads other hother
    have htext : written blank (d :: ds) value ++ t =
        blank :: d :: (ds ++ '=' :: '"' :: value ++ ['"'] ++ t) := rfl
    refine ⟨d, ds ++ '=' :: '"' :: value ++ ['"'] ++ t, ?_, hne, hquote⟩
    rw [htext, List.dropWhile_cons_of_pos hblank, List.dropWhile_cons_of_neg (Bool.eq_false_iff.1 hd)]

/-- Whether the root tag of a document begins here, if it is closed. -/
def opens (t : Text) : Bool :=
  match afterName? "<svg".toList t with
  | some rest => rest.head?.all fun next => !Text.isWord next
  | none => false

theorem rootTag?_cons (c : Char) (t : Text) :
    rootTag? (c :: t) =
      match afterName? "<svg".toList (c :: t) with
      | none => rootTag? t
      | some rest =>
        if rest.head?.all fun next => !Text.isWord next then
          if '>' ∈ rest then some (rest.takeWhile (· != '>') ++ ['>']) else rootTag? t
        else rootTag? t := by
  rfl

/-- What does not open the tag is passed over. -/
theorem rootTag?_append (hu : ∀ w, w <:+ u → opens w = false) (t : Text) :
    rootTag? (u ++ '<' :: t) = rootTag? ('<' :: t) := by
  induction u with
  | nil => rfl
  | cons c u ih =>
      have hskip : rootTag? (c :: (u ++ '<' :: t)) = rootTag? (u ++ '<' :: t) := by
        have hc := hu (c :: u) (List.suffix_refl _)
        rw [rootTag?_cons]
        cases hname : afterName? "<svg".toList (c :: u) with
        | none =>
            have hlonger : afterName? "<svg".toList (c :: (u ++ '<' :: t)) = none := by
              by_cases hmatch : Matches '<' c
              · have hrest : afterName? "svg".toList u = none := (if_pos hmatch).symm.trans hname
                exact (if_pos hmatch).trans (afterName?_append_none hrest (List.all_iff_forall_prop.1 (by decide)))
              · exact if_neg hmatch
            rw [hlonger]
        | some r =>
            rw [opens, hname] at hc
            rw [show afterName? "<svg".toList (c :: (u ++ '<' :: t)) = some (r ++ '<' :: t) from
              afterName?_append hname _]
            cases r with
            | nil => cases hc
            | cons x r => exact if_neg (Bool.eq_false_iff.1 hc)
      rw [List.cons_append, hskip]
      exact ih fun w hw => hu w (hw.trans (List.suffix_cons c u))

theorem rootTag?_opening {opening attributes after : Text} (hopening : afterName? "<svg".toList opening = some [])
    (hword : ∃ c rest, attributes = c :: rest ∧ Text.isWord c = false) (hclosed : '>' ∉ attributes) :
    rootTag? (opening ++ attributes ++ '>' :: after) = some (attributes ++ ['>']) := by
  obtain ⟨c, rest, rfl, hc⟩ := hword
  have hname : afterName? "<svg".toList (opening ++ (c :: rest ++ '>' :: after)) =
      some (c :: rest ++ '>' :: after) := afterName?_append hopening _
  have htake : (c :: rest ++ '>' :: after).takeWhile (· != '>') = c :: rest := by
    rw [List.takeWhile_append_of_pos fun d hd => by simpa using ne_of_mem_of_not_mem hd hclosed,
      List.takeWhile_cons_of_neg (by decide), List.append_nil]
  rw [List.append_assoc]
  cases opening with
  | nil => cases hopening
  | cons o os =>
      rw [List.cons_append] at hname ⊢
      rw [rootTag?_cons, hname]
      dsimp only
      rw [if_pos (by simp [hc]), if_pos (by simp), htake]

end PugSize.Svg
