import PugSize.Proofs.Edit.RowWrite

/-!
The place of a value in an object of any content. A property may start at the first character of a
token or bracket that stands outside all brackets of the object, and nowhere else. So a value that is
found stands behind the nodes of a key, whether or not the object can be read.
-/

namespace PugSize

open Script CharClass

namespace ObjectText

section

variable {key : Text} (hkey : IsLabel key)

include hkey

/-- At a node the search finds a place at the first character or none. -/
theorem mem_allStarts_node {n : Node} {ns : List Node} {after : Text}
    (h : Legible (lexemesOf (n :: ns)) after) (before : List (Char × CharClass)) {place : Nat}
    (hplace : place ∈ allStarts key before (marksOf 1 ns ++ marked 1 after) (nodeMarks 1 n)) :
    ∃ m, keyLength? key (textOf (n :: ns) ++ after) = some m ∧ place = before.length + m := by
  have hfst := fst_marksOf h 1
  rw [lexemesOf_cons] at h
  have hn := (legible_append.1 h).1
  have hone : marksOf 1 [n] = nodeMarks 1 n := by rw [marksOf, marksOf, List.append_nil]
  have hlegible : Legible (lexemesOf [n]) (written (lexemesOf ns) ++ after) := by simpa using hn
  by_cases htrivia : n.isTrivia = true
  · have hblank : Blank [n] := fun m hm => by rwa [List.mem_singleton.1 hm]
    rw [← hone, allStarts_blank hkey hlegible hblank] at hplace
    cases hplace
  by_cases hcomma : n.isComma = true
  · cases n with
    | leaf l plain => cases hcomma
    | comma =>
        rw [nodeMarks, allStarts_comma hkey] at hplace
        cases hplace
    | group shape inside => cases hcomma
  · obtain ⟨c, more, hmarks, hc⟩ := marks_of_solid hn (by simpa using htrivia) (by simpa using hcomma) 1
    have huncut : Uncut [n] := fun m hm => by
      rw [List.mem_singleton.1 hm]
      simpa using hcomma
    rw [marksOf, hmarks] at hfst
    rw [hmarks, allStarts, allStarts_behind key hlegible huncut (hone.trans hmarks) hc, List.append_nil,
      Option.mem_toList, Option.map_eq_some_iff] at hplace
    obtain ⟨m, hm, rfl⟩ := hplace
    refine ⟨m, ?_, rfl⟩
    unfold startLength? at hm
    split at hm
    · have hafter : (marked 1 after).map Prod.fst = after :=
        List.map_fst_zip (Nat.le_of_eq (length_ofTextFrom after _ _).symm)
      rwa [← List.append_assoc, List.map_append, hfst, hafter] at hm
    · cases hm

/-- What the search finds among nodes stands behind the key at the front of one of them. -/
theorem exists_start {ns : List Node} {after : Text} (h : Legible (lexemesOf ns) after)
    (before : List (Char × CharClass)) {place : Nat}
    (hplace : place ∈ allStarts key before (marked 1 after) (marksOf 1 ns)) :
    ∃ pre post m, ns = pre ++ post ∧ keyLength? key (textOf post ++ after) = some m ∧
      place = before.length + (textOf pre).length + m := by
  induction ns generalizing before with
  | nil => cases hplace
  | cons n ns ih =>
      rw [marksOf, allStarts_append, List.mem_append] at hplace
      obtain hplace | hplace := hplace
      · obtain ⟨m, hm, rfl⟩ := mem_allStarts_node hkey h before hplace
        exact ⟨[], n :: ns, m, rfl, hm, rfl⟩
      · rw [lexemesOf_cons] at h
        obtain ⟨hn, hns⟩ := legible_append.1 h
        obtain ⟨pre, post, m, rfl, hm, rfl⟩ := ih hns _ hplace
        refine ⟨n :: pre, post, m, rfl, hm, ?_⟩
        have hlength : (nodeMarks 1 n).length = (textOf [n]).length := by
          rw [← fst_marksOf (by simpa using hn : Legible (lexemesOf [n]) _) 1, marksOf, marksOf,
            List.append_nil, List.length_map]
        rw [textOf_cons, List.length_append, List.length_append, List.length_reverse, hlength]
        omega

end

/-- Nodes up to the first comma among them. -/
theorem exists_segment (ns : List Node) :
    ∃ segment behind, ns = segment ++ behind ∧ Uncut segment ∧
      ∀ n, behind.head? = some n → n = .comma := by
  induction ns with
  | nil => exact ⟨[], [], rfl, nofun, nofun⟩
  | cons n ns ih =>
      by_cases hn : n.isComma = true
      · cases n with
        | leaf l plain => cases hn
        | comma => exact ⟨[], .comma :: ns, rfl, nofun, fun m hm => (Option.some.inj hm).symm⟩
        | group shape inside => cases hn
      · obtain ⟨segment, behind, rfl, huncut, hbehind⟩ := ih
        exact ⟨n :: segment, behind, rfl, List.forall_mem_cons.2 ⟨by simpa using hn, huncut⟩, hbehind⟩

/-- Where a value stands that is found: behind `before` and the key with its colon. What is passed of
`value` is found, for a comma or the brace stands behind that. -/
structure FoundAt (key : Text) (ns : List Node) (span : Span) (front value behind : List Node) :
    Prop where
  nodes : ns = front ++ (value ++ behind)
  shut : Shut front
  uncut : Uncut value
  comma : ∀ n, behind.head? = some n → n = .comma
  span : span = ⟨Text.width ('{' :: textOf front),
    Text.width ('{' :: textOf front) + Text.width (Text.trimEnd (passed value))⟩

/-- A value that is found stands behind the nodes of a key. -/
theorem valueSpan?_foundAt {key : Text} (hkey : IsKey key) {ns : List Node}
    (h : Legible (lexemesOf ns) ['}']) {span : Span} (hspan : valueSpan? (braced ns) key = some span) :
    ∃ front value behind, FoundAt key ns span front value behind := by
  obtain ⟨place, hlast, rfl⟩ := Option.map_eq_some_iff.1 hspan
  change (valueStarts key 0 [] (marked 0 (braced ns))).getLast? = some place at hlast
  have hmem := List.mem_of_getLast? hlast
  rw [allStarts_braced hkey.label h] at hmem
  obtain ⟨pre, post, m, rfl, hlength, hplace⟩ := exists_start hkey.label h _ hmem
  have hparts := h
  rw [lexemesOf_append] at hparts
  obtain ⟨part, later, rfl, hpart, -, rfl⟩ := exists_keyPart (.inl hkey.bare) (legible_append.1 hparts).2 hlength
  obtain ⟨value, behind, rfl, huncut, hbehind⟩ := exists_segment later
  have hnodes : pre ++ (part ++ (value ++ behind)) = (pre ++ part) ++ (value ++ behind) :=
    (List.append_assoc _ _ _).symm
  rw [hnodes] at h ⊢
  refine ⟨pre ++ part, value, behind, rfl, hpart.shut pre, huncut, hbehind, ?_⟩
  have hfront : place = ('{' :: textOf (pre ++ part)).length := by
    rw [hplace, textOf_append]
    simp only [List.length_cons, List.length_append, List.length_nil]
    omega
  have hmarks : place = (('{', CharClass.code 0) :: marksOf 1 (pre ++ part)).length := by
    have hlegible := h
    rw [lexemesOf_append] at hlegible
    have := congrArg List.length (fst_marksOf (legible_append.1 hlegible).1 1)
    rw [List.length_map] at this
    rw [hfront, List.length_cons, List.length_cons, this]
  have htext : braced (pre ++ part ++ (value ++ behind)) =
      '{' :: textOf (pre ++ part) ++ (textOf (value ++ behind) ++ ['}']) := by
    rw [braced, textOf_append]
    simp
  have hfound : (((marked 0 (braced (pre ++ part ++ (value ++ behind)))).drop place).takeWhile
      fun x => !endsValue x).map Prod.fst = passed value := by
    rw [marked_braced h, marksOf_append _ (pre ++ part), ← List.cons_append, hmarks, List.append_assoc,
      List.drop_left, passed_row value hbehind]
  change Span.mk (Text.width ((braced _).take place)) (Text.width ((braced _).take place) + Text.width
    (Text.trimEnd ((((marked 0 (braced _)).drop place).takeWhile fun x => !endsValue x).map Prod.fst))) = _
  rw [hfound, htext, hfront, List.take_left]

end ObjectText
end PugSize
