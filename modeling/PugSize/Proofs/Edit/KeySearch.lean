import Mathlib.Data.List.Chain
import PugSize.Edit.ObjectText
import PugSize.Proofs.Edit.Marks

/-!
The search for a property in the text of an object. A stretch that looks like the key is passed over
as a whole, but it ends with the first colon in it, so another such stretch does not begin inside and
nothing is missed: the search finds what a look at every character would.
-/

namespace PugSize

open Script

theorem Text.trimEnd_append {t w : Text} (hw : ∀ c ∈ w, isBlank c = true)
    (ht : ∀ c, t.getLast? = some c → isBlank c = false) : trimEnd (t ++ w) = t := by
  have hrest : t.reverse.dropWhile isBlank = t.reverse := by
    cases hreverse : t.reverse with
    | nil => rfl
    | cons c cs =>
        have hc := ht c (by rw [← List.head?_reverse, hreverse]; rfl)
        exact List.dropWhile_cons_of_neg (by simp [hc])
  rw [trimEnd, List.reverse_append,
    List.dropWhile_append_of_pos fun c hc => hw c (List.mem_reverse.1 hc), hrest, List.reverse_reverse]

namespace CharClass

/-- Whether one character may follow another: a comment ends with a slash or before a line feed. -/
def Follows (x y : Char × CharClass) : Prop :=
  x.2 = comment → y.2 = comment ∨ x.1 = '/' ∨ y.1 = '\n'

theorem follows_of_place {place : Place} {depth : Nat} {c : Char} {t : Text}
    (h : place = .blockOpening ∨ place = .blockComment ∨ place = .blockClosing ∨
      place = .lineComment) :
    ∀ y, (t.zip (ofTextFrom place depth t)).head? = some y → Follows (c, comment) y := by
  intro y hy _
  cases t with
  | nil => cases hy
  | cons d ds =>
      obtain rfl | rfl | rfl | rfl := h
      · simp only [ofTextFrom, List.zip_cons_cons, List.head?_cons, Option.some.injEq] at hy
        exact .inl (by rw [← hy])
      · simp only [ofTextFrom] at hy
        split at hy <;> exact .inl (by cases hy; rfl)
      · simp only [ofTextFrom, List.zip_cons_cons, List.head?_cons, Option.some.injEq] at hy
        exact .inl (by rw [← hy])
      · simp only [ofTextFrom] at hy
        split at hy
        · rename_i hd
          cases hy
          exact .inr (.inr hd)
        · cases hy
          exact .inl rfl

theorem isChain_marked (t : Text) : (place : Place) → (depth : Nat) →
    (place = .blockClosing → ∀ c, t.head? = some c → c = '/') →
    List.IsChain Follows (t.zip (ofTextFrom place depth t)) := by
  induction t with
  | nil => exact fun _ _ _ => .nil
  | cons c cs ih =>
      intro place depth hclosing
      have hother {k : CharClass} {next : Place} {depth' : Nat} (hk : k ≠ comment)
          (hnext : next ≠ .blockClosing) :
          List.IsChain Follows ((c, k) :: cs.zip (ofTextFrom next depth' cs)) :=
        List.isChain_cons.2
          ⟨fun y _ hcomment => absurd hcomment hk, ih _ _ fun h => absurd h hnext⟩
      have hinside {next : Place} {depth' : Nat} (hnext : next = .blockOpening ∨
          next = .blockComment ∨ next = .blockClosing ∨ next = .lineComment)
          (hslash : next = .blockClosing → ∀ d, cs.head? = some d → d = '/') :
          List.IsChain Follows ((c, comment) :: cs.zip (ofTextFrom next depth' cs)) :=
        List.isChain_cons.2 ⟨follows_of_place hnext, ih _ _ hslash⟩
      cases place with
      | quoted quote =>
          simp only [ofTextFrom]
          split
          · exact hother (by simp) (by simp)
          · split
            · exact hother (by simp) (by simp)
            · exact hother (by simp) (by simp)
      | escaped quote => exact hother (by simp) (by simp)
      | lineComment =>
          simp only [ofTextFrom]
          split
          · exact hother (by simp) (by simp)
          · exact hinside (by simp) (by simp)
      | blockOpening => exact hinside (by simp) (by simp)
      | blockComment =>
          simp only [ofTextFrom]
          split
          · rename_i hstar
            refine hinside (by simp) fun _ d hd => ?_
            rw [hstar.2, Option.some.injEq] at hd
            exact hd.symm
          · exact hinside (by simp) (by simp)
      | blockClosing =>
          exact List.isChain_cons.2
            ⟨fun y _ _ => .inr (.inl (hclosing rfl c rfl)), ih _ _ (by simp)⟩
      | code =>
          simp only [ofTextFrom]
          split
          · exact hother (by simp) (by simp)
          · split
            · exact hinside (by simp) (by simp)
            · split
              · exact hinside (by simp) (by simp)
              · split
                · exact hother (by simp) (by simp)
                · split
                  · exact hother (by simp) (by simp)
                  · exact hother (by simp) (by simp)

end CharClass

namespace ObjectText

theorem isSkipped_of_isBlank {c : Char} (h : Text.isBlank c = true) : isSkipped c = true := by
  simp [isSkipped, h]

/-- An identifier of the script language. -/
structure IsKey (key : Text) : Prop where
  start : ∃ c cs, key = c :: cs ∧ isIdentStart c = true
  continues : ∀ c ∈ key, isIdentContinue c = true

/-- A text that properties may be looked for under: it has no white space at its ends, and nothing in it
begins a comment, ends a key, a property or an object, or stands for something else in quotes. -/
structure IsLabel (key : Text) : Prop where
  head : ∃ c cs, key = c :: cs ∧ isSkipped c = false
  last : ∀ c, key.getLast? = some c → Text.isBlank c = false
  plain : ∀ c ∈ key, c ∉ [':', ',', '}', '/', '\\', '"', '\'', '\n']

/-- A text that is an identifier or a number of the script language, so that it can be a key without quotes. -/
def IsBare (key : Text) : Prop := IsKey key ∨ firstLexeme? key = some (.token .number, key.length)

theorem IsKey.bare {key : Text} (h : IsKey key) : IsBare key := .inl h

theorem IsBare.numeric {key : Text} (h : IsBare key) : key ≠ [] ∧ ∀ c ∈ key, isNumeric c = true := by
  obtain ⟨⟨c, cs, rfl, -⟩, hcontinues⟩ | hnumber := h
  · exact ⟨by simp, fun d hd => isNumeric_of_isIdentContinue (hcontinues d hd)⟩
  · have hclass := inClass_of_firstLexeme? hnumber
    rw [List.take_length] at hclass
    exact hclass.numeric

theorem IsBare.label {key : Text} (h : IsBare key) : IsLabel key := by
  obtain ⟨hne, hnumeric⟩ := h.numeric
  have hneutral (c : Char) (hc : c ∈ key) := isNeutral_of_isNumeric (hnumeric c hc)
  have hskipped : ∀ c ∈ key, isSkipped c = false := by
    intro c hc
    have := hneutral c hc
    simp only [isNeutral, Bool.not_eq_true', Bool.or_eq_false_iff] at this
    exact this.1.2
  refine ⟨?_, ?_, ?_⟩
  · obtain ⟨c, cs, rfl⟩ := List.exists_cons_of_ne_nil hne
    exact ⟨c, cs, rfl, hskipped c List.mem_cons_self⟩
  · intro c hc
    have := hskipped c (List.mem_of_getLast? hc)
    simp only [isSkipped, Bool.or_eq_false_iff] at this
    exact this.1
  · intro c hc hmem
    have := hnumeric c hc
    simp only [List.mem_cons, List.not_mem_nil, or_false] at hmem
    obtain rfl | rfl | rfl | rfl | rfl | rfl | rfl | rfl := hmem <;> revert this <;> decide

theorem IsKey.label {key : Text} (h : IsKey key) : IsLabel key := h.bare.label

theorem keyLengthIn?_eq_some {quote key t : Text} {n : Nat} (h : keyLengthIn? quote key t = some n) :
    ∃ gap more, (∀ c ∈ gap, Text.isBlank c = true) ∧
      t = quote ++ key ++ quote ++ gap ++ ':' :: more ∧
      n = (quote ++ key ++ quote ++ gap).length + 1 + (more.takeWhile Text.isBlank).length := by
  unfold keyLengthIn? at h
  simp only at h
  split at h
  · rename_i hprefix
    obtain ⟨rest, rfl⟩ := List.isPrefixOf_iff_prefix.1 hprefix
    rw [List.drop_left] at h
    have hgap : rest.drop (rest.takeWhile Text.isBlank).length = rest.dropWhile Text.isBlank := by
      have hsplit := List.takeWhile_append_dropWhile (p := Text.isBlank) (l := rest)
      nth_rewrite 2 [← hsplit]
      rw [List.drop_left]
    rw [hgap] at h
    split at h
    · rename_i more hmore
      refine ⟨rest.takeWhile Text.isBlank, more, fun c hc => List.mem_takeWhile_imp hc, ?_, ?_⟩
      · rw [List.append_assoc _ _ (':' :: more), ← hmore, List.takeWhile_append_dropWhile]
      · rw [List.length_append]
        simpa using h.symm
    · cases h
  · cases h

theorem keyLength?_eq_some {key t : Text} {n : Nat} (h : keyLength? key t = some n) :
    ∃ quote gap more, (quote = [] ∨ quote = ['"'] ∨ quote = ['\'']) ∧
      (∀ c ∈ gap, Text.isBlank c = true) ∧ t = quote ++ key ++ quote ++ gap ++ ':' :: more ∧
      n = (quote ++ key ++ quote ++ gap).length + 1 + (more.takeWhile Text.isBlank).length := by
  unfold keyLength? at h
  split at h
  · cases h
  · rename_i c cs
    split at h
    · rename_i hc
      obtain h | ⟨-, h⟩ := Option.or_eq_some_iff.1 h
      · obtain ⟨gap, more, hgap, ht, hn⟩ := keyLengthIn?_eq_some h
        refine ⟨[c], gap, more, .inr ?_, hgap, ht, hn⟩
        obtain rfl | rfl := hc
        · exact .inl rfl
        · exact .inr rfl
      · obtain ⟨gap, more, hgap, ht, hn⟩ := keyLengthIn?_eq_some h
        exact ⟨[], gap, more, .inl rfl, hgap, ht, hn⟩
    · obtain ⟨gap, more, hgap, ht, hn⟩ := keyLengthIn?_eq_some h
      exact ⟨[], gap, more, .inl rfl, hgap, ht, hn⟩

/-- A text is cut at its first colon in one way. -/
theorem append_colon_inj {a a' b b' : Text} (ha : ':' ∉ a) (ha' : ':' ∉ a') (h : a ++ ':' :: b = a' ++ ':' :: b') :
    a = a' ∧ b = b' := by
  have hfirst {t : Text} (ht : ':' ∉ t) (more : Text) : (t ++ ':' :: more).takeWhile (· != ':') = t := by
    rw [List.takeWhile_append_of_pos fun c hc => bne_iff_ne.2 (ne_of_mem_of_not_mem hc ht),
      List.takeWhile_cons_of_neg (by simp), List.append_nil]
  have hfront : a = a' := by
    rw [← hfirst ha b, h, hfirst ha']
  subst hfront
  exact ⟨rfl, (List.cons.inj (List.append_cancel_left h)).2⟩

/-- The length of the key and the colon at a place, if a property may start there. -/
def startLength? (key : Text) (before after : List (Char × CharClass)) : Option Nat :=
  if after.head?.map Prod.snd = some (.code 1) ∧ isNameStart before = true ∧
      isPropertyStart before = true then
    keyLength? key (after.map Prod.fst)
  else none

/-- Where values stand behind the key, for every place at which a property may start. -/
def allStarts (key : Text) (before after : List (Char × CharClass)) :
    List (Char × CharClass) → List Nat
  | [] => []
  | x :: rest =>
    ((startLength? key before (x :: rest ++ after)).map (before.length + ·)).toList ++
      allStarts key (x :: before) after rest

theorem allStarts_append (key : Text) (before after as bs : List (Char × CharClass)) :
    allStarts key before after (as ++ bs) =
      allStarts key before (bs ++ after) as ++ allStarts key (as.reverse ++ before) after bs := by
  induction as generalizing before with
  | nil => rfl
  | cons a as ih =>
      rw [List.cons_append, allStarts, allStarts, ih, List.append_assoc, List.reverse_cons,
        List.append_assoc, List.singleton_append, List.cons_append, List.append_assoc]
      rfl

theorem allStarts_eq_nil {key : Text} {before after marks : List (Char × CharClass)}
    (h : ∀ as x bs, marks = as ++ x :: bs →
      startLength? key (as.reverse ++ before) (x :: bs ++ after) = none) :
    allStarts key before after marks = [] := by
  induction marks generalizing before with
  | nil => rfl
  | cons x marks ih =>
      have hx := h [] x marks rfl
      rw [List.reverse_nil, List.nil_append] at hx
      rw [allStarts, hx, ih]
      · rfl
      · intro as y bs hmarks
        have hy := h (x :: as) y bs (by rw [hmarks]; rfl)
        rwa [List.reverse_cons, List.append_assoc, List.singleton_append] at hy

theorem valueStarts_skip (key : Text) (before skipped rest : List (Char × CharClass)) :
    valueStarts key skipped.length before (skipped ++ rest) =
      valueStarts key 0 (skipped.reverse ++ before) rest := by
  induction skipped generalizing before with
  | nil => rfl
  | cons x skipped ih =>
      rw [List.cons_append, List.length_cons, valueStarts, ih, List.reverse_cons, List.append_assoc]
      rfl

section

variable {key : Text} (hkey : IsLabel key) {quote : Text} (hquote : quote = [] ∨ quote = ['"'] ∨ quote = ['\''])

include hkey hquote

/-- A property begins with no white space, no comma and no brace that closes an object. -/
theorem head_name (more : Text) : ∃ c, (quote ++ key ++ quote ++ more).head? = some c ∧
    isSkipped c = false ∧ c ∉ [':', ',', '}'] := by
  obtain rfl | rfl | rfl := hquote
  · obtain ⟨c, cs, rfl, hc⟩ := hkey.head
    have hplain := hkey.plain c List.mem_cons_self
    refine ⟨c, rfl, hc, fun hmem => hplain ?_⟩
    simp only [List.mem_cons, List.not_mem_nil, or_false] at hmem ⊢
    tauto
  · exact ⟨'"', rfl, by decide, by decide⟩
  · exact ⟨'\'', rfl, by decide, by decide⟩

theorem colon_not_mem {gap : Text} (hgap : ∀ c ∈ gap, Text.isBlank c = true) :
    ':' ∉ quote ++ key ++ quote ++ gap := by
  intro hmem
  have hquoted : ':' ∉ quote := by
    obtain rfl | rfl | rfl := hquote <;> decide
  simp only [List.mem_append, hquoted, or_false, false_or] at hmem
  obtain hmem | hmem := hmem
  · exact hkey.plain _ hmem (by simp)
  · exact absurd (hgap _ hmem) (by decide)

/-- White space behind a name is all that trimming takes off. -/
theorem trimEnd_name (front : Text) {gap : Text} (hgap : ∀ c ∈ gap, Text.isBlank c = true) :
    Text.trimEnd (front ++ (quote ++ key ++ quote ++ gap)) = front ++ (quote ++ key ++ quote) := by
  rw [← List.append_assoc]
  apply Text.trimEnd_append hgap
  intro c hc
  obtain ⟨d, ds, hne, -⟩ := hkey.head
  obtain rfl | rfl | rfl := hquote
  · rw [List.nil_append, List.append_nil, List.getLast?_append_of_ne_nil _ (by rw [hne]; simp)] at hc
    exact hkey.last c hc
  · rw [← List.append_assoc, List.getLast?_concat] at hc
    rw [← Option.some.inj hc]
    decide
  · rw [← List.append_assoc, List.getLast?_concat] at hc
    rw [← Option.some.inj hc]
    decide

/-- A name does not end with itself. -/
theorem eq_nil_of_name {quote' front : Text} (hquote' : quote' = [] ∨ quote' = ['"'] ∨ quote' = ['\''])
    (h : quote ++ key ++ quote = front ++ (quote' ++ key ++ quote')) : front = [] := by
  have hlength := congrArg List.length h
  simp only [List.length_append] at hlength
  apply List.eq_nil_of_length_eq_zero
  have hbare (q : Char) (hq : q = '"' ∨ q = '\'') (hnil : quote' = []) (hone : quote = [q]) : False := by
    obtain ⟨d, ds, hne, -⟩ := hkey.head
    have hlast := congrArg List.getLast? h
    rw [hnil, hone, List.getLast?_concat, List.nil_append, List.append_nil,
      List.getLast?_append_of_ne_nil _ (by rw [hne]; simp)] at hlast
    have hmem := hkey.plain q (List.mem_of_getLast? hlast.symm)
    obtain rfl | rfl := hq
    · exact hmem (by simp)
    · exact hmem (by simp)
  obtain rfl | hone | hone := hquote
  · simp only [List.length_nil] at hlength
    omega
  · obtain hnil | hone' | hone' := hquote'
    · exact (hbare '"' (.inl rfl) hnil hone).elim
    · rw [hone, hone'] at hlength
      omega
    · rw [hone, hone'] at hlength
      simp only [List.length_singleton] at hlength
      omega
  · obtain hnil | hone' | hone' := hquote'
    · exact (hbare '\'' (.inr rfl) hnil hone).elim
    · rw [hone, hone'] at hlength
      simp only [List.length_singleton] at hlength
      omega
    · rw [hone, hone'] at hlength
      omega

end

section

variable {key : Text} (hkey : IsLabel key)

include hkey

theorem head_of_keyLength? {c : Char} {cs : Text} {n : Nat} (h : keyLength? key (c :: cs) = some n) :
    isSkipped c = false ∧ c ∉ [':', ',', '}'] := by
  obtain ⟨quote, gap, more, hquote, -, ht, -⟩ := keyLength?_eq_some h
  obtain ⟨d, hd, hname⟩ := head_name hkey hquote (gap ++ ':' :: more)
  rw [← List.append_assoc, ← ht, List.head?_cons, Option.some.injEq] at hd
  rwa [hd]

/-- What looks like the key holds nothing else that does, for both go up to the same colon. -/
theorem keyLength?_inside {t : Text} {n i : Nat} (h : keyLength? key t = some n) (hpos : 0 < i) (hi : i < n) :
    keyLength? key (t.drop i) = none := by
  rw [Option.eq_none_iff_forall_ne_some]
  intro m hm
  obtain ⟨quote, gap, more, hquote, hgap, rfl, rfl⟩ := keyLength?_eq_some h
  obtain ⟨quote', gap', more', hquote', hgap', ht, -⟩ := keyLength?_eq_some hm
  by_cases hname : i < (quote ++ key ++ quote ++ gap).length
  · rw [List.drop_append_of_le_length (Nat.le_of_lt hname)] at ht
    obtain ⟨hdrop, -⟩ := append_colon_inj (fun hmem => colon_not_mem hkey hquote hgap
      (List.mem_of_mem_drop hmem)) (colon_not_mem hkey hquote' hgap') ht
    have hsplit := (List.take_append_drop i (quote ++ key ++ quote ++ gap)).symm
    rw [hdrop] at hsplit
    have htrim := congrArg Text.trimEnd hsplit
    have hwhole := trimEnd_name hkey hquote [] hgap
    rw [List.nil_append, List.nil_append] at hwhole
    rw [hwhole, trimEnd_name hkey hquote' _ hgap'] at htrim
    have hnil := congrArg List.length (eq_nil_of_name hkey hquote hquote' htrim)
    rw [List.length_take, List.length_nil] at hnil
    omega
  · -- Behind the name stand the colon and white space only.
    obtain ⟨c, hhead, hskipped, hc⟩ := head_name hkey hquote' (gap' ++ ':' :: more')
    rw [← List.append_assoc, ← ht, List.head?_drop,
      List.getElem?_append_right (by omega)] at hhead
    obtain hcolon | hbehind := Nat.eq_zero_or_pos (i - (quote ++ key ++ quote ++ gap).length)
    · rw [hcolon, List.getElem?_cons_zero, Option.some.injEq] at hhead
      exact hc (by simp [← hhead])
    · obtain ⟨j, hj⟩ := Nat.exists_eq_succ_of_ne_zero (Nat.ne_of_gt hbehind)
      rw [hj, List.getElem?_cons_succ, ← List.takeWhile_append_dropWhile (p := Text.isBlank) (l := more),
        List.getElem?_append_left (by omega)] at hhead
      rw [isSkipped_of_isBlank (List.mem_takeWhile_imp (List.mem_of_getElem? hhead))] at hskipped
      cases hskipped

/-- Nothing that looks like the key holds another place at which a property may start. -/
theorem no_start_inside {x y : Char × CharClass} {as bs more : List (Char × CharClass)} {n : Nat}
    (h : keyLength? key ((x :: as ++ y :: bs ++ more).map Prod.fst) = some n) (hn : as.length + 1 < n)
    (before : List (Char × CharClass)) : startLength? key before (y :: bs ++ more) = none := by
  have hinside := keyLength?_inside hkey h (Nat.succ_pos as.length) hn
  have hdrop : ((x :: as ++ y :: bs ++ more).map Prod.fst).drop (as.length + 1) =
      (y :: bs ++ more).map Prod.fst := by
    rw [List.append_assoc, List.map_append, List.drop_left']
    simp
  rw [hdrop] at hinside
  rw [startLength?, hinside, ite_self]

omit hkey in
theorem keyLength?_le {t : Text} {n : Nat} (h : keyLength? key t = some n) : 0 < n ∧ n ≤ t.length := by
  obtain ⟨quote, gap, more, -, -, rfl, rfl⟩ := keyLength?_eq_some h
  have hle := (List.takeWhile_sublist Text.isBlank (l := more)).length_le
  simp only [List.length_append, List.length_cons]
  omega

/-- At something that looks like the key the search goes on behind it and misses nothing inside. -/
theorem valueStarts_past {x : Char × CharClass} {before rest : List (Char × CharClass)} {m : Nat}
    (h : keyLength? key ((x :: rest).map Prod.fst) = some m)
    (hlater : valueStarts key 0 ((rest.take (m - 1)).reverse ++ x :: before) (rest.drop (m - 1)) =
      allStarts key ((rest.take (m - 1)).reverse ++ x :: before) [] (rest.drop (m - 1))) :
    valueStarts key (m - 1) (x :: before) rest = allStarts key (x :: before) [] rest := by
  obtain ⟨-, hmle⟩ := keyLength?_le h
  rw [List.length_map, List.length_cons] at hmle
  have hsplit := List.take_append_drop (m - 1) rest
  have hskipped : (rest.take (m - 1)).length = m - 1 := by
    rw [List.length_take]
    omega
  have hinside : allStarts key (x :: before) (rest.drop (m - 1) ++ []) (rest.take (m - 1)) = [] := by
    apply allStarts_eq_nil
    intro as y bs hparts
    have hwhole : x :: as ++ y :: bs ++ rest.drop (m - 1) = x :: rest := by
      rw [List.cons_append, ← hparts, List.cons_append, hsplit]
    have hlength := congrArg List.length hparts
    rw [hskipped, List.length_append, List.length_cons] at hlength
    rw [List.append_nil]
    exact no_start_inside hkey (by rw [hwhole]; exact h) (by omega) _
  have hvalue := valueStarts_skip key (x :: before) (rest.take (m - 1)) (rest.drop (m - 1))
  have hall := allStarts_append key (x :: before) [] (rest.take (m - 1)) (rest.drop (m - 1))
  rw [hskipped, hsplit] at hvalue
  rw [hsplit, hinside, List.nil_append] at hall
  rw [hvalue, hall, hlater]

/-- The search finds what a look at every character would. -/
theorem valueStarts_eq (n : Nat) (before marks : List (Char × CharClass)) (hn : marks.length ≤ n) :
    valueStarts key 0 before marks = allStarts key before [] marks := by
  induction n generalizing before marks with
  | zero =>
      obtain rfl : marks = [] := List.eq_nil_of_length_eq_zero (by omega)
      rfl
  | succ n ih =>
      cases marks with
      | nil => rfl
      | cons x rest =>
          rw [List.length_cons] at hn
          have hnext := ih (x :: before) rest (by omega)
          rw [valueStarts, allStarts, List.append_nil]
          cases hlength : (if isNameStart before then keyLength? key ((x :: rest).map Prod.fst)
            else none) with
          | none =>
              have hstart : startLength? key before (x :: rest) = none := by
                unfold startLength?
                split at hlength
                · rw [hlength, ite_self]
                · rename_i hname
                  rw [if_neg fun h => hname h.2.1]
              simp only [hstart, Option.map_none, Option.toList_none, List.nil_append]
              exact hnext
          | some m =>
              split at hlength
              · rename_i hname
                have hlater := ih ((rest.take (m - 1)).reverse ++ x :: before) (rest.drop (m - 1))
                  (by rw [List.length_drop]; omega)
                have hskip := valueStarts_past hkey hlength hlater
                simp only [hskip]
                unfold startLength?
                by_cases hcond : x.2 = .code 1 ∧ isPropertyStart before = true
                · rw [if_pos (by simp [hcond]), if_pos ⟨by simp [hcond.1], hname, hcond.2⟩, hlength]
                  rfl
                · rw [if_neg (by simpa using hcond), if_neg]
                  · rfl
                  · rintro ⟨hcode, -, hproperty⟩
                    exact hcond ⟨by simpa using hcode, hproperty⟩
              · cases hlength

theorem valueStarts_marked (t : Text) :
    valueStarts key 0 [] (CharClass.marked 0 t) = allStarts key [] [] (CharClass.marked 0 t) :=
  valueStarts_eq hkey _ _ _ (Nat.le_refl _)

end

end ObjectText
end PugSize
