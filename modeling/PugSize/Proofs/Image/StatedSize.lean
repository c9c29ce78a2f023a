import PugSize.Proofs.Edit.Trimmed
import PugSize.Proofs.Image.RootTag
import PugSize.Proofs.Number.Whole

/-!
A size that a document states in pixels, and the same size stated by its view box. Both are read as the
whole numbers that they are; they differ beyond 32 bits, where pixels are refused and the sides of a view
box are taken for the greatest number of pixels.
-/

namespace PugSize.Svg

variable {n w h : Nat} {t : Text} {c : Char}

/-! Values. -/

theorem trim_of_ends (hfirst : ∀ c, t.head? = some c → Text.isBlank c = false)
    (hlast : ∀ c, t.getLast? = some c → Text.isBlank c = false) : Text.trim t = t := by
  have hstart : Text.trimStart t = t := by
    cases t with
    | nil => rfl
    | cons c cs => exact List.dropWhile_cons_of_neg (Bool.eq_false_iff.1 (hfirst c rfl))
  have hend := @Text.trimEnd_append t [] nofun hlast
  rw [List.append_nil] at hend
  rw [Text.trim, hstart, hend]

theorem isBlank_decimal (n : Nat) : ∀ c ∈ decimal n, Text.isBlank c = false :=
  fun c hc => isBlank_of_isDigit ((isDigits_decimal n).2 c hc)

theorem isQuote_decimal (n : Nat) : ∀ c ∈ decimal n, isQuote c = false := by
  intro c hc
  have hdigit := (isDigits_decimal n).2 c hc
  refine Bool.eq_false_iff.2 fun hquote => ?_
  simp only [isQuote, Bool.or_eq_true, beq_iff_eq] at hquote
  obtain rfl | rfl := hquote <;> cases hdigit

theorem trim_decimal (n : Nat) : Text.trim (decimal n) = decimal n := by
  exact trim_of_ends (fun c hc => isBlank_decimal n c (List.mem_of_mem_head? hc))
    (fun c hc => isBlank_decimal n c (List.mem_of_getLast? hc))

theorem withoutUnit_decimal (n : Nat) : withoutUnit (decimal n) = decimal n := by
  unfold withoutUnit
  refine if_neg fun h => ?_
  have hx : 'x' ∈ ((decimal n).drop ((decimal n).length - 2)).map Char.toLower := by
    rw [← String.toList_ofList (l := ((decimal n).drop ((decimal n).length - 2)).map Char.toLower), h]
    decide
  obtain ⟨c, hc, hlower⟩ := List.mem_map.1 hx
  have hdigit := (isDigits_decimal n).2 c (List.mem_of_mem_drop hc)
  rw [toLower_of_isDigit hdigit] at hlower
  subst hlower
  cases hdigit

theorem isPlainNumber_decimal (n : Nat) : isPlainNumber (decimal n) = true := by
  obtain ⟨hsome, hdigits⟩ := isDigits_decimal n
  have hrest : (decimal n).dropWhile Char.isDigit = [] := List.dropWhile_eq_nil_iff.2 hdigits
  rw [isPlainNumber, hrest]
  simp [hsome]

/-- Pixels are read as they are, up to the greatest number of them. -/
theorem pixels?_decimal (hn : n ≠ 0) (hbits : n < 2 ^ 53) :
    pixels? (decimal n) = if n ≤ maxPixels then some n else none := by
  rw [pixels?, withoutUnit_decimal, isPlainNumber_decimal, if_pos rfl, Binary.read?_decimal,
    Option.bind_some, Binary.round?_ofDecimal hn hbits]
  have hone : (1 : Int) ≤ n := by omega
  have hmost : (n : Int) ≤ maxPixels ↔ n ≤ maxPixels := Int.ofNat_le
  simp only [hone, hmost, true_and, Int.toNat_natCast]

/-- A side of a view box is read as it is, up to the greatest number of pixels. -/
theorem side?_ofDecimal (hn : n ≠ 0) (hbits : n < 2 ^ 53) :
    side? (Binary.ofDecimal false n 0) = some (min n maxPixels) := by
  rw [side?, Binary.round?_ofDecimal hn hbits]
  dsimp only
  rw [if_pos (by omega)]
  rfl

/-- The view box of a size, from the origin. -/
def viewBox (w h : Nat) : Text := "0 0 ".toList ++ decimal w ++ ' ' :: decimal h

/-- Whether a character separates the parts of a list. -/
def isSeparator (c : Char) : Bool := c == ',' || Text.isBlank c

theorem isSeparator_of_isDigit (h : c.isDigit = true) : isSeparator c = false := by
  rw [isSeparator, isBlank_of_isDigit h, Bool.or_false, beq_eq_false_iff_ne]
  rintro rfl
  cases h

/-- Characters of one kind stay together. -/
theorem splitBy_part (hsome : t ≠ []) (hpart : ∀ c ∈ t, isSeparator c = false) :
    t.splitBy (fun a b => isSeparator a == isSeparator b) = [t] := by
  refine List.splitBy_of_isChain hsome (List.Pairwise.isChain ?_)
  refine List.pairwise_of_forall_mem_list fun a ha b hb => ?_
  rw [hpart a ha, hpart b hb]
  rfl

theorem splitList_part (hsome : t ≠ []) (hpart : ∀ c ∈ t, isSeparator c = false) : splitList t = [t] := by
  obtain ⟨c, cs, rfl⟩ := List.exists_cons_of_ne_nil hsome
  refine (congrArg (List.filter _) (splitBy_part hsome hpart)).trans (List.filter_cons_of_pos ?_)
  have hc := hpart c List.mem_cons_self
  rw [List.head?_cons, Option.any_some, ← isSeparator, hc]
  rfl

/-- A part before a space is one of the list. -/
theorem splitList_cons {rest : Text} (hsome : t ≠ []) (hpart : ∀ c ∈ t, isSeparator c = false)
    (hrest : ∀ c, rest.head? = some c → isSeparator c = false) :
    splitList (t ++ ' ' :: rest) = t :: splitList rest := by
  have hfront : (t ++ ([' '] ++ rest)).splitBy (fun a b => isSeparator a == isSeparator b) =
      t.splitBy (fun a b => isSeparator a == isSeparator b) ++
        ([' '].splitBy (fun a b => isSeparator a == isSeparator b) ++
          rest.splitBy (fun a b => isSeparator a == isSeparator b)) := by
    rw [List.splitBy_append, List.splitBy_append]
    · rintro x hx y hy
      obtain rfl := Option.some.inj hx
      rw [hrest y hy]
      rfl
    · rintro x hx y hy
      obtain rfl := Option.some.inj hy
      rw [hpart x (List.mem_of_getLast? hx)]
      rfl
  have hsplit : splitList (t ++ ' ' :: rest) = splitList t ++ (splitList [' '] ++ splitList rest) := by
    refine (congrArg (List.filter _) hfront).trans ?_
    rw [List.filter_append, List.filter_append]
    rfl
  have hspace : splitList [' '] = [] := by decide
  rw [hsplit, splitList_part hsome hpart, hspace]
  rfl

theorem splitList_viewBox (w h : Nat) :
    splitList (viewBox w h) = [['0'], ['0'], decimal w, decimal h] := by
  have hdigits (n : Nat) : decimal n ≠ [] ∧ ∀ c ∈ decimal n, isSeparator c = false :=
    ⟨(isDigits_decimal n).1, fun c hc => isSeparator_of_isDigit ((isDigits_decimal n).2 c hc)⟩
  have hzero : ∀ c ∈ ['0'], isSeparator c = false := List.forall_mem_singleton.2 rfl
  have hhead {n : Nat} (rest : Text) (c : Char) (hc : (decimal n ++ rest).head? = some c) :
      isSeparator c = false := by
    rw [List.head?_append_of_ne_nil _ (hdigits n).1] at hc
    exact (hdigits n).2 c (List.mem_of_mem_head? hc)
  have htext : viewBox w h = ['0'] ++ ' ' :: (['0'] ++ ' ' :: (decimal w ++ ' ' :: decimal h)) :=
    List.append_assoc ..
  rw [htext, splitList_cons (List.cons_ne_nil _ _) hzero, splitList_cons (List.cons_ne_nil _ _) hzero (hhead _),
    splitList_cons (hdigits w).1 (hdigits w).2, splitList_part (hdigits h).1 (hdigits h).2]
  · exact fun c hc => (hdigits h).2 c (List.mem_of_mem_head? hc)
  · rintro c hc
    cases hc
    decide

/-- A view box is read as it is, up to the greatest number of pixels. -/
theorem viewBoxSize?_viewBox (hw : w ≠ 0) (hwbits : w < 2 ^ 53) (hh : h ≠ 0) (hhbits : h < 2 ^ 53) :
    viewBoxSize? (viewBox w h) = some ⟨min w maxPixels, min h maxPixels⟩ := by
  have hzero : Binary.read? ['0'] = some (Binary.ofDecimal false 0 0) := Binary.read?_decimal 0
  rw [viewBoxSize?, splitList_viewBox]
  simp only [List.mapM_cons, List.mapM_nil, hzero, Binary.read?_decimal, Option.bind_eq_bind, Option.bind_some,
    Option.pure_def]
  rw [side?_ofDecimal hw hwbits, side?_ofDecimal hh hhbits]
  rfl

theorem trim_viewBox (w h : Nat) : Text.trim (viewBox w h) = viewBox w h := by
  refine trim_of_ends (fun c hc => ?_) (fun c hc => ?_)
  · cases hc
    decide
  · have htext : viewBox w h = ("0 0 ".toList ++ decimal w ++ [' ']) ++ decimal h :=
      List.append_cons ..
    rw [htext, List.getLast?_append_of_ne_nil _ (isDigits_decimal h).1] at hc
    exact isBlank_decimal h c (List.mem_of_getLast? hc)

/-! Attributes. -/

/-- The names of sizes begin with letters of their own, and none has white space in it. -/
theorem sizeNames_distinct {name other : Text} (hname : name ∈ sizeNames) (hother : other ∈ sizeNames)
    (hne : name ≠ other) : ∃ n ns o os, name = n :: ns ∧ other = o :: os ∧ ¬Matches n o ∧
      ∀ c ∈ other, Text.isBlank c = false := by
  simp only [sizeNames, List.mem_cons, List.not_mem_nil, or_false] at hname hother
  obtain rfl | rfl | rfl := hname <;> obtain rfl | rfl | rfl := hother <;>
    first
    | exact absurd rfl hne
    | exact ⟨_, _, _, _, rfl, rfl, by decide, List.all_iff_forall_prop.1 (by decide)⟩

/-- An attribute with another name is passed over, if its value is one word. -/
theorem attribute?_other {blank : Char} {name other value : Text} (hname : name ∈ sizeNames)
    (hother : other ∈ sizeNames) (hne : name ≠ other) (hvalue : ∀ c ∈ value, Text.isBlank c = false)
    (t : Text) : attribute? name (written blank other value ++ t) = attribute? name t := by
  obtain ⟨n, ns, o, os, rfl, rfl, hmatch, hblank⟩ := sizeNames_distinct hname hother hne
  have htext : written blank (o :: os) value = blank :: o :: (os ++ '=' :: '"' :: value ++ ['"']) := rfl
  rw [htext]
  refine attribute?_word hmatch ?_ blank t
  simp only [List.forall_mem_cons, List.forall_mem_append] at hblank ⊢
  exact ⟨hblank.1, ⟨hblank.2, by decide, by decide, hvalue⟩, by decide, nofun⟩

/-- A view box is passed over, since no name begins with a digit. -/
theorem attribute?_viewBox {blank : Char} {name : Text} (hname : name ∈ sizeNames)
    (hne : name ≠ "viewBox".toList) (w h : Nat) (t : Text) :
    attribute? name (written blank "viewBox".toList (viewBox w h) ++ t) = attribute? name t := by
  obtain ⟨n, ns, o, os, rfl, hbox, hmatch, hblank⟩ := sizeNames_distinct hname (by decide) hne
  have hletter : n.toLower.isDigit = false := by
    have hall : ∀ n ∈ sizeNames.flatten, n.toLower.isDigit = false :=
      List.all_iff_forall_prop.1 (by decide)
    exact hall n (List.mem_flatten.2 ⟨_, hname, List.mem_cons_self⟩)
  have hdigit {c : Char} (hc : c.isDigit = true) : ¬Matches n c := by
    rintro (hsame | ⟨-, rfl⟩)
    · rw [← hsame, toLower_of_isDigit hc, hc] at hletter
      cases hletter
    · cases hc
  have hnumber (m : Nat) (tail t : Text) (htail : ∀ c ∈ tail, Text.isBlank c = false) :
      attribute? (n :: ns) (' ' :: (decimal m ++ tail) ++ t) = attribute? (n :: ns) t := by
    obtain ⟨hsome, hdigits⟩ := isDigits_decimal m
    obtain ⟨c, cs, hchars⟩ := List.exists_cons_of_ne_nil hsome
    rw [hchars] at hdigits
    rw [hchars, List.cons_append]
    have hword : ∀ d ∈ c :: (cs ++ tail), Text.isBlank d = false := by
      rw [← List.cons_append, List.forall_mem_append]
      exact ⟨fun d hd => isBlank_of_isDigit (hdigits d hd), htail⟩
    exact attribute?_word (hdigit (hdigits c List.mem_cons_self)) hword ' ' t
  have htext : written blank "viewBox".toList (viewBox w h) ++ t =
      (blank :: o :: (os ++ "=\"0".toList)) ++ ((' ' :: (decimal 0 ++ [])) ++
        ((' ' :: (decimal w ++ [])) ++ ((' ' :: (decimal h ++ ['"'])) ++ t))) := by
    have hzero : decimal 0 = ['0'] := by decide
    rw [hbox, hzero]
    simp [written, viewBox]
  have hquote : ∀ c ∈ ['"'], Text.isBlank c = false := List.forall_mem_singleton.2 rfl
  rw [htext, attribute?_word hmatch, hnumber 0 [] _ (List.forall_mem_nil _),
    hnumber w [] _ (List.forall_mem_nil _), hnumber h ['"'] _ hquote]
  rw [← List.cons_append, List.forall_mem_append, ← hbox]
  exact ⟨hbox ▸ hblank, List.all_iff_forall_prop.1 (by decide)⟩

/-! Documents. -/

/-- A root tag that states no size, in its document: the text before it, which does not open it, its name in
either case, its attributes, and the text behind the bracket that closes it. -/
structure RootTag where
  before : Text
  name : Text
  text : Text
  after : Text
  unopened : ∀ u, u <:+ before → opens u = false
  named : afterName? "svg".toList name = some []
  bounded : ∀ c, text.head? = some c → Text.isWord c = false
  unclosed : '>' ∉ text
  unstated : ∀ name ∈ sizeNames, Unstated name text

/-- The document with other attributes in the tag. -/
def RootTag.document (d : RootTag) (attributes : Text) : Text :=
  d.before ++ '<' :: (d.name ++ attributes ++ '>' :: d.after)

theorem isWord_of_isBlank (h : Text.isBlank c = true) : Text.isWord c = false := by
  have hmem : c.toNat ∈ List.range' 9 5 ++ List.range' 0x2000 11 ++
      [32, 0x85, 0xA0, 0x1680, 0x2028, 0x2029, 0x202F, 0x205F, 0x3000] := by
    simp only [Text.isBlank, Bool.or_eq_true, Bool.and_eq_true, decide_eq_true_eq, beq_iff_eq] at h
    simp only [List.mem_append, List.mem_range'_1, List.mem_cons, List.not_mem_nil, or_false]
    omega
  have hall : ∀ n ∈ List.range' 9 5 ++ List.range' 0x2000 11 ++
      [32, 0x85, 0xA0, 0x1680, 0x2028, 0x2029, 0x202F, 0x205F, 0x3000],
      Text.isWord (Char.ofNat n) = false := by decide +kernel
  have hc := hall _ hmem
  rwa [Char.ofNat_toNat] at hc

theorem RootTag.rootTag?_document (d : RootTag) {attributes : Text}
    (hword : ∃ c rest, attributes = c :: rest ∧ Text.isWord c = false) (hclosed : '>' ∉ attributes) :
    rootTag? (d.document attributes) = some (attributes ++ ['>']) := by
  have hnamed : afterName? "<svg".toList ('<' :: d.name) = some [] :=
    afterName?_cons_eq_some.2 ⟨.inl rfl, d.named⟩
  rw [document, rootTag?_append d.unopened]
  exact rootTag?_opening hnamed hword hclosed

theorem size?_eq {svg tag : Text} (h : rootTag? svg = some tag) :
    size? svg =
      match (attribute? "width".toList tag).bind pixels?, (attribute? "height".toList tag).bind pixels? with
      | some width, some height => some ⟨width, height⟩
      | _, _ => (attribute? "viewBox".toList tag).bind viewBoxSize? := by
  rw [size?, h]
  rfl

/-- A side of a size, as an attribute in pixels. -/
def side (blank : Char) (s : Text × Nat) : Text := written blank s.1 (decimal s.2)

/-- The two sides of a size, in either order. -/
def orders (w h : Nat) : List ((Text × Nat) × (Text × Nat)) :=
  [(("width".toList, w), ("height".toList, h)), (("height".toList, h), ("width".toList, w))]

section

variable {front middle back : Text} {first second : Text × Nat} {b₁ b₂ : Char}

/-- Which attributes a tag has in which both sides are stated in pixels. -/
theorem attribute?_pixels (hfront : ∀ name ∈ sizeNames, Unstated name front)
    (hmiddle : ∀ name ∈ sizeNames, Unstated name middle) (hback : ∀ name ∈ sizeNames, Unstated name back)
    (hb₁ : Text.isBlank b₁ = true) (hb₂ : Text.isBlank b₂ = true) (hfirst : first.1 ∈ sizeNames)
    (hsecond : second.1 ∈ sizeNames) {name : Text} (hname : name ∈ sizeNames) :
    attribute? name (front ++ side b₁ first ++ middle ++ side b₂ second ++ back ++ ['>']) =
      if name = first.1 then some (decimal first.2)
      else if name = second.1 then some (decimal second.2)
      else none := by
  have hend : attribute? name ['>'] = none := attribute?_skip (attributeHere?_of_not_blank rfl [])
  simp only [List.append_assoc, side]
  rw [attribute?_append (hfront name hname) (ends_written hb₁ hname hfirst _)]
  by_cases hone : name = first.1
  · rw [if_pos hone, hone, attribute?_written hb₁ (isDigits_decimal _).1 (isQuote_decimal _),
      trim_decimal]
  rw [if_neg hone, attribute?_other hname hfirst hone (isBlank_decimal _),
    attribute?_append (hmiddle name hname) (ends_written hb₂ hname hsecond _)]
  by_cases htwo : name = second.1
  · rw [if_pos htwo, htwo, attribute?_written hb₂ (isDigits_decimal _).1 (isQuote_decimal _),
      trim_decimal]
  rw [if_neg htwo, attribute?_other hname hsecond htwo (isBlank_decimal _),
    attribute?_append (hback name hname) (ends_bracket hname), hend]

/-- Which attributes a tag has in which a view box is stated. -/
theorem attribute?_box (hfront : ∀ name ∈ sizeNames, Unstated name front)
    (hback : ∀ name ∈ sizeNames, Unstated name back) (hb₁ : Text.isBlank b₁ = true) {name : Text}
    (hname : name ∈ sizeNames) :
    attribute? name (front ++ written b₁ "viewBox".toList (viewBox w h) ++ back ++ ['>']) =
      if name = "viewBox".toList then some (viewBox w h) else none := by
  have hbox : "viewBox".toList ∈ sizeNames := by decide
  have hend : attribute? name ['>'] = none := attribute?_skip (attributeHere?_of_not_blank rfl [])
  have hsome : viewBox w h ≠ [] := by simp [viewBox]
  have hquotes : ∀ c ∈ viewBox w h, isQuote c = false := by
    simp only [viewBox, List.forall_mem_append, List.forall_mem_cons]
    exact ⟨⟨List.all_iff_forall_prop.1 (by decide), isQuote_decimal w⟩, by decide, isQuote_decimal h⟩
  rw [List.append_assoc, List.append_assoc, attribute?_append (hfront name hname) (ends_written hb₁ hname hbox _)]
  by_cases hone : name = "viewBox".toList
  · rw [if_pos hone, hone, attribute?_written hb₁ hsome hquotes, trim_viewBox]
  · rw [if_neg hone, attribute?_viewBox hname hone, attribute?_append (hback name hname) (ends_bracket hname),
      hend]

end

theorem not_mem_written {name value : Text} {b : Char} (hb : Text.isBlank b = true) (hname : '>' ∉ name)
    (hvalue : '>' ∉ value) : '>' ∉ written b name value := by
  have hne : '>' ≠ b := by
    rintro rfl
    cases hb
  simp [written, hne, hname, hvalue]

theorem bracket_not_mem_decimal (n : Nat) : '>' ∉ decimal n := by
  intro hmem
  cases (isDigits_decimal n).2 _ hmem

theorem bracket_not_mem_name {name : Text} (hname : name ∈ sizeNames) : '>' ∉ name := by
  revert name
  decide

namespace RootTag

variable (d : RootTag)

/-- The tag of a document with an attribute in it, which comes first of those that state a size. -/
theorem rootTag?_written {front back name value rest : Text} (hparts : d.text = front ++ back) {b : Char}
    (hb : Text.isBlank b = true) (hname : name ∈ sizeNames) (hvalue : '>' ∉ value) (hrest : '>' ∉ rest) :
    rootTag? (d.document (front ++ written b name value ++ rest)) =
      some (front ++ written b name value ++ rest ++ ['>']) := by
  have hfront : '>' ∉ front := fun h => d.unclosed (by rw [hparts]; exact List.mem_append_left _ h)
  refine d.rootTag?_document ?_ ?_
  · cases front with
    | nil => exact ⟨b, _, rfl, isWord_of_isBlank hb⟩
    | cons c cs => exact ⟨c, _, rfl, d.bounded c (by rw [hparts]; rfl)⟩
  · simp only [List.mem_append, not_or]
    exact ⟨⟨hfront, not_mem_written hb (bracket_not_mem_name hname) hvalue⟩, hrest⟩

/-- The size of a document that states it in pixels. -/
theorem size?_pixels (hw : w ≠ 0) (hwbits : w < 2 ^ 53) (hh : h ≠ 0) (hhbits : h < 2 ^ 53)
    {front middle back : Text} (hparts : d.text = front ++ middle ++ back) {b₁ b₂ : Char}
    (hb₁ : Text.isBlank b₁ = true) (hb₂ : Text.isBlank b₂ = true) {first second : Text × Nat}
    (horder : (first, second) ∈ orders w h) :
    size? (d.document (front ++ side b₁ first ++ middle ++ side b₂ second ++ back)) =
      if w ≤ maxPixels ∧ h ≤ maxPixels then some ⟨w, h⟩ else none := by
  have hunstated : ∀ name ∈ sizeNames, Unstated name (front ++ middle ++ back) := hparts ▸ d.unstated
  have hclosed : '>' ∉ front ++ middle ++ back := hparts ▸ d.unclosed
  simp only [List.mem_append, not_or] at hclosed
  simp only [orders, List.mem_cons, Prod.mk.injEq, List.not_mem_nil, or_false] at horder
  have hnames : first.1 ∈ sizeNames ∧ second.1 ∈ sizeNames := by
    obtain ⟨rfl, rfl⟩ | ⟨rfl, rfl⟩ := horder <;> simp [sizeNames]
  have hrest : '>' ∉ middle ++ side b₂ second ++ back := by
    simp only [List.mem_append, not_or]
    exact ⟨⟨hclosed.1.2, not_mem_written hb₂ (bracket_not_mem_name hnames.2)
      (bracket_not_mem_decimal second.2)⟩, hclosed.2⟩
  have htag := d.rootTag?_written (hparts.trans (List.append_assoc ..)) hb₁ hnames.1
    (bracket_not_mem_decimal first.2) hrest
  have htext : front ++ side b₁ first ++ middle ++ side b₂ second ++ back =
      front ++ written b₁ first.1 (decimal first.2) ++ (middle ++ side b₂ second ++ back) := by
    simp only [List.append_assoc, side]
  have hattribute {name : Text} (hname : name ∈ sizeNames) := attribute?_pixels
    (fun name hname => (hunstated name hname).of_append_left.of_append_left)
    (fun name hname => (hunstated name hname).of_append_left.of_append_right)
    (fun name hname => (hunstated name hname).of_append_right) hb₁ hb₂ hnames.1 hnames.2 hname
  have hstated : attribute? "width".toList (front ++ side b₁ first ++ middle ++ side b₂ second ++ back ++ ['>']) =
        some (decimal w) ∧
      attribute? "height".toList (front ++ side b₁ first ++ middle ++ side b₂ second ++ back ++ ['>']) =
        some (decimal h) ∧
      attribute? "viewBox".toList (front ++ side b₁ first ++ middle ++ side b₂ second ++ back ++ ['>']) =
        none := by
    rw [hattribute (by decide), hattribute (by decide), hattribute (by decide)]
    obtain ⟨rfl, rfl⟩ | ⟨rfl, rfl⟩ := horder <;>
      exact ⟨rfl, rfl, rfl⟩
  rw [← htext] at htag
  rw [size?_eq htag, hstated.1, hstated.2.1, hstated.2.2, Option.bind_some, Option.bind_some,
    pixels?_decimal hw hwbits, pixels?_decimal hh hhbits]
  by_cases hwidth : w ≤ maxPixels <;> by_cases hheight : h ≤ maxPixels <;> simp [hwidth, hheight]

/-- The size of a document that states it by its view box. -/
theorem size?_viewBox (hw : w ≠ 0) (hwbits : w < 2 ^ 53) (hh : h ≠ 0) (hhbits : h < 2 ^ 53)
    {front back : Text} (hparts : d.text = front ++ back) {b : Char} (hb : Text.isBlank b = true) :
    size? (d.document (front ++ written b "viewBox".toList (viewBox w h) ++ back)) =
      some ⟨min w maxPixels, min h maxPixels⟩ := by
  have hunstated : ∀ name ∈ sizeNames, Unstated name (front ++ back) := hparts ▸ d.unstated
  have hback : '>' ∉ back := fun h => d.unclosed (by rw [hparts]; exact List.mem_append_right _ h)
  have hbox : '>' ∉ viewBox w h := by
    simp [viewBox, bracket_not_mem_decimal]
  have hattribute {name : Text} (hname : name ∈ sizeNames) := attribute?_box (w := w) (h := h)
    (fun name hname => (hunstated name hname).of_append_left)
    (fun name hname => (hunstated name hname).of_append_right) hb hname
  rw [size?_eq (d.rootTag?_written hparts hb (by decide) hbox hback), hattribute (by decide),
    hattribute (by decide), hattribute (by decide), if_neg (by decide), if_neg (by decide), if_pos rfl]
  simp only [Option.bind_none, Option.bind_some]
  exact viewBoxSize?_viewBox hw hwbits hh hhbits

end RootTag

/-- A size that a document states in pixels, in either order, and the same size stated by its view box,
wherever the attributes stand in a tag that states no other size. Pixels beyond 32 bits are refused; a view
box gives the greatest number of pixels for them; so the answers agree up to there, and only up to there. -/
theorem size?_stated (d : RootTag) (hw : w ≠ 0) (hwbits : w < 2 ^ 53) (hh : h ≠ 0) (hhbits : h < 2 ^ 53)
    {front middle back front' back' : Text} (hparts : d.text = front ++ middle ++ back)
    (hplace : d.text = front' ++ back') {b₁ b₂ b₃ : Char} (hblank : ∀ b ∈ [b₁, b₂, b₃], Text.isBlank b = true)
    {first second : Text × Nat} (horder : (first, second) ∈ orders w h) :
    let pixels := size? (d.document (front ++ side b₁ first ++ middle ++ side b₂ second ++ back))
    let box := size? (d.document (front' ++ written b₃ "viewBox".toList (viewBox w h) ++ back'))
    pixels = (if w ≤ maxPixels ∧ h ≤ maxPixels then some ⟨w, h⟩ else none) ∧
      box = some ⟨min w maxPixels, min h maxPixels⟩ ∧
      (pixels = box ↔ w ≤ maxPixels ∧ h ≤ maxPixels) := by
  simp only [List.forall_mem_cons] at hblank
  obtain ⟨hb₁, hb₂, hb₃, -⟩ := hblank
  have hpixels := d.size?_pixels hw hwbits hh hhbits hparts hb₁ hb₂ horder
  have hbox := d.size?_viewBox hw hwbits hh hhbits hplace hb₃
  refine ⟨hpixels, hbox, ?_⟩
  rw [hpixels, hbox]
  by_cases hboth : w ≤ maxPixels ∧ h ≤ maxPixels
  · rw [if_pos hboth, Nat.min_eq_left hboth.1, Nat.min_eq_left hboth.2]
    exact iff_of_true rfl hboth
  · rw [if_neg hboth]
    exact iff_of_false nofun hboth

/-- A red banner behind the declaration of its document. -/
def banner : RootTag where
  before := "<?xml version='1.0'?>".toList
  name := "SVG".toList
  text := " fill='red'".toList
  after := "</svg>".toList
  unopened u hu := by
    have hall : ∀ u ∈ "<?xml version='1.0'?>".toList.tails, opens u = false := by decide +kernel
    exact hall u ((List.mem_tails u _).2 hu)
  named := by decide
  bounded c hc := by
    cases hc
    decide
  unclosed := by decide
  unstated name hname u hu := by
    have hall : ∀ name ∈ sizeNames, ∀ u ∈ " fill='red'".toList.tails, begins name u = false := by
      decide +kernel
    exact hall name hname u ((List.mem_tails u _).2 hu)

theorem size?_stated_banner :
    size? "<?xml version='1.0'?><SVG height=\"80\" fill='red' width=\"120\"></svg>".toList = some ⟨120, 80⟩ ∧
      size? "<?xml version='1.0'?><SVG fill='red' viewBox=\"0 0 120 80\"></svg>".toList = some ⟨120, 80⟩ := by
  have hparts : banner.text = [] ++ " fill='red'".toList ++ [] := rfl
  have hplace : banner.text = " fill='red'".toList ++ [] := rfl
  have hblank : ∀ b ∈ [' ', ' ', ' '], Text.isBlank b = true := List.all_eq_true.1 rfl
  have horder : (("height".toList, 80), ("width".toList, 120)) ∈ orders 120 80 :=
    List.mem_cons_of_mem _ List.mem_cons_self
  obtain ⟨hpixels, hbox, -⟩ := size?_stated banner (by decide) (by decide) (by decide) (by decide) hparts
    hplace hblank horder
  have hpixelText : "<?xml version='1.0'?><SVG height=\"80\" fill='red' width=\"120\"></svg>".toList =
      banner.document ([] ++ side ' ' ("height".toList, 80) ++ " fill='red'".toList ++
        side ' ' ("width".toList, 120) ++ []) := by decide +kernel
  have hboxText : "<?xml version='1.0'?><SVG fill='red' viewBox=\"0 0 120 80\"></svg>".toList =
      banner.document (" fill='red'".toList ++ written ' ' "viewBox".toList (viewBox 120 80) ++ []) := by
    decide +kernel
  rw [hpixelText, hboxText]
  exact ⟨hpixels.trans (if_pos (by decide)), hbox⟩

/-- Beyond 32 bits the two ways of stating a size differ. -/
theorem size?_viewBox_beyond :
    size? "<svg width=\"4294967296\" height=\"1\"></svg>".toList = none ∧
      size? "<svg viewBox=\"0 0 4294967296 1\"></svg>".toList = some ⟨4294967295, 1⟩ := by
  constructor <;> decide +kernel

end PugSize.Svg
