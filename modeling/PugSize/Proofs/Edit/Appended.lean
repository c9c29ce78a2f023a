import PugSize.Proofs.Edit.ValueSearch

/-!
Where a property is added to an object. Behind some nodes at the front, the last of which is not a
line comment, comes a comma unless one is seen there; then white space and comments, the property,
and the white space before the closing brace.
-/

namespace PugSize

open Script CharClass

namespace ObjectText

theorem cutAtLast?_append {c : Char} {w : Text} (hw : c ∉ w) (u : Text) :
    cutAtLast? c (u ++ c :: w) = some (u, c :: w) := by
  have hreverse : (u ++ c :: w).reverse = w.reverse ++ c :: u.reverse := by simp
  have hpassed : ∀ d ∈ w.reverse, (d != c) = true := by
    intro d hd
    rw [bne_iff_ne]
    rintro rfl
    exact hw (List.mem_reverse.1 hd)
  rw [cutAtLast?, hreverse, List.dropWhile_append_of_pos hpassed,
    List.dropWhile_cons_of_neg (by simp)]
  simp

theorem cutAtLast?_eq_none {c : Char} {t : Text} (h : c ∉ t) : cutAtLast? c t = none := by
  have hpassed : ∀ d ∈ t.reverse, (d != c) = true := by
    intro d hd
    rw [bne_iff_ne]
    rintro rfl
    exact h (List.mem_reverse.1 hd)
  rw [cutAtLast?, List.dropWhile_eq_nil_iff.2 hpassed]

/-- A text that holds a character, up to the last place of it. -/
theorem exists_last_place {c : Char} {t : Text} (h : c ∈ t) : ∃ u w, t = u ++ c :: w ∧ c ∉ w := by
  induction t with
  | nil => cases h
  | cons d ds ih =>
      by_cases hds : c ∈ ds
      · obtain ⟨u, w, rfl, hw⟩ := ih hds
        exact ⟨d :: u, w, rfl, hw⟩
      · obtain rfl | hmem := List.mem_cons.1 h
        · exact ⟨[], ds, rfl, hds⟩
        · exact absurd hmem hds

/-- Whether the last line of a text is white space, and not the first line as well. -/
def OwnLine (t : Text) : Prop :=
  ∃ u close, t = u ++ '\n' :: close ∧ '\n' ∉ close ∧ ∀ c ∈ close, Text.isBlank c = true

/-- The last line of a text is found from the cut at its last line feed. -/
theorem cut_of_line (t : Text) :
    (∃ u close, t = u ++ '\n' :: close ∧ '\n' ∉ close ∧ (∀ c ∈ close, Text.isBlank c = true) ∧
        cutAtLast? '\n' ('{' :: t) = some ('{' :: u, '\n' :: close)) ∨
      (¬ OwnLine t ∧ ∀ lines line, cutAtLast? '\n' ('{' :: t) = some (lines, line) →
        Text.isAllBlank (line.drop 1) = false) := by
  by_cases hline : '\n' ∈ t
  · obtain ⟨u, close, rfl, hclose⟩ := exists_last_place hline
    have hcut : cutAtLast? '\n' ('{' :: (u ++ '\n' :: close)) = some ('{' :: u, '\n' :: close) := by
      rw [← List.cons_append]
      exact cutAtLast?_append hclose _
    by_cases hblank : ∀ c ∈ close, Text.isBlank c = true
    · exact .inl ⟨u, close, rfl, hclose, hblank, hcut⟩
    · refine .inr ⟨?_, ?_⟩
      · rintro ⟨u', close', htext, hclose', hall⟩
        have hcut' := cutAtLast?_append hclose' u'
        rw [← htext, cutAtLast?_append hclose u, Option.some.injEq, Prod.mk.injEq] at hcut'
        exact hblank (by rwa [(List.cons.inj hcut'.2).2])
      · intro lines line heq
        rw [hcut, Option.some.injEq, Prod.mk.injEq] at heq
        rw [← heq.2, List.drop_succ_cons, List.drop_zero, ← Bool.not_eq_true]
        exact fun hall => hblank (List.all_eq_true.1 hall)
  · refine .inr ⟨?_, ?_⟩
    · rintro ⟨u, close, rfl, -⟩
      simp at hline
    · intro lines line heq
      rw [cutAtLast?_eq_none (by simp [hline])] at heq
      cases heq

/-- The indentation that a property added to a text gets if it is put on a line of its own. -/
def lineIndent? (t : Text) : Option Text :=
  (cutAtLast? '}' t).bind fun (head, _) =>
    (cutAtLast? '\n' head).bind fun (lines, line) =>
      if Text.isAllBlank (line.drop 1) then some (propertyIndent (lines ++ ['\n']) (line.drop 1)) else none

/-- A property is added on a line of its own if the closing brace stands on one. -/
theorem append_braced (ns : List Node) (prop : Text) :
    (∃ u close, textOf ns = u ++ '\n' :: close ∧ '\n' ∉ close ∧ (∀ c ∈ close, Text.isBlank c = true) ∧
        lineIndent? (braced ns) = some (propertyIndent ('{' :: u ++ ['\n']) close) ∧
        append (braced ns) prop = addLine ('{' :: u ++ ['\n']) close ['}'] prop) ∨
      ¬ OwnLine (textOf ns) ∧ lineIndent? (braced ns) = none ∧
        append (braced ns) prop = addInline ('{' :: textOf ns) ['}'] prop := by
  have hcut : cutAtLast? '}' (braced ns) = some ('{' :: textOf ns, ['}']) :=
    cutAtLast?_append List.not_mem_nil ('{' :: textOf ns)
  obtain ⟨u, close, htext, hclose, hblank, hhead⟩ | ⟨hline, hhead⟩ := cut_of_line (textOf ns)
  · have hall : Text.isAllBlank close = true := List.all_eq_true.2 hblank
    refine .inl ⟨u, close, htext, hclose, hblank, ?_, ?_⟩
    · simp only [lineIndent?, hcut, hhead, Option.bind_some, List.drop_succ_cons, List.drop_zero, hall, if_true]
    · simp only [append, hcut, hhead, List.drop_succ_cons, List.drop_zero, hall, if_true]
  · refine .inr ⟨hline, ?_, ?_⟩
    · rw [lineIndent?, hcut, Option.bind_some, Option.bind_eq_none_iff]
      rintro ⟨lines, line⟩ hcut'
      exact if_neg (by rw [hhead lines line hcut']; exact Bool.false_ne_true)
    · simp only [append, hcut]
      split
      · rename_i lines line heq
        rw [hhead lines line heq, if_neg Bool.false_ne_true]
      · rfl

/-- The white space around a property that is added, where `gap` stands before the brace. -/
def addedMargins (indent : Option Text) (isFirst : Bool) (gap : Text) : Text × Text :=
  match indent with
  | none => ([' '], if isFirst then [' '] else gap)
  | some indent =>
    let (above, below) := (cutAtLast? '\n' gap).getD ([], gap)
    (above ++ '\n' :: indent, below)

/-- The comma that is put behind nodes, unless they end with one or are none. -/
def commaBehind (front : List Node) : List Node :=
  match front.getLast? with
  | none => []
  | some .comma => []
  | some _ => [.comma]

theorem commaBehind_comma (init : List Node) : commaBehind (init ++ [.comma]) = [] := by
  rw [commaBehind, List.getLast?_concat]

theorem commaBehind_other (init : List Node) {n : Node} (hn : n ≠ .comma) :
    commaBehind (init ++ [n]) = [.comma] := by
  rw [commaBehind, List.getLast?_concat]
  cases n with
  | leaf l plain => rfl
  | comma => exact absurd rfl hn
  | group shape inside => rfl

/-- White space of the plainest kind. -/
def isPlainBlank : Node → Bool
  | .leaf l _ => l.kind == .trivia .blank && (l.text == [' '] || l.text == ['\t'] || l.text == ['\n'])
  | _ => false

/-- A place for a property among nodes: `back` gives way to `lead` and `trail` around it. -/
structure Place (ns front back lead trail : List Node) : Prop where
  nodes : ns = front ++ back
  last : ∀ n, front.getLast? = some n → isLineComment n = false ∧ isPlainBlank n = false
  blank_back : Blank back
  blank_lead : Blank lead
  legible_lead : ∀ after, Legible (lexemesOf lead) after
  blank_trail : Blank trail
  legible_trail : Legible (lexemesOf trail) ['}']
  source : ∀ n ∈ lead ++ trail, n ∈ ns ∨ isGap n = true
  chars : ∀ c ∈ textOf (lead ++ trail), c ∈ textOf ns ∨ c = ' ' ∨ c = '\t'
  comments : (lead ++ trail).filter isComment = back.filter isComment

theorem isGap_of_isPlainBlank {n : Node} (h : isPlainBlank n = true) : isGap n = true := by
  cases n with
  | leaf l plain =>
      simp only [isPlainBlank, Bool.and_eq_true, Bool.or_eq_true, beq_iff_eq] at h
      obtain ⟨hkind, htext⟩ := h
      rw [isGap, hkind]
      obtain (htext | htext) | htext := htext <;> rw [htext] <;> rfl
  | comma => cases h
  | group shape inside => cases h

theorem isPlainBlank_eq_false {n : Node} (h : isGap n = false) : isPlainBlank n = false :=
  Bool.eq_false_iff.2 fun hplain => Bool.eq_false_iff.1 h (isGap_of_isPlainBlank hplain)

/-- Whether a character is seen as the end of what stands before a line of its own. -/
def isSeen (x : Char × CharClass) : Bool := x.2.isCode && !isAsciiBlank x.1

/-- Whether no character of a node is seen. -/
def isUnseen : Node → Bool
  | .leaf l _ => l.kind == .trivia .lineComment || l.kind == .trivia .blockComment ||
      (l.kind == .trivia .blank && l.text.all isAsciiBlank)
  | _ => false

theorem isSkipped_of_isAsciiBlank {c : Char} (h : isAsciiBlank c = true) : isSkipped c = true := by
  simp only [isAsciiBlank, Bool.or_eq_true, beq_iff_eq] at h
  obtain (((rfl | rfl) | rfl) | rfl) | rfl := h <;> rfl

theorem isComment_of_not_isUnseen {n : Node} (h : isUnseen n = false) : isComment n = false := by
  cases n with
  | leaf l plain =>
      simp only [isUnseen, Bool.or_eq_false_iff] at h
      rw [isComment, h.1.1, h.1.2]
      rfl
  | comma => rfl
  | group shape inside => rfl

theorem not_isSeen {n : Node} (h : isUnseen n = true) (depth : Nat) :
    ∀ x ∈ nodeMarks depth n, isSeen x = false := by
  intro x hx
  cases n with
  | leaf l plain =>
      have hchar := (List.of_mem_zip hx).1
      have hclass := (List.of_mem_zip hx).2
      simp only [isUnseen, Bool.or_eq_true, Bool.and_eq_true, beq_iff_eq, List.all_eq_true] at h
      obtain (hkind | hkind) | ⟨hkind, hblank⟩ := h
      · rw [ofLexeme, hkind] at hclass
        obtain ⟨-, -, hc⟩ := List.mem_map.1 hclass
        rw [isSeen, ← hc]
        rfl
      · rw [ofLexeme, hkind] at hclass
        obtain ⟨-, -, hc⟩ := List.mem_map.1 hclass
        rw [isSeen, ← hc]
        rfl
      · rw [isSeen, hblank x.1 hchar, Bool.not_true, Bool.and_false]
  | comma => cases h
  | group shape inside => cases h

/-- The last character of a node that is seen. -/
theorem exists_seen {n : Node} {after : Text} (h : Legible n.lexemes after) (hn : isUnseen n = false)
    (depth : Nat) : ∃ init c k, nodeMarks depth n = init ++ [(c, .code k)] ∧
      isSeen (c, .code k) = true ∧ (c = ',' ↔ n = .comma) ∧ isOpening c = false := by
  obtain ⟨init, c, k, hmarks, -, hskipped, hcomma, hopening⟩ :=
    last_mark h (isComment_of_not_isUnseen hn) depth
  refine ⟨init, c, k, hmarks, ?_, ⟨hcomma, ?_⟩, hopening⟩
  · rw [isSeen, CharClass.isCode, Bool.true_and, Bool.not_eq_true']
    apply Bool.eq_false_iff.2
    intro hblank
    by_cases htrivia : n.isTrivia = true
    · cases n with
      | leaf l plain =>
          have hkind : l.kind = .trivia .blank := by
            simp only [isUnseen, Bool.or_eq_false_iff, beq_eq_false_iff_ne] at hn
            simp only [Node.isTrivia] at htrivia
            split at htrivia
            · rename_i kind hkind
              cases kind
              · exact hkind
              · exact absurd hkind hn.1.1
              · exact absurd hkind hn.1.2
            · cases htrivia
          obtain ⟨d, htext, -⟩ := (Lexeme.stands_blank hkind).1 h.1
          rw [nodeMarks, ofLexeme, hkind, htext] at hmarks
          have hsingle : [(d, CharClass.code depth)] = init ++ [(c, .code k)] := hmarks
          have hd : d = c := by
            have := congrArg List.getLast? hsingle
            rw [List.getLast?_concat] at this
            cases this
            rfl
          simp [isUnseen, hkind, htext, hd, hblank] at hn
      | comma => cases htrivia
      | group shape inside => cases htrivia
    · have := hskipped (by simpa using htrivia)
      rw [isSkipped_of_isAsciiBlank hblank] at this
      cases this
  · rintro rfl
    have hsingle : [(',', CharClass.code depth)] = init ++ [(c, .code k)] := hmarks
    have := congrArg List.getLast? hsingle
    rw [List.getLast?_concat] at this
    cases this
    rfl

/-- Nodes up to the last one that is seen. -/
theorem exists_front (ns : List Node) :
    ∃ front unseen, ns = front ++ unseen ∧ (∀ n ∈ unseen, isUnseen n = true) ∧
      ∀ n, front.getLast? = some n → isUnseen n = false := by
  induction ns using List.reverseRecOn with
  | nil => exact ⟨[], [], rfl, nofun, nofun⟩
  | append_singleton ns n ih =>
      by_cases hn : isUnseen n = true
      · obtain ⟨front, unseen, rfl, hunseen, hfront⟩ := ih
        refine ⟨front, unseen ++ [n], by rw [List.append_assoc], ?_, hfront⟩
        intro m hm
        obtain hm | hm := List.mem_append.1 hm
        · exact hunseen m hm
        · rwa [List.mem_singleton.1 hm]
      · refine ⟨ns ++ [n], [], by rw [List.append_nil], nofun, ?_⟩
        intro m hm
        rw [List.getLast?_concat, Option.some.injEq] at hm
        rw [← hm]
        simpa using hn

theorem withComma_append {as bs : List (Char × CharClass)} {c : Char} {k : CharClass}
    (hc : isSeen (c, k) = true) (hbs : ∀ x ∈ bs, isSeen x = false) :
    withComma (as ++ (c, k) :: bs) =
      (as ++ [(c, k)]).map Prod.fst ++ (if c == ',' || isOpening c then [] else [',']) ++
        bs.map Prod.fst := by
  have hreverse : (as ++ (c, k) :: bs).reverse = bs.reverse ++ (c, k) :: as.reverse := by simp
  have hpassed : ∀ x ∈ bs.reverse, (!isSeen x) = true := by
    intro x hx
    rw [hbs x (List.mem_reverse.1 hx)]
    rfl
  have htake : ((as ++ (c, k) :: bs).reverse.takeWhile fun x => !isSeen x) = bs.reverse := by
    rw [hreverse, List.takeWhile_append_of_pos hpassed,
      List.takeWhile_cons_of_neg (by simp [hc]), List.append_nil]
  have hdrop : ((as ++ (c, k) :: bs).reverse.dropWhile fun x => !isSeen x) = (c, k) :: as.reverse := by
    rw [hreverse, List.dropWhile_append_of_pos hpassed, List.dropWhile_cons_of_neg (by simp [hc])]
  simp only [isSeen] at htake hdrop
  simp only [withComma, hdrop, htake]
  split <;> simp

theorem isTrivia_of_isUnseen {n : Node} (h : isUnseen n = true) : n.isTrivia = true := by
  cases n with
  | leaf l plain =>
      simp only [isUnseen, Bool.or_eq_true, Bool.and_eq_true, beq_iff_eq] at h
      obtain (hkind | hkind) | ⟨hkind, -⟩ := h <;> simp [Node.isTrivia, hkind]
  | comma => cases h
  | group shape inside => cases h

theorem isUnseen_of_isPlainBlank {n : Node} (h : isPlainBlank n = true) : isUnseen n = true := by
  cases n with
  | leaf l plain =>
      simp only [isPlainBlank, Bool.and_eq_true, Bool.or_eq_true, beq_iff_eq] at h
      obtain ⟨hkind, htext⟩ := h
      rw [isUnseen, hkind]
      obtain (htext | htext) | htext := htext <;> rw [htext] <;> rfl
  | comma => cases h
  | group shape inside => cases h

theorem mem_marksOf {depth : Nat} {ns : List Node} {x : Char × CharClass} (h : x ∈ marksOf depth ns) :
    ∃ n ∈ ns, x ∈ nodeMarks depth n := by
  induction ns with
  | nil => cases h
  | cons n ns ih =>
      obtain h | h := List.mem_append.1 h
      · exact ⟨n, List.mem_cons_self, h⟩
      · obtain ⟨m, hm, hx⟩ := ih h
        exact ⟨m, List.mem_cons_of_mem _ hm, hx⟩

theorem zip_front {α β : Type} (as bs : List α) (ks : List β) :
    as.zip ks = ((as ++ bs).zip ks).take as.length := by
  induction as generalizing ks with
  | nil => rfl
  | cons a as ih =>
      cases ks with
      | nil => rfl
      | cons k ks => rw [List.cons_append, List.zip_cons_cons, List.zip_cons_cons, ih]; rfl

/-- The classes of an object up to a place among its nodes. -/
theorem zip_braced {pre post : List Node} (h : Legible (lexemesOf (pre ++ post)) ['}']) :
    ('{' :: textOf pre).zip (ofText (braced (pre ++ post))) = ('{', .code 0) :: marksOf 1 pre := by
  have hlegible := h
  rw [lexemesOf_append] at hlegible
  have hlength : ('{' :: textOf pre).length = (('{', CharClass.code 0) :: marksOf 1 pre).length := by
    have := congrArg List.length (fst_marksOf (legible_append.1 hlegible).1 1)
    rw [List.length_map] at this
    rw [List.length_cons, List.length_cons, this]
  have hwhole : '{' :: textOf pre ++ (textOf post ++ ['}']) = braced (pre ++ post) := by
    rw [braced, textOf_append]
    simp
  rw [zip_front _ (textOf post ++ ['}']), hwhole]
  show (marked 0 (braced (pre ++ post))).take _ = _
  rw [marked_braced h, marksOf_append, ← List.cons_append, List.append_assoc, hlength, List.take_left]

def blankNode (c : Char) : Node := .leaf ⟨.trivia .blank, [c]⟩ rfl

/-- White space as nodes. -/
def blanks (t : Text) : List Node := t.map blankNode

theorem textOf_blanks (t : Text) : textOf (blanks t) = t := by
  induction t with
  | nil => rfl
  | cons c cs ih =>
      rw [blanks, List.map_cons, textOf_cons, ← blanks, ih]
      rfl

theorem gap_blanks {t : Text} (h : ∀ c ∈ t, Text.isBlank c = true) : Gap (blanks t) := by
  intro n hn
  obtain ⟨c, hc, rfl⟩ := List.mem_map.1 hn
  simp [isGap, blankNode, h c hc]

theorem legible_blanks {t : Text} (h : ∀ c ∈ t, Text.isBlank c = true) (after : Text) :
    Legible (lexemesOf (blanks t)) after := by
  induction t with
  | nil => trivial
  | cons c cs ih =>
      exact ⟨stands_blank (isSkipped_of_isBlank (h c List.mem_cons_self)) _,
        ih fun d hd => h d (List.mem_cons_of_mem _ hd)⟩

/-- The indentation of a property is white space of the text or of the usual kind. -/
theorem mem_propertyIndent {lead close : Text} (hclose : ∀ c ∈ close, Text.isBlank c = true) {c : Char}
    (hc : c ∈ propertyIndent lead close) :
    Text.isBlank c = true ∧ (c ∈ lead ∨ c ∈ close ∨ c = ' ' ∨ c = '\t') := by
  unfold propertyIndent at hc
  split at hc
  · rename_i l hl
    have hmem := List.mem_of_mem_drop (List.mem_of_mem_filter (List.mem_of_getLast? hl))
    exact ⟨List.mem_takeWhile_imp hc,
      .inl (Text.mem_of_mem_splitLines hmem (List.takeWhile_subset _ hc))⟩
  · obtain hc | hc := List.mem_append.1 hc
    · exact ⟨hclose c hc, .inr (.inl hc)⟩
    · split at hc
      · rw [List.mem_singleton.1 hc]
        exact ⟨rfl, by simp⟩
      · simp only [List.mem_cons, List.not_mem_nil, or_false, or_self] at hc
        rw [hc]
        exact ⟨rfl, by simp⟩

/-- The indentation of a property on a line of its own, before the line of the closing brace. -/
theorem mem_lineIndent {u close : Text} (hclose : ∀ c ∈ close, Text.isBlank c = true) {c : Char}
    (hc : c ∈ propertyIndent ('{' :: u ++ ['\n']) close) :
    Text.isBlank c = true ∧ (c ∈ u ++ '\n' :: close ∨ c = ' ' ∨ c = '\t') := by
  obtain ⟨hblank, hlead | hmem | hother⟩ := mem_propertyIndent hclose hc
  · refine ⟨hblank, .inl ?_⟩
    simp only [List.cons_append, List.mem_cons, List.mem_append, List.not_mem_nil, or_false] at hlead ⊢
    obtain rfl | hlead := hlead
    · cases hblank
    · exact hlead.imp_right .inl
  · exact ⟨hblank, .inl (List.mem_append_right _ (List.mem_cons_of_mem _ hmem))⟩
  · exact ⟨hblank, .inr hother⟩

theorem legible_space (after : Text) : Legible (lexemesOf [.space]) after :=
  ⟨stands_blank (by decide) _, trivial⟩

/-- What stands before white space on the line of the closing brace is no line comment. -/
theorem last_not_lineComment {front gap : List Node} (hgap : Gap gap)
    (h : Legible (lexemesOf (front ++ gap)) ['}']) (hline : ¬ OwnLine (textOf (front ++ gap))) :
    ∀ n, front.getLast? = some n → isLineComment n = false := by
  intro n hn
  obtain ⟨init, rfl⟩ := List.getLast?_eq_some_iff.1 hn
  rw [lexemesOf_append, lexemesOf_append, lexemesOf_cons, lexemesOf_nil, List.append_nil] at h
  have hn := (legible_append.1 (legible_append.1 h).1).2
  rw [← textOf] at hn
  cases hmore : textOf gap ++ ['}'] with
  | nil => simp at hmore
  | cons c cs =>
      rw [hmore] at hn
      by_cases hc : c = '\n'
      · subst hc
        have hmem : '\n' ∈ textOf gap := by
          have hmem : '\n' ∈ textOf gap ++ ['}'] := by
            rw [hmore]
            exact List.mem_cons_self
          simpa using hmem
        obtain ⟨u, close, htext, hclose⟩ := exists_last_place hmem
        refine absurd ⟨textOf (init ++ [n]) ++ u, close, ?_, hclose, ?_⟩ hline
        · rw [textOf_append, htext, List.append_assoc]
        · intro c hc
          exact hgap.text c (by rw [htext]; simp [hc])
      · exact not_isLineComment hn hc

/-- Whether a place is behind what the patcher takes for the end of the properties: the last node
that is seen before the line of the closing brace, or the last one before the brace that is no white
space. -/
def Decided (ns front back : List Node) : Prop :=
  ('\n' ∈ textOf back ∧ ∀ n, front.getLast? = some n → isUnseen n = false) ∨
    ¬ OwnLine (textOf ns) ∧ ∀ n, front.getLast? = some n → isGap n = false

/-- The last line feed of nodes, if only white space stands behind it. -/
theorem exists_line {ns : List Node} {d : Char} {after u close : Text}
    (h : Legible (lexemesOf ns) (d :: after)) (hd : d ≠ '\n') (htext : textOf ns = u ++ '\n' :: close)
    (hclose : '\n' ∉ close) (hblank : ∀ c ∈ close, Text.isBlank c = true) :
    ∃ upTo line more, ns = upTo ++ line :: more ∧ Gap (line :: more) ∧ textOf upTo = u ∧
      (textOf [line] = ['\n'] ∧ textOf more = close) ∧ isPlainBlank line = true := by
  have hw : ∀ c ∈ '\n' :: close, Text.isBlank c = true := List.forall_mem_cons.2 ⟨rfl, hblank⟩
  obtain ⟨upTo, gap, rfl, hgap, hu, hgapText⟩ := exists_gap_suffix hw hclose h hd htext
  cases gap with
  | nil => cases hgapText
  | cons line more =>
      rw [lexemesOf_append] at h
      have hlineGap := hgap line List.mem_cons_self
      obtain ⟨c, hc⟩ := text_of_isGap (legible_append.1 (legible_append.1 h).2).1 hlineGap
      rw [textOf_cons, hc] at hgapText
      obtain ⟨rfl, hmore⟩ := List.cons.inj hgapText
      refine ⟨upTo, line, more, rfl, hgap, hu, ⟨hc, hmore⟩, ?_⟩
      cases line with
      | leaf l plain =>
          rw [textOf_leaf] at hc
          simp only [isGap, Bool.and_eq_true, beq_iff_eq] at hlineGap
          simp [isPlainBlank, hlineGap.1, hc]
      | comma => cases hlineGap
      | group shape inside => cases hlineGap

/-- What stands before the last line feed, up to the last node that is seen. -/
theorem exists_front_line (upTo : List Node) {line : Node} (hline : isPlainBlank line = true) :
    ∃ front init, upTo ++ [line] = front ++ (init ++ [line]) ∧ (∀ n ∈ init ++ [line], isUnseen n = true) ∧
      ∀ n, front.getLast? = some n → isUnseen n = false := by
  obtain ⟨front, unseen, hfront, hunseen, hseen⟩ := exists_front (upTo ++ [line])
  obtain rfl | ⟨init, n, rfl⟩ := List.eq_nil_or_concat unseen
  · rw [List.append_nil] at hfront
    have := hseen line (by rw [← hfront, List.getLast?_concat])
    rw [isUnseen_of_isPlainBlank hline] at this
    cases this
  · rw [List.concat_eq_append] at hfront hunseen
    have hlast := congrArg List.getLast? hfront
    rw [← List.append_assoc, List.getLast?_concat, List.getLast?_concat, Option.some.injEq] at hlast
    subst hlast
    exact ⟨front, init, hfront, hunseen, hseen⟩

/-- A comma is put behind the last node that is seen, unless it is one. -/
theorem withComma_marks {front unseen : List Node} {after : Text}
    (h : Legible (lexemesOf (front ++ unseen)) after)
    (hseen : ∀ n, front.getLast? = some n → isUnseen n = false) (hunseen : ∀ n ∈ unseen, isUnseen n = true) :
    withComma (('{', .code 0) :: marksOf 1 (front ++ unseen)) =
      '{' :: textOf (front ++ commaBehind front ++ unseen) := by
  rw [lexemesOf_append] at h
  obtain ⟨hfrontLegible, hunseenLegible⟩ := legible_append.1 h
  have hunseenMarks : ∀ x ∈ marksOf 1 unseen, isSeen x = false := by
    intro x hx
    obtain ⟨n, hn, hx⟩ := mem_marksOf hx
    exact not_isSeen (hunseen n hn) 1 x hx
  rw [marksOf_append]
  obtain rfl | ⟨init, n, rfl⟩ := List.eq_nil_or_concat front
  · have hadded := @withComma_append [] _ '{' (.code 0) rfl hunseenMarks
    rw [fst_marksOf hunseenLegible] at hadded
    exact hadded
  · rw [List.concat_eq_append] at *
    have hn := hfrontLegible
    rw [lexemesOf_append, lexemesOf_cons, lexemesOf_nil, List.append_nil] at hn
    obtain ⟨before, c, k, hmarks, hcSeen, hcComma, hopening⟩ :=
      exists_seen (legible_append.1 hn).2 (hseen n List.getLast?_concat) 1
    have hsplit : marksOf 1 (init ++ [n]) = marksOf 1 init ++ before ++ [(c, .code k)] := by
      rw [marksOf_append, marksOf, marksOf, hmarks, List.append_nil, List.append_assoc]
    have hadded := @withComma_append (('{', .code 0) :: marksOf 1 init ++ before) _ c (.code k) hcSeen
      hunseenMarks
    have hfirst : (('{', CharClass.code 0) :: marksOf 1 init ++ before ++ [(c, CharClass.code k)]).map Prod.fst =
        '{' :: textOf (init ++ [n]) := by
      rw [List.cons_append, List.cons_append, ← hsplit, List.map_cons, fst_marksOf hfrontLegible]
    have hshape : ('{', CharClass.code 0) :: (marksOf 1 (init ++ [n]) ++ marksOf 1 unseen) =
        ('{', CharClass.code 0) :: marksOf 1 init ++ before ++ (c, .code k) :: marksOf 1 unseen := by
      rw [hsplit]
      simp
    rw [fst_marksOf hunseenLegible, hfirst] at hadded
    rw [hshape, hadded, textOf_append (init ++ [n] ++ _), textOf_append (init ++ [n]), hopening]
    by_cases hn : n = .comma
    · rw [hn, commaBehind_comma, hcComma.2 hn]
      simp
    · have hc : ¬ c = ',' := fun hc => hn (hcComma.1 hc)
      rw [commaBehind_other init hn]
      simp [hc]

theorem shut_of_isPlainBlank (init : List Node) {line : Node} (h : isPlainBlank line = true) :
    Shut (init ++ [line]) := by
  intro l hl
  rw [lexemesOf_append] at hl
  cases line with
  | leaf m plain =>
      rw [lexemesOf_cons, lexemesOf_nil, List.append_nil, Node.lexemes, List.getLast?_concat,
        Option.some.injEq] at hl
      simp only [isPlainBlank, Bool.and_eq_true, beq_iff_eq] at h
      rw [← hl, Lexeme.isClosed, h.1]
      rfl
  | comma => cases h
  | group shape inside => cases h

/-- White space holds no comment. -/
theorem Gap.filter_isComment {ns : List Node} (h : Gap ns) : ns.filter isComment = [] := by
  rw [List.filter_eq_nil_iff]
  intro n hn hcomment
  have hgap := h n hn
  cases n with
  | leaf l plain =>
      simp only [isGap, Bool.and_eq_true, beq_iff_eq] at hgap
      simp [isComment, hgap.1] at hcomment
  | comma => cases hgap
  | group shape inside => cases hgap

/-- A place on a line of its own. -/
theorem place_line {front init more : List Node} {line : Node} {indent : Text}
    (h : Legible (lexemesOf (front ++ (init ++ [line]) ++ more)) ['}']) (hgap : Gap (line :: more))
    (hline : isPlainBlank line = true) (hunseen : ∀ n ∈ init ++ [line], isUnseen n = true)
    (hseen : ∀ n, front.getLast? = some n → isUnseen n = false) (hblanks : ∀ c ∈ indent, Text.isBlank c = true)
    (hchars : ∀ c ∈ indent, c ∈ textOf (front ++ (init ++ [line]) ++ more) ∨ c = ' ' ∨ c = '\t') :
    Place (front ++ (init ++ [line]) ++ more) front (init ++ [line] ++ more) (init ++ [line] ++ blanks indent)
      (line :: more) := by
  have hunseenBlank : Blank (init ++ [line]) := fun n hn => isTrivia_of_isUnseen (hunseen n hn)
  have hgapBlank : Blank (line :: more) := fun n hn => isTrivia_of_isGap (hgap n hn)
  have hindentGap := gap_blanks hblanks
  have hgapLegible : Legible (lexemesOf (line :: more)) ['}'] := by
    have hparts := h
    rw [← List.append_assoc, List.append_assoc, lexemesOf_append] at hparts
    exact (legible_append.1 hparts).2
  rw [lexemesOf_append, lexemesOf_append] at h
  obtain ⟨hfront, -⟩ := legible_append.1 h
  refine ⟨List.append_assoc _ _ _, ?_, ?_, ?_, ?_, hgapBlank, hgapLegible, ?_, ?_, ?_⟩
  · intro n hn
    refine ⟨?_, Bool.eq_false_iff.2 fun hplain => ?_⟩
    · have hcomment := isComment_of_not_isUnseen (hseen n hn)
      cases n with
      | leaf l plain => exact (Bool.or_eq_false_iff.1 hcomment).1
      | comma => rfl
      | group shape inside => rfl
    · exact Bool.eq_false_iff.1 (hseen n hn) (isUnseen_of_isPlainBlank hplain)
  · exact List.forall_mem_append.2 ⟨hunseenBlank, fun n hn => hgapBlank n (List.mem_cons_of_mem _ hn)⟩
  · exact List.forall_mem_append.2 ⟨hunseenBlank, fun n hn => isTrivia_of_isGap (hindentGap n hn)⟩
  · intro after
    rw [lexemesOf_append]
    exact legible_append.2
      ⟨(legible_append.1 hfront).2.swap_closed (shut_of_isPlainBlank init hline), legible_blanks hblanks after⟩
  · intro n hn
    simp only [List.mem_append, List.mem_cons] at hn ⊢
    obtain ((hn | rfl | hn) | hn) | rfl | hn := hn
    · exact .inl (.inl (.inr (.inl hn)))
    · exact .inl (.inl (.inr (.inr (.inl rfl))))
    · cases hn
    · exact .inr (hindentGap n hn)
    · exact .inr (hgap n List.mem_cons_self)
    · exact .inl (.inr hn)
  · intro c hc
    rw [textOf_append, textOf_append, textOf_blanks] at hc
    rw [textOf_append _ more, textOf_append front]
    obtain hc | hc := List.mem_append.1 hc
    · obtain hc | hc := List.mem_append.1 hc
      · exact .inl (List.mem_append_left _ (List.mem_append_right _ hc))
      · rw [← textOf_append, ← textOf_append]
        exact hchars c hc
    · rw [textOf_cons] at hc
      rw [textOf_append init]
      simp only [List.mem_append] at hc ⊢
      exact .inl (hc.imp (fun hc => .inr (.inr hc)) id)
  · have hmore : Gap more := fun n hn => hgap n (List.mem_cons_of_mem _ hn)
    simp only [List.filter_append, hgap.filter_isComment, hmore.filter_isComment,
      hindentGap.filter_isComment, List.append_nil]

section

variable {front gap : List Node} (h : Legible (lexemesOf (front ++ gap)) ['}']) (hgap : Gap gap)
  (hlast : ∀ n, front.getLast? = some n → isGap n = false ∧ isLineComment n = false)

include h hgap hlast

/-- A place before the closing brace. -/
theorem place_inline {trail : List Node} (htrail : trail = gap ∨ trail = [.space]) :
    Place (front ++ gap) front gap [.space] trail := by
  have hspace : Gap [.space] := List.forall_mem_singleton.2 rfl
  have htrailGap : Gap trail := by
    obtain rfl | rfl := htrail
    · exact hgap
    · exact hspace
  have haround : Gap ([.space] ++ trail) := List.forall_mem_append.2 ⟨hspace, htrailGap⟩
  have hblank {ns : List Node} (hns : Gap ns) : Blank ns := fun n hn => isTrivia_of_isGap (hns n hn)
  rw [lexemesOf_append] at h
  refine ⟨rfl, ?_, hblank hgap, hblank hspace, legible_space, hblank htrailGap, ?_,
    fun n hn => .inr (haround n hn), ?_, ?_⟩
  · intro n hn
    exact ⟨(hlast n hn).2, isPlainBlank_eq_false (hlast n hn).1⟩
  · obtain rfl | rfl := htrail
    · exact (legible_append.1 h).2
    · exact legible_space _
  · intro c hc
    obtain hc | hc := List.mem_append.1 (textOf_append _ trail ▸ hc)
    · exact .inr (.inl (List.mem_singleton.1 hc))
    · obtain rfl | rfl := htrail
      · exact .inl (by rw [textOf_append]; exact List.mem_append_right _ hc)
      · exact .inr (.inl (List.mem_singleton.1 hc))
  · rw [haround.filter_isComment, hgap.filter_isComment]

/-- A property is put behind the last node that is no white space, and a comma between the two. -/
theorem addInline_nodes (prop : Text) :
    addInline ('{' :: textOf (front ++ gap)) ['}'] prop = '{' :: textOf (front ++ commaBehind front ++ [.space]) ++
      prop ++ (if front.isEmpty then [' '] else textOf gap) ++ ['}'] := by
  rw [lexemesOf_append] at h
  have hfront := (legible_append.1 h).1
  have hbody : Text.trimEnd ('{' :: textOf (front ++ gap)) = '{' :: textOf front :=
    @trimEnd_nodes ['{'] front gap _ hgap (by rintro c ⟨⟩; rfl) hfront hlast
  have hdrop : ('{' :: textOf (front ++ gap)).drop ('{' :: textOf front).length = textOf gap := by
    rw [textOf_append, ← List.cons_append, List.drop_left]
  rw [addInline]
  simp only [hbody, hdrop]
  obtain rfl | ⟨init, n, rfl⟩ := List.eq_nil_or_concat front
  · simp [commaBehind]
  · rw [List.concat_eq_append] at *
    obtain ⟨c, hc, -, hcomma, hopening⟩ := last_of_nodes hfront (hlast n List.getLast?_concat).2
    have hbrace : ('{' :: textOf (init ++ [n])).getLast? = some c := by
      rw [List.getLast?_cons, hc]
      rfl
    rw [hbrace, List.isEmpty_eq_false_iff.2 (List.append_ne_nil_of_right_ne_nil init (List.cons_ne_nil n []))]
    split
    · rename_i heq
      rw [Option.some.inj heq] at hopening
      cases hopening
    · rename_i heq
      obtain rfl := hcomma (Option.some.inj heq)
      rw [commaBehind_comma]
      simp
    · rename_i hother
      have hne : n ≠ .comma := by
        rintro rfl
        rw [textOf_append, textOf_comma, List.getLast?_concat] at hc
        exact hother hc.symm
      rw [commaBehind_other init hne, textOf_append (init ++ [n] ++ [Node.comma]),
        textOf_append (init ++ [n])]
      simp

end

section

variable {ns : List Node} (h : Legible (lexemesOf ns) ['}']) (prop : Text)

include h

theorem exists_place_inline (hline : ¬ OwnLine (textOf ns)) :
    ∃ front back lead trail, Place ns front back lead trail ∧ Decided ns front back ∧
      (textOf lead, textOf trail) = addedMargins none front.isEmpty (textOf back) ∧
      addInline ('{' :: textOf ns) ['}'] prop =
        '{' :: textOf (front ++ commaBehind front ++ lead) ++ prop ++ textOf trail ++ ['}'] := by
  obtain ⟨front, gap, rfl, hgap, hfront⟩ := exists_body ns
  have hlast : ∀ n, front.getLast? = some n → isGap n = false ∧ isLineComment n = false :=
    fun n hn => ⟨hfront n hn, last_not_lineComment hgap h hline n hn⟩
  have hadded := addInline_nodes h hgap hlast prop
  have hplace {trail : List Node} (htrail : trail = gap ∨ trail = [.space]) := place_inline h hgap hlast htrail
  cases hempty : front.isEmpty with
  | true =>
      rw [hempty, if_pos rfl] at hadded
      exact ⟨front, gap, [.space], [.space], hplace (.inr rfl), .inr ⟨hline, hfront⟩, by rw [hempty]; rfl, hadded⟩
  | false =>
      rw [hempty, if_neg Bool.false_ne_true] at hadded
      exact ⟨front, gap, [.space], gap, hplace (.inl rfl), .inr ⟨hline, hfront⟩, by rw [hempty]; rfl, hadded⟩

theorem exists_place_line {u close : Text} (htext : textOf ns = u ++ '\n' :: close)
    (hclose : '\n' ∉ close) (hblank : ∀ c ∈ close, Text.isBlank c = true) :
    ∃ front back lead trail, Place ns front back lead trail ∧ Decided ns front back ∧
      (textOf lead, textOf trail) =
        addedMargins (some (propertyIndent ('{' :: u ++ ['\n']) close)) front.isEmpty (textOf back) ∧
      addLine ('{' :: u ++ ['\n']) close ['}'] prop =
        '{' :: textOf (front ++ commaBehind front ++ lead) ++ prop ++ textOf trail ++ ['}'] := by
  obtain ⟨upTo, line, more, rfl, hgap, hu, hline, hlineBlank⟩ := exists_line h (by decide) htext hclose hblank
  have hgapText : textOf (line :: more) = '\n' :: close := by
    rw [textOf_cons, hline.1, hline.2]
    rfl
  obtain ⟨front, init, hfront, hunseen, hseen⟩ := exists_front_line upTo hlineBlank
  have hnodes : upTo ++ line :: more = front ++ (init ++ [line]) ++ more := by
    rw [List.append_cons, hfront]
  rw [hnodes] at h htext ⊢
  have hfrontLegible := h
  rw [lexemesOf_append] at hfrontLegible
  have hlead : '{' :: u ++ ['\n'] = '{' :: textOf (front ++ (init ++ [line])) := by
    rw [← hfront, textOf_append, hline.1, hu]
    rfl
  have hwhole : '{' :: textOf (front ++ (init ++ [line])) ++ close ++ ['}'] =
      braced (front ++ (init ++ [line]) ++ more) := by
    rw [braced, textOf_append _ more, hline.2]
    simp
  have hmarked : ('{' :: u ++ ['\n']).zip (ofText ('{' :: u ++ ['\n'] ++ close ++ ['}'])) =
      ('{', .code 0) :: marksOf 1 (front ++ (init ++ [line])) := by
    rw [hlead, hwhole]
    exact zip_braced h
  have hcomma := withComma_marks (legible_append.1 hfrontLegible).1 hseen hunseen
  have hindentChars : ∀ c ∈ propertyIndent ('{' :: u ++ ['\n']) close, _ := fun c hc => mem_lineIndent hblank hc
  rw [← htext] at hindentChars
  generalize hindent : propertyIndent ('{' :: u ++ ['\n']) close = indent at hindentChars ⊢
  refine ⟨front, init ++ [line] ++ more, init ++ [line] ++ blanks indent, line :: more,
    place_line h hgap hlineBlank hunseen hseen (fun c hc => (hindentChars c hc).1)
      (fun c hc => (hindentChars c hc).2), .inl ⟨?_, hseen⟩, ?_, ?_⟩
  · rw [textOf_append, textOf_append, hline.1]
    simp
  · have hback : textOf (init ++ [line] ++ more) = textOf init ++ '\n' :: close := by
      rw [textOf_append, textOf_append, hline.1, hline.2]
      simp
    rw [addedMargins, hback, cutAtLast?_append hclose, Option.getD_some, hgapText, textOf_append, textOf_append,
      textOf_blanks, hline.1]
    simp
  · rw [addLine]
    simp only [hmarked, hcomma, hindent]
    rw [textOf_append (front ++ commaBehind front), textOf_append (front ++ commaBehind front),
      textOf_append (init ++ [line]), textOf_blanks, hgapText]
    simp

theorem exists_place :
    ∃ front back lead trail, Place ns front back lead trail ∧ Decided ns front back ∧
      (textOf lead, textOf trail) = addedMargins (lineIndent? (braced ns)) front.isEmpty (textOf back) ∧
      append (braced ns) prop =
        '{' :: textOf (front ++ commaBehind front ++ lead) ++ prop ++ textOf trail ++ ['}'] := by
  obtain ⟨u, close, htext, hclose, hblank, hindent, happend⟩ | ⟨hline, hindent, happend⟩ := append_braced ns prop
  · rw [happend, hindent]
    exact exists_place_line h prop htext hclose hblank
  · rw [happend, hindent]
    exact exists_place_inline h prop hline

end

end ObjectText
end PugSize
