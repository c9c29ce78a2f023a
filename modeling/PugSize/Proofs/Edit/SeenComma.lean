import PugSize.Proofs.Edit.ObjectRows

/-!
The comma behind the last property of an object. What `append` looks at is the last character that is
seen before the line of the closing brace, or the last one before the brace that is no white space. A
comment or odd white space behind the comma can hide it; where it does not, a property is added with
one comma before it.
-/

namespace PugSize

open Script CharClass

namespace ObjectText

/-- The last of some marked characters that passes a test. -/
def lastWhere? (p : Char × CharClass → Bool) (marked : List (Char × CharClass)) : Option Char :=
  (marked.reverse.find? p).map Prod.fst

/-- The last character of code before the closing brace, white space apart. -/
def lastCode? (t : Text) : Option Char :=
  lastWhere? (fun x => x.2.isCode && !isSkipped x.1) (t.dropLast.zip (ofText t))

/-- The character that decides whether a property is added with a comma before it. -/
def deciding? (t : Text) : Option Char :=
  match cutAtLast? '}' t with
  | none => none
  | some (head, _) =>
    match cutAtLast? '\n' head with
    | some (lines, line) =>
      if Text.isAllBlank (line.drop 1) then lastWhere? isSeen ((lines ++ ['\n']).zip (ofText t))
      else (Text.trimEnd head).getLast?
    | none => (Text.trimEnd head).getLast?

/-- Whether a comma behind the last property is what decides. -/
def SeesComma (t : Text) : Prop := lastCode? t = some ',' → deciding? t = some ','

instance (t : Text) : Decidable (SeesComma t) :=
  inferInstanceAs (Decidable (lastCode? t = some ',' → deciding? t = some ','))

theorem lastWhere?_append {p : Char × CharClass → Bool} {as bs : List (Char × CharClass)}
    {x : Char × CharClass} (hx : p x = true) (hbs : ∀ y ∈ bs, p y = false) :
    lastWhere? p (as ++ x :: bs) = some x.1 := by
  have hreverse : (as ++ x :: bs).reverse = bs.reverse ++ x :: as.reverse := by simp
  have hnone : bs.reverse.find? p = none :=
    List.find?_eq_none.2 fun y hy => by simp [hbs y (List.mem_reverse.1 hy)]
  rw [lastWhere?, hreverse, List.find?_append, hnone, Option.none_or, List.find?_cons_of_pos hx]
  rfl

/-- Nodes behind a comma that do not hide it from the patcher: white space on one line, or comments and
plain white space up to the end of a line with white space on the next. -/
inductive Shown : List Node → Prop
  | sameLine {blank : List Node} (hgap : Gap blank) (hline : '\n' ∉ textOf blank) : Shown blank
  | ownLine {upTo more : List Node} {line : Node} (hunseen : ∀ n ∈ upTo ++ [line], isUnseen n = true)
      (htext : textOf [line] = ['\n']) (hgap : Gap more) (hline : '\n' ∉ textOf more) :
      Shown (upTo ++ line :: more)

theorem OwnLine.append {t : Text} (h : OwnLine t) (u : Text) : OwnLine (u ++ t) := by
  obtain ⟨v, close, rfl, hclose, hblank⟩ := h
  exact ⟨u ++ v, close, by rw [List.append_assoc], hclose, hblank⟩

theorem ownLine_of_mem {t : Text} (hblank : ∀ c ∈ t, Text.isBlank c = true) (hmem : '\n' ∈ t) :
    OwnLine t := by
  obtain ⟨u, close, rfl, hclose⟩ := exists_last_place hmem
  exact ⟨u, close, rfl, hclose, fun c hc => hblank c (by simp [hc])⟩

theorem exists_last_comma {rows : List Row} (h : rows ≠ []) :
    ∃ init, rowsBefore rows = init ++ [.comma] := by
  obtain hnil | hinit := last_rowsBefore rows
  · obtain ⟨r, rs, rfl⟩ := List.exists_cons_of_ne_nil h
    simp [rowsBefore] at hnil
  · exact hinit

/-- A shown comma is the last node before the place of a property. -/
theorem Shown.sound {rows : List Row} {blank front back lead trail : List Node} (h : Shown blank)
    (hrows : rows ≠ []) (hblank : Blank blank)
    (hplace : Place (rowNodes rows [blank]) front back lead trail)
    (hdecided : Decided (rowNodes rows [blank]) front back) : Sound rows [blank] front := by
  refine .inl fun n hn => ?_
  have hnodes := hplace.nodes
  obtain ⟨init, hinit⟩ := exists_last_comma hrows
  rw [rowNodes_blank] at hnodes hdecided
  obtain ⟨behind, hfront, hbehind⟩ := exists_blank_front hnodes hplace.blank_back (by
    intro m hm
    rw [hinit, List.getLast?_concat, Option.some.injEq] at hm
    rw [← hm]
    rfl)
  obtain rfl | ⟨before, m, rfl⟩ := List.eq_nil_or_concat behind
  · rw [hfront, hinit, List.append_nil, List.getLast?_concat, Option.some.injEq] at hn
    rw [← hn]
    rfl
  · -- The place is among the nodes behind the comma, which are shown.
    exfalso
    rw [List.concat_eq_append] at hfront hbehind
    obtain rfl : m = n := by
      rw [hfront, ← List.append_assoc, List.getLast?_concat] at hn
      exact Option.some.inj hn
    have hmem : m ∈ blank := by
      rw [hbehind]
      simp
    have hback : '\n' ∈ textOf back → '\n' ∈ textOf blank := by
      intro hline
      rw [hbehind, textOf_append]
      exact List.mem_append_right _ hline
    cases h with
    | sameLine hgap hline =>
        obtain ⟨hmore, -⟩ | ⟨-, hlast⟩ := hdecided
        · exact hline (hback hmore)
        · have := hlast m hn
          rw [hgap m hmem] at this
          cases this
    | @ownLine upTo more line hunseen htext hgap hline =>
        obtain ⟨hmore, hlast⟩ | ⟨hown, -⟩ := hdecided
        · rw [List.append_cons] at hbehind
          obtain ⟨extra, -, hextra⟩ | ⟨extra, hextra, -⟩ := List.append_eq_append_iff.1 hbehind
          · rw [hextra, textOf_append] at hline
            exact hline (List.mem_append_right _ hmore)
          · have := hlast m hn
            rw [hunseen m (by rw [hextra]; simp)] at this
            cases this
        · apply hown
          have hlast : OwnLine (textOf (line :: more)) := by
            rw [textOf_cons, htext]
            exact ⟨[], textOf more, rfl, hline, hgap.text⟩
          rw [textOf_append, textOf_append]
          exact (hlast.append _).append _

/-- What decides is the last character that is seen before the line of the closing brace, or the last one
before the brace. -/
theorem deciding?_braced (ns : List Node) :
    (∃ u close, textOf ns = u ++ '\n' :: close ∧ '\n' ∉ close ∧ (∀ c ∈ close, Text.isBlank c = true) ∧
        deciding? (braced ns) = lastWhere? isSeen (('{' :: u ++ ['\n']).zip (ofText (braced ns)))) ∨
      ¬ OwnLine (textOf ns) ∧
        deciding? (braced ns) = (Text.trimEnd ('{' :: textOf ns)).getLast? := by
  have hcut : cutAtLast? '}' (braced ns) = some ('{' :: textOf ns, ['}']) :=
    cutAtLast?_append List.not_mem_nil ('{' :: textOf ns)
  obtain ⟨u, close, htext, hclose, hblank, hhead⟩ | ⟨hline, hhead⟩ := cut_of_line (textOf ns)
  · refine .inl ⟨u, close, htext, hclose, hblank, ?_⟩
    simp only [deciding?, hcut, hhead, List.drop_succ_cons, List.drop_zero, Text.isAllBlank,
      List.all_eq_true.2 hblank, if_true]
  · refine .inr ⟨hline, ?_⟩
    simp only [deciding?, hcut]
    split
    · rename_i lines line heq
      rw [hhead lines line heq, if_neg Bool.false_ne_true]
    · rfl

/-- The last character that is seen is a comma only if the last node that is seen is one. -/
theorem comma_of_lastWhere? {pre later more : List Node} {m : Node}
    (h : Legible (lexemesOf (pre ++ m :: later ++ more)) ['}']) (hm : isUnseen m = false)
    (hlater : ∀ n ∈ later, isUnseen n = true)
    (hcomma : lastWhere? isSeen
      (('{' :: textOf (pre ++ m :: later)).zip (ofText (braced (pre ++ m :: later ++ more)))) = some ',') :
    m = .comma := by
  rw [zip_braced h] at hcomma
  rw [lexemesOf_append, lexemesOf_append, lexemesOf_cons] at h
  have hnode := (legible_append.1 (legible_append.1 (legible_append.1 h).1).2).1
  obtain ⟨init, c, k, hmarks, hc, hmComma, -⟩ := exists_seen hnode hm 1
  have hall : ('{', CharClass.code 0) :: marksOf 1 (pre ++ m :: later) =
      (('{', CharClass.code 0) :: marksOf 1 pre ++ init) ++ (c, .code k) :: marksOf 1 later := by
    rw [marksOf_append, marksOf, hmarks]
    simp
  have hrest : ∀ x ∈ marksOf 1 later, isSeen x = false := by
    intro x hx
    obtain ⟨n, hn, hx⟩ := mem_marksOf hx
    exact not_isSeen (hlater n hn) 1 x hx
  rw [hall, lastWhere?_append hc hrest, Option.some.injEq] at hcomma
  exact hmComma.1 hcomma

section

variable {rows : List Row} {blank : List Node} (hrows : rows ≠ []) (hblank : Blank blank)
  (h : Legible (lexemesOf (rowNodes rows [blank])) ['}'])

include hrows hblank h

theorem lastCode?_comma : lastCode? (braced (rowNodes rows [blank])) = some ',' := by
  obtain ⟨init, hinit⟩ := exists_last_comma hrows
  have hzip := @zip_braced (rowNodes rows [blank]) [] (by rwa [List.append_nil])
  rw [List.append_nil] at hzip
  have hdrop : (braced (rowNodes rows [blank])).dropLast = '{' :: textOf (rowNodes rows [blank]) :=
    List.dropLast_concat
  rw [rowNodes_blank] at h
  have hbehind := h
  rw [lexemesOf_append] at hbehind
  rw [lastCode?, hdrop, hzip, rowNodes_blank, hinit, marksOf_append, marksOf_append]
  have hmarks : ('{', CharClass.code 0) :: (marksOf 1 init ++ marksOf 1 [.comma] ++ marksOf 1 blank) =
      (('{', CharClass.code 0) :: marksOf 1 init) ++ (',', .code 1) :: marksOf 1 blank := by
    rw [List.cons_append, List.append_assoc]
    rfl
  rw [hmarks]
  refine lastWhere?_append rfl fun x hx => ?_
  obtain hcomment | ⟨-, hskipped⟩ := marks_of_blank (legible_append.1 hbehind).2 hblank 1 x hx
  · rw [hcomment]
    rfl
  · rw [hskipped, Bool.not_true, Bool.and_false]

/-- A comma that decides on a property on the same line is shown. -/
theorem shown_sameLine (hline : ¬ OwnLine (textOf (rowNodes rows [blank])))
    (hcomma : (Text.trimEnd ('{' :: textOf (rowNodes rows [blank]))).getLast? = some ',') :
    Shown blank := by
  obtain ⟨body, gap, rfl, hgap, hbody⟩ := exists_body blank
  rw [rowNodes_blank, ← List.append_assoc] at h hline hcomma
  have hfront : ∀ n, (rowsBefore rows ++ body).getLast? = some n →
      isGap n = false ∧ isLineComment n = false := by
    intro n hn
    refine ⟨?_, last_not_lineComment hgap h hline n hn⟩
    obtain rfl | ⟨init, m, rfl⟩ := List.eq_nil_or_concat body
    · obtain ⟨init, hinit⟩ := exists_last_comma hrows
      rw [List.append_nil, hinit, List.getLast?_concat, Option.some.injEq] at hn
      rw [← hn]
      rfl
    · rw [List.concat_eq_append] at hn hbody
      rw [← List.append_assoc, List.getLast?_concat] at hn
      exact hbody n (by rw [List.getLast?_concat, hn])
  have hlegible := h
  rw [lexemesOf_append] at hlegible
  have htrim := @trimEnd_nodes ['{'] _ gap _ hgap (by rintro c ⟨⟩; rfl) (legible_append.1 hlegible).1 hfront
  have hbody' : Text.trimEnd ('{' :: textOf (rowsBefore rows ++ body ++ gap)) =
      '{' :: textOf (rowsBefore rows ++ body) := htrim
  obtain rfl | ⟨init, n, rfl⟩ := List.eq_nil_or_concat body
  · refine .sameLine hgap fun hmem => hline ?_
    rw [List.append_nil, textOf_append]
    exact (ownLine_of_mem hgap.text hmem).append _
  · -- What stands behind the comma ends with something else, so the comma does not decide.
    exfalso
    rw [List.concat_eq_append] at hblank hbody' hlegible hfront hcomma
    rw [← List.append_assoc] at hbody' hlegible hfront hcomma
    obtain ⟨c, hc, -, hn, -⟩ := last_of_nodes (legible_append.1 hlegible).1
      (hfront n List.getLast?_concat).2
    rw [hbody', List.getLast?_cons, hc, Option.getD_some, Option.some.injEq] at hcomma
    have htrivia := hblank n (by simp)
    rw [hn hcomma] at htrivia
    cases htrivia

/-- A comma that decides on a property on a line of its own is shown. -/
theorem shown_ownLine {u close : Text} (htext : textOf (rowNodes rows [blank]) = u ++ '\n' :: close)
    (hclose : '\n' ∉ close) (hall : ∀ c ∈ close, Text.isBlank c = true)
    (hcomma : lastWhere? isSeen
      (('{' :: u ++ ['\n']).zip (ofText (braced (rowNodes rows [blank])))) = some ',') :
    Shown blank := by
  obtain ⟨init, hinit⟩ := exists_last_comma hrows
  have hw : ∀ c ∈ '\n' :: close, Text.isBlank c = true := List.forall_mem_cons.2 ⟨rfl, hall⟩
  rw [rowNodes_blank] at h htext hcomma
  obtain ⟨v, hv⟩ : ∃ v, textOf blank = v ++ '\n' :: close := by
    rw [textOf_append] at htext
    obtain ⟨v, hbefore, hmore⟩ | ⟨v, -, hblankText⟩ := List.append_eq_append_iff.1 htext.symm
    · obtain rfl | ⟨v', c, rfl⟩ := List.eq_nil_or_concat v
      · exact ⟨[], hmore.symm⟩
      · rw [List.concat_eq_append] at hbefore hmore
        rw [hinit, textOf_append, textOf_comma, ← List.append_assoc] at hbefore
        obtain ⟨-, hc⟩ := List.append_inj' hbefore rfl
        have hcBlank := hw c (by rw [hmore]; simp)
        rw [← (List.cons.inj hc).1] at hcBlank
        cases hcBlank
    · exact ⟨v, hblankText⟩
  have hlegible := h
  rw [lexemesOf_append] at hlegible
  obtain ⟨upTo, line, more, rfl, hgap, hupTo, ⟨hlineText, hmoreText⟩, hplain⟩ :=
    exists_line (legible_append.1 hlegible).2 (by decide) hv hclose hall
  have hline := isUnseen_of_isPlainBlank hplain
  refine .ownLine (fun n hn => ?_) hlineText (fun n hn => hgap n (List.mem_cons_of_mem _ hn))
    (by rwa [hmoreText])
  obtain hn | hn := List.mem_append.1 hn
  · obtain ⟨front, unseen, rfl, hunseen, hseen⟩ := exists_front upTo
    obtain rfl | ⟨before, m, rfl⟩ := List.eq_nil_or_concat front
    · exact hunseen n hn
    · -- What stands behind the comma ends with something else, so the comma does not decide.
      exfalso
      rw [List.concat_eq_append] at hseen hupTo hblank hlegible h hcomma htext
      have hpre : '{' :: u ++ ['\n'] =
          '{' :: textOf (rowsBefore rows ++ before ++ m :: (unseen ++ [line])) := by
        have hu : u ++ '\n' :: close = textOf (rowsBefore rows) ++ textOf (before ++ [m] ++ unseen) ++
            '\n' :: close := by
          rw [← htext, textOf_append (rowsBefore rows), textOf_append (before ++ [m] ++ unseen), textOf_cons line,
            hlineText, hmoreText]
          simp
        rw [List.append_cancel_right hu, ← hlineText, ← textOf_append, List.cons_append, ← textOf_append]
        simp only [List.append_assoc, List.cons_append, List.nil_append]
      have hnodes : rowsBefore rows ++ (before ++ [m] ++ unseen ++ line :: more) =
          rowsBefore rows ++ before ++ m :: (unseen ++ [line]) ++ more := by simp
      rw [hnodes] at h hcomma
      rw [hpre] at hcomma
      have hm := comma_of_lastWhere? h (hseen m List.getLast?_concat)
        (List.forall_mem_append.2 ⟨hunseen, List.forall_mem_singleton.2 hline⟩) hcomma
      have htrivia := hblank m (by simp)
      rw [hm] at htrivia
      cases htrivia
  · rw [List.mem_singleton.1 hn]
    exact hline

/-- The nodes behind a comma that decides are shown. -/
theorem shown_of_seesComma (hsees : SeesComma (braced (rowNodes rows [blank]))) : Shown blank := by
  have hcomma := hsees (lastCode?_comma hrows hblank h)
  obtain ⟨u, close, htext, hclose, hall, hdeciding⟩ | ⟨hline, hdeciding⟩ :=
    deciding?_braced (rowNodes rows [blank])
  · exact shown_ownLine hrows hblank h htext hclose hall (by rw [← hdeciding, hcomma])
  · exact shown_sameLine hrows hblank h hline (by rw [← hdeciding, hcomma])

end

end ObjectText
end PugSize
