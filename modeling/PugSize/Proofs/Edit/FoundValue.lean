import PugSize.Proofs.Edit.ObjectEdits
import PugSize.Proofs.Edit.RowPlaces

/-!
The value that is found for a key and the value that is read for it. In an object without comments the two are
one stretch, unless the search does not see the property, or goes wrong in it by a byte-order mark or by a line
feed outside brackets.
-/

namespace PugSize

open Script CharClass

theorem Text.eq_of_prefix {a b c : Text} (ha : a <+: c) (hb : b <+: c) (h : a.width = b.width) : a = b := by
  have hle {a b : Text} (hstart : a <+: b) (h : a.width = b.width) : a = b := by
    obtain ⟨d, rfl⟩ := hstart
    rw [Text.width_append] at h
    rw [Text.eq_nil_of_width (by omega : Text.width d = 0), List.append_nil]
  obtain hab | hba := Nat.le_total a.length b.length
  · exact hle (List.prefix_of_prefix_length_le ha hb hab) h
  · exact (hle (List.prefix_of_prefix_length_le hb ha hba) h.symm).symm

namespace ObjectText

/-- Whether the value of a property is in view when it is looked for under a key: the property is written with
the key, there is no byte-order mark in the white space before it, before its value and up to the end of the line
behind that, and the value has no line feed outside brackets and literals. -/
structure InView (t key : Text) (p : Property Expr) : Prop where
  name : isWritten key (t.slice p.span) = true
  before : '\ufeff' ∉ (t.takeBytes p.span.start).reverse.takeWhile isSkipped
  gap : '\ufeff' ∉ (t.takeBytes p.value.span.start).reverse.takeWhile isSkipped
  line : ('\n', code 0) ∉ (t.slice p.value.span).zip (ofText (t.slice p.value.span))
  behind : '\ufeff' ∉ ((t.dropBytes p.value.span.stop).takeWhile isSkipped).takeWhile (· != '\n')

theorem isBlank_of_isSkipped {c : Char} (h : isSkipped c = true) (hne : c ≠ '\ufeff') : Text.isBlank c = true := by
  rw [isSkipped, Bool.or_eq_true, beq_iff_eq] at h
  exact h.resolve_right hne

/-- The search finds a value up to its end if that stands on one line, and nothing but white space behind it. -/
theorem trimEnd_passed {solid trail : List Node} {after : Text} (h : Legible (lexemesOf (solid ++ trail)) after)
    (huncommented : Uncommented (solid ++ trail)) (hsolid : Solid solid) (htrail : Blank trail) :
    Text.trimEnd (passed (solid ++ trail)) = textOf solid ↔
      OneLine solid ∧ '\ufeff' ∉ (textOf trail).takeWhile (· != '\n') := by
  obtain ⟨hsolidUncommented, htrailUncommented⟩ := uncommented_append.1 huncommented
  rw [lexemesOf_append] at h
  obtain ⟨hsolidLegible, htrailLegible⟩ := legible_append.1 h
  have hpassedTrail := htrailUncommented.passed_blank htrailLegible htrail
  constructor
  · intro htrim
    obtain ⟨w, hw, hblank⟩ := Text.exists_trimEnd (passed (solid ++ trail))
    rw [htrim] at hw
    have hmarks : ∀ x ∈ marksOf 1 solid, endsValue x = false := by
      apply Classical.byContradiction
      intro hnot
      -- What is passed of the value is as long as the value, so all of it is passed.
      rw [passed_stopped hnot, passed, ← fst_marksOf hsolidLegible 1] at hw
      have hlength := congrArg List.length hw
      rw [List.length_map, List.length_append, List.length_map] at hlength
      have hall := List.takeWhile_eq_self_iff.1
        ((List.takeWhile_sublist fun x => !endsValue x).eq_of_length_le (by omega : (marksOf 1 solid).length ≤ _))
      exact hnot fun x hx => by simpa using hall x hx
    refine ⟨fun hline => ?_, fun hmark => ?_⟩
    · have := hmarks _ hline
      cases this
    · rw [passed_append hsolidLegible hmarks, hpassedTrail] at hw
      rw [List.append_cancel_left hw] at hmark
      have := hblank _ hmark
      revert this
      decide
  · rintro ⟨hline, hmark⟩
    have hmarks := not_ends_of_oneLine hsolidLegible hsolidUncommented hsolid.uncut hline
    have hblank : ∀ c ∈ (textOf trail).takeWhile (· != '\n'), Text.isBlank c = true := by
      intro c hc
      refine isBlank_of_isSkipped ?_ fun heq => hmark (heq ▸ hc)
      exact htrailUncommented.skipped htrailLegible htrail c ((List.takeWhile_sublist _).subset hc)
    rw [passed_append hsolidLegible hmarks, hpassedTrail, Text.trimEnd_append_blank hblank]
    have htrim := @trimEnd_nodes [] solid [] _ (List.forall_mem_nil _) (by simp) hsolidLegible (by
      intro n hn
      obtain ⟨m, hm, htrivia⟩ := hsolid.last
      obtain rfl : n = m := Option.some.inj (hn.symm.trans hm)
      exact ⟨isGap_eq_false htrivia, isLineComment_eq_false htrivia⟩)
    rwa [List.append_nil] at htrim

/-- What is skipped before a place goes back to the last character that is not. -/
theorem takeWhile_reverse {front w : Text} {c : Char} (hc : isSkipped c = false)
    (hw : ∀ d ∈ w, isSkipped d = true) : (front ++ c :: w).reverse.takeWhile isSkipped = w.reverse := by
  rw [List.reverse_append, List.reverse_cons, List.append_assoc,
    List.takeWhile_append_of_pos fun d hd => hw d (List.mem_reverse.1 hd), List.singleton_append,
    List.takeWhile_cons_of_neg (by simp [hc]), List.append_nil]

theorem Uncommented.spaced_iff {ns : List Node} (h : Uncommented ns) : Spaced ns ↔ Gap ns := by
  refine forall₂_congr fun n hn => or_iff_left fun hcomment => ?_
  cases n with
  | leaf l plain =>
      obtain ⟨hline, hblock⟩ := h l (mem_lexemesOf.2 ⟨_, hn, List.mem_cons_self⟩)
      simp only [isComment, Bool.or_eq_true, beq_iff_eq] at hcomment
      exact hcomment.elim hline hblock
  | comma => cases hcomment
  | group shape inside => cases hcomment

/-- Behind the colon of a key stands no byte-order mark unless it is taken for the value. -/
theorem KeyPart.mark_iff {key : Text} {part blank : List Node} {after : Text} (h : KeyPart key part)
    (hlegible : Legible (lexemesOf blank) after) (huncommented : Uncommented blank) (hblank : Blank blank)
    (hvalue : ∀ n, blank.head? = some n → isGap n = false) (front : Text) :
    '\ufeff' ∉ (front ++ textOf (part ++ blank)).reverse.takeWhile isSkipped ↔ blank = [] := by
  obtain ⟨plain, -, hgap, hgap'⟩ := h
  rename_i name gap gap'
  have htext : front ++ textOf (.leaf name plain :: gap ++ colonNode :: gap' ++ blank) =
      (front ++ textOf (.leaf name plain :: gap)) ++ ':' :: (textOf gap' ++ textOf blank) := by
    rw [textOf_append, textOf_append, textOf_colon_cons]
    simp
  have hskipped : ∀ c ∈ textOf gap' ++ textOf blank, isSkipped c = true :=
    List.forall_mem_append.2 ⟨fun c hc => isSkipped_of_isBlank (hgap'.text c hc),
      huncommented.skipped hlegible hblank⟩
  have hclear : '\ufeff' ∉ textOf gap' := by
    intro hmem
    have := hgap'.text _ hmem
    revert this
    decide
  rw [htext, takeWhile_reverse (by decide) hskipped, List.mem_reverse, List.mem_append, or_iff_right hclear,
    ← huncommented.gap_iff hlegible hblank]
  constructor
  · intro hall
    cases blank with
    | nil => rfl
    | cons n ns =>
        have := hvalue n rfl
        rw [hall n List.mem_cons_self] at this
        cases this
  · rintro rfl
    exact List.forall_mem_nil _

namespace ObjectLayout

variable {t : Text} {rest : List (List Node)}

/-- The value of a property begins inside it. -/
theorem value_inside {rows : List Row} (h : ObjectLayout t rows rest) {props : List (Property Expr)}
    (hread : readRows property? 1 rows = some props) {i : Nat} {p : Property Expr} (hp : props[i]? = some p) :
    p.span.start ≤ p.value.span.start ∧ p.value.span.start < p.span.stop := by
  obtain ⟨r, front, back, hr, htext, hproperty⟩ := h.row hread hp
  obtain ⟨as, bs, rfl, rfl⟩ := exists_split hr
  obtain ⟨before, after, hcore, hafter, hvalue, -⟩ := r.solid.exists_value hproperty
  obtain ⟨tree, trees, htrees, hstart, hstop⟩ := r.solid.placeRow_eq front.width
  rw [htrees] at hproperty
  have hlegible := h.legible
  rw [rowNodes_core, hcore] at hlegible
  simp only [lexemesOf_append, legible_append] at hlegible
  obtain ⟨⟨-, -, hafterLegible⟩, -⟩ := hlegible
  have hpos : 0 < widthOf after := Text.width_pos (textOf_ne_nil hafterLegible hafter.ne_nil)
  rw [property?_span hproperty, hvalue, hstart, hstop, hcore, widthOf_append]
  dsimp only
  omega

theorem uncommented_value {as : List Row} {r : Row} {bs : List Row}
    (h : Uncommented (rowNodes (as ++ r :: bs) rest)) {key : Text} {part blank solid : List Node}
    (hkeyed : Keyed key r.core part (blank ++ solid)) : Uncommented (solid ++ r.trail) := by
  rw [hkeyed.rowNodes_eq] at h
  simp only [uncommented_append] at h
  obtain ⟨-, ⟨⟨-, hsolid⟩, htrail⟩, -⟩ := h
  exact uncommented_append.2 ⟨hsolid, htrail⟩

section

variable {key : Text} (hkey : IsKey key) {as : List Row} {r : Row} {bs : List Row}
  (h : ObjectLayout t (as ++ r :: bs) rest) {props : List (Property Expr)}
  (hread : readRows property? 1 (as ++ r :: bs) = some props) {p : Property Expr}
  (hp : props[as.length]? = some p) (huncommented : Uncommented (rowNodes (as ++ r :: bs) rest))
  {part blank solid : List Node} (hkeyed : Keyed key r.core part (blank ++ solid)) (hblank : Blank blank)
  (hsolid : Solid solid)

include hkey h hread hp huncommented hkeyed hblank hsolid

/-- Whether the value of a row is in view is told from its nodes. -/
theorem inView_iff : InView t key p ↔ Spaced r.lead ∧ blank = [] ∧ OneLine solid ∧
    '\ufeff' ∉ (textOf r.trail).takeWhile (· != '\n') := by
  have hlegible := h.legible
  have hplain := huncommented
  rw [hkeyed.rowNodes_eq] at hlegible hplain
  simp only [List.append_assoc, lexemesOf_append, legible_append] at hlegible
  simp only [List.append_assoc, uncommented_append] at hplain
  obtain ⟨-, hleadLegible, -, hblankLegible, hsolidLegible, htrailLegible, -⟩ := hlegible
  obtain ⟨-, hlead, -, hblankPlain, -, htrail, -⟩ := hplain
  obtain ⟨hfront, hslice, hback⟩ := h.value_cut hread hp hkey hkeyed hblank hsolid
  have hname : isWritten key (t.slice p.span) = true := by
    obtain ⟨s, front, back, hs, htext, hproperty⟩ := h.row hread hp
    rw [getElem?_middle, Option.some.injEq] at hs
    subst hs
    rw [slice_property hproperty htext r.solid]
    exact hkeyed.isWritten
  have hbefore : '\ufeff' ∉ (t.takeBytes p.span.start).reverse.takeWhile isSkipped ↔ Spaced r.lead := by
    obtain ⟨front, c, hfront, hc⟩ := exists_stop_before as
    rw [h.takeBytes_property hread hp, hfront, List.append_assoc, List.singleton_append,
      takeWhile_reverse hc (hlead.skipped hleadLegible r.blank_lead), List.mem_reverse,
      ← hlead.gap_iff hleadLegible r.blank_lead, hlead.spaced_iff]
  have hgap : '\ufeff' ∉ (t.takeBytes p.value.span.start).reverse.takeWhile isSkipped ↔ blank = [] := by
    have hpart : frontOf as r part ++ textOf blank =
        ('{' :: textOf (rowsBefore as ++ r.lead)) ++ textOf (part ++ blank) := by
      rw [frontOf]
      simp
    rw [hfront, hpart]
    refine hkeyed.part.mark_iff hblankLegible hblankPlain hblank (fun n hn => ?_) _
    obtain ⟨m, hm, hmGap⟩ := hkeyed.value
    rw [List.head?_append, hn, Option.some_or, Option.some.injEq] at hm
    rwa [hm]
  have hline : ('\n', code 0) ∉ (t.slice p.value.span).zip (ofText (t.slice p.value.span)) ↔ OneLine solid := by
    have hend : Legible (lexemesOf solid) [] :=
      hsolidLegible.swap_token Apart.nil (by simp) fun l hl => hsolid.last_token hl
    rw [hslice, oneLine_iff_text hend]
  have hbehind : ((t.dropBytes p.value.span.stop).takeWhile isSkipped).takeWhile (· != '\n') =
      (textOf r.trail).takeWhile (· != '\n') := by
    obtain ⟨c, more, hmore, hc⟩ := exists_stop_behind bs rest
    rw [hback, hmore,
      List.takeWhile_append_of_pos (htrail.skipped htrailLegible r.blank_trail),
      List.takeWhile_cons_of_neg (by simp [hc]), List.append_nil]
  rw [← hbefore, ← hgap, ← hline, ← hbehind]
  exact ⟨fun hview => ⟨hview.before, hview.gap, hview.line, hview.behind⟩,
    fun hshown => ⟨hname, hshown.1, hshown.2.1, hshown.2.2.1, hshown.2.2.2⟩⟩

theorem inView_of_found (hfound : valueSpan? t key = some p.value.span) : InView t key p := by
  obtain ⟨hstart, hstop⟩ := h.value_inside hread hp
  obtain ⟨cs, s, ds, part', value', hsplit, hlength, hwrites, hnone⟩ :=
    h.row_of_found hkey hread hp hfound hstart hstop
  obtain ⟨rfl, htail⟩ := List.append_inj hsplit hlength.symm
  obtain ⟨rfl, rfl⟩ := List.cons.inj htail
  obtain ⟨rfl, rfl⟩ := hwrites.toKeyed.unique hkeyed
  obtain ⟨span, hspan, heq, -⟩ := h.found_inside hkey hwrites hnone
  rw [hspan, Option.some.injEq, heq, value_span hkey hkeyed hblank hsolid hread hp, Span.mk.injEq] at hfound
  obtain ⟨after, hlegible⟩ := hwrites.legible h.legible
  have hblankLegible := hlegible
  rw [List.append_assoc, lexemesOf_append] at hblankLegible
  obtain rfl := widthOf_eq_zero (legible_append.1 hblankLegible).1 (by omega)
  have htrim : Text.trimEnd (passed (solid ++ r.trail)) = textOf solid := by
    refine Text.eq_of_prefix (trimEnd_passed_front hlegible) ?_ ?_
    · rw [textOf_append]
      exact List.prefix_append _ _
    · rw [← widthOf]
      rw [List.nil_append, widthOf_nil] at hfound
      omega
  have huncut := uncommented_value huncommented hkeyed
  exact (h.inView_iff hkey hread hp huncommented hkeyed hblank hsolid).2
    ⟨hwrites.lead, rfl, (trimEnd_passed hlegible huncut hsolid r.blank_trail).1 htrim⟩

theorem found_of_inView
    (hlater : ∀ (j : Nat) (q : Property Expr), as.length < j → props[j]? = some q → q.key ≠ some key)
    (hview : InView t key p) : valueSpan? t key = some p.value.span := by
  obtain ⟨hspaced, rfl, hfree⟩ := (h.inView_iff hkey hread hp huncommented hkeyed hblank hsolid).1 hview
  have hwrites : Writes key r part ([] ++ solid) := ⟨hkeyed, hspaced⟩
  have hnone : ∀ b ∈ bs, ∀ part value, ¬ Writes key b part value := by
    intro b hb part' value' hw
    obtain ⟨j, hj⟩ := List.getElem?_of_mem hb
    obtain ⟨q, front', back', hq, -, hproperty'⟩ := h.property hread (getElem?_later r hj)
    exact hlater _ q (by omega) hq (keyed_property hproperty' hkey hw.toKeyed).1
  obtain ⟨span, hspan, heq, -⟩ := h.found_inside hkey hwrites hnone
  obtain ⟨after, hlegible⟩ := hwrites.legible h.legible
  have huncut := uncommented_value huncommented hkeyed
  have htrim := (@trimEnd_passed solid _ _ hlegible huncut hsolid r.blank_trail).2 hfree
  rw [List.nil_append, htrim, ← widthOf] at heq
  rw [hspan, heq, value_span hkey hkeyed hblank hsolid hread hp, widthOf_nil, Nat.add_zero]

end

/-- The value that is found for a key is that of a property if and only if that is in view and no property
behind it has the key. -/
theorem valueSpan?_eq_value {rows : List Row} (h : ObjectLayout t rows rest) {props : List (Property Expr)}
    (hread : readRows property? 1 rows = some props) (huncommented : Uncommented (rowNodes rows rest))
    {key : Text} (hkey : IsKey key) {i : Nat} {p : Property Expr} (hp : props[i]? = some p)
    (hlater : ∀ (j : Nat) (q : Property Expr), i < j → props[j]? = some q → q.key ≠ some key) :
    valueSpan? t key = some p.value.span ↔ InView t key p := by
  obtain ⟨r, front, back, hr, htext, hproperty⟩ := h.row hread hp
  obtain ⟨as, bs, rfl, rfl⟩ := exists_split hr
  by_cases hexists : ∃ part value, Keyed key r.core part value
  · obtain ⟨part, value, hkeyed⟩ := hexists
    obtain ⟨blank, solid, rfl, hblank, hsolid⟩ := hkeyed.parts r.solid
    exact ⟨h.inView_of_found hkey hread hp huncommented hkeyed hblank hsolid,
      h.found_of_inView hkey hread hp huncommented hkeyed hblank hsolid hlater⟩
  · refine iff_of_false (fun hfound => ?_) fun hview => ?_
    · obtain ⟨hstart, hstop⟩ := h.value_inside hread hp
      obtain ⟨cs, s, ds, part, value, hsplit, hlength, hwrites, -⟩ :=
        h.row_of_found hkey hread hp hfound hstart hstop
      have hs := getElem?_middle cs s ds
      rw [← hsplit, hlength, getElem?_middle, Option.some.injEq] at hs
      exact hexists ⟨part, value, hs ▸ hwrites.toKeyed⟩
    · have hname := hview.name
      rw [slice_property hproperty htext r.solid, h.isWritten_core (by simp) (.inl hkey.bare)] at hname
      exact hexists hname

end ObjectLayout

/-- In an object without comments, the value that is found for a key is the one that is read for it if and
only if that is in view; then a number that is written takes its place, and nothing else changes. -/
theorem valueSpan?_iff_inView {t : Text} {props : List (Property Expr)} {key : Text}
    (hobject : arguments? t = some [.object props ⟨0, t.width⟩])
    (hcomment : ∀ l ∈ (scan t).1, l.kind ≠ .trivia .lineComment ∧ l.kind ≠ .trivia .blockComment)
    (hkey : IsKey key) {p : Property Expr} (hfind : Property.find? props key = some p) :
    (valueSpan? t key = some p.value.span ↔ InView t key p) ∧
      (InView t key p → ∀ value, write true t ⟨key, value⟩ = t.splice p.value.span value) := by
  obtain ⟨rows, rest, h, hread⟩ := arguments?_object.1 hobject
  obtain ⟨i, hp, -, hlater⟩ := find?_eq_some.1 hfind
  have hfound := h.valueSpan?_eq_value hread (h.uncommented hcomment) hkey hp hlater
  refine ⟨hfound, fun hview value => ?_⟩
  simp only [write, hfound.2 hview, Bool.true_or, if_true]

theorem valueSpan?_iff_inView_lines :
    valueSpan? "\x7b k: f(1,\n2) \x7d".toList ['k'] = some ⟨5, 12⟩ ∧
      write true "\x7b k: f(1,\n2) \x7d".toList ⟨['k'], ['7']⟩ =
        Text.splice "\x7b k: f(1,\n2) \x7d".toList ⟨5, 12⟩ ['7'] := by
  have hobject : arguments? "\x7b k: f(1,\n2) \x7d".toList =
      some [.object [⟨some ['k'], ⟨2, 12⟩, .other ⟨5, 12⟩⟩] ⟨0, 14⟩] := by cbv
  have hview : InView "\x7b k: f(1,\n2) \x7d".toList ['k'] ⟨some ['k'], ⟨2, 12⟩, .other ⟨5, 12⟩⟩ :=
    ⟨by decide +kernel, by decide +kernel, by decide +kernel, by decide +kernel, by decide +kernel⟩
  obtain ⟨hfound, hwrite⟩ := valueSpan?_iff_inView hobject (by decide +kernel)
    ⟨⟨'k', [], rfl, by decide⟩, List.all_eq_true.1 (by decide)⟩ (by rfl)
  exact ⟨hfound.2 hview, hwrite hview ['7']⟩

/-- A line feed ends the value that is found, though the expression goes on: the rest of it stays behind. -/
theorem valueSpan?_leaves_line :
    arguments? "\x7b width: f\n(1) \x7d".toList =
        some [.object [⟨some "width".toList, ⟨2, 14⟩, .other ⟨9, 14⟩⟩] ⟨0, 16⟩] ∧
      (∀ l ∈ (scan "\x7b width: f\n(1) \x7d".toList).1,
        l.kind ≠ .trivia .lineComment ∧ l.kind ≠ .trivia .blockComment) ∧
      Property.find? [⟨some "width".toList, ⟨2, 14⟩, .other ⟨9, 14⟩⟩] "width".toList =
        some (⟨some "width".toList, ⟨2, 14⟩, .other ⟨9, 14⟩⟩ : Property Expr) ∧
      valueSpan? "\x7b width: f\n(1) \x7d".toList "width".toList = some ⟨9, 10⟩ ∧
      writeAll true "\x7b width: f\n(1) \x7d".toList [⟨"width".toList, "640".toList⟩] =
        "\x7b width: 640\n(1) \x7d".toList :=
  ⟨by cbv, by decide +kernel, by rfl, by decide +kernel, by decide +kernel⟩

end ObjectText

end PugSize
