import Mathlib.Data.List.Basic
import PugSize.Proofs.Mixin.Extent
import PugSize.Proofs.Mixin.Rescan

/-!
The first call of its line. In a document without carriage returns, a cursor on the marker of a call
with no candidate further left locates that call, whatever its arguments are. Candidates further left
depend on what stands before the marker only.
-/

namespace PugSize

namespace Text

theorem stripReturn_of_not_mem {l : Text} (h : '\r' ∉ l) : stripReturn l = l := by
  rw [stripReturn, if_neg]
  exact fun hlast => h (List.mem_of_getLast? hlast)

end Text

namespace Position

theorem le_refl (p : Position) : p.le p = true := by
  simp [le]

theorem le_trans {p q r : Position} (hpq : p.le q = true) (hqr : q.le r = true) :
    p.le r = true := by
  simp only [le, Bool.or_eq_true, Bool.and_eq_true, decide_eq_true_eq, beq_iff_eq] at hpq hqr ⊢
  omega

theorem le_advance (p : Position) (t : Text) : p.le (p.advance t) = true := by
  induction t generalizing p with
  | nil => exact p.le_refl
  | cons c cs ih =>
      rw [advance]
      split
      · exact le_trans (by simp [le]) (ih _)
      · exact le_trans (by simp [le]) (ih _)

end Position

namespace Buffer

theorem dropReturns_of_no_return {t : Text} (h : '\r' ∉ t) : dropReturns t = t := by
  induction t with
  | nil => rfl
  | cons c cs ih =>
      simp only [List.mem_cons, not_or] at h
      have hc : ¬ (c = '\r' ∧ cs.head? = some '\n') := fun hr => h.1 hr.1.symm
      rw [dropReturns, if_neg hc, ih h.2]

theorem hasCrlf_of_no_return {t : Text} (h : '\r' ∉ t) : hasCrlf t = false := by
  induction t with
  | nil => rfl
  | cons c cs ih =>
      simp only [List.mem_cons, not_or] at h
      have hc : (c == '\r') = false := by simpa using fun heq => h.1 heq.symm
      rw [hasCrlf, hc, ih h.2]
      rfl

/-- What stands on the last line of a text. -/
def lastPart (front : Text) : Text :=
  front.drop (front.length - (Position.behind front).character)

theorem rawLines_cut {front after first : Text} {rest : List Text}
    (h : Text.splitLines after = first :: rest) :
    (lastPart front).length = (Position.behind front).character ∧
      (Text.splitLines (front ++ after)).drop (Position.behind front).line =
        (lastPart front ++ first) :: rest := by
  obtain ⟨part, first', rest', hsplit, ⟨l, hl⟩, hlength, hdrop, -⟩ := splitLines_cut front after
  have hpart : lastPart front = part := by
    subst hl
    rw [lastPart, ← hlength]
    apply List.drop_left'
    rw [List.length_append, Nat.add_sub_cancel]
  rw [h, List.cons.injEq] at hsplit
  rw [hpart, hsplit.1, hsplit.2]
  exact ⟨hlength, hdrop⟩

theorem line?_cut {b : Buffer} {front after first : Text} {rest : List Text}
    (hb : b.text = front ++ after) (hreturn : '\r' ∉ b.text)
    (h : Text.splitLines after = first :: rest) :
    b.line? (Position.behind front).line = some (lastPart front ++ first) := by
  have hdrop := (@rawLines_cut front _ _ _ h).2
  have hget : b.rawLines[(Position.behind front).line]? = some (lastPart front ++ first) := by
    rw [rawLines, hb, ← List.head?_drop, hdrop]
    rfl
  rw [line?, hget, Option.map_some, Text.stripReturn_of_not_mem]
  exact fun hc => hreturn (Text.mem_of_mem_splitLines (List.mem_of_getElem? hget) hc)

end Buffer

namespace MixinCall

theorem textFrom_cut {b : Buffer} {front after : Text} (hb : b.text = front ++ after)
    (hreturn : '\r' ∉ b.text) : textFrom b (Position.behind front) = after := by
  cases hsplit : Text.splitLines after with
  | nil => exact absurd hsplit (Text.splitLines_ne_nil after)
  | cons first rest =>
      obtain ⟨hlength, hdrop⟩ := @Buffer.rawLines_cut front _ _ _ hsplit
      rw [← hb] at hdrop
      have hstrip : (b.rawLines.drop (Position.behind front).line).map Text.stripReturn =
          (Buffer.lastPart front ++ first) :: rest := by
        rw [Buffer.rawLines, hdrop]
        refine Eq.trans (List.map_congr_left ?_) (List.map_id _)
        intro l hl
        apply Text.stripReturn_of_not_mem
        intro hc
        rw [← hdrop] at hl
        exact hreturn (Text.mem_of_mem_splitLines (List.mem_of_mem_drop hl) hc)
      rw [textFrom, hstrip]
      simp only
      rw [← hlength, List.drop_left, ← hsplit, Text.joinLines_splitLines]

/-- What stands from a place on begins with the rest of its line. -/
theorem textFrom_line {b : Buffer} {i : Nat} {line : Text} (h : b.line? i = some line)
    (column : Nat) : ∃ more, textFrom b ⟨i, column⟩ = line.drop column ++ more := by
  obtain ⟨raw, hraw, rfl⟩ := Option.map_eq_some_iff.1 h
  have hhead : (b.rawLines.drop i).head? = some raw := by rw [List.head?_drop, hraw]
  obtain ⟨more, hdrop⟩ := List.head?_eq_some_iff.1 hhead
  rw [textFrom, hdrop, List.map_cons]
  cases more with
  | nil => exact ⟨[], (List.append_nil _).symm⟩
  | cons m ms => exact ⟨_, rfl⟩

/-- A marker is found wherever it stands: no other one can take in its plus sign. -/
theorem mem_columnsOf_marker {name : Text} (hname : ∀ c ∈ name, isNameChar c = true) {t : Text}
    {column skip : Nat} (hskip : '+' ∉ t.take skip) {before after : Text}
    (ht : t = before ++ (marker name ++ after)) :
    column + before.length ∈ columnsOf (marker name) column skip t := by
  induction t generalizing column skip before with
  | nil =>
      have hlength := congrArg List.length ht
      simp [marker] at hlength
  | cons c cs ih =>
      cases before with
      | nil =>
          have hc : c = '+' := (List.cons.inj ht).1
          cases skip with
          | zero =>
              have hprefix : (marker name).isPrefixOf (c :: cs) = true := by
                rw [ht]
                exact List.isPrefixOf_iff_prefix.2 (List.prefix_append _ _)
              rw [columnsOf, if_pos hprefix]
              exact List.mem_cons_self
          | succ n =>
              rw [List.take_succ_cons, hc] at hskip
              exact absurd List.mem_cons_self hskip
      | cons d ds =>
          obtain ⟨-, hcs⟩ := List.cons.inj ht
          have hlater {n : Nat} (hn : '+' ∉ cs.take n) :
              column + (d :: ds).length ∈ columnsOf (marker name) (column + 1) n cs := by
            have := @ih (column + 1) n hn ds hcs
            rwa [Nat.add_assoc, Nat.add_comm 1] at this
          cases skip with
          | succ n =>
              rw [List.take_succ_cons, List.mem_cons, not_or] at hskip
              exact hlater hskip.2
          | zero =>
              rw [columnsOf]
              split
              · rename_i hprefix
                refine List.mem_cons_of_mem _ (hlater ?_)
                obtain ⟨more, hmore⟩ := List.isPrefixOf_iff_prefix.1 hprefix
                have htail : cs = name ++ ['('] ++ more := (List.cons.inj hmore).2.symm
                rw [htail, List.take_left' (by simp [marker])]
                intro hplus
                obtain hplus | hplus := List.mem_append.1 hplus
                · exact absurd (hname _ hplus) (by decide)
                · exact absurd hplus (by decide)
              · exact hlater (by simp)

theorem mem_candidates_iff {line name : Text} {names : List Text} {column : Nat}
    (hname : ∀ c ∈ name, isNameChar c = true) :
    (column, name) ∈ candidates line names ↔ (name ∈ names ∧ name ≠ []) ∧
      ∃ before after, line = before ++ (marker name ++ after) ∧ column = before.length := by
  constructor
  · intro h
    obtain ⟨hmem, hne, hcolumn⟩ := mem_candidates h
    obtain ⟨before, after, rfl, hprefix, rfl⟩ := mem_columnsOf hcolumn
    obtain ⟨more, rfl⟩ := List.isPrefixOf_iff_prefix.1 hprefix
    exact ⟨⟨hmem, hne⟩, before, more, rfl, Nat.zero_add _⟩
  · rintro ⟨⟨hmem, hne⟩, before, after, rfl, rfl⟩
    have hcolumn := @mem_columnsOf_marker name hname _ 0 0 (by simp) before after rfl
    rw [Nat.zero_add] at hcolumn
    simp only [candidates, List.mem_mergeSort, List.mem_flatMap, List.mem_map, List.mem_filter,
      Prod.mk.injEq]
    exact ⟨name, ⟨hmem, by simpa using hne⟩, _, hcolumn, rfl, rfl⟩

theorem marker_inj {as bs as' bs' : Text} (has : ∀ c ∈ as, isNameChar c = true)
    (has' : ∀ c ∈ as', isNameChar c = true) (h : marker as ++ bs = marker as' ++ bs') : as = as' := by
  have hname {t : Text} (ht : ∀ c ∈ t, isNameChar c = true) (more : Text) :
      (t ++ '(' :: more).takeWhile (· != '(') = t := by
    have hne : ∀ c ∈ t, (c != '(') = true := by
      intro c hc
      simpa using ne_of_isNameChar (ht c hc) (by decide : isNameChar '(' = false)
    rw [List.takeWhile_append_of_pos hne, List.takeWhile_cons_of_neg (by decide), List.append_nil]
  have htail : as ++ '(' :: bs = as' ++ '(' :: bs' := by
    simpa [marker] using h
  rw [← hname has bs, htail, hname has' bs']

/-- Candidates stand from left to right. -/
theorem sorted_candidates (line : Text) (names : List Text) :
    (candidates line names).Pairwise fun a b => a.1 ≤ b.1 := by
  have hsorted : (candidates line names).Pairwise fun a b => decide (a.1 ≤ b.1) = true := by
    apply List.pairwise_mergeSort
    · intro a b c hab hbc
      simp only [decide_eq_true_eq] at hab hbc ⊢
      exact Nat.le_trans hab hbc
    · intro a b
      simpa using Nat.le_total a.1 b.1
  exact hsorted.imp fun hab => of_decide_eq_true hab

/-- A candidate with none further left comes first. -/
theorem candidates_first {line name : Text} {names : List Text} {column : Nat}
    (hnames : ∀ n ∈ names, ∀ c ∈ n, isNameChar c = true)
    (h : (column, name) ∈ candidates line names)
    (hfirst : ∀ x ∈ candidates line names, column ≤ x.1) :
    ∃ more, candidates line names = (column, name) :: more := by
  have hsorted := sorted_candidates line names
  cases hall : candidates line names with
  | nil =>
      rw [hall] at h
      cases h
  | cons x more =>
      have hx : x ∈ candidates line names := by
        rw [hall]
        exact List.mem_cons_self
      have hle : x.1 ≤ column := by
        rw [hall] at h hsorted
        obtain rfl | h := List.mem_cons.1 h
        · exact Nat.le_refl _
        · exact (List.pairwise_cons.1 hsorted).1 _ h
      have hcolumn := Nat.le_antisymm hle (hfirst x hx)
      obtain ⟨column', name'⟩ := x
      obtain rfl : column' = column := hcolumn
      have hname := hnames name (mem_candidates h).1
      have hname' := hnames name' (mem_candidates hx).1
      obtain ⟨-, before, after, hline, hbefore⟩ := (mem_candidates_iff hname).1 h
      obtain ⟨-, before', after', hline', hbefore'⟩ := (mem_candidates_iff hname').1 hx
      rw [hline] at hline'
      obtain ⟨-, hmarkers⟩ := List.append_inj hline' (hbefore.symm.trans hbefore')
      obtain rfl := marker_inj hname hname' hmarkers
      exact ⟨more, rfl⟩

/-- The candidates left of a plus sign are told from what stands before it. -/
theorem mem_candidates_left {front rest rest' name : Text} {names : List Text} {column : Nat}
    (hname : ∀ c ∈ name, isNameChar c = true)
    (h : (column, name) ∈ candidates (front ++ '+' :: rest) names) (hcolumn : column < front.length) :
    (column, name) ∈ candidates (front ++ '+' :: rest') names := by
  obtain ⟨hmem, before, after, hline, rfl⟩ := (mem_candidates_iff hname).1 h
  have hwhole : ∃ more, front = before ++ marker name ++ more := by
    rw [← List.append_assoc] at hline
    obtain ⟨more, hmore, hrest⟩ | ⟨more, hmore, -⟩ := List.append_eq_append_iff.1 hline
    · cases more with
      | nil => exact ⟨[], by rw [List.append_nil] at hmore ⊢; exact hmore.symm⟩
      | cons c more =>
          obtain ⟨part, rfl⟩ : ∃ part, front = before ++ part := by
            obtain ⟨part, hpart, -⟩ | ⟨part, hpart, -⟩ := List.append_eq_append_iff.1 hmore
            · exact ⟨part, hpart⟩
            · have := congrArg List.length hpart
              rw [List.length_append] at this
              omega
          have hc : c = '+' := (List.cons.inj hrest).1.symm
          rw [List.append_assoc, List.append_cancel_left_eq] at hmore
          cases part with
          | nil => simp at hcolumn
          | cons d ds =>
              have htail : name ++ ['('] = ds ++ c :: more := (List.cons.inj hmore).2
              have hplus : '+' ∈ name ++ ['('] := by
                rw [htail, hc]
                simp
              obtain hplus | hplus := List.mem_append.1 hplus
              · exact absurd (hname _ hplus) (by decide)
              · exact absurd hplus (by decide)
    · exact ⟨more, hmore⟩
  obtain ⟨more, rfl⟩ := hwhole
  exact (mem_candidates_iff hname).2 ⟨hmem, before, more ++ '+' :: rest', by simp, rfl⟩

/-- The call of a name with arguments that stands at a place. -/
def standing (start : Position) (name args : Text) : MixinCall :=
  let full := marker name ++ args ++ [')']
  { name, start
    stop := start.advance full
    text := full
    arguments := args
    argumentsOffset := (marker name).width }

theorem standing_argumentsExtent (start : Position) (name args : Text) :
    (standing start name args).argumentsExtent =
      (start.advance (marker name), start.advance (marker name ++ args)) := by
  rw [argumentsExtent, standing, List.append_assoc, Text.takeBytes_width, Text.takeBytes_width_add,
    Text.takeBytes_width]

section

variable {b : Buffer} {cursor : Position} {names : List Text}

/-- A located call is one that stands in the document, under a name that is looked for. -/
theorem exists_standing (hreturn : '\r' ∉ b.text)
    (hnames : ∀ n ∈ names, ∀ c ∈ n, isNameChar c = true) {call : MixinCall}
    (h : locate? b cursor names = some call) :
    ∃ front rest, b.text = front ++ (marker call.name ++ (call.arguments ++ ')' :: rest)) ∧
      call = standing (Position.behind front) call.name call.arguments ∧
      extent? (marker call.name ++ (call.arguments ++ ')' :: rest)) =
        some (marker call.name, call.arguments) ∧
      call.name ∈ names ∧ call.name ≠ [] := by
  obtain ⟨i, line, column, hline, hcandidate, hcolumn, hread, -⟩ := locate?_eq_some h
  obtain ⟨front, after, last, hdoc, -, hbehind, -, hlast, hreturns⟩ := textFrom_eq hline hcolumn
  have hmem := mem_candidates hcandidate
  have hname := hnames _ hmem.1
  rw [Buffer.dropReturns_of_no_return fun hc => hreturn (by rw [hdoc]; simp [hc])] at hreturns
  have hafter : after = textFrom b ⟨i, column⟩ := by
    obtain rfl | rfl := hlast
    · rw [hreturns, List.append_nil]
    · exact absurd (by rw [hdoc, hreturns]; simp) hreturn
  obtain ⟨opening, hextent, hcall⟩ := Option.map_eq_some_iff.1 hread
  rw [← hafter] at hextent
  have hmarker : ∃ more, after = marker call.name ++ more := by
    obtain ⟨more, hmore⟩ := textFrom_line hline column
    obtain ⟨-, before, behind, rfl, rfl⟩ := (mem_candidates_iff hname).1 hcandidate
    exact ⟨behind ++ more, by rw [hafter, hmore, List.drop_left, List.append_assoc]⟩
  obtain ⟨more, rfl⟩ := hmarker
  have hopening : opening = (marker call.name, call.arguments) := by
    rw [extent?_marker hname] at hextent
    obtain ⟨n, -, hn⟩ := Option.map_eq_some_iff.1 hextent
    rw [← hcall, ← hn]
  subst hopening
  obtain ⟨⟨rest, hrest⟩, -⟩ := extent?_eq_some hextent
  rw [List.append_assoc] at hrest
  refine ⟨front, rest, by rw [hdoc, hrest], ?_, by rw [← hrest, hextent], hmem.1, hmem.2.1⟩
  rw [hbehind]
  exact hcall.symm

/-- A call is located from its marker if no candidate of its line stands further left. -/
theorem locate?_standing {front rest name args : Text}
    (hdoc : b.text = front ++ (marker name ++ (args ++ ')' :: rest))) (hreturn : '\r' ∉ b.text)
    (hnames : ∀ n ∈ names, ∀ c ∈ n, isNameChar c = true) (hmem : name ∈ names) (hne : name ≠ [])
    (hextent : extent? (marker name ++ (args ++ ')' :: rest)) = some (marker name, args))
    (hstart : (Position.behind front).le cursor = true)
    (hstop : cursor.le ((Position.behind front).advance (marker name)) = true)
    (hfirst : ∀ line, b.line? (Position.behind front).line = some line →
      ∀ x ∈ candidates line names, (Position.behind front).character ≤ x.1) :
    locate? b cursor names = some (standing (Position.behind front) name args) := by
  have hname := hnames name hmem
  have hmarker : '\n' ∉ marker name := by
    intro hc
    simp only [marker, List.cons_append, List.mem_cons, List.mem_append] at hc
    obtain hc | hc | hc := hc
    · cases hc
    · exact absurd (hname _ hc) (by decide)
    · exact absurd hc (by decide)
  have hline : cursor.line = (Position.behind front).line := by
    rw [Position.advance_of_not_mem _ _ hmarker] at hstop
    simp only [Position.le, Bool.or_eq_true, Bool.and_eq_true, decide_eq_true_eq,
      beq_iff_eq] at hstart hstop
    omega
  cases hsplit : Text.splitLines (args ++ ')' :: rest) with
  | nil => exact absurd hsplit (Text.splitLines_ne_nil _)
  | cons first more =>
      have hwhole := Buffer.line?_cut hdoc hreturn (Text.splitLines_append hmarker hsplit)
      have hcut := (@Buffer.rawLines_cut front _ _ _ hsplit).1
      have hcandidate : ((Position.behind front).character, name) ∈
          candidates (Buffer.lastPart front ++ (marker name ++ first)) names :=
        (mem_candidates_iff hname).2 ⟨⟨hmem, hne⟩, _, _, rfl, hcut.symm⟩
      obtain ⟨others, hothers⟩ := candidates_first hnames hcandidate (hfirst _ hwhole)
      have hread : read? b (Position.behind front) name =
          some (standing (Position.behind front) name args) := by
        rw [read?, textFrom_cut hdoc hreturn, hextent]
        rfl
      have hencloses : (standing (Position.behind front) name args).encloses cursor = true := by
        rw [encloses, Bool.and_eq_true]
        refine ⟨hstart, Position.le_trans hstop ?_⟩
        rw [standing, List.append_assoc, Position.advance_append]
        exact Position.le_advance _ _
      have hfound : onLine? b cursor names cursor.line =
          some (standing (Position.behind front) name args) := by
        rw [onLine?, hline, hwhole, Option.bind_some, hothers, List.findSome?_cons]
        simp only [hread, Option.filter_some, hencloses, if_true]
      have hcount : cursor.line < b.lineCount := by
        rw [Buffer.line?, ← hline] at hwhole
        obtain ⟨raw, hraw, -⟩ := Option.map_eq_some_iff.1 hwhole
        exact (List.getElem?_eq_some_iff.1 hraw).1
      have hlast : min cursor.line (b.lineCount - 1) = cursor.line := by omega
      rw [locate?]
      simp only [hlast, List.range_succ, List.reverse_append, List.reverse_singleton,
        List.singleton_append, List.findSome?_cons, hfound]

/-- Other arguments bring no candidate further left. -/
theorem candidates_standing {b' : Buffer} {front more more' name : Text}
    (hdoc : b.text = front ++ (marker name ++ more))
    (hdoc' : b'.text = front ++ (marker name ++ more')) (hreturn : '\r' ∉ b.text)
    (hreturn' : '\r' ∉ b'.text) (hnames : ∀ n ∈ names, ∀ c ∈ n, isNameChar c = true)
    (hfirst : ∀ line, b.line? (Position.behind front).line = some line →
      ∀ x ∈ candidates line names, (Position.behind front).character ≤ x.1) :
    ∀ line, b'.line? (Position.behind front).line = some line →
      ∀ x ∈ candidates line names, (Position.behind front).character ≤ x.1 := by
  have hline {d : Buffer} {u : Text} (hd : d.text = front ++ (marker name ++ u))
      (hr : '\r' ∉ d.text) : ∃ tail, d.line? (Position.behind front).line =
        some (Buffer.lastPart front ++ '+' :: tail) := by
    cases hsplit : Text.splitLines (name ++ ['('] ++ u) with
    | nil => exact absurd hsplit (Text.splitLines_ne_nil _)
    | cons first rest =>
        have hplus : Text.splitLines (marker name ++ u) = ('+' :: first) :: rest :=
          @Text.splitLines_append ['+'] _ _ _ (by decide) hsplit
        exact ⟨first, Buffer.line?_cut hd hr hplus⟩
  obtain ⟨tail, htail⟩ := hline hdoc hreturn
  obtain ⟨tail', htail'⟩ := hline hdoc' hreturn'
  have hlength : (Buffer.lastPart front).length = (Position.behind front).character :=
    (@Buffer.rawLines_cut front [] [] [] rfl).1
  intro line hl x hx
  rw [htail', Option.some.injEq] at hl
  subst hl
  apply Classical.byContradiction
  intro hlt
  have hleft : x ∈ candidates (Buffer.lastPart front ++ '+' :: tail) names :=
    mem_candidates_left (hnames _ (mem_candidates hx).1) hx (by omega)
  exact hlt (hfirst _ htail _ hleft)

end

end MixinCall
end PugSize
