import PugSize.LineDiff.Hunk

/-!
The two lists of an edit script. The script that the search finds is one between the lists that were
given, and it stays one while runs slide over each other and are put together: each move exchanges
neighbouring runs for others with the same two sides.
-/

namespace PugSize.LineDiff

section

variable {α : Type}

@[simp] theorem oldSide_append (rs ss : List (Run α)) : oldSide (rs ++ ss) = oldSide rs ++ oldSide ss :=
  List.flatMap_append

@[simp] theorem newSide_append (rs ss : List (Run α)) : newSide (rs ++ ss) = newSide rs ++ newSide ss :=
  List.flatMap_append

@[simp] theorem oldSide_cons (r : Run α) (rs : List (Run α)) : oldSide (r :: rs) = r.old ++ oldSide rs :=
  rfl

@[simp] theorem newSide_cons (r : Run α) (rs : List (Run α)) : newSide (r :: rs) = r.new ++ newSide rs :=
  rfl

/-- Scripts between the same two lists. -/
structure SameSides (rs ss : List (Run α)) : Prop where
  old : oldSide rs = oldSide ss
  new : newSide rs = newSide ss

namespace SameSides

theorem refl (rs : List (Run α)) : SameSides rs rs := ⟨rfl, rfl⟩

theorem trans {rs ss ts : List (Run α)} (h : SameSides rs ss) (h' : SameSides ss ts) : SameSides rs ts :=
  ⟨h.old.trans h'.old, h.new.trans h'.new⟩

theorem symm {rs ss : List (Run α)} (h : SameSides rs ss) : SameSides ss rs := ⟨h.old.symm, h.new.symm⟩

theorem append {rs ss rs' ss' : List (Run α)} (h : SameSides rs ss) (h' : SameSides rs' ss') :
    SameSides (rs ++ rs') (ss ++ ss') := by
  constructor
  · rw [oldSide_append, oldSide_append, h.old, h'.old]
  · rw [newSide_append, newSide_append, h.new, h'.new]

theorem cons (r : Run α) {rs ss : List (Run α)} (h : SameSides rs ss) : SameSides (r :: rs) (r :: ss) :=
  append (refl [r]) h

/-- The runs between others are exchanged. -/
theorem within (before after : List (Run α)) {rs ss : List (Run α)} (h : SameSides rs ss) :
    SameSides (before ++ (rs ++ after)) (before ++ (ss ++ after)) :=
  append (refl before) (append h (refl after))

theorem runOf (change : Change) (members : List α) : SameSides (runOf change members) [⟨change, members⟩] := by
  cases members with
  | nil => cases change <;> exact ⟨rfl, rfl⟩
  | cons => exact refl _

theorem empty {r : Run α} (h : r.members = []) : SameSides [r] [] := by
  constructor
  · simp [Run.old, h]
  · simp [Run.new, h]

/-- Two runs of one kind are one run. -/
theorem join (change : Change) (as bs : List α) :
    SameSides [⟨change, as⟩, ⟨change, bs⟩] [⟨change, as ++ bs⟩] := by
  cases change <;> exact ⟨by simp [Run.old], by simp [Run.new]⟩

/-- A removal and an addition next to each other change places. -/
theorem swap {change change' : Change} (h : change ≠ .keep) (h' : change' ≠ .keep)
    (hne : change ≠ change') (as bs : List α) :
    SameSides [⟨change, as⟩, ⟨change', bs⟩] [⟨change', bs⟩, ⟨change, as⟩] := by
  cases change with
  | keep => exact absurd rfl h
  | remove =>
      cases change' with
      | keep => exact absurd rfl h'
      | remove => exact absurd rfl hne
      | add => exact ⟨by simp [Run.old], by simp [Run.new]⟩
  | add =>
      cases change' with
      | keep => exact absurd rfl h'
      | remove => exact ⟨by simp [Run.old], by simp [Run.new]⟩
      | add => exact absurd rfl hne

/-- An addition that ends as the kept members before it slides over them. -/
theorem slide (stay moved front : List α) :
    SameSides [⟨.keep, stay ++ moved⟩, ⟨.add, front ++ moved⟩]
      [⟨.keep, stay⟩, ⟨.add, moved ++ front⟩, ⟨.keep, moved⟩] := by
  constructor
  · simp [Run.old]
  · simp [Run.new]

/-- An addition that begins as the kept members behind it slides over them. -/
theorem slideBack (moved back stay : List α) :
    SameSides [⟨.keep, moved⟩, ⟨.add, back ++ moved⟩, ⟨.keep, stay⟩]
      [⟨.add, moved ++ back⟩, ⟨.keep, moved ++ stay⟩] := by
  constructor
  · simp [Run.old]
  · simp [Run.new]

theorem keepBefore (members : List α) (rs : List (Run α)) :
    SameSides (keepBefore members rs) (⟨.keep, members⟩ :: rs) := by
  match rs with
  | [] => exact refl _
  | ⟨.keep, more⟩ :: rest => exact within [] rest (join .keep members more).symm
  | ⟨.remove, _⟩ :: _ => exact refl _
  | ⟨.add, _⟩ :: _ => exact refl _

theorem keepBehind (members : List α) (rs : List (Run α)) :
    SameSides (keepBehind members rs).reverse (rs.reverse ++ [⟨.keep, members⟩]) := by
  have hput {more : List α} {rest : List (Run α)} :
      SameSides (⟨.keep, more ++ members⟩ :: rest).reverse
        ((⟨.keep, more⟩ :: rest).reverse ++ [⟨.keep, members⟩]) := by
    rw [List.reverse_cons, List.reverse_cons, List.append_assoc]
    exact append (refl _) (join .keep more members).symm
  match rs with
  | [] => exact refl _
  | ⟨.keep, _⟩ :: _ => exact hput
  | ⟨.remove, members'⟩ :: rest =>
      have : LineDiff.keepBehind members (⟨.remove, members'⟩ :: rest) =
        ⟨.keep, members⟩ :: ⟨.remove, members'⟩ :: rest := rfl
      rw [this, List.reverse_cons]
      exact refl _
  | ⟨.add, members'⟩ :: rest =>
      have : LineDiff.keepBehind members (⟨.add, members'⟩ :: rest) =
        ⟨.keep, members⟩ :: ⟨.add, members'⟩ :: rest := rfl
      rw [this, List.reverse_cons]
      exact refl _

end SameSides

theorem sameSides_joinKept (rs : List (Run α)) : SameSides (joinKept rs) rs := by
  induction rs with
  | nil => exact .refl []
  | cons r rs ih =>
      obtain ⟨change, members⟩ := r
      rw [joinKept]
      split
      · rename_i hkeep
        obtain rfl : change = .keep := hkeep
        exact (SameSides.keepBefore members _).trans (.cons _ ih)
      · exact .cons _ ih

/-- A script between two lists. -/
structure Between (old new : List α) (rs : List (Run α)) : Prop where
  old : oldSide rs = old
  new : newSide rs = new

namespace Between

theorem append {old new old' new' : List α} {rs ss : List (Run α)} (h : Between old new rs)
    (h' : Between old' new' ss) : Between (old ++ old') (new ++ new') (rs ++ ss) := by
  constructor
  · rw [oldSide_append, h.old, h'.old]
  · rw [newSide_append, h.new, h'.new]

theorem of_same {old new : List α} {rs ss : List (Run α)} (h : Between old new ss)
    (hsame : SameSides rs ss) : Between old new rs :=
  ⟨hsame.old.trans h.old, hsame.new.trans h.new⟩

theorem kept (members : List α) : Between members members (runOf .keep members) :=
  of_same ⟨List.append_nil _, List.append_nil _⟩ (.runOf .keep members)

theorem replaced (old new : List α) : Between old new (runOf .remove old ++ runOf .add new) :=
  of_same ⟨List.append_nil _, List.append_nil _⟩ (.append (.runOf .remove old) (.runOf .add new))

end Between

/-- What two lists begin with in common and what their rests end with is kept around the script between
the rests of the rests. -/
theorem Between.around {old new : List α} {core : List (Run α)} (first last : Nat)
    (hfirst : old.take first = new.take first)
    (hlast : (old.drop first).drop ((old.drop first).length - last) =
      (new.drop first).drop ((new.drop first).length - last))
    (h : Between ((old.drop first).take ((old.drop first).length - last))
      ((new.drop first).take ((new.drop first).length - last)) core) :
    Between old new (runOf .keep (old.take first) ++ core ++
      runOf .keep ((old.drop first).drop ((old.drop first).length - last))) := by
  have hwhole := ((kept (old.take first)).append h).append
    (kept ((old.drop first).drop ((old.drop first).length - last)))
  constructor
  · rw [hwhole.old, List.append_assoc, List.take_append_drop, List.take_append_drop]
  · rw [hwhole.new, hfirst, hlast, List.append_assoc, List.take_append_drop, List.take_append_drop]

end

section

variable {α : Type} [BEq α] [LawfulBEq α]

theorem take_prefixLength (as bs : List α) :
    as.take (prefixLength as bs) = bs.take (prefixLength as bs) := by
  induction as generalizing bs with
  | nil => simp [prefixLength]
  | cons a as ih =>
      cases bs with
      | nil => simp [prefixLength]
      | cons b bs =>
          rw [prefixLength]
          split
          · rename_i hab
            rw [List.take_succ_cons, List.take_succ_cons, ih bs, eq_of_beq hab]
          · rfl

theorem drop_suffixLength (as bs : List α) :
    as.drop (as.length - suffixLength as bs) = bs.drop (bs.length - suffixLength as bs) := by
  have h := congrArg List.reverse (take_prefixLength as.reverse bs.reverse)
  rwa [List.reverse_take, List.reverse_take, List.reverse_reverse, List.reverse_reverse,
    List.length_reverse, List.length_reverse] at h

/-- The script that is found is one between the two lists. -/
theorem between_search (old new : List α) : Between old new (search old new) := by
  induction old, new using search.induct with
  | case1 old new first oldRest newRest last oldCore newCore ihBefore ihBehind =>
      rw [search]
      refine .around _ _ (take_prefixLength old new) (drop_suffixLength _ _) ?_
      split
      · exact .replaced _ _
      · split
        · exact .replaced _ _
        · rename_i x y _
          split
          · rename_i hcut
            have hparts := (ihBefore x y hcut).append (ihBehind x y hcut)
            rwa [List.take_append_drop, List.take_append_drop] at hparts
          · exact .replaced _ _

/-- The runs of a script that is held open. -/
def Opened.runs (o : Opened α) : List (Run α) := o.before.reverse ++ o.this :: o.after

omit [BEq α] [LawfulBEq α] in
theorem reverse_runOf (change : Change) (members : List α) :
    (runOf change members).reverse = runOf change members := by
  cases members <;> rfl

/-- Moved up, a change keeps its kind, and the script its sides. -/
theorem slideUp_runs (this : Run α) (after before : List (Run α)) (h : this.change ≠ .keep) :
    SameSides (slideUp this after before).runs (before.reverse ++ this :: after) ∧
      (slideUp this after before).this.change = this.change := by
  fun_induction slideUp this after before with
  | case1 this after => exact ⟨.refl _, rfl⟩
  | case2 this after last before hkeep n hn hempty ih =>
      obtain ⟨hsame, hchange⟩ := ih h
      refine ⟨hsame.trans ?_, hchange⟩
      rw [List.reverse_cons, List.append_assoc]
      exact .within _ _ (SameSides.empty (List.isEmpty_iff.1 hempty)).symm
  | case3 this after last before hkeep n hn hempty => exact ⟨.refl _, rfl⟩
  | case4 this after last before hkeep n hn stay moved shifted ih =>
      obtain ⟨hsame, hchange⟩ := ih h
      refine ⟨hsame.trans ?_, hchange⟩
      have hadd : this.change = .add := by
        by_cases hadd : this.change = .add
        · exact hadd
        · exact absurd (dif_neg hadd) hn
      have hmoved : moved = this.members.drop (this.members.length - n) := by
        have hcommon : n = suffixLength last.members this.members := dif_pos hadd
        simp only [moved]
        rw [hcommon, drop_suffixLength]
      have hlast : last = ⟨.keep, stay ++ moved⟩ := by
        rw [List.take_append_drop, ← hkeep]
      have hthis : this = ⟨.add, this.members.take (this.members.length - n) ++ moved⟩ := by
        rw [hmoved, List.take_append_drop, ← hadd]
      have hshifted : shifted = ⟨.add, moved ++ this.members.take (this.members.length - n)⟩ := by
        rw [← hadd]
      rw [List.reverse_append, reverse_runOf, List.append_assoc, List.reverse_cons, List.append_assoc]
      refine .append (.refl _) ?_
      have hslide := (SameSides.slide stay moved (this.members.take (this.members.length - n))).symm
      rw [← hlast, ← hthis, ← hshifted] at hslide
      exact ((SameSides.runOf .keep stay).append (.cons shifted (.keepBefore moved after))).trans
        (hslide.append (.refl after))
  | case5 this after last before hkeep heq ih =>
      obtain ⟨hsame, hchange⟩ := ih hkeep
      refine ⟨hsame.trans ?_, hchange.trans heq⟩
      rw [List.reverse_cons, List.append_assoc]
      have hthis : this = ⟨last.change, this.members⟩ := by rw [heq]
      have hjoin := (SameSides.join last.change last.members this.members).symm
      rw [← hthis] at hjoin
      exact .within before.reverse after hjoin
  | case6 this after last before hkeep hne ih =>
      obtain ⟨hsame, hchange⟩ := ih h
      refine ⟨hsame.trans ?_, hchange⟩
      rw [List.reverse_cons, List.append_assoc]
      exact .within _ _ (SameSides.swap h hkeep (Ne.symm hne) this.members last.members)

/-- Moved down, a change keeps its kind, and the script its sides. -/
theorem slideDown_runs (before : List (Run α)) (this : Run α) (after : List (Run α))
    (h : this.change ≠ .keep) :
    SameSides (slideDown before this after).runs (before.reverse ++ this :: after) ∧
      (slideDown before this after).this.change = this.change := by
  fun_induction slideDown before this after with
  | case1 before this => exact ⟨.refl _, rfl⟩
  | case2 before this next after hkeep n hn hempty ih =>
      obtain ⟨hsame, hchange⟩ := ih h
      refine ⟨hsame.trans ?_, hchange⟩
      exact .within _ _ (SameSides.cons this (SameSides.empty (List.isEmpty_iff.1 hempty)).symm)
  | case3 before this next after hkeep n hn hempty => exact ⟨.refl _, rfl⟩
  | case4 before this next after hkeep n hn moved stay shifted ih =>
      obtain ⟨hsame, hchange⟩ := ih h
      refine ⟨hsame.trans ?_, hchange⟩
      have hadd : this.change = .add := by
        by_cases hadd : this.change = .add
        · exact hadd
        · exact absurd (dif_neg hadd) hn
      have hmoved : moved = this.members.take n := by
        have hcommon : n = prefixLength next.members this.members := dif_pos hadd
        simp only [moved]
        rw [hcommon, take_prefixLength]
      have hnext : next = ⟨.keep, moved ++ stay⟩ := by
        rw [List.take_append_drop, ← hkeep]
      have hthis : this = ⟨.add, moved ++ this.members.drop n⟩ := by
        rw [hmoved, List.take_append_drop, ← hadd]
      have hshifted : shifted = ⟨.add, this.members.drop n ++ moved⟩ := by
        rw [← hadd]
      have hslide := SameSides.slideBack moved (this.members.drop n) stay
      rw [← hnext, ← hthis, ← hshifted] at hslide
      have hrest := (SameSides.runOf .keep stay).append (.refl after)
      have hruns := (SameSides.keepBehind moved before).append (.cons shifted hrest)
      rw [List.append_assoc] at hruns
      exact hruns.trans (.within _ _ hslide)
  | case5 before this next after hkeep heq ih =>
      obtain ⟨hsame, hchange⟩ := ih hkeep
      refine ⟨hsame.trans ?_, hchange.trans heq⟩
      have hthis : this = ⟨next.change, this.members⟩ := by rw [heq]
      have hjoin := (SameSides.join next.change this.members next.members).symm
      rw [← hthis] at hjoin
      exact .within before.reverse after hjoin
  | case6 before this next after hkeep hne ih =>
      obtain ⟨hsame, hchange⟩ := ih h
      refine ⟨hsame.trans ?_, hchange⟩
      rw [List.reverse_cons, List.append_assoc]
      exact .within _ _ (SameSides.swap hkeep h hne next.members this.members)

theorem settle_runs {change : Change} (h : change ≠ .keep) (before after : List (Run α)) (fuel : Nat) :
    SameSides (settle change before after fuel) (before.reverse ++ after) := by
  fun_induction settle change before after fuel with
  | case1 before fuel =>
      rw [List.append_nil]
      exact .refl _
  | case2 before after => exact .refl _
  | case3 before this after fuel hchange up down ih =>
      have hthis : this.change ≠ .keep := by rwa [hchange]
      obtain ⟨hup, hupChange⟩ := slideUp_runs this after before hthis
      obtain ⟨hdown, -⟩ := slideDown_runs up.before up.this up.after (by rwa [hupChange])
      refine ih.trans ?_
      rw [List.reverse_cons, List.append_assoc]
      exact hdown.trans hup
  | case4 before this after fuel hchange ih =>
      rw [List.reverse_cons, List.append_assoc] at ih
      exact ih

theorem compact_runs (rs : List (Run α)) : SameSides (compact rs) rs :=
  (settle_runs (by decide) [] _ _).trans (settle_runs (by decide) [] rs _)

/-- The script that is shown is one between the two lists. -/
theorem between_compact (old new : List α) : Between old new (joinKept (compact (search old new))) :=
  (between_search old new).of_same ((sameSides_joinKept _).trans (compact_runs _))

end

end PugSize.LineDiff
