import PugSize.Proofs.Workspace.Search
import PugSize.Run

/-!
The questions that looking up images asks. An image is asked for if it is no file below the directory of
images, the workspace is searched, and several files match; the answer to any other image is its own,
whoever chooses. So the questions of a list of images and what they are answered with are told image by
image. Every lookup walks the workspace anew, in an order of its own; what is told is told by one walk
that stands for the entries of all of them.
-/

namespace PugSize

namespace ImageSearch

variable {σ : Type}

/-- The path that an image has below the directory of images. -/
def direct (s : ImageSearch) (image : Text) : String :=
  Path.join s.imagesRoot (Path.withoutLeadingSlashes (String.ofList image))

/-- The files of the workspace that an image can mean. -/
def candidates (s : ImageSearch) (walk : Walker) (image : Text) : List Place :=
  s.matchingBy walk (Path.withoutLeadingSlashes (String.ofList image))

/-- The question that an image makes necessary. -/
def question? (s : ImageSearch) (walk : Walker) (image : Text) : Option Question :=
  if s.tree.isFile s.home (s.direct image) = false ∧ s.searchesWorkspace = true ∧
      2 ≤ (s.candidates walk image).length then
    some ⟨String.ofList image, s.candidates walk image⟩
  else none

/-- The size of the image in a file of the workspace. -/
def sizeAt (s : ImageSearch) (raster? : RasterReader) (file : String) (p : Place) :
    Except ImageError Size :=
  s.tree.imageSizeBy raster? s.home (Path.join s.root (Path.ofPlace p)) file s.refused

/-- What is found for an image without a question. -/
def unasked (s : ImageSearch) (raster? : RasterReader) (walk : Walker) (image : Text) :
    Except ImageError Size :=
  let file := String.ofList image
  if s.tree.isFile s.home (s.direct image) then
    s.tree.imageSizeBy raster? s.home (s.direct image) file s.refused
  else if s.searchesWorkspace then
    match s.candidates walk image with
    | [only] => s.sizeAt raster? file only
    | _ => .error (.notFound file)
  else .error (.notFound file)

/-- What is found by a question that is answered with an index, or with none. -/
def picked (s : ImageSearch) (raster? : RasterReader) (q : Question) (pick : Option Nat) :
    Except ImageError Size :=
  match pick.bind (q.candidates[·]?) with
  | some p => s.sizeAt raster? q.file p
  | none => .error (.notFound q.file)

/-- Whoever chooses is asked exactly the question that an image makes necessary. -/
theorem resolverBy_eq (s : ImageSearch) (raster? : RasterReader) (walk : Walker) (choose : Chooser σ)
    (image : Text) :
    s.resolverBy raster? walk choose image =
      match s.question? walk image with
      | none => pure (s.unasked raster? walk image)
      | some q => do return s.picked raster? q (← choose q.file q.candidates) := by
  have hdirect : Path.join s.imagesRoot (Path.withoutLeadingSlashes (String.ofList image)) =
      s.direct image := rfl
  have hcandidates : s.matchingBy walk (Path.withoutLeadingSlashes (String.ofList image)) =
      s.candidates walk image := rfl
  simp only [resolverBy, locateBy, question?, unasked, hdirect, hcandidates]
  by_cases hfile : s.tree.isFile s.home (s.direct image) = true
  · simp [hfile]
  by_cases hsearch : s.searchesWorkspace = true
  · match hfound : s.candidates walk image with
    | [] => simp [hfile, hsearch]
    | [only] => simp [hfile, hsearch, sizeAt]
    | first :: second :: more =>
      have hasked : 2 ≤ (first :: second :: more).length := Nat.le_add_left 2 _
      rw [if_neg hfile, if_neg (by simp [hsearch]), if_pos ⟨Bool.not_eq_true _ ▸ hfile, hsearch, hasked⟩]
      rw [bind_assoc]
      refine bind_congr fun pick => ?_
      cases pick with
      | none => rfl
      | some i =>
          simp only [pure_bind, picked, Option.bind_some]
          cases (first :: second :: more)[i]? <;> rfl
  · simp [hfile, hsearch]

section

variable {s : ImageSearch} {walk walk' : Walker} (h : walk.SameEntries walk')

include h

theorem candidates_congr (image : Text) : s.candidates walk' image = s.candidates walk image := by
  unfold candidates matchingBy
  split
  · exact FileTree.filesEndingInBy_congr h _ _
  · rfl

/-- A lookup does not depend on the order of its walk. -/
theorem resolverBy_congr (raster? : RasterReader) (choose : Chooser σ) (image : Text) :
    s.resolverBy raster? walk' choose image = s.resolverBy raster? walk choose image := by
  rw [resolverBy_eq, resolverBy_eq]
  simp only [question?, unasked, candidates_congr h]

end

end ImageSearch

/-- The picks that are left for questions, and the questions asked so far. -/
structure PickScript where
  picks : List (Option Nat)
  asked : List Question

namespace PickScript

/-- Every question takes the next pick. Where there is none, or none is picked, it is declined. -/
def ask : Chooser PickScript := fun file candidates st =>
  (st.picks.head?.join, ⟨st.picks.drop 1, st.asked ++ [⟨file, candidates⟩]⟩)

/-- What is left of a script behind an image that makes a question necessary, or none. -/
def after (st : PickScript) : Option Question → PickScript
  | none => st
  | some q => ⟨st.picks.drop 1, st.asked ++ [q]⟩

end PickScript

/-- An image that is looked up, with the walk of the workspace that its lookup makes. -/
structure ImageQuery where
  image : Text
  walk : Walker

namespace ImageSearch

variable (s : ImageSearch) (raster? : RasterReader) (walk : Walker)

/-- What is found for an image if its question, should there be one, gets a pick. -/
def answer (pick : Option Nat) (image : Text) : Except ImageError Size :=
  match s.question? walk image with
  | none => s.unasked raster? walk image
  | some q => s.picked raster? q pick

theorem answer_of_none {image : Text} (h : s.question? walk image = none) (pick : Option Nat) :
    s.answer raster? walk pick image = s.unasked raster? walk image := by
  unfold answer
  rw [h]

/-- What is found for images one after the other, and the script that is left. -/
def runAll (st : PickScript) (queries : List ImageQuery) :
    List (Except ImageError Size) × PickScript :=
  (queries.mapM fun query => s.resolverBy raster? query.walk PickScript.ask query.image).run st

/-- The questions that images make necessary, in the order of the images. -/
def questions (queries : List ImageQuery) : List Question :=
  queries.filterMap fun query => s.question? walk query.image

theorem questions_cons (query : ImageQuery) (queries : List ImageQuery) :
    s.questions walk (query :: queries) =
      (s.question? walk query.image).toList ++ s.questions walk queries := by
  unfold questions
  rw [List.filterMap_cons]
  cases s.question? walk query.image <;> rfl

/-- An image takes a pick if it makes a question necessary, and leaves the script alone if not. -/
theorem resolver_scripted (image : Text) (st : PickScript) :
    (s.resolverBy raster? walk PickScript.ask image).run st =
      (s.answer raster? walk st.picks.head?.join image, st.after (s.question? walk image)) := by
  refine (congrArg (fun m : StateM PickScript _ => m.run st)
    (resolverBy_eq s raster? walk PickScript.ask image)).trans ?_
  unfold answer
  generalize s.question? walk image = question
  cases question with
  | none => rfl
  | some q => rfl

theorem run_mapM_cons {σ α β : Type} (f : α → StateM σ β) (a : α) (as : List α) (st : σ) :
    ((a :: as).mapM f).run st =
      let first := (f a).run st
      let later := (as.mapM f).run first.2
      (first.1 :: later.1, later.2) := by
  rw [List.mapM_cons]
  rfl

variable {s raster? walk}

theorem runAll_cons (st : PickScript) {query : ImageQuery} (hquery : walk.SameEntries query.walk)
    (queries : List ImageQuery) :
    s.runAll raster? st (query :: queries) =
      (s.answer raster? walk st.picks.head?.join query.image ::
          (s.runAll raster? (st.after (s.question? walk query.image)) queries).1,
        (s.runAll raster? (st.after (s.question? walk query.image)) queries).2) := by
  have hrun := run_mapM_cons (fun query => s.resolverBy raster? query.walk PickScript.ask query.image) query queries st
  dsimp only at hrun
  rw [resolverBy_congr hquery, resolver_scripted] at hrun
  dsimp only at hrun
  exact hrun

/-- A list of images takes a pick for every question, and leaves the others. -/
theorem runAll_script (st : PickScript) {queries : List ImageQuery}
    (hwalks : ∀ query ∈ queries, walk.SameEntries query.walk) :
    (s.runAll raster? st queries).2 = ⟨st.picks.drop (s.questions walk queries).length,
      st.asked ++ s.questions walk queries⟩ := by
  induction queries generalizing st with
  | nil =>
      have hnil : s.runAll raster? st [] = ([], st) := rfl
      rw [hnil, questions, List.filterMap_nil, List.length_nil, List.drop_zero, List.append_nil]
  | cons query queries ih =>
      obtain ⟨hquery, hlater⟩ := List.forall_mem_cons.1 hwalks
      rw [runAll_cons st hquery]
      refine (ih (st.after (s.question? walk query.image)) hlater).trans ?_
      rw [questions_cons]
      cases s.question? walk query.image with
      | none => rfl
      | some q =>
          rw [PickScript.after, Option.toList_some, List.drop_drop, List.length_append,
            List.length_singleton, List.append_assoc]

/-- A question is answered with the pick behind those of the images before. -/
theorem runAll_getElem? (st : PickScript) {before behind : List ImageQuery} {query : ImageQuery}
    (hwalks : ∀ query' ∈ before ++ query :: behind, walk.SameEntries query'.walk) :
    (s.runAll raster? st (before ++ query :: behind)).1[before.length]? =
      some (s.answer raster? walk st.picks[(s.questions walk before).length]?.join query.image) := by
  induction before generalizing st with
  | nil =>
      rw [List.nil_append, runAll_cons st (hwalks query List.mem_cons_self), List.head?_eq_getElem?]
      rfl
  | cons first before ih =>
      rw [List.cons_append, List.forall_mem_cons] at hwalks
      rw [List.cons_append, runAll_cons st hwalks.1]
      refine (ih (st.after (s.question? walk first.image)) hwalks.2).trans ?_
      rw [questions_cons]
      cases s.question? walk first.image with
      | none => rfl
      | some q =>
          rw [PickScript.after, Option.toList_some, List.getElem?_drop, List.length_append,
            List.length_singleton]

/-- A run does not depend on the orders of its walks. -/
theorem runAll_congr (st : PickScript) {queries queries' : List ImageQuery}
    (hwalks : ∀ query ∈ queries, walk.SameEntries query.walk)
    (hwalks' : ∀ query ∈ queries', walk.SameEntries query.walk)
    (himages : queries'.map ImageQuery.image = queries.map ImageQuery.image) :
    s.runAll raster? st queries' = s.runAll raster? st queries := by
  induction queries generalizing queries' st with
  | nil => rw [List.map_eq_nil_iff.1 himages]
  | cons query queries ih =>
      obtain ⟨query', later', rfl, himage, hlater⟩ := List.map_eq_cons_iff.1 himages
      obtain ⟨hquery, hwalks⟩ := List.forall_mem_cons.1 hwalks
      obtain ⟨hquery', hwalks'⟩ := List.forall_mem_cons.1 hwalks'
      rw [runAll_cons st hquery, runAll_cons st hquery', himage, ih _ hwalks hwalks' hlater]

/-- Whether a walk of the workspace comes to a file of it. -/
def Walked (s : ImageSearch) (walk : Walker) (p : Place) : Prop :=
  ∃ root, s.tree.locate s.home s.root = .ok root ∧ p ∈ walk s.tree root ∧
    s.tree.hasFile (root ++ p) = true

theorem matchingBy_spec (s : ImageSearch) (walk : Walker) (path : String) :
    (s.matchingBy walk path).Pairwise (· < ·) ∧ ∀ p, p ∈ s.matchingBy walk path ↔
      s.Walked walk p ∧ Path.names path ≠ [] ∧ Path.names path <:+ p := by
  unfold matchingBy Walked
  cases s.tree.locate s.home s.root with
  | error e => simp
  | ok root =>
      refine ⟨FileTree.pairwise_filesEndingInBy s.tree walk root path, fun p => ?_⟩
      simp [FileTree.mem_filesEndingInBy]

/-- Images looked up one after the other with a script of picks, each with a walk of its own; `walk` is
any that comes to the same entries. What matches a path is exactly the files that a walk comes to and that
end with the names of the path, in order and without repeats. The questions are those of the images that
make one necessary, in the order of the images, and the n-th of them is answered with the n-th pick;
without one, or with one that names no file, nothing is found. The answer for any other image depends
neither on the picks nor on the images before it, and nothing depends on the orders of the walks. -/
theorem runAll_scripted (s : ImageSearch) (raster? : RasterReader) (walk : Walker)
    (picks : List (Option Nat)) (queries : List ImageQuery)
    (hwalks : ∀ query ∈ queries, walk.SameEntries query.walk) :
    (∀ path, (s.matchingBy walk path).Pairwise (· < ·) ∧ ∀ p, p ∈ s.matchingBy walk path ↔
      s.Walked walk p ∧ Path.names path ≠ [] ∧ Path.names path <:+ p) ∧
    (s.runAll raster? ⟨picks, []⟩ queries).2.asked = s.questions walk queries ∧
    (∀ before query behind, queries = before ++ query :: behind →
      (s.runAll raster? ⟨picks, []⟩ queries).1[before.length]? =
        some (match s.question? walk query.image with
          | none => s.unasked raster? walk query.image
          | some q => s.picked raster? q picks[(s.questions walk before).length]?.join)) ∧
    (∀ q, s.picked raster? q none = .error (.notFound q.file) ∧
      ∀ i, q.candidates.length ≤ i → s.picked raster? q (some i) = .error (.notFound q.file)) ∧
    (∀ before query behind, queries = before ++ query :: behind → s.question? walk query.image = none →
      ∀ picks' before' query' behind', query'.image = query.image →
        (∀ other ∈ before' ++ query' :: behind', walk.SameEntries other.walk) →
        (s.runAll raster? ⟨picks', []⟩ (before' ++ query' :: behind')).1[before'.length]? =
          (s.runAll raster? ⟨picks, []⟩ queries).1[before.length]?) ∧
    ∀ queries', queries'.map ImageQuery.image = queries.map ImageQuery.image →
      (∀ query ∈ queries', walk.SameEntries query.walk) →
      s.runAll raster? ⟨picks, []⟩ queries' = s.runAll raster? ⟨picks, []⟩ queries := by
  refine ⟨s.matchingBy_spec walk, ?_, ?_, fun q => ⟨rfl, fun i hi => ?_⟩, ?_, ?_⟩
  · rw [runAll_script _ hwalks, List.nil_append]
  · rintro before query behind rfl
    rw [runAll_getElem? _ hwalks]
    unfold answer
    -- Plain `rfl` would try to work the question out.
    with_reducible rfl
  · rw [picked, Option.bind_some, List.getElem?_eq_none hi]
  · rintro before query behind rfl hnone picks' before' query' behind' himage hwalks'
    rw [runAll_getElem? _ hwalks, runAll_getElem? _ hwalks', himage, answer_of_none _ _ _ hnone,
      answer_of_none _ _ _ hnone]
  · intro queries' himages hwalks'
    exact runAll_congr _ hwalks hwalks' himages

/-- A picture of a width that is one row high. -/
def strip (width : UInt8) : ByteArray := ⟨#[71, 73, 70, 56, 57, 97, width, 0, 1, 0, 0, 0, 0, 59]⟩

/-- A workspace with two files that `b.gif` can mean, beside a hidden one and an ignored one. -/
def rooms : ImageSearch where
  tree := ⟨[(["r", ".gitignore"], "old/\n".toUTF8), (["r", "img", "a.gif"], strip 1),
    (["r", "x", "a.gif"], strip 2), (["r", "x", "b.gif"], strip 3), (["r", "y", "b.gif"], strip 4),
    (["r", ".z", "b.gif"], strip 5), (["r", "old", "b.gif"], strip 6)], []⟩
  home := []
  root := "/r"
  imagesRoot := "/r/img"
  searchesWorkspace := true
  refused := []

/-- The walk of the program passes over the hidden file and the ignored one. -/
theorem rooms_walked : rooms.tree.walked ["r"] =
    [["img", "a.gif"], ["x", "a.gif"], ["x", "b.gif"], ["y", "b.gif"]] := by
  decide +kernel

theorem rooms_candidates {image : Text} {names : List String} {found : List Place}
    (hnames : Path.names (Path.withoutLeadingSlashes (String.ofList image)) = names)
    (hsome : names ≠ []) (hfound : ([["img", "a.gif"], ["x", "a.gif"], ["x", "b.gif"], ["y", "b.gif"]].filter
      fun p => rooms.tree.hasFile (["r"] ++ p) && names.isSuffixOf p) = found)
    (h : found.Pairwise (· < ·)) : rooms.candidates FileTree.walked image = found := by
  subst hnames
  rw [← rooms_walked] at hfound
  have hroot : rooms.tree.locate rooms.home rooms.root = .ok ["r"] := by decide +kernel
  rw [candidates, matchingBy, hroot]
  exact FileTree.filesEndingInBy_of_pairwise hsome hfound h

/-- The walk of the program in two orders. The second question is answered with an index out of range. -/
theorem runAll_scripted_rooms :
    let forwards : Walker := FileTree.walked
    let backwards : Walker := fun t directory => (t.walked directory).reverse
    let found := rooms.runAll Raster.size? ⟨[some 1, some 2], []⟩ [⟨"/a.gif".toList, backwards⟩,
      ⟨"b.gif".toList, backwards⟩, ⟨"x/./b.gif".toList, forwards⟩, ⟨"//b.gif".toList, forwards⟩]
    let both := [["x", "b.gif"], ["y", "b.gif"]]
    forwards.SameEntries forwards ∧ forwards.SameEntries backwards ∧
      found.2.asked = [⟨"b.gif", both⟩, ⟨"//b.gif", both⟩] ∧ found.1[0]? = some (.ok ⟨1, 1⟩) ∧
      found.1[1]? = some (.ok ⟨4, 1⟩) ∧ found.1[2]? = some (.ok ⟨3, 1⟩) ∧
      found.1[3]? = some (.error (.notFound "//b.gif")) := by
  intro forwards backwards found both
  have hforwards : forwards.SameEntries forwards := fun _ _ _ => .rfl
  have hbackwards : forwards.SameEntries backwards := fun _ _ _ => List.mem_reverse
  have hnames : Path.names (Path.withoutLeadingSlashes (String.ofList "b.gif".toList)) = ["b.gif"] ∧
      Path.names (Path.withoutLeadingSlashes (String.ofList "//b.gif".toList)) = ["b.gif"] ∧
      Path.names (Path.withoutLeadingSlashes (String.ofList "x/./b.gif".toList)) = ["x", "b.gif"] := by
    decide +kernel
  have hb : rooms.candidates forwards "b.gif".toList = both :=
    rooms_candidates hnames.1 (by decide) (by decide +kernel) (by decide +kernel)
  have hslashes : rooms.candidates forwards "//b.gif".toList = both :=
    rooms_candidates hnames.2.1 (by decide) (by decide +kernel) (by decide +kernel)
  have hx : rooms.candidates forwards "x/./b.gif".toList = [["x", "b.gif"]] :=
    rooms_candidates hnames.2.2 (by decide) (by decide +kernel) (by decide +kernel)
  have hasksA : rooms.question? forwards "/a.gif".toList = none := by decide +kernel
  have hasksB : rooms.question? forwards "b.gif".toList = some ⟨"b.gif", both⟩ := by
    rw [question?, hb]
    decide +kernel
  have hasksX : rooms.question? forwards "x/./b.gif".toList = none := by
    rw [question?, hx]
    decide +kernel
  have hasksSlashes : rooms.question? forwards "//b.gif".toList = some ⟨"//b.gif", both⟩ := by
    rw [question?, hslashes]
    decide +kernel
  obtain ⟨-, hasked, hanswer, hdeclined, -, -⟩ := rooms.runAll_scripted Raster.size? forwards
    [some 1, some 2] [⟨"/a.gif".toList, backwards⟩, ⟨"b.gif".toList, backwards⟩,
      ⟨"x/./b.gif".toList, forwards⟩, ⟨"//b.gif".toList, forwards⟩] (by simp [hforwards, hbackwards])
  refine ⟨hforwards, hbackwards, ?_, ?_, ?_, ?_, ?_⟩
  · rw [hasked]
    simp only [questions, List.filterMap_cons, List.filterMap_nil, hasksA, hasksB, hasksX,
      hasksSlashes]
  · refine (hanswer [] _ _ rfl).trans ?_
    rw [hasksA]
    decide +kernel
  · refine (hanswer [⟨"/a.gif".toList, backwards⟩] _ _ rfl).trans ?_
    simp only [questions, List.filterMap_cons, List.filterMap_nil, hasksA, hasksB]
    decide +kernel
  · refine (hanswer [⟨"/a.gif".toList, backwards⟩, ⟨"b.gif".toList, backwards⟩] _ _ rfl).trans ?_
    rw [hasksX]
    dsimp only
    rw [unasked, hx]
    decide +kernel
  · refine (hanswer [⟨"/a.gif".toList, backwards⟩, ⟨"b.gif".toList, backwards⟩,
      ⟨"x/./b.gif".toList, forwards⟩] _ _ rfl).trans ?_
    simp only [questions, List.filterMap_cons, List.filterMap_nil, hasksA, hasksB, hasksX,
      hasksSlashes]
    have hpick : ([some 1, some 2] : List (Option Nat))[1]?.join = some 2 := rfl
    rw [List.length_singleton, hpick, (hdeclined ⟨"//b.gif", both⟩).2 2 (Nat.le_refl 2)]

end ImageSearch

end PugSize
