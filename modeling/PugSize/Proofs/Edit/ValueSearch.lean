import PugSize.Proofs.Edit.Trimmed

/-!
The search for a key in the rows of an object. A property may start at the core of a row, where only
white space and comments stand between it and the comma or brace before, and nowhere else; so the
rows that are written with the key are found, and the value of the last is taken.
-/

namespace PugSize

open Script CharClass

namespace ObjectText

theorem isWord_of_isSkipped {c : Char} (h : isSkipped c = true) : Text.isWord c = false := by
  have hseparator := isSeparator_of_isSkipped h
  have hcontinue := isIdentContinue_of_isSeparator hseparator
  simp only [isIdentContinue, Bool.or_eq_false_iff] at hcontinue
  obtain ⟨⟨⟨hid, -⟩, -⟩, -⟩ := hcontinue
  by_cases hascii : c.toNat < 128
  · rw [Text.isIdContinue, if_pos hascii] at hid
    rw [Text.isWord, if_pos hascii, hid]
  · have hbeyond : Text.Word.beyondIdentifiers.contains c = false := by
      simp only [isSkipped, Text.isBlank, Bool.or_eq_true, Bool.and_eq_true, decide_eq_true_eq,
        beq_iff_eq] at h
      simp only [Text.Ranges.contains, Text.Word.beyondIdentifiers, List.any_cons, List.any_nil,
        Bool.or_false, Bool.or_eq_false_iff, Bool.and_eq_false_iff, decide_eq_false_iff_not]
      obtain h | rfl := h
      · omega
      · decide
    rw [Text.isWord, if_neg hascii, hbeyond, hid]
    rfl

/-- Whether a property may stand behind a character. -/
def isOpener (x : Char × CharClass) : Bool :=
  (x.1 == '{' && x.2 == .code 0) || (x.1 == ',' && x.2 == .code 1)

/-- Whether a character is passed over on the way back from the start of a property. -/
def isPassed (x : Char × CharClass) : Bool := x.2 == .comment || Text.isBlank x.1

theorem isPropertyStart_cons (x : Char × CharClass) (before : List (Char × CharClass)) :
    isPropertyStart (x :: before) = if isPassed x then isPropertyStart before else isOpener x := by
  by_cases hx : isPassed x = true
  · rw [if_pos hx, isPropertyStart, List.dropWhile_cons_of_pos (by simpa [isPassed] using hx)]
    rfl
  · rw [if_neg hx, isPropertyStart, List.dropWhile_cons_of_neg (by simpa [isPassed] using hx)]
    rfl

theorem isPropertyStart_passed {as : List (Char × CharClass)} (h : ∀ x ∈ as, isPassed x = true)
    (before : List (Char × CharClass)) :
    isPropertyStart (as ++ before) = isPropertyStart before := by
  induction as with
  | nil => rfl
  | cons a as ih =>
      rw [List.cons_append, isPropertyStart_cons, if_pos (h a List.mem_cons_self),
        ih fun x hx => h x (List.mem_cons_of_mem _ hx)]

theorem isPropertyStart_stopped {as : List (Char × CharClass)} (h : ∀ x ∈ as, isOpener x = false)
    (hstop : ∃ x ∈ as, isPassed x = false) (before : List (Char × CharClass)) :
    isPropertyStart (as ++ before) = false := by
  induction as with
  | nil =>
      obtain ⟨x, hx, -⟩ := hstop
      cases hx
  | cons a as ih =>
      rw [List.cons_append, isPropertyStart_cons]
      split
      · rename_i ha
        refine ih (fun x hx => h x (List.mem_cons_of_mem _ hx)) ?_
        obtain ⟨x, hx, hpassed⟩ := hstop
        obtain rfl | hx := List.mem_cons.1 hx
        · rw [ha] at hpassed
          cases hpassed
        · exact ⟨x, hx, hpassed⟩
      · exact h a List.mem_cons_self

theorem startLength?_of_head {key : Text} (hkey : IsLabel key) {before after : List (Char × CharClass)}
    {x : Char × CharClass} (hx : x.2 ≠ .code 1 ∨ isSkipped x.1 = true ∨ x.1 ∈ [':', ',', '}']) :
    startLength? key before (x :: after) = none := by
  unfold startLength?
  split
  · rename_i h
    obtain hcode | hhead := hx
    · exact absurd (Option.some.inj h.1) hcode
    · cases hlength : keyLength? key ((x :: after).map Prod.fst) with
      | none => rfl
      | some n =>
          obtain ⟨hskipped, hmark⟩ := head_of_keyLength? hkey hlength
          obtain hhead | hhead := hhead
          · rw [hhead] at hskipped
            cases hskipped
          · exact absurd hhead hmark
  · rfl

/-- White space and comments hold no place at which a property may start. -/
theorem allStarts_blank {key : Text} (hkey : IsLabel key) {ns : List Node} {after : Text}
    (h : Legible (lexemesOf ns) after) (hblank : Blank ns) (before later : List (Char × CharClass)) :
    allStarts key before later (marksOf 1 ns) = [] := by
  apply allStarts_eq_nil
  intro as x bs hmarks
  have hx := marks_of_blank h hblank 1 x (by rw [hmarks]; simp)
  apply startLength?_of_head hkey
  obtain hx | hx := hx
  · exact .inl (by rw [hx]; exact nofun)
  · exact .inr (.inl hx.2)

/-- A token or a bracket begins with code that is no white space. -/
theorem marks_of_solid {n : Node} {after : Text} (h : Legible n.lexemes after)
    (htrivia : n.isTrivia = false) (hcomma : n.isComma = false) (depth : Nat) :
    ∃ c more, nodeMarks depth n = (c, .code depth) :: more ∧ isSkipped c = false := by
  have hskipped := Node.head_not_skipped h htrivia
  cases n with
  | leaf l plain =>
      rw [textOf_leaf] at hskipped
      obtain ⟨c, cs, htext⟩ := List.exists_cons_of_ne_nil h.1.ne_nil
      have hclass : ∃ ks, ofLexeme depth l = .code depth :: ks := by
        have hlength := length_ofLexeme h.1 depth
        rw [htext] at hlength
        simp only [Node.isTrivia] at htrivia
        split at htrivia
        · cases htrivia
        · rename_i kind hkind
          rw [ofLexeme, hkind, htext]
          cases kind <;> exact ⟨_, rfl⟩
      obtain ⟨ks, hks⟩ := hclass
      exact ⟨c, cs.zip ks, by rw [nodeMarks, htext, hks]; rfl, hskipped c (by rw [htext]; rfl)⟩
  | comma => cases hcomma
  | group shape inside =>
      cases shape
      · exact ⟨'(', _, rfl, by decide⟩
      · exact ⟨'[', _, rfl, by decide⟩
      · exact ⟨'{', _, rfl, by decide⟩

theorem isOpener_of_inner {x : Char × CharClass} (h : Inner 1 x) : isOpener x = false := by
  rw [isOpener, Bool.or_eq_false_iff, Bool.and_eq_false_iff, Bool.and_eq_false_iff]
  constructor
  · by_cases hx : x.2 = .code 0
    · have := (h 0 hx).1
      omega
    · exact .inr (by simpa using hx)
  · by_cases hx : x.2 = .code 1
    · refine .inl ?_
      rw [beq_eq_false_iff_ne]
      intro hcomma
      have := (h 1 hx).2 hcomma
      omega
    · exact .inr (by simpa using hx)

/-- Nodes of white space and comments without a byte-order mark. -/
def Spaced (ns : List Node) : Prop := ∀ n ∈ ns, isGap n = true ∨ isComment n = true

instance (ns : List Node) : Decidable (Spaced ns) :=
  inferInstanceAs (Decidable (∀ n ∈ ns, isGap n = true ∨ isComment n = true))

theorem isPassed_of_spaced {ns : List Node} (h : Spaced ns) (depth : Nat) :
    ∀ x ∈ marksOf depth ns, isPassed x = true := by
  induction ns with
  | nil => exact nofun
  | cons n ns ih =>
      intro x hx
      obtain hx | hx := List.mem_append.1 hx
      · obtain hn | hn := h n List.mem_cons_self
        · cases n with
          | leaf l plain =>
              simp only [isGap, Bool.and_eq_true, List.all_eq_true] at hn
              rw [isPassed, hn.2 x.1 (List.of_mem_zip hx).1, Bool.or_true]
          | comma => cases hn
          | group shape inside => cases hn
        · cases n with
          | leaf l plain =>
              have hclass := (List.of_mem_zip hx).2
              simp only [isComment, Bool.or_eq_true, beq_iff_eq] at hn
              have hcomment : x.2 = .comment := by
                obtain hn | hn := hn
                · rw [ofLexeme, hn] at hclass
                  obtain ⟨-, -, hc⟩ := List.mem_map.1 hclass
                  exact hc.symm
                · rw [ofLexeme, hn] at hclass
                  obtain ⟨-, -, hc⟩ := List.mem_map.1 hclass
                  exact hc.symm
              rw [isPassed, hcomment]
              rfl
          | comma => cases hn
          | group shape inside => cases hn
      · exact ih (fun m hm => h m (List.mem_cons_of_mem _ hm)) x hx

/-- A byte-order mark stops the way back. -/
theorem exists_stop {ns : List Node} {after : Text} (h : Legible (lexemesOf ns) after)
    (hblank : Blank ns) (hspaced : ¬ Spaced ns) (depth : Nat) :
    ∃ x ∈ marksOf depth ns, isPassed x = false := by
  obtain ⟨n, hn, hgap, hcomment⟩ : ∃ n ∈ ns, isGap n = false ∧ isComment n = false := by
    apply Classical.byContradiction
    intro hnone
    refine hspaced fun n hn => ?_
    by_cases hgap : isGap n = true
    · exact .inl hgap
    · by_cases hcomment : isComment n = true
      · exact .inr hcomment
      · exact absurd ⟨n, hn, by simpa using hgap, by simpa using hcomment⟩ hnone
  obtain ⟨as, bs, rfl⟩ := List.append_of_mem hn
  rw [lexemesOf_append, lexemesOf_cons] at h
  have hlegible := (legible_append.1 (legible_append.1 h).2).1
  have htrivia := hblank n (by simp)
  cases n with
  | leaf l plain =>
      have hkind : l.kind = .trivia .blank := by
        simp only [Node.isTrivia] at htrivia
        split at htrivia
        · rename_i kind hk
          cases kind
          · exact hk
          · simp [isComment, hk] at hcomment
          · simp [isComment, hk] at hcomment
        · cases htrivia
      obtain ⟨c, htext, -⟩ := (Lexeme.stands_blank hkind).1 hlegible.1
      refine ⟨(c, .code depth), ?_, ?_⟩
      · rw [marksOf_append, marksOf, nodeMarks, ofLexeme, hkind, htext]
        simp
      · simpa [isPassed, isGap, hkind, htext] using hgap
  | comma => cases htrivia
  | group shape inside => cases htrivia

theorem head_rowsBehind (rows : List Row) (rest : List (List Node)) :
    ∀ n, (rowsBehind rows rest).head? = some n → n = .comma := by
  intro n hn
  rw [rowsBehind] at hn
  cases hsegs : rows.map Row.nodes ++ rest with
  | nil =>
      rw [hsegs] at hn
      cases hn
  | cons seg segs =>
      rw [hsegs] at hn
      exact (Option.some.inj hn).symm

/-- Whether nodes are a key, a colon and a value; `part` goes up to the value. -/
structure Keyed (key : Text) (ns part value : List Node) : Prop where
  core : ns = part ++ value
  part : KeyPart key part
  value : ∃ n, value.head? = some n ∧ isGap n = false

theorem Keyed.isWritten {key : Text} {ns part value : List Node} (h : Keyed key ns part value) :
    isWritten key (textOf ns) = true := by
  obtain ⟨rfl, ⟨plain, hname, hgap, hgap'⟩, -⟩ := h
  rename_i name gap gap'
  obtain ⟨quote, hquote, hnameText⟩ := hname.text
  refine isWritten_iff.2 ⟨quote, textOf gap, textOf (gap' ++ value), hquote, hgap.text, ?_⟩
  rw [textOf_append, textOf_append, textOf_cons, textOf_leaf, hnameText, textOf_append]
  simp

/-- The nodes of an object, parted before the value of a row. -/
theorem Keyed.rowNodes_eq {key : Text} {r : Row} {part value : List Node} (h : Keyed key r.core part value)
    (as bs : List Row) (rest : List (List Node)) :
    rowNodes (as ++ r :: bs) rest =
      (rowsBefore as ++ r.lead ++ part) ++ (value ++ r.trail ++ rowsBehind bs rest) := by
  rw [rowNodes_core, h.core]
  simp

/-- Whether a row is written with a key, in view of the search. -/
structure Writes (key : Text) (r : Row) (part value : List Node) : Prop extends
    Keyed key r.core part value where
  lead : Spaced r.lead

/-- Whether a row is passed over when a key is looked for. -/
def Unseen (key : Text) (r : Row) : Prop := Spaced r.lead → isWritten key (textOf r.core) = false

/-- Of some rows none is written with a key, or there is a last one that is. -/
theorem last_writes (key : Text) (rows : List Row) :
    (∀ r ∈ rows, ∀ part value, ¬ Writes key r part value) ∨
      ∃ as r bs part value, rows = as ++ r :: bs ∧ Writes key r part value ∧
        ∀ b ∈ bs, ∀ part value, ¬ Writes key b part value := by
  induction rows using List.reverseRecOn with
  | nil => exact .inl nofun
  | append_singleton rows r ih =>
      by_cases hr : ∃ part value, Writes key r part value
      · obtain ⟨part, value, hwrites⟩ := hr
        exact .inr ⟨rows, r, [], part, value, rfl, hwrites, nofun⟩
      · have hone : ∀ b ∈ [r], ∀ part value, ¬ Writes key b part value := by
          rintro b hb part value hwrites
          rw [List.mem_singleton.1 hb] at hwrites
          exact hr ⟨part, value, hwrites⟩
        obtain hnone | ⟨as, s, bs, part, value, rfl, hwrites, hnone⟩ := ih
        · exact .inl (List.forall_mem_append.2 ⟨hnone, hone⟩)
        · exact .inr ⟨as, s, bs ++ [r], part, value, by simp, hwrites,
            List.forall_mem_append.2 ⟨hnone, hone⟩⟩

theorem isTrivia_of_isGap {n : Node} (h : isGap n = true) : n.isTrivia = true := by
  cases n with
  | leaf l plain =>
      simp only [isGap, Bool.and_eq_true, beq_iff_eq] at h
      simp [Node.isTrivia, h.1]
  | comma => cases h
  | group shape inside => cases h

theorem isGap_eq_false {n : Node} (h : n.isTrivia = false) : isGap n = false :=
  Bool.eq_false_iff.2 fun hgap => Bool.eq_false_iff.1 h (isTrivia_of_isGap hgap)

/-- The rest of a row that is the front of a key with its colon: the name, or all up to the colon. -/
theorem core_of_keyPart {key : Text} {core extra : List Node} (h : KeyPart key (core ++ extra))
    (hcore : Solid core) :
    ∃ (name : Lexeme) (plain : name.isPlain = true) (gap : List Node), IsName key name ∧ Gap gap ∧
      (core = [.leaf name plain] ∧ (∃ later, extra = gap ++ colonNode :: later) ∨
        core = .leaf name plain :: gap ++ [colonNode]) := by
  generalize hparts : core ++ extra = part at h
  obtain ⟨plain, hname, hgap, hgap'⟩ := h
  rename_i name gap gap'
  refine ⟨name, plain, gap, hname, hgap, ?_⟩
  have hblank {ns : List Node} (hns : Gap ns) : Blank ns := fun n hn => isTrivia_of_isGap (hns n hn)
  cases core with
  | nil =>
      obtain ⟨last, hlast, -⟩ := hcore.last
      cases hlast
  | cons first core =>
      obtain ⟨rfl, hrest⟩ := List.cons.inj hparts
      have hshort (hcoreGap : Gap core) : .leaf name plain :: core = [.leaf name plain] ∧
          ∃ later, extra = gap ++ colonNode :: later := by
        obtain rfl := @Solid.eq_nil_of_blank [_] core hcore (hblank hcoreGap)
        exact ⟨rfl, gap', hrest⟩
      obtain ⟨more, hcut, -⟩ | ⟨more, hcut, hmore⟩ := List.append_eq_append_iff.1 hrest
      · exact .inl (hshort fun n hn => hgap n (by rw [hcut]; exact List.mem_append_left _ hn))
      · cases more with
        | nil => exact .inl (hshort (by rw [hcut, List.append_nil]; exact hgap))
        | cons colon more =>
            obtain ⟨rfl, hbehind⟩ := List.cons.inj hmore
            have hmoreGap : Gap more := fun n hn => hgap' n (by rw [hbehind]; exact List.mem_append_left _ hn)
            have hcore' : Solid ((.leaf name plain :: gap ++ [colonNode]) ++ more) := by
              rw [List.append_assoc, List.cons_append, List.singleton_append, ← hcut]
              exact hcore
            obtain rfl := hcore'.eq_nil_of_blank (hblank hmoreGap)
            exact .inr (by rw [hcut]; rfl)

theorem decode_plain {t : Text} (h : '\\' ∉ t) : Quoted.decode t = t := by
  induction t with
  | nil => rw [Quoted.decode]
  | cons c cs ih =>
      rw [List.mem_cons, not_or] at h
      rw [Quoted.decode, ih h.2]
      all_goals grind

/-- A name gives the key that it is written with. -/
theorem key?_of_isName {key : Text} (hkey : IsLabel key) {l : Lexeme} (h : IsName key l) :
    ∃ kind, l.kind = .token kind ∧ kind ≠ .spread ∧
      ∀ start, Token.key? ⟨kind, l.text, start⟩ = some key := by
  obtain rfl | rfl | ⟨q, -, rfl⟩ := h
  · exact ⟨.ident, rfl, nofun, fun start => rfl⟩
  · exact ⟨.number, rfl, nofun, fun start => rfl⟩
  · refine ⟨.str, rfl, nofun, fun start => ?_⟩
    have hplain : '\\' ∉ key := fun hmem => hkey.plain _ hmem (by simp)
    rw [Token.key?, Quoted.value, List.cons_append, List.drop_succ_cons, List.drop_zero,
      List.dropLast_concat, decode_plain hplain]

/-- A key and a colon without a value are no property. -/
theorem not_reads_colon {key : Text} (hkey : IsLabel key) {r : Row} {name : Lexeme} {plain : name.isPlain = true}
    {gap : List Node} (hname : IsName key name) (hgap : Gap gap)
    (hcore : r.core = .leaf name plain :: gap ++ [colonNode]) : ¬ r.Reads property? := by
  obtain ⟨kind, hkind, hspread, hfound⟩ := key?_of_isName hkey hname
  have hblank : Blank gap := fun n hn => isTrivia_of_isGap (hgap n hn)
  rw [Row.Reads, Row.trees, hcore, List.cons_append, placeRow, placeRow_append, placeRow_blank hblank,
    Node.tree?, hkind]
  simp only [Option.toList_some, List.singleton_append, List.nil_append, property?, if_neg hspread,
    hfound, Option.bind_some]
  simp [placeRow, Node.tree?, colonNode, propertyValue?, segmentExpr?]

theorem Named.append {key : Text} {ns : List Node} (h : Named key ns) (more : List Node) : Named key (ns ++ more) := by
  refine h.imp_right (And.imp_right ?_)
  rintro ⟨l, plain, later, kind, rfl, hkind, hread⟩
  exact ⟨l, plain, later ++ more, kind, rfl, hkind, hread⟩

/-- What the search matches at the core of a row is the front of the core. -/
theorem exists_part {key : Text} {r : Row} {later : List Node} {after : Text} {n : Nat}
    (hnamed : Named key r.core) (hreads : r.Reads property?)
    (h : Legible (lexemesOf (r.core ++ (r.trail ++ later))) ('}' :: after))
    (hlater : ∀ m, later.head? = some m → m = .comma)
    (hlength : keyLength? key (textOf (r.core ++ (r.trail ++ later)) ++ '}' :: after) = some n) :
    ∃ part value, r.core = part ++ value ∧ KeyPart key part ∧
      (∃ m, value.head? = some m ∧ isGap m = false) ∧ n = (textOf part).length := by
  obtain ⟨part, more, hparts, hpart, hmore, hn⟩ := exists_keyPart (hnamed.append _) h hlength
  have himpossible (extra : List Node) (hextra : part = r.core ++ extra)
      (hrest : r.trail ++ later = extra ++ more) : False := by
    rw [hextra] at hpart
    obtain ⟨name, plain, gap, hname, hgap, ⟨hcore, between, hbetween⟩ | hcore⟩ :=
      core_of_keyPart hpart r.solid
    · have hskip {ns : List Node} (hns : Blank ns) (ms : List Node) :
          (ns ++ ms).dropWhile Node.isTrivia = ms.dropWhile Node.isTrivia :=
        List.dropWhile_append_of_pos fun n hn => hns n hn
      have hdrop := hskip (fun n hn => isTrivia_of_isGap (hgap n hn)) (colonNode :: (between ++ more))
      have hdrop' := hskip r.blank_trail later
      rw [hrest, hbetween, List.append_assoc, List.cons_append, hdrop,
        List.dropWhile_cons_of_neg (by decide)] at hdrop'
      cases later with
      | nil => cases hdrop'
      | cons m ms =>
          obtain rfl := hlater m rfl
          rw [List.dropWhile_cons_of_neg (by decide)] at hdrop'
          cases hdrop'
    · exact not_reads_colon hnamed.label hname hgap hcore hreads
  obtain ⟨extra, hextra, hrest⟩ | ⟨value, hcore, hvalue⟩ := List.append_eq_append_iff.1 hparts
  · exact (himpossible extra hextra hrest).elim
  · cases value with
    | nil =>
        rw [List.append_nil] at hcore
        exact (himpossible [] (by rw [List.append_nil, hcore]) hvalue.symm).elim
    | cons m ms =>
        exact ⟨part, m :: ms, hcore, hpart, ⟨m, rfl, hmore m (by rw [hvalue]; rfl)⟩, hn⟩

theorem marks_of_core {core : List Node} {after : Text} (h : Legible (lexemesOf core) after)
    (hcore : Solid core) (depth : Nat) :
    ∃ c more, marksOf depth core = (c, .code depth) :: more ∧ isSkipped c = false := by
  obtain ⟨n, hn, htrivia⟩ := hcore.first
  obtain ⟨ns, rfl⟩ := List.head?_eq_some_iff.1 hn
  rw [lexemesOf_cons] at h
  obtain ⟨c, more, hmarks, hc⟩ := marks_of_solid (legible_append.1 h).1 htrivia
    (hcore.uncut n List.mem_cons_self) depth
  exact ⟨c, more ++ marksOf depth ns, by rw [marksOf, hmarks]; rfl, hc⟩

theorem isChain_marksOf {ns : List Node} {after : Text} (h : Legible (lexemesOf ns) after)
    (depth : Nat) : List.IsChain CharClass.Follows (marksOf depth ns) := by
  have hwhole := CharClass.isChain_marked (textOf ns ++ after) .code depth nofun
  rw [← marked, marked_nodes after ns depth h] at hwhole
  exact (List.isChain_append.1 hwhole).1

/-- No name ends where white space, a comment, a comma or a brace does. -/
theorem isNameStart_lead {r : Row} {behind : List Node} {after : Text}
    (h : Legible (lexemesOf (r.lead ++ (r.core ++ behind))) after)
    {x : Char × CharClass} (hx : isOpener x = true) (before : List (Char × CharClass)) :
    isNameStart ((marksOf 1 r.lead).reverse ++ x :: before) = true := by
  obtain hnil | ⟨init, y, hlast⟩ := List.eq_nil_or_concat (marksOf 1 r.lead)
  · obtain ⟨c, k⟩ := x
    rw [hnil]
    simp only [isOpener, Bool.or_eq_true, Bool.and_eq_true, beq_iff_eq] at hx
    obtain ⟨rfl, -⟩ | ⟨rfl, -⟩ := hx
    · rfl
    · rfl
  · rw [List.concat_eq_append] at hlast
    have hwhole := h
    rw [lexemesOf_append, lexemesOf_append] at h
    obtain ⟨hlead, hrest⟩ := legible_append.1 h
    obtain ⟨c, more, hcore, hc⟩ := marks_of_core (legible_append.1 hrest).1 r.solid 1
    have hy := marks_of_blank hlead r.blank_lead 1 y (by rw [hlast]; simp)
    have hword : (Text.isWord y.1 || y.1 == '$') = false := by
      obtain hcomment | ⟨-, hskipped⟩ := hy
      · have hchain := isChain_marksOf hwhole 1
        rw [marksOf_append, marksOf_append, hlast, hcore, List.append_assoc] at hchain
        have hfollows : CharClass.Follows y (c, .code 1) :=
          (List.isChain_cons.1 (List.isChain_append.1 hchain).2.1).1 _ rfl
        obtain h | h | h := hfollows hcomment
        · cases h
        · rw [h]
          decide
        · simp only at h
          rw [h] at hc
          cases hc
      · rw [isWord_of_isSkipped hskipped, Bool.false_or, beq_eq_false_iff_ne]
        rintro hdollar
        rw [hdollar] at hskipped
        cases hskipped
    rw [hlast, List.reverse_append, List.reverse_singleton, List.singleton_append, List.cons_append,
      isNameStart, hword]
    rfl

/-- Behind a comma or a brace a property may start, white space and comments apart. -/
theorem isPropertyStart_lead {r : Row} {after : Text} (h : Legible (lexemesOf r.lead) after)
    {x : Char × CharClass} (hx : isOpener x = true) (before : List (Char × CharClass)) :
    isPropertyStart ((marksOf 1 r.lead).reverse ++ x :: before) = true ↔ Spaced r.lead := by
  constructor
  · intro hstart
    apply Classical.byContradiction
    intro hspaced
    obtain ⟨y, hy, hpassed⟩ := exists_stop h r.blank_lead hspaced 1
    rw [isPropertyStart_stopped _ ⟨y, List.mem_reverse.2 hy, hpassed⟩] at hstart
    · cases hstart
    · intro z hz
      exact isOpener_of_inner (inner_of_uncut h r.blank_lead.uncut 1 z (List.mem_reverse.1 hz))
  · intro hspaced
    rw [isPropertyStart_passed fun z hz => isPassed_of_spaced hspaced 1 z (List.mem_reverse.1 hz),
      isPropertyStart_cons]
    obtain ⟨c, k⟩ := x
    simp only [isOpener, Bool.or_eq_true, Bool.and_eq_true, beq_iff_eq] at hx
    obtain ⟨rfl, rfl⟩ | ⟨rfl, rfl⟩ := hx
    · rfl
    · rfl

/-- Behind the first character of a core no property may start. -/
theorem allStarts_behind (key : Text) {core : List Node} {after : Text} (h : Legible (lexemesOf core) after)
    (huncut : Uncut core) {c : Char} {more : List (Char × CharClass)}
    (hmarks : marksOf 1 core = (c, .code 1) :: more) (hc : isSkipped c = false)
    (before later : List (Char × CharClass)) :
    allStarts key ((c, .code 1) :: before) later more = [] := by
  apply allStarts_eq_nil
  intro as y bs hparts
  have hstopped : isPropertyStart (as.reverse ++ (c, CharClass.code 1) :: before) = false := by
    rw [List.append_cons]
    refine isPropertyStart_stopped ?_ ⟨(c, .code 1), by simp, ?_⟩ _
    · intro z hz
      apply isOpener_of_inner
      apply inner_of_uncut h huncut 1
      rw [hmarks, hparts]
      simp only [List.mem_append, List.mem_reverse, List.mem_cons] at hz ⊢
      tauto
    · have hblank : Text.isBlank c = false := by
        simp only [isSkipped, Bool.or_eq_false_iff] at hc
        exact hc.1
      simp [isPassed, hblank]
  unfold startLength?
  rw [if_neg]
  rintro ⟨-, -, hproperty⟩
  rw [hstopped] at hproperty
  cases hproperty

section

variable {key : Text} (hkey : IsLabel key)

include hkey

/-- In a row a property may start at the core and nowhere else. -/
theorem allStarts_row {r : Row} {behind : List Node} {after : Text}
    (h : Legible (lexemesOf (r.nodes ++ behind)) after) {x : Char × CharClass}
    (hx : isOpener x = true) (before : List (Char × CharClass)) :
    allStarts key (x :: before) (marksOf 1 behind ++ marked 1 after) (marksOf 1 r.nodes) =
      ((if Spaced r.lead then keyLength? key (textOf (r.core ++ (r.trail ++ behind)) ++ after)
        else none).map ((before.length + 1 + (textOf r.lead).length) + ·)).toList := by
  have hnodes : r.nodes ++ behind = r.lead ++ (r.core ++ (r.trail ++ behind)) := by
    simp [Row.nodes]
  rw [hnodes] at h
  have hwhole := h
  rw [lexemesOf_append, lexemesOf_append, lexemesOf_append] at h
  obtain ⟨hlead, hrest⟩ := legible_append.1 h
  obtain ⟨hcore, hlater⟩ := legible_append.1 hrest
  obtain ⟨htrail, hbehind⟩ := legible_append.1 hlater
  obtain ⟨c, more, hmarks, hc⟩ := marks_of_core hcore r.solid 1
  have hname := isNameStart_lead hwhole hx before
  have hstart := isPropertyStart_lead hlead hx before
  have htext : ((c, CharClass.code 1) :: more ++
      (marksOf 1 r.trail ++ (marksOf 1 behind ++ marked 1 after))).map Prod.fst =
      textOf (r.core ++ (r.trail ++ behind)) ++ after := by
    have hfst (t : Text) : (marked 1 t).map Prod.fst = t :=
      List.map_fst_zip (Nat.le_of_eq (length_ofTextFrom t _ _).symm)
    rw [← hmarks, List.map_append, List.map_append, List.map_append, fst_marksOf hcore,
      fst_marksOf htrail, fst_marksOf hbehind, hfst]
    simp
  have hinside := allStarts_behind key hcore r.solid.uncut hmarks hc
    ((marksOf 1 r.lead).reverse ++ x :: before) (marksOf 1 r.trail ++ (marksOf 1 behind ++ marked 1 after))
  have hlength : ((marksOf 1 r.lead).reverse ++ x :: before).length =
      before.length + 1 + (textOf r.lead).length := by
    rw [← fst_marksOf hlead 1]
    simp
    omega
  rw [Row.nodes, marksOf_append, marksOf_append, allStarts_append, allStarts_append,
    allStarts_blank hkey hlead r.blank_lead, allStarts_blank hkey htrail r.blank_trail, hmarks,
    allStarts, hinside, List.append_nil, List.append_nil, List.nil_append, hlength]
  congr 2
  unfold startLength?
  rw [htext]
  by_cases hspaced : Spaced r.lead
  · rw [if_pos ⟨rfl, hname, hstart.2 hspaced⟩, if_pos hspaced]
  · rw [if_neg fun h => hspaced (hstart.1 h.2.2), if_neg hspaced]

/-- In what looks like the key no comment begins, and no property ends. -/
theorem not_mem_name {quote gap : Text} (hquote : quote = [] ∨ quote = ['"'] ∨ quote = ['\''])
    (hgap : ∀ c ∈ gap, Text.isBlank c = true) : ∀ c ∈ [',', '}', '/'], c ∉ quote ++ key ++ quote ++ gap := by
  intro c hc hmem
  have hmark : c ∈ [':', ',', '}', '/', '\\', '"', '\'', '\n'] ∧ Text.isBlank c = false ∧ c ∉ quote := by
    simp only [List.mem_cons, List.not_mem_nil, or_false] at hc
    obtain rfl | rfl | rfl := hc <;> obtain rfl | rfl | rfl := hquote <;> decide
  obtain ⟨hplain, hblank, hquoted⟩ := hmark
  simp only [List.mem_append, hquoted, or_false, false_or] at hmem
  obtain hmem | hmem := hmem
  · exact hkey.plain c hmem hplain
  · rw [hgap c hmem] at hblank
    cases hblank

omit hkey in
/-- White space goes on up to a comment or to what ends the property. -/
theorem exists_mark {ns : List Node} {after : Text} (h : Legible (lexemesOf ns) after) (hblank : Blank ns)
    {c : Char} (hc : c = ',' ∨ c = '}') (more : Text) :
    ∃ spaces d rest, textOf ns ++ c :: more = spaces ++ d :: rest ∧ (∀ x ∈ spaces, isSkipped x = true) ∧
      d ∈ [',', '}', '/'] := by
  induction ns with
  | nil =>
      refine ⟨[], c, more, rfl, nofun, ?_⟩
      obtain rfl | rfl := hc <;> decide
  | cons n ns ih =>
      have htrivia := hblank n List.mem_cons_self
      cases n with
      | leaf l plain =>
          obtain ⟨hl, hns⟩ := h
          by_cases hkind : l.kind = .trivia .blank
          · obtain ⟨x, htext, hx⟩ := (Lexeme.stands_blank hkind).1 hl
            obtain ⟨spaces, d, rest, heq, hspaces, hd⟩ := ih hns fun m hm => hblank m (List.mem_cons_of_mem _ hm)
            refine ⟨x :: spaces, d, rest, ?_, List.forall_mem_cons.2 ⟨hx, hspaces⟩, hd⟩
            rw [textOf_cons, textOf_leaf, htext, List.append_assoc, heq]
            rfl
          · have hslash : ∃ body, l.text = '/' :: body := by
              have hspelling := hl.spelling hkind
              obtain ⟨kind, text⟩ := l
              cases hspelling with
              | lineComment => exact ⟨_, rfl⟩
              | blockComment => exact ⟨_, rfl⟩
              | _ => cases htrivia
            obtain ⟨body, htext⟩ := hslash
            refine ⟨[], '/', body ++ (textOf ns ++ c :: more), ?_, nofun, by decide⟩
            rw [textOf_cons, textOf_leaf, htext]
            simp
      | comma => cases htrivia
      | group shape inside => cases htrivia

omit hkey in
/-- Where white space is followed by one of these marks, a colon stands behind the mark. -/
theorem not_colon_behind {spaces front rest more : Text} {d : Char} (hspaces : ∀ x ∈ spaces, isSkipped x = true)
    (hd : d ∈ [',', '}', '/']) (hfront : d ∉ front) : spaces ++ d :: rest ≠ front ++ ':' :: more := by
  intro heq
  have hne : d ≠ ':' := by
    rintro rfl
    revert hd
    decide
  obtain ⟨m, hm, hmore⟩ | ⟨m, hm, hmore⟩ := List.append_eq_append_iff.1 heq
  · cases m with
    | nil => exact hne (List.cons.inj hmore).1
    | cons c m =>
        obtain ⟨rfl, -⟩ := List.cons.inj hmore
        exact hfront (by rw [hm]; simp)
  · cases m with
    | nil => exact hne (List.cons.inj hmore).1.symm
    | cons c m =>
        obtain ⟨rfl, -⟩ := List.cons.inj hmore
        exact absurd (hspaces ':' (by rw [hm]; simp)) (by decide)

/-- What looks like the key at the core of a row lies inside the core. -/
theorem isWritten_of_keyLength? {r : Row} {behind : List Node} {after : Text}
    (h : Legible (lexemesOf (r.core ++ (r.trail ++ behind))) ('}' :: after))
    (hbehind : ∀ m, behind.head? = some m → m = .comma) {n : Nat}
    (hlength : keyLength? key (textOf (r.core ++ (r.trail ++ behind)) ++ '}' :: after) = some n) :
    isWritten key (textOf r.core) = true := by
  obtain ⟨quote, gap, more, hquote, hgap, ht, -⟩ := keyLength?_eq_some hlength
  have hmarks := not_mem_name hkey hquote hgap
  have htrail : ∃ spaces d rest, textOf (r.trail ++ behind) ++ '}' :: after = spaces ++ d :: rest ∧
      (∀ x ∈ spaces, isSkipped x = true) ∧ d ∈ [',', '}', '/'] := by
    rw [lexemesOf_append, lexemesOf_append] at h
    have htrail := (legible_append.1 (legible_append.1 h).2).1
    cases behind with
    | nil =>
        rw [List.append_nil]
        exact exists_mark htrail r.blank_trail (.inr rfl) after
    | cons m ms =>
        obtain rfl := hbehind m rfl
        rw [textOf_append, textOf_cons, textOf_comma, List.append_assoc]
        exact exists_mark htrail r.blank_trail (.inl rfl) _
  obtain ⟨spaces, d, rest, hrest, hspaces, hd⟩ := htrail
  rw [textOf_append, List.append_assoc, hrest] at ht
  -- If the colon stood behind the core, a comment or the end of the property would come before it.
  have himpossible {front : Text} (hfront : ∀ c ∈ front, c ∈ quote ++ key ++ quote ++ gap) :
      spaces ++ d :: rest ≠ front ++ ':' :: more :=
    not_colon_behind hspaces hd fun hmem => hmarks d hd (hfront d hmem)
  obtain ⟨m, hm, hmore⟩ | ⟨m, hm, hmore⟩ := List.append_eq_append_iff.1 ht
  · exact absurd hmore (himpossible fun c hc => by rw [hm]; exact List.mem_append_right _ hc)
  · cases m with
    | nil => exact absurd hmore.symm (@himpossible [] fun _ hc => absurd hc List.not_mem_nil)
    | cons c m =>
        obtain ⟨rfl, -⟩ := List.cons.inj hmore
        exact isWritten_iff.2 ⟨quote, gap, m, hquote, hgap, hm⟩

/-- The key of a row that is written with it looks like the key. -/
theorem keyLength?_writes {r : Row} {behind : List Node} {after : Text} {part value : List Node}
    (h : Legible (lexemesOf (r.core ++ (r.trail ++ behind))) ('}' :: after))
    (hkeyed : Keyed key r.core part value) :
    keyLength? key (textOf (r.core ++ (r.trail ++ behind)) ++ '}' :: after) = some (textOf part).length := by
  rw [hkeyed.core, List.append_assoc] at h ⊢
  refine keyLength?_keyPart hkey ?_ hkeyed.part ?_ ?_
  · rw [lexemesOf_append] at h
    exact (legible_append.1 h).2
  · intro m hm
    obtain ⟨n, hn, hgap⟩ := hkeyed.value
    obtain ⟨ns, hvalue⟩ := List.head?_eq_some_iff.1 hn
    rw [hvalue, List.cons_append, List.head?_cons, Option.some.injEq] at hm
    rwa [← hm]
  · intro c hc
    obtain rfl := Option.some.inj hc
    rfl

section

variable {r : Row} {behind : List Node} {after : Text}
  (h : Legible (lexemesOf (r.nodes ++ behind)) ('}' :: after)) {x : Char × CharClass} (hx : isOpener x = true)
  (before : List (Char × CharClass))

include h hx

theorem allStarts_unseen (hbehind : ∀ m, behind.head? = some m → m = .comma) (hunseen : Unseen key r) :
    allStarts key (x :: before) (marksOf 1 behind ++ marked 1 ('}' :: after)) (marksOf 1 r.nodes) =
      [] := by
  have hrest : Legible (lexemesOf (r.core ++ (r.trail ++ behind))) ('}' :: after) := by
    rw [Row.nodes, List.append_assoc, List.append_assoc, lexemesOf_append] at h
    exact (legible_append.1 h).2
  rw [allStarts_row hkey h hx]
  split
  · rename_i hspaced
    cases hlength : keyLength? key (textOf (r.core ++ (r.trail ++ behind)) ++ '}' :: after) with
    | none => rfl
    | some n =>
        have hwritten := hunseen hspaced
        rw [isWritten_of_keyLength? hkey hrest hbehind hlength] at hwritten
        cases hwritten
  · rfl

theorem allStarts_written {part value : List Node} (hwrites : Writes key r part value) :
    allStarts key (x :: before) (marksOf 1 behind ++ marked 1 ('}' :: after)) (marksOf 1 r.nodes) =
      [before.length + 1 + (textOf (r.lead ++ part)).length] := by
  have hrest : Legible (lexemesOf (r.core ++ (r.trail ++ behind))) ('}' :: after) := by
    rw [Row.nodes, List.append_assoc, List.append_assoc, lexemesOf_append] at h
    exact (legible_append.1 h).2
  rw [allStarts_row hkey h hx, if_pos hwrites.lead, keyLength?_writes hkey hrest hwrites.toKeyed, textOf_append,
    List.length_append, ← Nat.add_assoc]
  rfl

end

theorem allStarts_comma {before after marks : List (Char × CharClass)} {depth : Nat} :
    allStarts key before after ((',', .code depth) :: marks) =
      allStarts key ((',', .code depth) :: before) after marks := by
  have hcomma := @startLength?_of_head key hkey before (marks ++ after) (',', .code depth) (.inr (.inr (by simp)))
  rw [allStarts, List.cons_append, hcomma]
  rfl

/-- Rows that are not written with the key are passed over. -/
theorem allStarts_rowsBehind {rows : List Row} {rest : List (List Node)} (hrest : Rest rest)
    (hunseen : ∀ r ∈ rows, Unseen key r) {after : Text}
    (h : Legible (lexemesOf (rowsBehind rows rest)) ('}' :: after)) (before : List (Char × CharClass)) :
    allStarts key before (marked 1 ('}' :: after)) (marksOf 1 (rowsBehind rows rest)) = [] := by
  induction rows generalizing before with
  | nil =>
      obtain rfl | ⟨blank, rfl, hblank⟩ := hrest
      · rfl
      · have hnodes : rowsBehind [] [blank] = .comma :: blank := by simp [rowsBehind]
        rw [hnodes] at h ⊢
        rw [marksOf, nodeMarks, List.singleton_append, allStarts_comma hkey]
        exact allStarts_blank hkey h.2 hblank _ _
  | cons r rows ih =>
      have hnodes : rowsBehind (r :: rows) rest = .comma :: (r.nodes ++ rowsBehind rows rest) := by
        simp [rowsBehind]
      rw [hnodes] at h ⊢
      have hrow : Legible (lexemesOf (r.nodes ++ rowsBehind rows rest)) ('}' :: after) := h.2
      have hbehind := hrow
      rw [lexemesOf_append] at hbehind
      obtain ⟨hr, hrows⟩ := List.forall_mem_cons.1 hunseen
      rw [marksOf, nodeMarks, List.singleton_append, allStarts_comma hkey, marksOf_append,
        allStarts_append, ih hrows (legible_append.1 hbehind).2, List.append_nil]
      exact allStarts_unseen hkey hrow rfl before (head_rowsBehind rows rest) hr

end

/-- What ends the rows before a place: the opening brace, or a comma of the object. -/
theorem exists_opener (rows : List Row) :
    ∃ x before, (marksOf 1 (rowsBefore rows)).reverse ++ [('{', .code 0)] = x :: before ∧
      isOpener x = true := by
  obtain rfl | ⟨init, r, rfl⟩ := List.eq_nil_or_concat rows
  · exact ⟨_, _, rfl, rfl⟩
  · have hnodes : rowsBefore (init.concat r) = rowsBefore init ++ r.nodes ++ [.comma] := by
      simp [rowsBefore]
    rw [hnodes, marksOf_append, List.reverse_append]
    exact ⟨(',', .code 1), _, rfl, rfl⟩

/-- The text of an object with the given nodes between its braces. -/
def braced (ns : List Node) : Text := '{' :: textOf ns ++ ['}']

theorem marked_braced {ns : List Node} (h : Legible (lexemesOf ns) ['}']) :
    marked 0 (braced ns) = ('{', .code 0) :: marksOf 1 ns ++ marked 1 ['}'] := by
  rw [List.cons_append, ← marked_nodes ['}'] ns 1 h]
  rfl

section

variable {key : Text} (hkey : IsLabel key)

include hkey

theorem allStarts_braced {ns : List Node} (h : Legible (lexemesOf ns) ['}']) :
    valueStarts key 0 [] (marked 0 (braced ns)) =
      allStarts key [('{', .code 0)] (marked 1 ['}']) (marksOf 1 ns) := by
  have hfirst := @startLength?_of_head key hkey [] (marksOf 1 ns ++ marked 1 ['}'] ++ [])
    ('{', .code 0) (.inl (by simp))
  have hlast := fun before => @startLength?_of_head key hkey before [] ('}', .code 1) (.inr (.inr (by simp)))
  rw [valueStarts_marked hkey, marked_braced h, List.cons_append, allStarts, List.cons_append, hfirst,
    allStarts_append, List.append_nil]
  have hend (before : List (Char × CharClass)) : allStarts key before [] (marked 1 ['}']) = [] := by
    show ((startLength? key before [('}', .code 1)]).map _).toList ++ [] = []
    rw [hlast]
    rfl
  rw [hend, List.append_nil]
  rfl

/-- Where no row is written with the key, no value is found. -/
theorem valueSpan?_unseen {rows : List Row} {rest : List (List Node)} (hrest : Rest rest)
    (hunseen : ∀ r ∈ rows, Unseen key r) (h : Legible (lexemesOf (rowNodes rows rest)) ['}']) :
    valueSpan? (braced (rowNodes rows rest)) key = none := by
  have hstarts : valueStarts key 0 [] (marked 0 (braced (rowNodes rows rest))) = [] := by
    rw [allStarts_braced hkey h]
    cases rows with
    | nil =>
        obtain rfl | ⟨blank, rfl, hblank⟩ := hrest
        · rfl
        · have hnodes : rowNodes [] [blank] = blank := by simp [rowNodes, commas]
          rw [hnodes] at h ⊢
          exact allStarts_blank hkey h hblank _ _
    | cons r rows =>
        have hnodes := rowNodes_append [] r rows rest
        rw [List.nil_append, rowsBefore, List.flatMap_nil, List.nil_append] at hnodes
        rw [hnodes] at h ⊢
        have hbehind := h
        rw [lexemesOf_append] at hbehind
        obtain ⟨hr, hrows⟩ := List.forall_mem_cons.1 hunseen
        rw [marksOf_append, allStarts_append, allStarts_rowsBehind hkey hrest hrows (legible_append.1 hbehind).2,
          List.append_nil]
        exact allStarts_unseen hkey h rfl [] (head_rowsBehind rows rest) hr
  rw [valueSpan?]
  show (valueStarts key 0 [] (marked 0 (braced (rowNodes rows rest)))).getLast?.map _ = none
  rw [hstarts]
  rfl

/-- The last place that the search comes to is the front of the value of the last row written with the key. -/
theorem getLast?_valueStarts {as : List Row} {r : Row} {bs : List Row} {rest : List (List Node)}
    {part value : List Node} (hrest : Rest rest) (hwrites : Writes key r part value)
    (hunseen : ∀ b ∈ bs, Unseen key b)
    (h : Legible (lexemesOf (rowNodes (as ++ r :: bs) rest)) ['}']) :
    (valueStarts key 0 [] (marked 0 (braced (rowNodes (as ++ r :: bs) rest)))).getLast? =
      some ('{' :: textOf (rowsBefore as ++ r.lead ++ part)).length := by
  obtain ⟨x, before, hx, hopener⟩ := exists_opener as
  have hparts := rowNodes_append as r bs rest
  have hrow := h
  rw [hparts, List.append_assoc, lexemesOf_append] at hrow
  obtain ⟨hfront, hrow⟩ := legible_append.1 hrow
  have hbehind := hrow
  rw [lexemesOf_append] at hbehind
  have hlast := allStarts_written hkey hrow hopener before hwrites
  have hlengths := congrArg List.length hx
  have hfirst := congrArg List.length (fst_marksOf hfront 1)
  rw [allStarts_braced hkey h, hparts, List.append_assoc, marksOf_append, allStarts_append, hx,
    marksOf_append, allStarts_append, hlast, allStarts_rowsBehind hkey hrest hunseen
    (legible_append.1 hbehind).2, List.append_nil, List.getLast?_concat, Option.some.injEq]
  simp only [List.length_append, List.length_reverse, List.length_cons, List.length_nil,
    List.length_map, textOf_append] at hlengths hfirst ⊢
  omega

/-- The value of the last row that is written with the key is found. -/
theorem valueSpan?_written {as : List Row} {r : Row} {bs : List Row} {rest : List (List Node)}
    {part value : List Node} (hrest : Rest rest) (hwrites : Writes key r part value)
    (hunseen : ∀ b ∈ bs, Unseen key b)
    (h : Legible (lexemesOf (rowNodes (as ++ r :: bs) rest)) ['}']) :
    let front := '{' :: textOf (rowsBefore as ++ r.lead ++ part)
    let found := ((marksOf 1 (value ++ r.trail ++ rowsBehind bs rest) ++ marked 1 ['}']).takeWhile
      fun x => !endsValue x).map Prod.fst
    valueSpan? (braced (rowNodes (as ++ r :: bs) rest)) key =
      some ⟨Text.width front, Text.width front + Text.width (Text.trimEnd found)⟩ := by
  intro front found
  have hnodes := hwrites.rowNodes_eq as bs rest
  have hlegible := h
  rw [hnodes, lexemesOf_append] at hlegible
  have hbefore := (legible_append.1 hlegible).1
  have hlength : (('{', CharClass.code 0) :: marksOf 1 (rowsBefore as ++ r.lead ++ part)).length =
      front.length := by
    have := congrArg List.length (fst_marksOf hbefore 1)
    rw [List.length_map] at this
    simp only [front, List.length_cons, this]
  have hstarts := getLast?_valueStarts hkey hrest hwrites hunseen h
  have htext : braced (rowNodes (as ++ r :: bs) rest) =
      front ++ (textOf (value ++ r.trail ++ rowsBehind bs rest) ++ ['}']) := by
    rw [braced, hnodes, textOf_append]
    simp [front]
  have hdrop : (marked 0 (braced (rowNodes (as ++ r :: bs) rest))).drop front.length =
      marksOf 1 (value ++ r.trail ++ rowsBehind bs rest) ++ marked 1 ['}'] := by
    rw [marked_braced h, hnodes, marksOf_append _ (rowsBefore as ++ r.lead ++ part), ← List.cons_append,
      ← hlength, List.append_assoc (_ :: _), List.drop_left]
  rw [valueSpan?]
  show (valueStarts key 0 [] (marked 0 (braced (rowNodes (as ++ r :: bs) rest)))).getLast?.map _ = _
  rw [hstarts, Option.map_some]
  show some (Span.mk _ (_ + Text.width (Text.trimEnd ((((marked 0 _).drop front.length).takeWhile
    _).map Prod.fst)))) = _
  rw [hdrop, htext, List.take_left]

end

end ObjectText
end PugSize
