import Mathlib.Data.List.Basic
import PugSize.Proofs.Mixin.Extent
import PugSize.Proofs.Mixin.Rescan

/-!
The parentheses of a text outside its strings and comments, told piece by piece, and the flags by which
the scanner for calls finds them. The two agree where a backslash in a string escapes the first character
behind it that is no line feed.
-/

namespace PugSize.MixinCall

/-- The character behind a backslash, whichever it is. -/
def NextChar (t : Text) : Prop := ∃ c, t = [c]

/-- The first character behind a backslash that is no line feed, with the line feeds before it. -/
def NextOfLine (t : Text) : Prop := ∃ n c, c ≠ '\n' ∧ t = List.replicate n '\n' ++ [c]

section

variable (escaped : Text → Prop)

/-- What stands between the quotes of a string; a backslash takes what it escapes with it. -/
inductive StringBody (quote : Char) : Text → Prop
  | nil : StringBody quote []
  | plain {c : Char} {body : Text} (slash : c ≠ '\\') (close : c ≠ quote)
      (rest : StringBody quote body) : StringBody quote (c :: body)
  | escape {t body : Text} (h : escaped t) (rest : StringBody quote body) :
      StringBody quote ('\\' :: (t ++ body))

/-- A string, or a comment with the line feed that ends it. -/
inductive Hidden : Text → Prop
  | string {quote : Char} {body : Text} (hquote : CharClass.isQuote quote = true)
      (hbody : StringBody escaped quote body) : Hidden (quote :: (body ++ [quote]))
  | comment {body : Text} (line : '\n' ∉ body) : Hidden ('/' :: '/' :: (body ++ ['\n']))

/-- The parentheses, in order, of a text that ends outside strings and comments. -/
inductive Parens : Text → List Char → Prop
  | nil : Parens [] []
  | code {c : Char} {t ps : Text} (quote : CharClass.isQuote c = false)
      (comment : ¬ (c = '/' ∧ t.head? = some '/')) (rest : Parens t ps) :
      Parens (c :: t) (if c = '(' ∨ c = ')' then c :: ps else ps)
  | hidden {piece t ps : Text} (h : Hidden escaped piece) (rest : Parens t ps) :
      Parens (piece ++ t) ps

end

/-- The characters of a text, each with whether it is code to the scanner. -/
def marks (t : Text) : List (Char × Bool) := t.zip (codeFlags .code t)

/-- The parentheses in code. -/
def codeParens (marked : List (Char × Bool)) : List Char :=
  (marked.filter fun x => x.2 && (x.1 == '(' || x.1 == ')')).map Prod.fst

theorem length_marks (t : Text) : (marks t).length = t.length := by
  rw [marks, List.length_zip, length_codeFlags, Nat.min_self]

theorem zip_flag (flag : Bool) (t : Text) : t.zip (t.map fun _ => flag) = t.map fun c => (c, flag) := by
  induction t with
  | nil => rfl
  | cons c cs ih => rw [List.map_cons, List.zip_cons_cons, ih, List.map_cons]

theorem codeParens_append (xs ys : List (Char × Bool)) :
    codeParens (xs ++ ys) = codeParens xs ++ codeParens ys := by
  rw [codeParens, List.filter_append, List.map_append, codeParens, codeParens]

theorem codeParens_hidden (t : Text) : codeParens (t.map fun c => (c, false)) = [] := by
  simp [codeParens]

theorem codeFlags_escaped {quote c : Char} (hc : c ≠ '\n') (n : Nat) (rest : Text) :
    codeFlags (.escaped quote) (List.replicate n '\n' ++ c :: rest) =
      (List.replicate n '\n' ++ [c]).map (fun _ => false) ++ codeFlags (.quoted quote) rest := by
  induction n with
  | zero => simp [codeFlags, hc]
  | succ n ih =>
      rw [List.replicate_succ, List.cons_append, codeFlags, if_pos rfl, if_neg (by simp), ih]
      rfl

/-- The scanner passes over a string. -/
theorem codeFlags_stringBody {quote : Char} {body : Text} (h : StringBody NextOfLine quote body)
    (hquote : CharClass.isQuote quote = true) (rest : Text) :
    codeFlags (.quoted quote) (body ++ quote :: rest) =
      (body ++ [quote]).map (fun _ => false) ++ codeFlags .code rest := by
  have hline : quote ≠ '\n' := by rintro rfl; cases hquote
  have hslash : quote ≠ '\\' := by rintro rfl; cases hquote
  induction h with
  | nil => simp [codeFlags, hline, hslash]
  | @plain c body slash close _ ih =>
      by_cases hc : c = '\n'
      · simp [codeFlags, hc, ih]
      · simp [codeFlags, hc, slash, close, ih]
  | @escape t body hescape _ ih =>
      obtain ⟨n, c, hc, rfl⟩ := hescape
      have htext : '\\' :: (List.replicate n '\n' ++ [c] ++ body) ++ quote :: rest =
          '\\' :: (List.replicate n '\n' ++ c :: (body ++ quote :: rest)) := by simp
      rw [htext, codeFlags, if_neg (by decide)]
      simp only [if_true]
      rw [codeFlags_escaped hc, ih]
      simp

/-- The line feeds at the front of a text, and the character behind them. -/
theorem lineFeeds_cases (t : Text) :
    (∃ n c rest, c ≠ '\n' ∧ t = List.replicate n '\n' ++ c :: rest) ∨ ∀ c ∈ t, c = '\n' := by
  induction t with
  | nil => exact .inr nofun
  | cons c cs ih =>
      by_cases hc : c = '\n'
      · obtain ⟨n, d, rest, hd, rfl⟩ | hall := ih
        · exact .inl ⟨n + 1, d, rest, hd, by rw [hc]; rfl⟩
        · exact .inr (by simpa [hc] using hall)
      · exact .inl ⟨0, c, cs, hc, rfl⟩

theorem codeFlags_lineFeeds {quote : Char} {t : Text} (h : ∀ c ∈ t, c = '\n') :
    ∀ flag ∈ codeFlags (.escaped quote) t, flag = false := by
  induction t with
  | nil => exact nofun
  | cons c cs ih =>
      have hcs := ih fun d hd => h d (List.mem_cons_of_mem _ hd)
      rw [codeFlags, if_pos (h c List.mem_cons_self), if_neg (by simp)]
      simpa using hcs

/-- A string ends, or all that follows is in it. -/
theorem string_cases (quote : Char) (t : Text) :
    (∃ body rest, t = body ++ quote :: rest ∧ StringBody NextOfLine quote body) ∨
      ∀ flag ∈ codeFlags (.quoted quote) t, flag = false := by
  match t with
  | [] => exact .inr nofun
  | c :: cs =>
      by_cases hslash : c = '\\'
      · subst hslash
        obtain ⟨n, d, later, hd, hcs⟩ | hall := lineFeeds_cases cs
        · obtain ⟨body, rest, hlater, hbody⟩ | hopen := string_cases quote later
          · exact .inl ⟨_, rest, by rw [hcs, hlater]; simp, .escape ⟨n, d, hd, rfl⟩ hbody⟩
          · rw [hcs, codeFlags, if_neg (by decide)]
            simp only [if_true]
            rw [codeFlags_escaped hd]
            exact .inr (by simpa using hopen)
        · have hopen := @codeFlags_lineFeeds quote cs hall
          exact .inr (by simpa [codeFlags] using hopen)
      · by_cases hquote : c = quote
        · exact .inl ⟨[], cs, by rw [hquote]; rfl, .nil⟩
        · obtain ⟨body, rest, rfl, hbody⟩ | hopen := string_cases quote cs
          · exact .inl ⟨c :: body, rest, rfl, .plain hslash hquote hbody⟩
          · refine .inr ?_
            by_cases hc : c = '\n'
            · simpa [codeFlags, hc] using hopen
            · simpa [codeFlags, hc, hslash, hquote] using hopen
termination_by t.length
decreasing_by
  · have := congrArg List.length hcs
    simp only [List.length_append, List.length_replicate, List.length_cons] at this
    rw [List.length_cons]
    omega
  · exact Nat.lt_succ_self _

/-- A comment ends, or all that follows is in it. -/
theorem comment_cases (t : Text) :
    (∃ body rest, t = body ++ '\n' :: rest ∧ '\n' ∉ body) ∨
      ∀ flag ∈ codeFlags .comment t, flag = false := by
  induction t with
  | nil => exact .inr nofun
  | cons c cs ih =>
      by_cases hc : c = '\n'
      · exact .inl ⟨[], cs, by rw [hc]; rfl, nofun⟩
      · obtain ⟨body, rest, rfl, hbody⟩ | hopen := ih
        · exact .inl ⟨c :: body, rest, rfl, by simpa [Ne.symm hc] using hbody⟩
        · exact .inr (by simpa [codeFlags, hc] using hopen)

/-- The scanner passes over strings and comments. -/
theorem marks_hidden {piece : Text} (h : Hidden NextOfLine piece) (rest : Text) :
    marks (piece ++ rest) = (piece.map fun c => (c, false)) ++ marks rest := by
  have hflags : codeFlags .code (piece ++ rest) =
      (piece.map fun _ => false) ++ codeFlags .code rest := by
    cases h with
    | @string quote body hquote hbody =>
        have hline : quote ≠ '\n' := by rintro rfl; cases hquote
        have hstring := codeFlags_stringBody hbody hquote rest
        simp [codeFlags, hline, hquote, hstring]
    | @comment body hline =>
        have hcomment := @codeFlags_lineComment body ('\n' :: rest) hline (by simp)
        simp [codeFlags, CharClass.isQuote, hcomment]
  rw [marks, hflags, List.zip_append (by simp), zip_flag, marks]

theorem marks_code {c : Char} {t : Text} (quote : CharClass.isQuote c = false)
    (comment : ¬ (c = '/' ∧ t.head? = some '/')) : marks (c :: t) = (c, c != '\n') :: marks t := by
  by_cases hline : c = '\n'
  · simp [marks, codeFlags, hline]
  · simp [marks, codeFlags, hline, quote, comment]

theorem Hidden.ne_nil {piece : Text} (h : Hidden NextOfLine piece) : piece ≠ [] := by
  cases h <;> exact List.cons_ne_nil _ _

/-- What a text begins with, as far as the scanner marks it: one character outside strings and comments,
a whole string or comment, or one that is not ended. -/
theorem marks_cases (t : Text) :
    t = [] ∨
    (∃ c cs, t = c :: cs ∧ CharClass.isQuote c = false ∧ ¬ (c = '/' ∧ cs.head? = some '/')) ∨
    (∃ piece rest, t = piece ++ rest ∧ Hidden NextOfLine piece) ∨
    ∀ x ∈ marks t, x.2 = false := by
  have hopen {place : Place} {u : Text} (h : ∀ flag ∈ codeFlags place u, flag = false) :
      ∀ x ∈ u.zip (codeFlags place u), x.2 = false :=
    fun x hx => h _ (List.of_mem_zip hx).2
  cases t with
  | nil => exact .inl rfl
  | cons c cs =>
      refine .inr ?_
      by_cases hquote : CharClass.isQuote c = true
      · have hline : c ≠ '\n' := by rintro rfl; cases hquote
        obtain ⟨body, rest, rfl, hbody⟩ | hstring := string_cases c cs
        · exact .inr (.inl ⟨_, rest, by simp, .string hquote hbody⟩)
        · exact .inr (.inr (hopen (by simpa [codeFlags, hline, hquote] using hstring)))
      by_cases hslash : c = '/' ∧ cs.head? = some '/'
      · obtain ⟨rfl, hhead⟩ := hslash
        obtain ⟨ds, rfl⟩ := List.head?_eq_some_iff.1 hhead
        obtain ⟨body, rest, rfl, hbody⟩ | hcomment := comment_cases ds
        · exact .inr (.inl ⟨_, rest, by simp, .comment hbody⟩)
        · exact .inr (.inr (hopen (by simpa [codeFlags, CharClass.isQuote] using hcomment)))
      · exact .inl ⟨c, cs, rfl, by simpa using hquote, hslash⟩

/-- The parentheses of a text that ends outside strings and comments are those that the scanner takes for
code, whatever follows. -/
theorem codeParens_of_parens {t ps : Text} (h : Parens NextOfLine t ps) (rest : Text) :
    codeParens ((marks (t ++ rest)).take t.length) = ps := by
  induction h with
  | nil => rfl
  | @code c t ps quote comment hrest ih =>
      by_cases hslash : c = '/' ∧ (t ++ rest).head? = some '/'
      · obtain ⟨rfl, hhead⟩ := hslash
        have ht : t = [] := by
          cases t with
          | nil => rfl
          | cons d ds => exact absurd ⟨rfl, hhead⟩ comment
        subst ht
        rw [List.length_nil, List.take_zero] at ih
        obtain ⟨flag, hflag⟩ : ∃ flag, (marks ('/' :: rest)).take 1 = [('/', flag)] := by
          rw [marks]
          cases hflags : codeFlags .code ('/' :: rest) with
          | nil => simpa [hflags] using length_codeFlags ('/' :: rest) .code
          | cons flag flags => exact ⟨flag, rfl⟩
        rw [List.singleton_append, List.length_singleton, hflag, if_neg (by decide), ← ih]
        cases flag <;> rfl
      · rw [List.cons_append, marks_code quote hslash, List.length_cons, List.take_succ_cons,
          ← List.singleton_append, codeParens_append, ih]
        by_cases hparen : c = '(' ∨ c = ')'
        · rw [if_pos hparen]
          obtain rfl | rfl := hparen <;> rfl
        · have hnone : codeParens [(c, c != '\n')] = [] := by
            simp only [not_or] at hparen
            simp [codeParens, hparen]
          rw [if_neg hparen, hnone, List.nil_append]
  | @hidden piece t ps hpiece hrest ih =>
      rw [List.append_assoc, marks_hidden hpiece, List.length_append,
        ← List.length_map (fun c : Char => (c, false)), List.take_length_add_append, codeParens_append,
        codeParens_hidden, ih, List.nil_append]

/-- A character that the scanner takes for code ends a text outside strings and comments. -/
theorem exists_parens {t : Text} {n : Nat} {c : Char} (h : (marks t)[n]? = some (c, true)) :
    ∃ ps, Parens NextOfLine (t.take (n + 1)) ps := by
  obtain rfl | ⟨d, cs, rfl, hquote, hcomment⟩ | ⟨piece, rest, ht, hpiece⟩ | hopen := marks_cases t
  · cases h
  · cases n with
    | zero => exact ⟨_, .code hquote (by simp) .nil⟩
    | succ n =>
        rw [marks_code hquote hcomment, List.getElem?_cons_succ] at h
        obtain ⟨ps, hps⟩ := exists_parens h
        refine ⟨_, .code hquote ?_ hps⟩
        rw [List.head?_take, if_neg (Nat.succ_ne_zero n)]
        exact hcomment
  · rw [ht, marks_hidden hpiece] at h
    by_cases hn : n < piece.length
    · rw [List.getElem?_append_left (by simpa using hn), List.getElem?_map] at h
      obtain ⟨d, -, hd⟩ := Option.map_eq_some_iff.1 h
      cases hd
    · obtain ⟨m, rfl⟩ := Nat.exists_eq_add_of_le (Nat.le_of_not_lt hn)
      rw [List.getElem?_append_right (by simp), List.length_map, Nat.add_sub_cancel_left] at h
      have hshorter : rest.length < t.length := by
        have := List.length_pos_iff.2 hpiece.ne_nil
        rw [ht, List.length_append]
        omega
      obtain ⟨ps, hps⟩ := exists_parens h
      refine ⟨ps, ?_⟩
      rw [ht, Nat.add_assoc, List.take_length_add_append]
      exact .hidden hpiece hps
  · cases hopen _ (List.mem_of_getElem? h)
termination_by t.length

/-- Whether the parentheses at the front of a text close a given depth. -/
def ClosesAt (depth : Nat) (marked : List (Char × Bool)) (n : Nat) : Prop :=
  (codeParens (marked.take n)).count ')' = depth + (codeParens (marked.take n)).count '('

/-- Whether they leave some of the depth open. -/
def OpenAt (depth : Nat) (marked : List (Char × Bool)) (n : Nat) : Prop :=
  (codeParens (marked.take n)).count ')' < depth + (codeParens (marked.take n)).count '('

theorem codeParens_cons (x : Char × Bool) (xs : List (Char × Bool)) :
    codeParens (x :: xs) = if x = ('(', true) ∨ x = (')', true) then x.1 :: codeParens xs
      else codeParens xs := by
  obtain ⟨c, isCode⟩ := x
  cases isCode with
  | false => simp [codeParens]
  | true =>
      by_cases hparen : c = '(' ∨ c = ')'
      · simp [codeParens, hparen]
      · simp [codeParens, hparen]

/-- An opening parenthesis leaves one more to close. -/
theorem depth_open (depth : Nat) (xs : List (Char × Bool)) (n : Nat) :
    (OpenAt depth (('(', true) :: xs) (n + 1) ↔ OpenAt (depth + 1) xs n) ∧
      (ClosesAt depth (('(', true) :: xs) (n + 1) ↔ ClosesAt (depth + 1) xs n) := by
  rw [OpenAt, OpenAt, ClosesAt, ClosesAt, List.take_succ_cons, codeParens_cons, if_pos (.inl rfl),
    List.count_cons_self, List.count_cons_of_ne (by decide)]
  omega

theorem depth_close (depth : Nat) (xs : List (Char × Bool)) (n : Nat) :
    (OpenAt (depth + 1) ((')', true) :: xs) (n + 1) ↔ OpenAt depth xs n) ∧
      (ClosesAt (depth + 1) ((')', true) :: xs) (n + 1) ↔ ClosesAt depth xs n) := by
  rw [OpenAt, OpenAt, ClosesAt, ClosesAt, List.take_succ_cons, codeParens_cons, if_pos (.inr rfl),
    List.count_cons_self, List.count_cons_of_ne (by decide)]
  omega

theorem depth_other {x : Char × Bool} (hopen : x ≠ ('(', true)) (hclose : x ≠ (')', true)) (depth : Nat)
    (xs : List (Char × Bool)) (n : Nat) :
    (OpenAt depth (x :: xs) (n + 1) ↔ OpenAt depth xs n) ∧
      (ClosesAt depth (x :: xs) (n + 1) ↔ ClosesAt depth xs n) := by
  rw [OpenAt, OpenAt, ClosesAt, ClosesAt, List.take_succ_cons, codeParens_cons,
    if_neg (not_or.2 ⟨hopen, hclose⟩)]
  exact ⟨Iff.rfl, Iff.rfl⟩

/-- The search for a closing parenthesis ends where the depth is closed for the first time. -/
theorem closingEnd?_cases {depth : Nat} (hdepth : 0 < depth) (marked : List (Char × Bool)) :
    (closingEnd? depth marked = none ∧ ∀ n, OpenAt depth marked n) ∨
      ∃ n, closingEnd? depth marked = some n ∧ ClosesAt depth marked n ∧
        ∀ m < n, OpenAt depth marked m := by
  induction marked generalizing depth with
  | nil => exact .inl ⟨rfl, fun n => by simpa [OpenAt, codeParens] using hdepth⟩
  | cons x xs ih =>
      have hzero : OpenAt depth (x :: xs) 0 := by simpa [OpenAt, codeParens] using hdepth
      -- the rest is searched at the depth behind the first character
      have hlater {depth' : Nat} (hdepth' : 0 < depth')
          (hclosing : closingEnd? depth (x :: xs) = (closingEnd? depth' xs).map (· + 1))
          (hat : ∀ n, (OpenAt depth (x :: xs) (n + 1) ↔ OpenAt depth' xs n) ∧
            (ClosesAt depth (x :: xs) (n + 1) ↔ ClosesAt depth' xs n)) :
          (closingEnd? depth (x :: xs) = none ∧ ∀ n, OpenAt depth (x :: xs) n) ∨
            ∃ n, closingEnd? depth (x :: xs) = some n ∧ ClosesAt depth (x :: xs) n ∧
              ∀ m < n, OpenAt depth (x :: xs) m := by
        obtain ⟨hnone, hall⟩ | ⟨n, hsome, hcloses, hbefore⟩ := ih hdepth'
        · refine .inl ⟨by rw [hclosing, hnone]; rfl, fun n => ?_⟩
          cases n with
          | zero => exact hzero
          | succ n => exact (hat n).1.2 (hall n)
        · refine .inr ⟨n + 1, by rw [hclosing, hsome]; rfl, (hat n).2.2 hcloses, fun m hm => ?_⟩
          cases m with
          | zero => exact hzero
          | succ m => exact (hat m).1.2 (hbefore m (Nat.lt_of_succ_lt_succ hm))
      obtain ⟨c, isCode⟩ := x
      by_cases hopening : c = '(' ∧ isCode = true
      · obtain ⟨rfl, rfl⟩ := hopening
        exact hlater (Nat.succ_pos depth) (by rw [closingEnd?, if_pos ⟨rfl, rfl⟩]) (depth_open depth xs)
      by_cases hclosing : c = ')' ∧ isCode = true
      · obtain ⟨rfl, rfl⟩ := hclosing
        obtain ⟨depth, rfl⟩ := Nat.exists_eq_add_of_lt hdepth
        rw [Nat.zero_add] at hlater hzero ⊢
        by_cases hlast : depth = 0
        · subst hlast
          refine .inr ⟨1, rfl, by simp [ClosesAt, codeParens], fun m hm => ?_⟩
          obtain rfl : m = 0 := by omega
          exact hzero
        · exact hlater (Nat.pos_of_ne_zero hlast)
            (by rw [closingEnd?, if_neg (by decide), if_pos ⟨rfl, rfl⟩, if_neg (by omega), Nat.add_sub_cancel])
            (depth_close depth xs)
      · refine hlater hdepth (by rw [closingEnd?, if_neg hopening, if_neg hclosing])
          (depth_other ?_ ?_ depth xs)
        · exact fun heq => hopening (Prod.mk.inj heq)
        · exact fun heq => hclosing (Prod.mk.inj heq)

end PugSize.MixinCall
