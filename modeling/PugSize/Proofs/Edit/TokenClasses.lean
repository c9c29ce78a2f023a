import PugSize.Proofs.Edit.ByteClasses
import PugSize.Proofs.Script.Tokens

/-!
The classes of bytes, told by tokens. Lexeme by lexeme, the bytes of a comment are comments, what stands
between the quotes of a literal is literal, and all else is code as deep as the brackets of the tokens
before it make it.
-/

namespace PugSize

namespace Script

/-- The stretches of the comments among lexemes, the first of which begins at an offset. -/
def commentSpansFrom (offset : Nat) : List Lexeme → List Span
  | [] => []
  | l :: ls =>
    let later := commentSpansFrom (offset + l.text.width) ls
    if l.isComment then ⟨offset, offset + l.text.width⟩ :: later else later

/-- The stretches of a text that are skipped as comments. -/
def commentSpans (t : Text) : List Span := commentSpansFrom 0 (scan t).1

theorem start_commentSpansFrom {offset : Nat} {ls : List Lexeme} :
    ∀ s ∈ commentSpansFrom offset ls, offset ≤ s.start := by
  induction ls generalizing offset with
  | nil => nofun
  | cons l ls ih =>
      have hlater : ∀ s ∈ commentSpansFrom (offset + l.text.width) ls, offset ≤ s.start :=
        fun s hs => Nat.le_trans (Nat.le_add_right _ _) (ih s hs)
      rw [commentSpansFrom]
      split
      · exact List.forall_mem_cons.2 ⟨Nat.le_refl _, hlater⟩
      · exact hlater

/-- Whether a token stands between quotes. -/
def Token.isQuoted (t : Token) : Bool := t.kind == .str || t.kind == .template

/-- How many brackets are open in front of a byte, told by the tokens that begin before it. A closing
bracket too many changes nothing. -/
def depthBefore (depth : Nat) (ts : List Token) (i : Nat) : Nat :=
  (ts.filter fun tok => tok.start < i).foldl
    (fun depth tok => Lexeme.depthBehind depth ⟨.token tok.kind, tok.text⟩) depth

theorem depthBefore_of_le {ts : List Token} {i : Nat} (h : ∀ tok ∈ ts, i ≤ tok.start) (depth : Nat) :
    depthBefore depth ts i = depth := by
  have hnone : ts.filter (fun tok => tok.start < i) = [] := by
    rw [List.filter_eq_nil_iff]
    intro tok htok
    have := h tok htok
    simpa using this
  rw [depthBefore, hnone]
  rfl

theorem depthBefore_cons {tok : Token} {i : Nat} (h : tok.start < i) (depth : Nat) (ts : List Token) :
    depthBefore depth (tok :: ts) i =
      depthBefore (Lexeme.depthBehind depth ⟨.token tok.kind, tok.text⟩) ts i := by
  rw [depthBefore, List.filter_cons_of_pos (by simpa using h)]
  rfl

end Script

namespace CharClass

open Script

theorem ofTextFrom_blanks {t : Text} (h : ∀ c ∈ t, isSkipped c = true) (depth : Nat) (rest : Text) :
    ofTextFrom .code depth (t ++ rest) =
      t.map (fun _ => code depth) ++ ofTextFrom .code depth rest := by
  induction t with
  | nil => rfl
  | cons c cs ih =>
      obtain ⟨hc, hcs⟩ := List.forall_mem_cons.1 h
      rw [List.cons_append, ofTextFrom_blank hc, ih hcs]
      rfl

/-- A lexeme that stands is classified as a whole, and its bracket counts for what follows. -/
theorem ofTextFrom_stands {l : Lexeme} {rest : Text} (h : l.Stands rest) (depth : Nat) :
    ofTextFrom .code depth (l.text ++ rest) =
      ofLexeme depth l ++ ofTextFrom .code (l.depthBehind depth) rest := by
  by_cases hplain : l.isPlain = true
  · rw [Lexeme.depthBehind_plain hplain]
    exact ofTextFrom_lexeme h hplain depth
  have hblank : l.kind ≠ .trivia .blank := by
    intro hkind
    simp [Lexeme.isPlain, hkind] at hplain
  have hspelling := h.spelling hblank
  obtain ⟨kind, text⟩ := l
  simp only at hspelling hplain ⊢
  cases hspelling with
  | lineComment hbody => exact absurd rfl hplain
  | blockComment hbody => exact absurd rfl hplain
  | quoted hquote hbody =>
      obtain ⟨-, rfl⟩ | ⟨-, rfl⟩ := quoteKind?_eq_some hquote <;> exact absurd rfl hplain
  | mark hmark =>
      have hmem := markKind?_eq_some hmark
      simp only [List.mem_cons, Prod.mk.injEq, List.not_mem_nil, or_false] at hmem
      obtain ⟨rfl, rfl⟩ | ⟨rfl, rfl⟩ | ⟨rfl, rfl⟩ | ⟨rfl, rfl⟩ | ⟨rfl, rfl⟩ | ⟨rfl, rfl⟩ |
        ⟨rfl, rfl⟩ | ⟨rfl, rfl⟩ := hmem <;> rfl
  | slash => exact absurd rfl hplain
  | word hword hne hneutral =>
      simp only [List.mem_cons, List.not_mem_nil, or_false] at hword
      obtain rfl | rfl | rfl | rfl := hword <;> exact absurd rfl hplain

/-- The first lexeme of a text, with what follows it. -/
theorem ofTextFrom_firstLexeme {t : Text} {kind : LexemeKind} {n : Nat}
    (h : firstLexeme? t = some (kind, n)) (depth : Nat) :
    (ofLexeme depth ⟨kind, t.take n⟩).length = (t.take n).length ∧
      ofTextFrom .code depth t = ofLexeme depth ⟨kind, t.take n⟩ ++
        ofTextFrom .code (Lexeme.depthBehind depth ⟨kind, t.take n⟩) (t.drop n) := by
  have hsplit : t.take n ++ t.drop n = t := List.take_append_drop n t
  by_cases hblank : kind = .trivia .blank
  · subst hblank
    have hclass := inClass_of_firstLexeme? h
    have hskipped : ∀ c ∈ t.take n, isSkipped c = true := by
      generalize hkind : LexemeKind.trivia .blank = kind at hclass
      generalize t.take n = u at hclass
      cases hclass with
      | blank first hs => exact List.forall_mem_cons.2 ⟨first, hs⟩
      | _ => cases hkind
    have hclasses := ofTextFrom_blanks hskipped depth (t.drop n)
    rw [hsplit] at hclasses
    exact ⟨List.length_map _, hclasses⟩
  · have hlength : (t.take n).length = n := by
      rw [List.length_take, Nat.min_eq_left (firstLexeme?_le_length h)]
    have hstands : Lexeme.Stands ⟨kind, t.take n⟩ (t.drop n) := by
      rw [Lexeme.stands_other hblank]
      simp only [hsplit, h, hlength]
    have hclasses := ofTextFrom_stands hstands depth
    rw [hsplit] at hclasses
    exact ⟨length_ofLexeme hstands depth, hclasses⟩

/-- The classes of the bytes of a lexeme. -/
theorem perByte_ofLexeme {t : Text} {kind : LexemeKind} {n : Nat} (h : firstLexeme? t = some (kind, n))
    (depth : Nat) {j : Nat} (hj : j < Text.width (t.take n)) :
    (perByte (t.take n) (ofLexeme depth ⟨kind, t.take n⟩))[j]? = some
      (if Lexeme.isComment ⟨kind, t.take n⟩ then comment
      else if (kind = .token .str ∨ kind = .token .template) ∧ 0 < j ∧ j + 1 < Text.width (t.take n) then
        literal
      else code depth) := by
  have hclass := inClass_of_firstLexeme? h
  generalize t.take n = u at hclass hj ⊢
  have hcode : (perByte u (u.map fun _ => code depth))[j]? = some (code depth) := by
    rw [perByte_map, List.getElem?_replicate_of_lt hj]
  have hcomment : (perByte u (u.map fun _ => comment))[j]? = some comment := by
    rw [perByte_map, List.getElem?_replicate_of_lt hj]
  cases hclass with
  | lineComment hbody => exact hcomment
  | blockComment hbody => exact hcomment
  | @quoted quote body kind hquote hbody =>
      have hkind : kind = .str ∨ kind = .template := by
        obtain ⟨-, rfl⟩ | ⟨-, rfl⟩ := quoteKind?_eq_some hquote
        · exact .inl rfl
        · exact .inr rfl
      have hsize : quote.utf8Size = 1 := by
        obtain ⟨rfl | rfl, -⟩ | ⟨rfl, -⟩ := quoteKind?_eq_some hquote <;> rfl
      have hclasses : perByte (quote :: body ++ [quote]) (ofLexeme depth
          ⟨.token kind, quote :: body ++ [quote]⟩) =
          code depth :: (List.replicate body.width literal ++ [code depth]) := by
        have hlexeme : ofLexeme depth ⟨.token kind, quote :: body ++ [quote]⟩ =
            code depth :: (body.map fun _ => literal) ++ [code depth] := by
          obtain rfl | rfl := hkind <;> simp [ofLexeme]
        rw [hlexeme, List.cons_append, List.cons_append, perByte_cons, perByte_append (by simp),
          perByte_map, perByte_cons, hsize]
        rfl
      have hwidth : Text.width (quote :: body ++ [quote]) = body.width + 2 := by
        simp [hsize]
        omega
      have hnone : ¬ Lexeme.isComment ⟨.token kind, quote :: body ++ [quote]⟩ = true := by
        simp [Lexeme.isComment]
      rw [hwidth] at hj
      rw [hclasses, hwidth, if_neg hnone]
      cases j with
      | zero => rw [if_neg (by omega), List.getElem?_cons_zero]
      | succ j =>
          rw [List.getElem?_cons_succ]
          by_cases hlast : j < body.width
          · rw [if_pos ⟨by simpa using hkind, by omega, by omega⟩,
              List.getElem?_append_left (by rwa [List.length_replicate]),
              List.getElem?_replicate_of_lt hlast]
          · obtain rfl : j = body.width := by omega
            rw [if_neg (by omega), List.getElem?_append_right (by rw [List.length_replicate]),
              List.length_replicate, Nat.sub_self]
            rfl
  | mark hmark =>
      have hmem := markKind?_eq_some hmark
      simp only [List.mem_cons, Prod.mk.injEq, List.not_mem_nil, or_false] at hmem
      obtain ⟨rfl, rfl⟩ | ⟨rfl, rfl⟩ | ⟨rfl, rfl⟩ | ⟨rfl, rfl⟩ | ⟨rfl, rfl⟩ | ⟨rfl, rfl⟩ |
        ⟨rfl, rfl⟩ | ⟨rfl, rfl⟩ := hmem <;> exact hcode
  | blank | ident | decimal | point | hexadecimal | spread | punct => exact hcode

/-- A token of more than one byte is no bracket. -/
theorem depthBehind_of_wide {t : Text} {kind : LexemeKind} {n : Nat}
    (h : firstLexeme? t = some (kind, n)) (hwide : 1 < Text.width (t.take n)) (depth : Nat) :
    Lexeme.depthBehind depth ⟨kind, t.take n⟩ = depth := by
  have hclass := inClass_of_firstLexeme? h
  generalize t.take n = u at hclass hwide ⊢
  cases hclass with
  | quoted hquote hbody => obtain ⟨-, rfl⟩ | ⟨-, rfl⟩ := quoteKind?_eq_some hquote <;> rfl
  | mark hmark =>
      have hmem := markKind?_eq_some hmark
      simp only [List.mem_cons, Prod.mk.injEq, List.not_mem_nil, or_false] at hmem
      obtain ⟨rfl, rfl⟩ | ⟨rfl, rfl⟩ | ⟨rfl, rfl⟩ | ⟨rfl, rfl⟩ | ⟨rfl, rfl⟩ | ⟨rfl, rfl⟩ |
        ⟨rfl, rfl⟩ | ⟨rfl, rfl⟩ := hmem <;> exact absurd hwide (by decide)
  | _ => rfl

/-- Whether a byte of lexemes that begin at an offset, at a bracket depth, has the class that their tokens
and comments tell. -/
structure Told (offset depth : Nat) (ls : List Lexeme) (i : Nat) (k : Option CharClass) : Prop where
  comment : k = some comment ↔ ∃ s ∈ commentSpansFrom offset ls, s.start ≤ i ∧ i < s.stop
  literal : k = some literal ↔
    ∃ tok ∈ Token.ofLexemes offset ls, tok.isQuoted = true ∧ tok.start < i ∧ i + 1 < tok.stop
  code : k = some .comment ∨ k = some .literal ∨
    k = some (code (depthBefore depth (Token.ofLexemes offset ls) i))

section

variable {offset depth i : Nat} {l : Lexeme} {ls : List Lexeme}

theorem mem_ofLexemes_cons {tok : Token} : tok ∈ Token.ofLexemes offset (l :: ls) ↔
    (l.kind = .token tok.kind ∧ l.text = tok.text ∧ tok.start = offset) ∨
      tok ∈ Token.ofLexemes (offset + l.text.width) ls := by
  obtain ⟨kind, text⟩ := l
  obtain ⟨tokKind, tokText, start⟩ := tok
  cases kind with
  | trivia kind => simp [Token.ofLexemes]
  | token kind => simp [Token.ofLexemes, eq_comm]

theorem mem_commentSpansFrom_cons {s : Span} : s ∈ commentSpansFrom offset (l :: ls) ↔
    (l.isComment = true ∧ s = ⟨offset, offset + l.text.width⟩) ∨
      s ∈ commentSpansFrom (offset + l.text.width) ls := by
  rw [commentSpansFrom]
  split
  · rename_i hcomment
    simp [hcomment]
  · rename_i hcomment
    simp [hcomment]

/-- A byte behind the first lexeme is told by the others. -/
theorem Told.cons {k : Option CharClass} (hpos : 0 < l.text.width) (hi : offset + l.text.width ≤ i)
    (h : Told (offset + l.text.width) (l.depthBehind depth) ls i k) : Told offset depth (l :: ls) i k := by
  refine ⟨h.comment.trans ?_, h.literal.trans ?_, ?_⟩
  · constructor
    · rintro ⟨s, hs, hin⟩
      exact ⟨s, mem_commentSpansFrom_cons.2 (.inr hs), hin⟩
    · rintro ⟨s, hs, hin⟩
      obtain ⟨-, rfl⟩ | hs := mem_commentSpansFrom_cons.1 hs
      · exact absurd hin.2 (Nat.not_lt.2 hi)
      · exact ⟨s, hs, hin⟩
  · constructor
    · rintro ⟨tok, htok, hin⟩
      exact ⟨tok, mem_ofLexemes_cons.2 (.inr htok), hin⟩
    · rintro ⟨tok, htok, hin⟩
      obtain ⟨-, htext, hstart⟩ | htok := mem_ofLexemes_cons.1 htok
      · have hstop : tok.stop ≤ i := by rw [Token.stop, hstart, ← htext]; exact hi
        omega
      · exact ⟨tok, htok, hin⟩
  · have hdepth : depthBefore depth (Token.ofLexemes offset (l :: ls)) i =
        depthBefore (l.depthBehind depth) (Token.ofLexemes (offset + l.text.width) ls) i := by
      obtain ⟨kind, text⟩ := l
      cases kind with
      | trivia kind => rfl
      | token kind => exact depthBefore_cons (by simp only at hi hpos ⊢; omega) depth _
    rw [hdepth]
    exact h.code

section

variable (hi : offset ≤ i) (hstop : i < offset + l.text.width)

include hi hstop

/-- A byte of the first lexeme stands in a comment if and only if the lexeme is one. -/
theorem inComment_head : (∃ s ∈ commentSpansFrom offset (l :: ls), s.start ≤ i ∧ i < s.stop) ↔
    l.isComment = true := by
  constructor
  · rintro ⟨s, hs, hin⟩
    obtain ⟨hcomment, -⟩ | hs := mem_commentSpansFrom_cons.1 hs
    · exact hcomment
    · have := start_commentSpansFrom s hs
      omega
  · intro hcomment
    exact ⟨_, mem_commentSpansFrom_cons.2 (.inl ⟨hcomment, rfl⟩), hi, hstop⟩

/-- A byte of the first lexeme stands between quotes if and only if the lexeme is quoted and the byte is
neither its first nor its last. -/
theorem quoted_head : (∃ tok ∈ Token.ofLexemes offset (l :: ls),
      tok.isQuoted = true ∧ tok.start < i ∧ i + 1 < tok.stop) ↔
    (l.kind = .token .str ∨ l.kind = .token .template) ∧ 0 < i - offset ∧ i - offset + 1 < l.text.width := by
  constructor
  · rintro ⟨tok, htok, hquoted, hin⟩
    obtain ⟨hkind, htext, hstart⟩ | htok := mem_ofLexemes_cons.1 htok
    · rw [Token.stop, ← htext, hstart] at hin
      refine ⟨?_, by omega, by omega⟩
      rw [hkind]
      simpa [Token.isQuoted] using hquoted
    · have := (ofLexemes_inOrder _ _).2 tok htok
      omega
  · rintro ⟨hkind, hin⟩
    obtain ⟨kind, hlkind, hquoted⟩ : ∃ kind, l.kind = .token kind ∧ (kind = .str ∨ kind = .template) := by
      obtain hkind | hkind := hkind
      · exact ⟨_, hkind, .inl rfl⟩
      · exact ⟨_, hkind, .inr rfl⟩
    refine ⟨⟨kind, l.text, offset⟩, mem_ofLexemes_cons.2 (.inl ⟨hlkind, rfl, rfl⟩), ?_, ?_, ?_⟩
    · simpa [Token.isQuoted] using hquoted
    · change offset < i
      omega
    · change i + 1 < offset + l.text.width
      omega

/-- No bracket stands before a byte of the first lexeme, which is none itself if it has further bytes. -/
theorem depthBefore_head (hwide : 1 < l.text.width → l.depthBehind depth = depth) :
    depthBefore depth (Token.ofLexemes offset (l :: ls)) i = depth := by
  have hlater (depth : Nat) :
      depthBefore depth (Token.ofLexemes (offset + l.text.width) ls) i = depth :=
    depthBefore_of_le (fun tok htok => by have := (ofLexemes_inOrder _ _).2 tok htok; omega) depth
  obtain ⟨kind, text⟩ := l
  cases kind with
  | trivia kind => exact hlater depth
  | token kind =>
      obtain rfl | hlt := Nat.eq_or_lt_of_le hi
      · exact depthBefore_of_le (fun tok htok => (ofLexemes_inOrder _ _).2 tok htok) depth
      · have hbehind := hwide (by simp only at hstop ⊢; omega)
        exact (depthBefore_cons hlt depth _).trans ((hlater _).trans hbehind)

/-- A byte of the first lexeme is told by that lexeme. -/
theorem Told.head (hwide : 1 < l.text.width → l.depthBehind depth = depth) :
    Told offset depth (l :: ls) i (some
      (if l.isComment then .comment
      else if (l.kind = .token .str ∨ l.kind = .token .template) ∧ 0 < i - offset ∧
        i - offset + 1 < l.text.width then .literal
      else .code depth)) := by
  refine ⟨?_, ?_, ?_⟩
  · rw [inComment_head hi hstop]
    split
    · rename_i hcomment
      simp [hcomment]
    · rename_i hcomment
      split <;> simp [hcomment]
  · rw [quoted_head hi hstop]
    split
    · rename_i hcomment
      have hkind : ¬ (l.kind = .token .str ∨ l.kind = .token .template) := by
        simp only [Lexeme.isComment, Bool.or_eq_true, beq_iff_eq] at hcomment
        obtain hcomment | hcomment := hcomment <;> simp [hcomment]
      simp [hkind]
    · split
      · rename_i hinside
        exact iff_of_true rfl hinside
      · rename_i hinside
        exact iff_of_false (by simp) hinside
  · rw [depthBefore_head hi hstop hwide]
    split
    · exact .inl rfl
    · split
      · exact .inr (.inl rfl)
      · exact .inr (.inr rfl)

end

end

/-- Every byte of a text that is cut into lexemes has the class that its tokens and comments tell. -/
theorem told_scan {t : Text} (h : (scan t).2 = []) (offset depth i : Nat) (hi : offset ≤ i)
    (hstop : i < offset + t.width) :
    Told offset depth (scan t).1 i (perByte t (ofTextFrom .code depth t))[i - offset]? := by
  fun_induction scan t generalizing offset depth with
  | case1 t hnone =>
      obtain rfl : t = [] := h
      exact absurd hstop (by rw [Text.width_nil]; omega)
  | case2 t kind n hfirst later rest hscan ih =>
      rw [hscan] at ih
      obtain ⟨hlength, hclasses⟩ := ofTextFrom_firstLexeme hfirst depth
      have hbytes : perByte t (ofTextFrom .code depth t) =
          perByte (t.take n) (ofLexeme depth ⟨kind, t.take n⟩) ++ perByte (t.drop n)
            (ofTextFrom .code (Lexeme.depthBehind depth ⟨kind, t.take n⟩) (t.drop n)) := by
        rw [hclasses, ← perByte_append hlength.symm, List.take_append_drop]
      have hwidth : t.width = Text.width (t.take n) + Text.width (t.drop n) := by
        rw [← Text.width_append, List.take_append_drop]
      have hfront := length_perByte hlength.symm
      by_cases hhead : i < offset + Text.width (t.take n)
      · rw [hbytes, List.getElem?_append_left (by omega),
          perByte_ofLexeme hfirst depth (by omega)]
        exact Told.head hi hhead fun hwide => depthBehind_of_wide hfirst hwide depth
      · have hbehind := Nat.le_of_not_lt hhead
        have hpos : 0 < Text.width (t.take n) := by
          have hn := firstLexeme?_length_pos hfirst
          have hle := firstLexeme?_le_length hfirst
          refine Text.width_pos (List.length_pos_iff.1 ?_)
          rw [List.length_take]
          omega
        have hlater := ih h (offset + Text.width (t.take n))
          (Lexeme.depthBehind depth ⟨kind, t.take n⟩) hbehind (by omega)
        rw [hbytes, List.getElem?_append_right (by omega), hfront, Nat.sub_sub]
        exact Told.cons hpos hbehind hlater

/-- Reading a text byte by byte gives every byte one class, that of its character. Where the text has
tokens, the bytes of the comments between them are comments, what stands strictly between the quotes of a
literal is literal, and every other byte is code at the depth that the brackets among the tokens in front
of it make. -/
theorem ofText_bytes_told (t : Text) :
    ofText t.bytes = ofBytes t ∧ (ofText t.bytes).length = t.width ∧
    ∀ ts, tokenize t = .ok ts → ∀ i < t.width,
      let inComment := ∃ s ∈ commentSpans t, s.start ≤ i ∧ i < s.stop
      let inQuotes := ∃ tok ∈ ts, tok.isQuoted = true ∧ tok.start < i ∧ i + 1 < tok.stop
      ((ofText t.bytes)[i]? = some .comment ↔ inComment) ∧
      ((ofText t.bytes)[i]? = some .literal ↔ inQuotes) ∧
      (¬ inComment → ¬ inQuotes → (ofText t.bytes)[i]? = some (.code (depthBefore 0 ts i))) := by
  refine ⟨ofText_bytes t, ?_, fun ts hts i hi => ?_⟩
  · rw [ofText_bytes, ofBytes_eq]
    exact length_perByte (length_ofText t).symm
  · obtain ⟨hrest, rfl⟩ : (scan t).2 = [] ∧ Token.ofLexemes 0 (scan t).1 = ts := by
      unfold tokenize at hts
      split at hts
      · rename_i ls hls
        cases hts
        rw [hls]
        exact ⟨rfl, rfl⟩
      · cases hts
    have htold := told_scan hrest 0 0 i (Nat.zero_le i) (by omega)
    rw [Nat.sub_zero] at htold
    rw [ofText_bytes]
    refine ⟨htold.comment, htold.literal, fun hcomment hquotes => ?_⟩
    obtain hclass | hclass | hclass := htold.code
    · exact absurd (htold.comment.1 hclass) hcomment
    · exact absurd (htold.literal.1 hclass) hquotes
    · exact hclass

/-- A comment that looks closed at once, a closing bracket too many, and an escape before two bytes. -/
theorem ofText_bytes_told_unbalanced :
    let t : Text := "[/*/ é*/)) '\\é]'(".toList
    ∃ ts, tokenize t = .ok ts ∧ ts.map Token.span = [⟨0, 1⟩, ⟨9, 10⟩, ⟨10, 11⟩, ⟨12, 18⟩, ⟨18, 19⟩] ∧
      (ofText t.bytes)[6]? = some .comment ∧ (ofText t.bytes)[15]? = some .literal ∧
      (ofText t.bytes)[9]? = some (.code 1) ∧ (ofText t.bytes)[17]? = some (.code 0) := by
  intro t
  have htokens : tokenize t = .ok [⟨.lbracket, ['['], 0⟩, ⟨.rparen, [')'], 9⟩, ⟨.rparen, [')'], 10⟩,
      ⟨.str, ['\'', '\\', 'é', ']', '\''], 12⟩, ⟨.lparen, ['('], 18⟩] := by decide +kernel
  have hcomments : commentSpans t = [⟨1, 9⟩] := by decide +kernel
  have hwidth : t.width = 19 := by decide +kernel
  have htold (i : Nat) (hi : i < 19) := (ofText_bytes_told t).2.2 _ htokens i (by rwa [hwidth])
  simp only [hcomments] at htold
  refine ⟨_, htokens, rfl, ?_, ?_, ?_, ?_⟩
  · exact (htold 6 (by decide)).1.2 (by decide)
  · exact (htold 15 (by decide)).2.1.2 (by decide)
  · exact (htold 9 (by decide)).2.2 (by decide) (by decide)
  · exact (htold 17 (by decide)).2.2 (by decide) (by decide)

end CharClass
end PugSize
