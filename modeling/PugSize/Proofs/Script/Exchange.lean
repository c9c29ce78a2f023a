import Mathlib.Data.List.Basic
import PugSize.Proofs.Script.Legible

/-!
Lexemes before another text. What stands behind legible lexemes can be exchanged if the last of them
is closed, or if it stands before the new text and that text goes on with no token before it.
-/

namespace PugSize.Script

theorem Spelling.lineComment_eq {t : Text} (h : Spelling (.trivia .lineComment) t) :
    ∃ body, t = '/' :: '/' :: body ∧ '\n' ∉ body := by
  cases h with
  | lineComment hbody => exact ⟨_, rfl, hbody⟩

namespace Lexeme

theorem Stands.lineComment {l : Lexeme} {rest : Text} (h : l.Stands rest)
    (hkind : l.kind = .trivia .lineComment) :
    (∃ body, l.text = '/' :: '/' :: body ∧ '\n' ∉ body) ∧ ∀ c, rest.head? = some c → c = '\n' := by
  have hne : l.kind ≠ .trivia .blank := by
    rw [hkind]
    exact nofun
  have hspelling := h.spelling hne
  rw [hkind] at hspelling
  obtain ⟨body, htext, hbody⟩ := hspelling.lineComment_eq
  refine ⟨⟨body, htext, hbody⟩, ?_⟩
  intro c hc
  obtain ⟨cs, rfl⟩ := List.head?_eq_some_iff.1 hc
  have hfirst := (stands_other hne).1 h
  rw [htext, List.cons_append, List.cons_append, firstLexeme?, if_neg (by decide),
    if_neg (by decide), if_neg (by decide), if_pos rfl, slashLexeme?] at hfirst
  simp only [Option.some.injEq, Prod.mk.injEq, List.length_cons] at hfirst
  have hrun : run (· != '\n') (body ++ c :: cs) = body.length := by omega
  apply Classical.byContradiction
  intro hne
  have hall : body.takeWhile (· != '\n') = body :=
    List.takeWhile_eq_self_iff.2 fun d hd => by simpa using fun heq : d = '\n' => hbody (heq ▸ hd)
  rw [run, List.takeWhile_append_of_pos (List.takeWhile_eq_self_iff.1 hall),
    List.takeWhile_cons_of_pos (by simpa using hne)] at hrun
  simp at hrun

theorem Stands.beforeLine {l : Lexeme} {rest rest' : Text} (h : l.Stands rest)
    (hkind : l.kind = .trivia .lineComment) (hrest : ∀ c, rest'.head? = some c → c = '\n') :
    l.Stands rest' := by
  obtain ⟨⟨body, htext, hbody⟩, -⟩ := h.lineComment hkind
  rw [stands_other (by rw [hkind]; exact nofun), htext, hkind]
  exact firstLexeme?_lineComment hbody hrest

/-- A lexeme is closed, a token, or a line comment. -/
theorem closed_or (l : Lexeme) : l.isClosed = true ∨ (∃ kind, l.kind = .token kind) ∨
    l.kind = .trivia .lineComment := by
  obtain ⟨kind, text⟩ := l
  cases kind with
  | token kind => exact .inr (.inl ⟨kind, rfl⟩)
  | trivia kind =>
      cases kind
      · exact .inl rfl
      · exact .inr (.inr rfl)
      · exact .inl rfl

theorem Stands.slash {l : Lexeme} {rest : Text} {kind : TokenKind} (h : l.Stands rest)
    (hkind : l.kind = .token kind) (htext : l.text = ['/']) : rest.head? ≠ some '/' := by
  intro hhead
  obtain ⟨cs, rfl⟩ := List.head?_eq_some_iff.1 hhead
  rw [stands_other (by rw [hkind]; exact nofun), htext, hkind] at h
  cases h

/-- A lone slash does not begin a block comment either. -/
theorem Stands.star {l : Lexeme} {rest : Text} {kind : TokenKind} (h : l.Stands rest)
    (hkind : l.kind = .token kind) (htext : l.text = ['/']) : rest.head? ≠ some '*' := by
  intro hhead
  obtain ⟨cs, rfl⟩ := List.head?_eq_some_iff.1 hhead
  rw [stands_other (by rw [hkind]; exact nofun), htext, hkind] at h
  have hslash : slashLexeme? ('*' :: cs) = some (.token kind, 1) := h
  rw [slashLexeme?] at hslash
  obtain ⟨n, -, hn⟩ := Option.map_eq_some_iff.1 hslash
  cases hn

/-- What a lexeme stands before can be exchanged for what begins with the same separator. -/
theorem Stands.swap {l : Lexeme} {rest rest' : Text} (h : l.Stands rest) (hapart : Apart rest')
    (hhead : rest'.head? = rest.head?) : l.Stands rest' := by
  obtain hclosed | ⟨kind, hkind⟩ | hline := l.closed_or
  · exact h.closed hclosed
  · apply h.apart hkind hapart
    intro htext
    rw [hhead]
    exact h.slash hkind htext
  · apply h.beforeLine hline
    rw [hhead]
    exact (h.lineComment hline).2

/-- What follows the text behind a lexeme can be exchanged. -/
theorem Stands.extend {l : Lexeme} {u v v' : Text} (h : l.Stands (u ++ v)) (hu : u ≠ [])
    (hapart : Apart v') : l.Stands (u ++ v') := by
  obtain hclosed | ⟨kind, hkind⟩ | hline := l.closed_or
  · exact h.closed hclosed
  · have hne : l.kind ≠ .trivia .blank := by
      rw [hkind]
      exact nofun
    have hlong : l.text ++ u ≠ ['/'] := by
      intro heq
      have hlength := congrArg List.length heq
      have htext := List.length_pos_iff.2 h.ne_nil
      have hpos := List.length_pos_iff.2 hu
      simp only [List.length_append, List.length_singleton] at hlength
      omega
    rw [stands_other hne, ← List.append_assoc, hkind] at h ⊢
    have hcut := firstLexeme?_of_append h (by simp)
    exact firstLexeme?_append hcut hapart fun heq => absurd heq hlong
  · apply h.beforeLine hline
    intro c hc
    apply (h.lineComment hline).2 c
    rw [List.head?_append_of_ne_nil u hu] at hc ⊢
    exact hc

/-- White space, comments, literals and brackets begin with a separator. -/
theorem Stands.apart_text {l : Lexeme} {rest : Text} (h : l.Stands rest)
    (hl : l.isClosed = true ∨ l.kind = .trivia .lineComment) (after : Text) :
    Apart (l.text ++ after) := by
  by_cases hkind : l.kind = .trivia .blank
  · obtain ⟨c, htext, hc⟩ := (stands_blank hkind).1 h
    rw [htext]
    exact .cons (isSeparator_of_isSkipped hc)
  have hspelling := h.spelling hkind
  obtain ⟨kind, text⟩ := l
  simp only at hspelling hl ⊢
  cases hspelling with
  | lineComment hbody => exact .cons (by decide)
  | blockComment hbody => exact .cons (by decide)
  | quoted hquote hbody =>
      obtain ⟨rfl | rfl, -⟩ | ⟨rfl, -⟩ := quoteKind?_eq_some hquote <;> exact .cons (by decide)
  | mark hmark =>
      have hmem := markKind?_eq_some hmark
      simp only [List.mem_cons, Prod.mk.injEq, List.not_mem_nil, or_false] at hmem
      obtain ⟨rfl, -⟩ | ⟨rfl, -⟩ | ⟨rfl, -⟩ | ⟨rfl, -⟩ | ⟨rfl, -⟩ | ⟨rfl, -⟩ | ⟨rfl, -⟩ | ⟨rfl, -⟩ :=
        hmem <;> exact .cons (by decide)
  | slash => simp [isClosed] at hl
  | word hword hne hneutral =>
      simp only [List.mem_cons, List.not_mem_nil, or_false] at hword
      obtain rfl | rfl | rfl | rfl := hword <;> simp [isClosed] at hl

end Lexeme

theorem Legible.swap {ls : List Lexeme} {after after' : Text} (h : Legible ls after)
    (hapart : Apart after') (hlast : ∀ l, ls.getLast? = some l → l.Stands after') :
    Legible ls after' := by
  induction ls with
  | nil => trivial
  | cons l ls ih =>
      obtain ⟨hl, hls⟩ := h
      cases ls with
      | nil => exact ⟨hlast l rfl, trivial⟩
      | cons m ms =>
          refine ⟨?_, ih hls fun l hl => hlast l (by rwa [List.getLast?_cons_cons])⟩
          apply hl.extend _ hapart
          rw [written_cons]
          exact List.append_ne_nil_of_left_ne_nil hls.1.ne_nil _

theorem Legible.last {ls : List Lexeme} {after : Text} (h : Legible ls after) {l : Lexeme}
    (hl : ls.getLast? = some l) : l.Stands after := by
  obtain ⟨init, rfl⟩ := List.getLast?_eq_some_iff.1 hl
  have := (legible_append.1 h).2.1
  rwa [written_nil, List.nil_append] at this

theorem Legible.swap_head {ls : List Lexeme} {after after' : Text} (h : Legible ls after)
    (hapart : Apart after') (hhead : after'.head? = after.head?) : Legible ls after' :=
  h.swap hapart fun _ hl => (h.last hl).swap hapart hhead

/-- Lexemes that stand before a text stand at its end as well. -/
theorem Legible.alone {ls : List Lexeme} {after : Text} (h : Legible ls after) : Legible ls [] := by
  refine h.swap .nil fun l hl => ?_
  by_cases hkind : l.kind = .trivia .blank
  · exact (Lexeme.stands_blank hkind).2 ((Lexeme.stands_blank hkind).1 (h.last hl))
  · rw [Lexeme.stands_other hkind, List.append_nil]
    exact (h.last hl).alone hkind

/-- Behind a token stands any text that begins with a separator other than a slash. -/
theorem Legible.swap_token {ls : List Lexeme} {after after' : Text} (h : Legible ls after)
    (hapart : Apart after') (hslash : after'.head? ≠ some '/')
    (hlast : ∀ l, ls.getLast? = some l → ∃ kind, l.kind = .token kind) : Legible ls after' := by
  apply h.swap hapart
  intro l hl
  obtain ⟨kind, hkind⟩ := hlast l hl
  exact (h.last hl).apart hkind hapart fun _ => hslash

/-- Behind a closed lexeme stands any text. -/
theorem Legible.swap_closed {ls : List Lexeme} {after after' : Text} (h : Legible ls after)
    (hlast : ∀ l, ls.getLast? = some l → l.isClosed = true) : Legible ls after' := by
  obtain rfl | ⟨init, l, rfl⟩ := List.eq_nil_or_concat ls
  · trivial
  · rw [List.concat_eq_append] at h hlast ⊢
    have hclosed := hlast l List.getLast?_concat
    obtain ⟨hinit, hl⟩ := legible_append.1 h
    rw [written_cons, written_nil, List.append_nil] at hinit
    refine legible_append.2 ⟨?_, hl.1.closed hclosed, trivial⟩
    rw [written_cons, written_nil, List.append_nil]
    apply hinit.swap_head (hl.1.apart_text (.inl hclosed) _)
    rw [List.head?_append_of_ne_nil _ hl.1.ne_nil, List.head?_append_of_ne_nil _ hl.1.ne_nil]

end PugSize.Script
