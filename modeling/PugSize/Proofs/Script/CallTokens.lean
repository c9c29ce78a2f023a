import PugSize.Proofs.Script.DescentTrees
import PugSize.Proofs.Script.Tokens

/-!
The descent over the tokens of a call. The tokens of the text between the parentheses stand behind the name
and the opening parenthesis, in their order. The descent over them ends on every text, and gives the
arguments of the text or refuses it where there are none.
-/

namespace PugSize.Script

theorem scan_callPrefix (u : Text) : scan (['f', '('] ++ u) =
    (⟨.token .ident, ['f']⟩ :: ⟨.token .lparen, ['(']⟩ :: (scan u).1, (scan u).2) := by
  have hname : firstLexeme? ('f' :: '(' :: u) = some (.token .ident, 1) := by
    rw [firstLexeme?_ident ('(' :: u) (by decide), run, List.takeWhile_cons_of_neg (by decide)]
    rfl
  have hopening : firstLexeme? ('(' :: u) = some (.token .lparen, 1) :=
    firstLexeme?_mark (rfl : markKind? '(' = some .lparen) u
  change scan ('f' :: '(' :: u) = _
  rw [scan_of_firstLexeme? hname, List.drop_one, List.tail_cons, scan_of_firstLexeme? hopening, List.drop_one,
    List.tail_cons]
  rfl

theorem tokenize_callPrefix {u : Text} {ts : List Token} (h : tokenize (['f', '('] ++ u) = .ok ts) :
    ∃ us, tokenize u = .ok us ∧
      ts = ⟨.ident, ['f'], 0⟩ :: ⟨.lparen, ['('], 1⟩ :: us.map (Token.shift 2) := by
  rw [tokenize, scan_callPrefix] at h
  cases hscan : scan u with
  | mk ls rest =>
      rw [hscan] at h
      cases rest with
      | nil =>
          cases h
          exact ⟨Token.ofLexemes 0 ls, by rw [tokenize, hscan], by rw [← ofLexemes_shift]; rfl⟩
      | cons c cs => cases h

namespace CallTokens

open Descent

/-- The tokens of the text between the parentheses and of the closing one stand behind the first two. -/
theorem exists_tokens {t : Text} {c : CallTokens} (h : callTokens t = .ok c) :
    ∃ us, tokenize (t ++ [')']) = .ok us ∧ c.base = 2 ∧
      c.tokens = ⟨.ident, ['f'], 0⟩ :: ⟨.lparen, ['('], 1⟩ :: us.map (Token.shift 2) := by
  rw [callTokens, List.append_assoc] at h
  cases htokens : tokenize (['f', '('] ++ (t ++ [')'])) with
  | error n =>
      rw [htokens] at h
      cases h
  | ok ts =>
      rw [htokens] at h
      cases h
      obtain ⟨us, hus, rfl⟩ := tokenize_callPrefix htokens
      exact ⟨us, hus, rfl, rfl⟩

/-- The tokens of a call stand in their order. -/
theorem inOrder_of_ok {t : Text} {c : CallTokens} (h : callTokens t = .ok c) : c.InOrder := by
  have htokenize : tokenize (['f', '('] ++ t ++ [')']) = .ok c.tokens := by
    rw [callTokens] at h
    cases htokens : tokenize (['f', '('] ++ t ++ [')']) with
    | error n =>
        rw [htokens] at h
        cases h
    | ok ts =>
        rw [htokens] at h
        cases h
        rfl
  obtain ⟨us, -, hbase, htokens⟩ := exists_tokens h
  constructor
  · intro i u hi hu
    obtain ⟨j, rfl⟩ := Nat.exists_eq_add_of_le' hi
    rw [htokens, List.getElem?_cons_succ, List.getElem?_cons_succ, List.getElem?_map] at hu
    obtain ⟨v, -, rfl⟩ := Option.map_eq_some_iff.1 hu
    rw [hbase]
    exact Nat.le_add_left _ _
  · intro i j u v hij hu hv
    obtain ⟨ls, -, -, hls⟩ := tokenize_eq_ok.1 htokenize
    have horder := (ofLexemes_inOrder 0 ls).1
    rw [hls, Span.InOrder, List.pairwise_iff_getElem] at horder
    obtain ⟨hi, rfl⟩ := List.getElem?_eq_some_iff.1 hu
    obtain ⟨hj, rfl⟩ := List.getElem?_eq_some_iff.1 hv
    obtain hlt | rfl := Nat.lt_or_eq_of_le hij
    · have hnext := horder i j (by simpa using hi) (by simpa using hj) hlt
      rw [List.getElem_map, List.getElem_map] at hnext
      exact Nat.le_trans (Nat.le_add_right _ _) (Nat.le_trans hnext (Nat.le_add_right _ _))
    · exact Nat.le_add_right _ _

variable {c : CallTokens}

/-- Tokens on a way that closes the open brackets have segments. -/
theorem Walk.isSome_segmentsFrom? {stack stack' : List Bracket} {p q : Nat} (h : c.Walk stack p stack' q)
    (hclosed : stack' = []) {ts more : List Token} (hat : c.At p (ts ++ more)) (hq : q = p + ts.length)
    {brackets : List OpenBracket} (hstack : brackets.map OpenBracket.shape = stack) (level : Level) :
    (segmentsFrom? brackets level ts).isSome = true := by
  induction h generalizing ts brackets level with
  | here =>
      obtain rfl : ts = [] := List.length_eq_zero_iff.1 (by omega)
      rw [hclosed, List.map_eq_nil_iff] at hstack
      rw [segmentsFrom?, hstack]
      rfl
  | @token stack stack₁ stack₂ p q t ht hbehind later ih =>
      cases ts with
      | nil =>
          have := later.le
          rw [List.length_nil] at hq
          omega
      | cons u us =>
          have hu : u.shift c.base = t := Option.some.inj (hat.head.symm.trans ht)
          have hkind : u.kind = t.kind := by rw [← hu, Token.shift]
          have hnext : ∀ {brackets' : List OpenBracket}, brackets'.map OpenBracket.shape = stack₁ →
              ∀ level', (segmentsFrom? brackets' level' us).isSome = true := fun hmap level' =>
            ih hclosed hat.tail (by rw [hq, List.length_cons]; omega) hmap level'
          unfold TokenKind.behind? at hbehind
          rw [segmentsFrom?, hkind]
          split at hbehind
          · rename_i hopens
            cases hbehind
            rw [hopens]
            exact hnext (by rw [List.map_cons, hstack]) _
          · cases hbehind
          · rename_i hopens hcloses
            cases brackets with
            | nil => cases hstack
            | cons o outer =>
                rw [List.map_cons, List.cons.injEq] at hstack
                split at hbehind
                · rename_i heq
                  cases hbehind
                  rw [hopens, hcloses]
                  dsimp only
                  rw [if_pos (hstack.1.trans heq)]
                  exact hnext hstack.2 _
                · cases hbehind
          · rename_i hopens hcloses
            cases hbehind
            rw [hopens, hcloses]
            dsimp only
            split
            · exact hnext hstack _
            · exact hnext hstack _

/-- The tokens of the arguments are those of the text before a closing parenthesis, the last token. -/
theorem argumentTokens?_iff {t : Text} {us : List Token} (hus : tokenize (t ++ [')']) = .ok us)
    {ts : List Token} : argumentTokens? t = some ts ↔ ∃ u, us = ts ++ [u] ∧ u.kind = .rparen := by
  rw [argumentTokens?, hus]
  dsimp only
  constructor
  · intro h
    split at h
    · rename_i hlast
      obtain ⟨u, hu, hkind⟩ := Option.map_eq_some_iff.1 hlast
      obtain ⟨front, rfl⟩ := List.getLast?_eq_some_iff.1 hu
      rw [List.dropLast_concat, Option.some.injEq] at h
      exact ⟨u, by rw [h], hkind⟩
    · cases h
  · rintro ⟨u, rfl, hkind⟩
    rw [List.getLast?_concat, Option.map_some, hkind, if_pos rfl, List.dropLast_concat]

variable {t : Text} {us ts : List Token} (h : callTokens t = .ok c)
include h

theorem at_two (hus : tokenize (t ++ [')']) = .ok us) : c.At 2 us ∧ c.tokens.length = 2 + us.length := by
  obtain ⟨us', hus', hbase, htokens⟩ := exists_tokens h
  obtain rfl : us = us' := Except.ok.inj (hus.symm.trans hus')
  refine ⟨by rw [At, htokens, hbase]; rfl, ?_⟩
  rw [htokens, List.length_cons, List.length_cons, List.length_map]
  omega

/-- What the descent accepts is well nested up to the last token, so it has segments. -/
theorem segments?_of_accepted {args : List Expr} {q : Nat} (hcall : c.call.outcome 0 = found (some (args, q))) :
    ∃ ts segs, argumentTokens? t = some ts ∧ segments? ts = some segs := by
  obtain ⟨us, hus, -⟩ := exists_tokens h
  obtain ⟨hat, hlength⟩ := at_two h hus
  obtain ⟨rfl, last, hnested, hlast, closing, hclosing, hkind⟩ :=
    (ends_some hcall).1 (ends_call (inOrder_of_ok h))
  have hle : 2 ≤ last := hnested.le
  obtain rfl | ⟨ts, u, rfl⟩ := List.eq_nil_or_concat us
  · rw [List.length_nil] at hlength
    omega
  · rw [List.concat_eq_append] at hus hat hlength
    rw [List.length_append, List.length_singleton] at hlength
    obtain rfl : last = 2 + ts.length := by omega
    have hu : u.shift c.base = closing := Option.some.inj (hat.append.head.symm.trans hclosing)
    have hts := (argumentTokens?_iff hus).2 ⟨u, rfl, by rw [← hkind, ← hu, Token.shift]⟩
    have hsome := hnested.isSome_segmentsFrom? rfl hat rfl (rfl : [].map OpenBracket.shape = []) Level.start
    obtain ⟨segs, hsegs⟩ := Option.isSome_iff_exists.1 hsome
    exact ⟨ts, segs, hts, hsegs⟩

theorem outcome_call_segments {segs : List (List Tree)} (hts : argumentTokens? t = some ts)
    (hsegs : segments? ts = some segs) :
    c.call.outcome 0 = found ((argumentsOf? segs).map (·, c.tokens.length)) := by
  obtain ⟨us, hus, hbase, htokens⟩ := exists_tokens h
  obtain ⟨hat, hlength⟩ := at_two h hus
  obtain ⟨u, rfl, hkind⟩ := (argumentTokens?_iff hus).1 hts
  obtain ⟨ls, after, -, -, hlegible, rfl⟩ := argumentTokens?_eq_some.1 hts
  have hitems := items_segments (inOrder_of_ok h) (segments_of_eq_some hlegible.spelled hsegs)
  have hend : 2 + (Token.ofLexemes 0 ls).length + 1 = c.tokens.length := by
    rw [hlength, List.length_append, List.length_singleton, Nat.add_assoc]
  have hname : c.tokens[0]? = some ⟨.ident, ['f'], 0⟩ := by rw [htokens]; rfl
  have hopening : c.tokens[0 + 1]? = some ⟨.lparen, ['('], 1⟩ := by rw [htokens]; rfl
  rw [call, outcome_bind, outcome_expect hname rfl, andThen_some, outcome_bind,
    outcome_expect hopening rfl, andThen_some, outcome_bind, outcome_callLoop hitems [] hkind hat, hend]
  cases argumentsOf? segs with
  | none => rfl
  | some args =>
      rw [Option.map_some, andThen_some, outcome_bind, outcome_get, andThen_some, if_pos rfl, outcome_pure]
      rfl

/-- The descent gives the arguments of the text, and refuses a text that has none. -/
theorem outcome_call : c.call.outcome 0 = found ((arguments? t).map (·, c.tokens.length)) := by
  obtain ⟨r, hr, -⟩ := ends_call (inOrder_of_ok h)
  by_cases hsegments : ∃ ts segs, argumentTokens? t = some ts ∧ segments? ts = some segs
  · obtain ⟨ts, segs, hts, hsegs⟩ := hsegments
    rw [outcome_call_segments h hts hsegs, arguments?, hts, Option.bind_some, hsegs, Option.bind_some]
  · have hnone : arguments? t = none := by
      rw [arguments?, Option.bind_eq_none_iff]
      intro ts hts
      rw [Option.bind_eq_none_iff]
      exact fun segs hsegs => absurd ⟨ts, segs, hts, hsegs⟩ hsegments
    rw [hnone]
    cases r with
    | none => exact hr
    | some given => exact absurd (segments?_of_accepted h hr) hsegments

end CallTokens

/-- Whether a step ends, does nothing that it must not, and stands further on if it gives something. -/
def Descent.MovesOn {α : Type} (x : Descent α) (p n : Nat) : Prop := x.Ends p fun _ q => p < q ∧ q ≤ n

/-- Whether a round ends, does nothing that it must not, and ends its loop or stands further on. -/
def Descent.RoundMovesOn {σ : Type} (x : Descent (Round σ)) (p n : Nat) : Prop :=
  x.Ends p fun r q => q ≤ n ∧ r.Is (fun _ => p ≤ q) (fun _ => p < q)

/-- The descent over a call ends on every text. From any position behind the parenthesis that opens the call,
each step that gives something moves on, and each round of a loop but the last one does. Nothing on the way
asks for the end of a token where there is none, takes the prefix off a smaller offset, or records a span
that ends before it starts; and the descent gives the arguments that are read of the text. -/
theorem call_ends {t : Text} {c : CallTokens} (h : callTokens t = .ok c) :
    (∀ p, 2 ≤ p →
      c.expr.MovesOn p c.tokens.length ∧ c.element.MovesOn p c.tokens.length ∧
      c.property.MovesOn p c.tokens.length ∧ c.array.MovesOn p c.tokens.length ∧
      c.object.MovesOn p c.tokens.length) ∧
    (∀ p, 2 ≤ p → p ≤ c.tokens.length →
      (∀ args, (c.callRound args).RoundMovesOn p c.tokens.length) ∧
      (∀ elements, (c.arrayRound elements).RoundMovesOn p c.tokens.length) ∧
      (∀ props, (c.objectRound props).RoundMovesOn p c.tokens.length) ∧
      (∀ stack, (c.skipRound stack).RoundMovesOn p c.tokens.length) ∧
      ∀ stack, (c.skip stack).Ends p fun _ q => p ≤ q ∧ q ≤ c.tokens.length) ∧
    c.call.outcome 0 = found ((arguments? t).map (·, c.tokens.length)) := by
  have hc := CallTokens.inOrder_of_ok h
  have hadvances : ∀ {α : Type} {x : Descent α} {p : Nat}, (x.Ends p fun _ q => p < q ∧ c.Nested p q) →
      x.MovesOn p c.tokens.length := fun hx =>
    hx.mono fun _ q hq => ⟨hq.1, hq.2.le_length_of_lt hq.1⟩
  refine ⟨fun p hp => ?_, fun p hp hlength => ?_, CallTokens.outcome_call h⟩
  · have hlater : ∀ q, p < q → CallTokens.Advances c q := fun q hq => CallTokens.advances hc (by omega)
    exact ⟨hadvances (CallTokens.ends_expr hc hp hlater), hadvances (CallTokens.ends_element hc hp hlater),
      hadvances (CallTokens.ends_property hc hp hlater), hadvances (CallTokens.ends_array hc hp hlater),
      hadvances (CallTokens.ends_object hc hp hlater)⟩
  · have hrounds : ∀ {σ : Type} {x : Descent (Round σ)} {closing : TokenKind}, (x.Ends p fun r q =>
        r.Is (fun _ => q = p ∧ ∃ t, c.tokens[p]? = some t ∧ t.kind = closing)
          (fun _ => p < q ∧ c.Nested p q)) → x.RoundMovesOn p c.tokens.length := by
      refine fun hx => hx.mono fun r q hr => ?_
      cases r with
      | ended s => exact ⟨hr.1 ▸ hlength, Nat.le_of_eq hr.1.symm⟩
      | again s => exact ⟨hr.2.le_length_of_lt hr.1, hr.1⟩
    have hadvances := CallTokens.advances hc hp
    refine ⟨fun args => ?_, fun es => hrounds (CallTokens.ends_arrayRound hadvances es),
      fun ps => hrounds (CallTokens.ends_objectRound hadvances ps), fun stack => ?_, fun stack => ?_⟩
    · refine (CallTokens.ends_callRound hadvances args).mono fun r q hr => ?_
      cases r with
      | ended s =>
          obtain ⟨rfl, t, ht, -⟩ := hr
          exact ⟨CallTokens.lt_length ht, Nat.le_succ p⟩
      | again s => exact ⟨hr.2.le_length_of_lt hr.1, hr.1⟩
    · refine (CallTokens.ends_skipRound stack).mono fun r q hr => ?_
      cases r with
      | ended s => exact ⟨hr.1 ▸ hlength, Nat.le_of_eq hr.1.symm⟩
      | again s =>
          obtain ⟨rfl, t, ht, -⟩ := hr
          exact ⟨CallTokens.lt_length ht, Nat.lt_succ_self p⟩
    · exact (CallTokens.ends_skip stack).mono fun _ q hq => ⟨hq.1.le, hq.1.le_length hlength⟩

/-- An array with a hole is given, and the descent ends as well where a bracket is never closed. -/
theorem call_ends_brackets :
    (∃ c, callTokens "[, a]".toList = .ok c ∧ c.expr.MovesOn 2 7 ∧
      c.call.outcome 0 = found (some ([.array [.other ⟨3, 4⟩] ⟨0, 5⟩], 7))) ∧
    ∃ c, callTokens "[(b".toList = .ok c ∧ (c.arrayRound []).RoundMovesOn 3 6 ∧
      c.call.outcome 0 = found none := by
  constructor
  · have htokens : tokenize "f([, a])".toList = .ok [⟨.ident, ['f'], 0⟩, ⟨.lparen, ['('], 1⟩,
        ⟨.lbracket, ['['], 2⟩, ⟨.comma, [','], 3⟩, ⟨.ident, ['a'], 5⟩, ⟨.rbracket, [']'], 6⟩,
        ⟨.rparen, [')'], 7⟩] := by decide +kernel
    have h : callTokens "[, a]".toList = .ok ⟨_, 2⟩ :=
      congrArg (Except.map fun ts => CallTokens.mk ts 2) htokens
    have hargs : arguments? "[, a]".toList = some [.array [.other ⟨3, 4⟩] ⟨0, 5⟩] := by cbv
    obtain ⟨hsteps, -, hcall⟩ := call_ends h
    exact ⟨_, h, (hsteps 2 (Nat.le_refl 2)).1, hcall.trans (by rw [hargs]; rfl)⟩
  · have htokens : tokenize "f([(b)".toList = .ok [⟨.ident, ['f'], 0⟩, ⟨.lparen, ['('], 1⟩,
        ⟨.lbracket, ['['], 2⟩, ⟨.lparen, ['('], 3⟩, ⟨.ident, ['b'], 4⟩, ⟨.rparen, [')'], 5⟩] := by
      decide +kernel
    have h : callTokens "[(b".toList = .ok ⟨_, 2⟩ :=
      congrArg (Except.map fun ts => CallTokens.mk ts 2) htokens
    have hargs : arguments? "[(b".toList = none := by cbv
    obtain ⟨-, hrounds, hcall⟩ := call_ends h
    exact ⟨_, h, (hrounds 3 (by decide) (by decide)).2.1 [], hcall.trans (by rw [hargs]; rfl)⟩

end PugSize.Script
