import Mathlib.Logic.ExistsUnique
import PugSize.Document.LineIndex
import PugSize.Proofs.Document.Offsets
import PugSize.Proofs.Text.Boundary

/-!
Places and offsets correspond. The places of a document, from the start of a line to its end, follow one
another as their offsets do, and their offsets are the boundaries of the text that stand on a line. A place
behind the end of its line counts as the end. The offsets at which lines begin, kept beside a document, are
those of its text after any exchanges.
-/

namespace PugSize

namespace Position

/-- Whether a place comes before another one: on an earlier line, or further left on the same line. -/
def Before (p q : Position) : Prop :=
  p.line < q.line ∨ p.line = q.line ∧ p.character < q.character

instance (p q : Position) : Decidable (p.Before q) := inferInstanceAs (Decidable (_ ∨ _))

theorem before_trichotomy (p q : Position) : p.Before q ∨ p = q ∨ q.Before p := by
  obtain ⟨i, c⟩ := p
  obtain ⟨j, d⟩ := q
  simp only [Before, mk.injEq]
  omega

theorem le_iff (p q : Position) : p.le q = true ↔ p.Before q ∨ p = q := by
  obtain ⟨i, c⟩ := p
  obtain ⟨j, d⟩ := q
  simp only [le, Before, mk.injEq, Bool.or_eq_true, Bool.and_eq_true, decide_eq_true_eq, beq_iff_eq]
  omega

end Position

namespace Text

theorem width_take_le (n : Nat) (t : Text) : width (t.take n) ≤ width t := by
  have := congrArg width (List.take_append_drop n t)
  rw [width_append] at this
  omega

/-- A longer front of a text is wider. -/
theorem width_take_lt {m n : Nat} {t : Text} (hmn : m < n) (hn : n ≤ t.length) :
    width (t.take m) < width (t.take n) := by
  have hsplit : t.take n = t.take m ++ (t.drop m).take (n - m) := by
    rw [← List.take_add, Nat.add_sub_cancel' (Nat.le_of_lt hmn)]
  have hne : (t.drop m).take (n - m) ≠ [] := by
    rw [← List.length_pos_iff, List.length_take, List.length_drop]
    omega
  have := width_pos hne
  rw [hsplit, width_append]
  omega

theorem exists_stripReturn (l : Text) : ∃ back, l = stripReturn l ++ back := by
  unfold stripReturn
  split
  · rename_i h
    obtain ⟨front, rfl⟩ := List.getLast?_eq_some_iff.1 h
    exact ⟨['\r'], by rw [List.dropLast_concat]⟩
  · exact ⟨[], (List.append_nil l).symm⟩

end Text

namespace Buffer

section

variable {b : Buffer} {i : Nat}

/-- A line stands at its start, behind the lines before it. -/
theorem exists_rawLine {raw : Text} (h : b.rawLines[i]? = some raw) :
    ∃ front back, b.text = front ++ raw ++ back ∧ front.width = b.lineStart i ∧
      (b.rawLines[i + 1]? = none → back = []) := by
  obtain ⟨hi, hraw⟩ := List.getElem?_eq_some_iff.1 h
  have hlines : b.rawLines = b.rawLines.take i ++ raw :: b.rawLines.drop (i + 1) := by
    rw [← hraw, ← List.drop_eq_getElem_cons hi, List.take_append_drop]
  have htext : b.text = (b.rawLines.take i).flatMap (fun l => l ++ ['\n']) ++
      Text.joinLines (raw :: b.rawLines.drop (i + 1)) := by
    rw [← Text.joinLines_append (List.cons_ne_nil _ _), ← hlines, rawLines, Text.joinLines_splitLines]
  by_cases hlast : b.rawLines.drop (i + 1) = []
  · rw [hlast, Text.joinLines] at htext
    exact ⟨_, [], by rw [List.append_nil, ← htext], width_lines _, fun _ => rfl⟩
  · rw [Text.joinLines_cons hlast, ← List.append_assoc] at htext
    refine ⟨_, _, htext, width_lines _, fun hnone => ?_⟩
    exact absurd (List.drop_eq_nil_iff.2 (List.getElem?_eq_none_iff.1 hnone)) hlast

theorem line?_eq_some {l : Text} :
    b.line? i = some l ↔ ∃ raw, b.rawLines[i]? = some raw ∧ Text.stripReturn raw = l :=
  Option.map_eq_some_iff

theorem exists_line {l : Text} (h : b.line? i = some l) :
    ∃ front back, b.text = front ++ l ++ back ∧ front.width = b.lineStart i := by
  obtain ⟨raw, hraw, rfl⟩ := line?_eq_some.1 h
  obtain ⟨front, back, htext, hwidth, -⟩ := exists_rawLine hraw
  obtain ⟨ending, hending⟩ := Text.exists_stripReturn raw
  refine ⟨front, ending ++ back, ?_, hwidth⟩
  rw [htext]
  conv => lhs; rw [hending]
  simp only [List.append_assoc]

theorem lineStart_succ {raw : Text} (h : b.rawLines[i]? = some raw) :
    b.lineStart (i + 1) = b.lineStart i + raw.width + 1 := by
  rw [lineStart, List.take_add_one, h, linesWidth_append]
  rfl

/-- A line ends before a later one begins. -/
theorem lineStart_lt {j : Nat} {l : Text} (hij : i < j) (h : b.line? i = some l) :
    b.lineStart i + Text.width l < b.lineStart j := by
  obtain ⟨raw, hraw, rfl⟩ := line?_eq_some.1 h
  obtain ⟨ending, hending⟩ := Text.exists_stripReturn raw
  have hwidth : raw.width = (Text.stripReturn raw).width + ending.width := by
    rw [← Text.width_append, ← hending]
  have hlater : b.rawLines.take j =
      b.rawLines.take (i + 1) ++ (b.rawLines.drop (i + 1)).take (j - (i + 1)) := by
    rw [← List.take_add, Nat.add_sub_cancel' hij]
  have hstart : b.lineStart (i + 1) ≤ b.lineStart j := by
    rw [lineStart, lineStart, hlater, linesWidth_append]
    exact Nat.le_add_right _ _
  rw [lineStart_succ hraw] at hstart
  omega

end

/-- Whether a place is one of the document, at the end of a line at most. -/
def IsPlace (b : Buffer) (p : Position) : Prop :=
  ∃ l, b.line? p.line = some l ∧ p.character ≤ l.length

/-- Whether an offset is a boundary of the text that stands on a line, terminators left out. -/
def OnLine (b : Buffer) (n : Nat) : Prop :=
  b.text.IsBoundary n ∧
    ∃ i l, b.line? i = some l ∧ b.lineStart i ≤ n ∧ n ≤ b.lineStart i + Text.width l

/-- A place, or the end of its line if it is behind it. -/
def clamp (b : Buffer) (p : Position) : Position :=
  match b.line? p.line with
  | some l => ⟨p.line, min p.character l.length⟩
  | none => p

section

variable {b : Buffer} {p q : Position}

theorem offsetOf_eq_ok {n : Nat} : b.offsetOf p = .ok n ↔
    ∃ l, b.line? p.line = some l ∧ n = b.lineStart p.line + Text.width (l.take p.character) := by
  unfold offsetOf
  split
  · rename_i hnone
    simp [hnone]
  · rename_i l hl
    simp [hl, eq_comm]

theorem clamp_line (b : Buffer) (p : Position) : (b.clamp p).line = p.line := by
  unfold clamp
  split <;> rfl

theorem offsetOf_clamp (b : Buffer) (p : Position) : b.offsetOf (b.clamp p) = b.offsetOf p := by
  unfold clamp
  split
  · rename_i l hl
    simp only [offsetOf, hl]
    rw [← List.take_take, List.take_length]
  · rfl

theorem isPlace_clamp {l : Text} (h : b.line? p.line = some l) : b.IsPlace (b.clamp p) := by
  refine ⟨l, by rw [clamp_line, h], ?_⟩
  simp only [clamp, h]
  exact Nat.min_le_right _ _

theorem clamp_le (h : p.le q = true) {l : Text} (hp : b.line? p.line = some l) :
    (b.clamp p).le (b.clamp q) = true := by
  rw [Position.le_iff] at h ⊢
  obtain (hline | ⟨hline, hcharacter⟩) | rfl := h
  · exact .inl (.inl (by rwa [clamp_line, clamp_line]))
  · have hq : b.line? q.line = some l := hline ▸ hp
    obtain ⟨i, c⟩ := p
    obtain ⟨j, d⟩ := q
    simp only [clamp, hp, hq, Position.Before, Position.mk.injEq]
    dsimp only at hline hcharacter
    omega
  · exact .inr rfl

/-- Places follow one another as their offsets do. -/
theorem offsetOf_lt {m n : Nat} (hq : b.IsPlace q) (hbefore : p.Before q) (hm : b.offsetOf p = .ok m)
    (hn : b.offsetOf q = .ok n) : m < n := by
  obtain ⟨l, hl, rfl⟩ := offsetOf_eq_ok.1 hm
  obtain ⟨k, hk, rfl⟩ := offsetOf_eq_ok.1 hn
  obtain hline | ⟨hline, hcharacter⟩ := hbefore
  · have hend := lineStart_lt hline hl
    have := Text.width_take_le p.character l
    omega
  · obtain ⟨k', hk', hle⟩ := hq
    rw [hline] at hl ⊢
    obtain rfl : l = k := Option.some.inj (hl.symm.trans hk)
    obtain rfl : l = k' := Option.some.inj (hl.symm.trans hk')
    have := Text.width_take_lt hcharacter hle
    omega

theorem exists_offsetOf (h : b.IsPlace p) : ∃ n, b.offsetOf p = .ok n ∧ b.OnLine n := by
  obtain ⟨l, hl, -⟩ := h
  obtain ⟨front, back, htext, hwidth⟩ := exists_line hl
  refine ⟨_, offsetOf_eq_ok.2 ⟨l, hl, rfl⟩, ?_, p.line, l, hl, Nat.le_add_right _ _, ?_⟩
  · refine ⟨front ++ l.take p.character, l.drop p.character ++ back, ?_, ?_⟩
    · rw [htext, List.append_assoc, List.append_assoc, ← List.append_assoc (l.take _),
        List.take_append_drop]
    · rw [Text.width_append, hwidth]
  · exact Nat.add_le_add_left (Text.width_take_le _ _) _

/-- A boundary on a line is the offset of a place. -/
theorem OnLine.exists_place {n : Nat} (h : b.OnLine n) : ∃ p, b.IsPlace p ∧ b.offsetOf p = .ok n := by
  obtain ⟨hboundary, i, l, hl, hstart, hstop⟩ := h
  obtain ⟨front, back, htext, hwidth⟩ := exists_line hl
  rw [htext, List.append_assoc] at hboundary
  obtain ⟨part, rest, hrest, hn⟩ := hboundary.behind (by omega)
  have hpart : part = l.take part.length ∧ part.length ≤ l.length := by
    obtain ⟨more, rfl, hback⟩ | ⟨later, rfl, -⟩ := List.append_eq_append_iff.1 hrest
    · rw [Text.width_append] at hn
      obtain rfl : more = [] := Text.eq_nil_of_width (by omega)
      simp
    · simp
  refine ⟨⟨i, part.length⟩, ⟨l, hl, hpart.2⟩, offsetOf_eq_ok.2 ⟨l, hl, ?_⟩⟩
  dsimp only
  rw [← hpart.1, ← hwidth, hn]

theorem place_unique {n : Nat} (hp : b.IsPlace p) (hq : b.IsPlace q) (hm : b.offsetOf p = .ok n)
    (hn : b.offsetOf q = .ok n) : p = q := by
  obtain hbefore | heq | hbefore := p.before_trichotomy q
  · exact absurd (offsetOf_lt hq hbefore hm hn) (Nat.lt_irrefl n)
  · exact heq
  · exact absurd (offsetOf_lt hp hbefore hn hm) (Nat.lt_irrefl n)

theorem offsetOf_le {m n : Nat} (h : p.le q = true) (hm : b.offsetOf p = .ok m)
    (hn : b.offsetOf q = .ok n) : m ≤ n := by
  obtain ⟨l, hl, -⟩ := offsetOf_eq_ok.1 hm
  obtain ⟨k, hk, -⟩ := offsetOf_eq_ok.1 hn
  have hle := clamp_le h hl
  rw [← offsetOf_clamp] at hm hn
  obtain hbefore | heq := (Position.le_iff _ _).1 hle
  · exact Nat.le_of_lt (offsetOf_lt (isPlace_clamp hk) hbefore hm hn)
  · rw [heq, hn] at hm
    exact Nat.le_of_eq (Except.ok.inj hm).symm

theorem offsetOf_eq_error : (∃ e, b.offsetOf p = .error e) ↔ b.line? p.line = none := by
  unfold offsetOf
  split
  · rename_i hnone
    simp [hnone]
  · rename_i l hl
    simp [hl]

end

/-- An exchange is refused if one of its lines does not exist, or if it ends before it starts. -/
theorem replace_eq_error (b : Buffer) (start stop : Position) (new : Text) :
    (∃ e, b.replace start stop new = .error e) ↔
      b.line? start.line = none ∨ b.line? stop.line = none ∨ (b.clamp stop).Before (b.clamp start) := by
  cases hstart : b.line? start.line with
  | none =>
      obtain ⟨e, he⟩ := offsetOf_eq_error.2 hstart
      simp [replace, he, bind, Except.bind]
  | some l =>
      obtain ⟨first, hfirst, -⟩ := exists_offsetOf (isPlace_clamp hstart)
      have hfirst' := hfirst
      rw [offsetOf_clamp] at hfirst'
      cases hstop : b.line? stop.line with
      | none =>
          obtain ⟨e, he⟩ := offsetOf_eq_error.2 hstop
          simp [replace, hfirst', he, bind, Except.bind]
      | some k =>
          obtain ⟨last, hlast, -⟩ := exists_offsetOf (isPlace_clamp hstop)
          have hlast' := hlast
          rw [offsetOf_clamp] at hlast'
          have hiff : last < first ↔ (b.clamp stop).Before (b.clamp start) := by
            constructor
            · intro hlt
              obtain hbefore | heq | hbefore := (b.clamp stop).before_trichotomy (b.clamp start)
              · exact hbefore
              · rw [heq, hfirst] at hlast
                have := Except.ok.inj hlast
                omega
              · have := offsetOf_lt (isPlace_clamp hstop) hbefore hfirst hlast
                omega
            · exact fun hbefore => offsetOf_lt (isPlace_clamp hstart) hbefore hlast hfirst
          simp only [replace, hfirst', hlast', bind, Except.bind, ← hiff]
          by_cases hlt : last < first
          · simp [hlt]
          · simp [hlt]

end Buffer

namespace IndexedBuffer

theorem startsBehind_of_not_mem {l : Text} (h : '\n' ∉ l) (offset : Nat) : startsBehind offset l = [] := by
  induction l generalizing offset with
  | nil => rfl
  | cons c cs ih =>
      simp only [List.mem_cons, not_or] at h
      rw [startsBehind, if_neg fun heq => h.1 heq.symm, ih h.2]

theorem startsBehind_line {l : Text} (h : '\n' ∉ l) (offset : Nat) (rest : Text) :
    startsBehind offset (l ++ '\n' :: rest) =
      (offset + (l.width + 1)) :: startsBehind (offset + (l.width + 1)) rest := by
  induction l generalizing offset with
  | nil =>
      rw [List.nil_append, startsBehind, if_pos rfl]
      rfl
  | cons c cs ih =>
      simp only [List.mem_cons, not_or] at h
      have hwidth : offset + c.utf8Size + (Text.width cs + 1) = offset + (Text.width (c :: cs) + 1) := by
        rw [Text.width_cons]
        omega
      rw [List.cons_append, startsBehind, if_neg fun heq => h.1 heq.symm, ih h.2, hwidth]

/-- The offsets found behind line feeds are the widths of the lines before. -/
theorem starts_getElem? (t : Text) (offset i : Nat) :
    (offset :: startsBehind offset t)[i]? = (Text.splitLines t)[i]?.map fun _ =>
      offset + Buffer.linesWidth ((Text.splitLines t).take i) := by
  induction t using Text.line_induction generalizing offset i with
  | last l hl =>
      rw [startsBehind_of_not_mem hl, Text.splitLines_of_not_mem hl]
      cases i <;> simp [Buffer.linesWidth]
  | line l rest hl ih =>
      rw [startsBehind_line hl, Text.splitLines_line hl]
      cases i with
      | zero => simp [Buffer.linesWidth]
      | succ i =>
          rw [List.getElem?_cons_succ, ih, List.getElem?_cons_succ, List.take_succ_cons, Buffer.linesWidth]
          simp only [Nat.add_assoc]

variable (b : Buffer)

theorem lineStarts_eq : lineStarts b.text = b.rawLines.mapIdx fun i _ => b.lineStart i := by
  apply List.ext_getElem?
  intro i
  rw [lineStarts, starts_getElem?, List.getElem?_mapIdx]
  simp only [Nat.zero_add]
  rfl

theorem ofBuffer_starts (i : Nat) : (ofBuffer b).starts[i]? = (b.line? i).map fun _ => b.lineStart i := by
  rw [ofBuffer, lineStarts_eq, List.getElem?_mapIdx, Buffer.line?, Option.map_map]
  rfl

variable {b} in
theorem lineEnd_ofBuffer {i : Nat} {raw : Text} (h : b.rawLines[i]? = some raw) :
    (ofBuffer b).lineEnd i = b.lineStart i + raw.width := by
  obtain ⟨front, back, htext, hwidth, hlast⟩ := Buffer.exists_rawLine h
  rw [lineEnd, ofBuffer_starts, Buffer.line?]
  cases hnext : b.rawLines[i + 1]? with
  | none =>
      change b.text.width = _
      rw [htext, hlast hnext, List.append_nil, Text.width_append, hwidth]
  | some next =>
      change b.lineStart (i + 1) - 1 = _
      rw [Buffer.lineStart_succ h, Nat.add_sub_cancel]

theorem line?_ofBuffer (i : Nat) : (ofBuffer b).line? i = b.line? i := by
  rw [line?, ofBuffer_starts, Option.map_map]
  cases hraw : b.rawLines[i]? with
  | none =>
      rw [Buffer.line?, hraw]
      rfl
  | some raw =>
      obtain ⟨front, back, htext, hwidth, -⟩ := Buffer.exists_rawLine hraw
      rw [Buffer.line?, hraw, Option.map_some, Option.map_some, Function.comp_apply,
        lineEnd_ofBuffer hraw, ← hwidth]
      change some (Text.stripReturn (b.text.slice _)) = _
      rw [htext, Text.slice_middle]

theorem offsetOf_ofBuffer (p : Position) : (ofBuffer b).offsetOf p = b.offsetOf p := by
  have hcount : (ofBuffer b).starts.length = b.lineCount := by
    rw [ofBuffer, lineStarts_eq, List.length_mapIdx, Buffer.lineCount]
  rw [offsetOf, ofBuffer_starts, line?_ofBuffer, hcount, Buffer.offsetOf]
  cases b.line? p.line <;> rfl

/-- An exchange finds the lines of the new text. -/
theorem exchanged_ofBuffer (e : Exchange) : (ofBuffer b).exchanged e = ofBuffer (b.exchanged e) := by
  have hreplace : (ofBuffer b).replace e = (b.replace e.start e.stop e.new).map ofBuffer := by
    simp only [replace, Buffer.replace, offsetOf_ofBuffer, bind, Except.bind]
    split
    · rfl
    · split
      · rfl
      · split <;> rfl
  rw [exchanged, Buffer.exchanged, hreplace]
  cases b.replace e.start e.stop e.new <;> rfl

theorem exchanged_foldl (es : List Exchange) :
    es.foldl exchanged (ofBuffer b) = ofBuffer (es.foldl Buffer.exchanged b) := by
  induction es generalizing b with
  | nil => rfl
  | cons e es ih => rw [List.foldl_cons, exchanged_ofBuffer, ih, List.foldl_cons]

end IndexedBuffer

namespace Buffer

/-- Places of a document and boundaries of its text on its lines correspond one to one and in order. Where
a place behind the end of its line counts as the end, offsets still ascend, and an exchange is refused just
for a line that does not exist or for an end before the start. After any exchanges the offsets of lines that
were kept beside the document are those of its text, and lines and offsets are found by them. -/
theorem places_correspond (b : Buffer) :
    (∀ i l, b.line? i = some l → ∃ front back, b.text = front ++ l ++ back ∧ front.width = b.lineStart i) ∧
    (∀ p q m n, b.IsPlace p → b.IsPlace q → p.Before q → b.offsetOf p = .ok m → b.offsetOf q = .ok n →
      m < n) ∧
    (∀ p, b.IsPlace p → ∃ n, b.offsetOf p = .ok n ∧ b.OnLine n) ∧
    (∀ n, b.OnLine n → ∃! p, b.IsPlace p ∧ b.offsetOf p = .ok n) ∧
    (∀ p q m n, p.le q = true → b.offsetOf p = .ok m → b.offsetOf q = .ok n → m ≤ n) ∧
    (∀ p l, b.line? p.line = some l → b.IsPlace (b.clamp p) ∧
      b.clamp p = ⟨p.line, min p.character l.length⟩ ∧ b.offsetOf (b.clamp p) = b.offsetOf p) ∧
    (∀ start stop new, (∃ e, b.replace start stop new = .error e) ↔
      b.line? start.line = none ∨ b.line? stop.line = none ∨ (b.clamp stop).Before (b.clamp start)) ∧
    ∀ es : List Exchange,
      let indexed := es.foldl IndexedBuffer.exchanged (.ofBuffer b)
      let plain := es.foldl exchanged b
      indexed.buffer = plain ∧ indexed.starts = IndexedBuffer.lineStarts plain.text ∧
        (∀ i, indexed.starts[i]? = (plain.line? i).map fun _ => plain.lineStart i) ∧
        (∀ i, indexed.line? i = plain.line? i) ∧ ∀ p, indexed.offsetOf p = plain.offsetOf p := by
  refine ⟨fun i l h => exists_line h, fun p q m n _ hq hbefore hm hn => offsetOf_lt hq hbefore hm hn,
    fun p hp => exists_offsetOf hp, fun n hn => ?_, fun p q m n hle hm hn => offsetOf_le hle hm hn,
    fun p l hl => ⟨isPlace_clamp hl, ?_, offsetOf_clamp b p⟩, replace_eq_error b, fun es => ?_⟩
  · obtain ⟨p, hp, hoffset⟩ := hn.exists_place
    exact ⟨p, ⟨hp, hoffset⟩, fun q hq => place_unique hq.1 hp hq.2 hoffset⟩
  · simp only [clamp, hl]
  · dsimp only
    rw [IndexedBuffer.exchanged_foldl]
    exact ⟨rfl, rfl, IndexedBuffer.ofBuffer_starts _, IndexedBuffer.line?_ofBuffer _,
      IndexedBuffer.offsetOf_ofBuffer _⟩

/-- A character of two bytes, carriage returns within a line and at the end of the text. The first exchange
takes a return out of a line, the second one names a line that does not exist. -/
theorem places_correspond_returns :
    let b : Buffer := .ofText "é\r\r\n\r\nb\r".toList
    let es : List Exchange := [⟨⟨0, 1⟩, ⟨1, 7⟩, "\n".toList⟩, ⟨⟨3, 0⟩, ⟨3, 0⟩, []⟩]
    b.offsetOf ⟨0, 2⟩ = .ok 3 ∧ b.offsetOf ⟨2, 0⟩ = .ok 7 ∧ 3 < 7 ∧
      (∃! p, b.IsPlace p ∧ b.offsetOf p = .ok 3) ∧ b.offsetOf (b.clamp ⟨1, 7⟩) = b.offsetOf ⟨1, 7⟩ ∧
      (∃ e, b.replace ⟨0, 2⟩ ⟨0, 1⟩ [] = .error e) ∧
      (es.foldl exchanged b).text = "é\r\n\r\nb\r".toList ∧
      (es.foldl IndexedBuffer.exchanged (.ofBuffer b)).starts =
        IndexedBuffer.lineStarts (es.foldl exchanged b).text := by
  intro b es
  obtain ⟨-, hlt, -, hunique, -, hclamp, hrefused, hindexed⟩ := places_correspond b
  have hfirst : b.line? 0 = some "é\r".toList := by decide
  have hlast : b.line? 2 = some "b".toList := by decide
  have honLine : b.OnLine 3 := ⟨by decide, 0, _, hfirst, by decide, by decide⟩
  have hfirst' : b.IsPlace ⟨0, 2⟩ := ⟨_, hfirst, by decide⟩
  have hlast' : b.IsPlace ⟨2, 0⟩ := ⟨_, hlast, by decide⟩
  exact ⟨by rfl, by rfl, hlt ⟨0, 2⟩ ⟨2, 0⟩ 3 7 hfirst' hlast' (by decide) rfl rfl,
    hunique 3 honLine, (hclamp ⟨1, 7⟩ [] (by decide)).2.2, (hrefused _ _ _).2 (.inr (.inr (by decide))),
    by decide, (hindexed es).2.1⟩

end Buffer
end PugSize
