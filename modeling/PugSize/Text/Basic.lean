/-!
Text as a list of characters, measured in UTF-8 bytes. Offsets and spans count bytes, and
every cut falls between two characters. The lemmas say that cutting at the width of a
leading part gives that part and what follows it.
-/

namespace PugSize

abbrev Text := List Char

/-- A stretch of text, from the byte `start` up to the byte `stop`. -/
structure Span where
  start : Nat
  stop : Nat
deriving DecidableEq, Repr, Inhabited

namespace Span

def width (s : Span) : Nat := s.stop - s.start

/-- The empty stretch at an offset. -/
def empty (at_ : Nat) : Span := ⟨at_, at_⟩

def shift (s : Span) (n : Nat) : Span := ⟨s.start + n, s.stop + n⟩

end Span

namespace Text

/-- The number of bytes of a text. -/
def width : Text → Nat
  | [] => 0
  | c :: cs => c.utf8Size + width cs

/-- The characters that lie wholly in the first `n` bytes. -/
def takeBytes : Nat → Text → Text
  | _, [] => []
  | n, c :: cs => if c.utf8Size ≤ n then c :: takeBytes (n - c.utf8Size) cs else []

/-- What remains after the characters that lie wholly in the first `n` bytes. -/
def dropBytes : Nat → Text → Text
  | _, [] => []
  | n, c :: cs => if c.utf8Size ≤ n then dropBytes (n - c.utf8Size) cs else c :: cs

/-- The stretch of a text that a span covers. -/
def slice (t : Text) (s : Span) : Text :=
  takeBytes s.width (dropBytes s.start t)

/-- Exchanges the stretch that a span covers. -/
def splice (t : Text) (s : Span) (new : Text) : Text :=
  takeBytes s.start t ++ new ++ dropBytes s.stop t

@[simp] theorem width_nil : width [] = 0 := rfl

@[simp] theorem width_cons (c : Char) (cs : Text) : width (c :: cs) = c.utf8Size + width cs := rfl

@[simp] theorem width_append (a b : Text) : width (a ++ b) = width a + width b := by
  induction a with
  | nil => simp
  | cons c cs ih => simp [ih, Nat.add_assoc]

theorem width_pos {t : Text} (h : t ≠ []) : 0 < width t := by
  cases t with
  | nil => exact absurd rfl h
  | cons c cs => exact Nat.lt_of_lt_of_le c.utf8Size_pos (Nat.le_add_right ..)

@[simp] theorem takeBytes_zero (t : Text) : takeBytes 0 t = [] := by
  cases t with
  | nil => rfl
  | cons c cs => simp [takeBytes, Nat.ne_of_gt c.utf8Size_pos]

@[simp] theorem dropBytes_zero (t : Text) : dropBytes 0 t = t := by
  cases t with
  | nil => rfl
  | cons c cs => simp [dropBytes, Nat.ne_of_gt c.utf8Size_pos]

theorem takeBytes_width_add (a b : Text) (n : Nat) :
    takeBytes (width a + n) (a ++ b) = a ++ takeBytes n b := by
  induction a with
  | nil => simp
  | cons c cs ih => simp [takeBytes, Nat.add_assoc, ih]

theorem dropBytes_width_add (a b : Text) (n : Nat) :
    dropBytes (width a + n) (a ++ b) = dropBytes n b := by
  induction a with
  | nil => simp
  | cons c cs ih => simp [dropBytes, Nat.add_assoc, ih]

@[simp] theorem takeBytes_width (a b : Text) : takeBytes (width a) (a ++ b) = a := by
  simpa using takeBytes_width_add a b 0

@[simp] theorem dropBytes_width (a b : Text) : dropBytes (width a) (a ++ b) = b := by
  simpa using dropBytes_width_add a b 0

/-- A span given by the widths around a middle part covers that part. -/
theorem slice_middle (a b c : Text) :
    slice (a ++ b ++ c) ⟨width a, width a + width b⟩ = b := by
  simp [slice, Span.width, List.append_assoc]

/-- Exchanging a middle part keeps what stands around it. -/
theorem splice_middle (a b c new : Text) :
    splice (a ++ b ++ c) ⟨width a, width a + width b⟩ new = a ++ new ++ c := by
  have h : width a + width b = width (a ++ b) := by simp
  simp only [splice, h, dropBytes_width]
  simp [List.append_assoc]

end Text
end PugSize
