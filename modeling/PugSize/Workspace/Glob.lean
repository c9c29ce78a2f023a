/-!
Patterns for paths, as ignore files have them. Stars and question marks stay within one name, two
stars between slashes stand for any number of directories, and braces hold alternatives. A pattern
is compared with the bytes of a path.
-/

namespace PugSize.Glob

inductive Part
  | literal (c : Char)
  | anyByte
  | anyName
  /-- Any directories at the beginning. -/
  | leading
  /-- A slash and everything behind it. -/
  | inside
  /-- A slash, or a slash, any directories and a slash. -/
  | between
  | oneOf (negated : Bool) (ranges : List (UInt8 × UInt8))
  | choice (branches : List (List Part))

def slash : UInt8 := 47

/-- The rests of a path behind the bytes that stay within a name. -/
def restsOfName : List UInt8 → List (List UInt8)
  | [] => [[]]
  | b :: bs => (b :: bs) :: if b = slash then [] else restsOfName bs

/-- The rests of a path behind its slashes. -/
def restsOfSlashes : List UInt8 → List (List UInt8)
  | [] => []
  | b :: bs => if b = slash then bs :: restsOfSlashes bs else restsOfSlashes bs

/-- All rests of a path. -/
def rests : List UInt8 → List (List UInt8)
  | [] => [[]]
  | b :: bs => (b :: bs) :: rests bs

def dropBytes? : List UInt8 → List UInt8 → Option (List UInt8)
  | [], input => some input
  | _ :: _, [] => none
  | w :: ws, b :: bs => if w = b then dropBytes? ws bs else none

mutual

/-- Whether a part stands for nothing at all, as alternatives without any content do. -/
def Part.isVoid : Part → Bool
  | .choice branches => allVoid branches
  | _ => false

def branchVoid : List Part → Bool
  | [] => true
  | p :: ps => p.isVoid && branchVoid ps

def allVoid : List (List Part) → Bool
  | [] => true
  | b :: bs => branchVoid b && allVoid bs

end

mutual

/-- Whether a part accepts a beginning of the input whose rest is accepted by `k`. -/
def Part.accepts (p : Part) (input : List UInt8) (k : List UInt8 → Bool) : Bool :=
  match p with
  | .literal c =>
    match dropBytes? (String.utf8EncodeChar c) input with
    | some rest => k rest
    | none => false
  | .anyByte =>
    match input with
    | b :: bs => b != slash && k bs
    | [] => false
  | .anyName => (restsOfName input).any k
  | .leading => k input || (restsOfSlashes input).any k
  | .inside =>
    match input with
    | b :: bs => b == slash && (rests bs).any k
    | [] => false
  | .between =>
    match input with
    | b :: bs => b == slash && (k bs || (restsOfSlashes bs).any k)
    | [] => false
  | .oneOf negated ranges =>
    match input with
    | b :: bs => (ranges.any fun (lo, hi) => lo ≤ b && b ≤ hi) != negated && k bs
    | [] => false
  | .choice branches => if allVoid branches then k input else acceptsAny branches input k

/-- Whether parts one after the other accept a beginning of the input. -/
def acceptsAll (ps : List Part) (input : List UInt8) (k : List UInt8 → Bool) : Bool :=
  match ps with
  | [] => k input
  | p :: ps => p.accepts input fun rest => acceptsAll ps rest k

/-- Whether one of several alternatives accepts a beginning of the input. Empty ones do not
count. -/
def acceptsAny (branches : List (List Part)) (input : List UInt8) (k : List UInt8 → Bool) : Bool :=
  match branches with
  | [] => false
  | b :: bs => (!branchVoid b && acceptsAll b input k) || acceptsAny bs input k

end

/-- Whether a pattern accepts a whole path. Two stars alone accept every path. -/
def accepts (pattern : List Part) (path : List UInt8) : Bool :=
  match pattern with
  | [.leading] => true
  | _ => acceptsAll pattern path List.isEmpty

/-! Reading patterns. -/

/-- The ranges of bytes for a range of characters: the range between the last byte of the one and
the first byte of the other, and the bytes around them. -/
def byteRanges (lo hi : Char) : List (UInt8 × UInt8) :=
  let single (b : UInt8) := (b, b)
  if lo = hi then (String.utf8EncodeChar lo).map single
  else
    let first := String.utf8EncodeChar lo
    let last := String.utf8EncodeChar hi
    first.dropLast.map single ++ [(first.getLast?.getD 0, last.head?.getD 0)] ++
      (last.drop 1).map single

/-- What reading a class in brackets comes to. -/
inductive ClassReading
  | closed (ranges : List (Char × Char)) (rest : List Char)
  | unclosed
  | invalid

/-- The rest of a class, with its ranges so far, the last one first. A range is begun by a hyphen
that is neither the first nor the last character. -/
def readClass (first inRange : Bool) (ranges : List (Char × Char)) : List Char → ClassReading
  | [] => .unclosed
  | c :: cs =>
    if c = ']' ∧ !first then
      .closed (if inRange then ('-', '-') :: ranges else ranges).reverse cs
    else if c = '-' ∧ !first ∧ !inRange then readClass false true ranges cs
    else
      match inRange, ranges with
      | true, (lo, _) :: others =>
        if c < lo then .invalid else readClass false false ((lo, c) :: others) cs
      | _, _ => readClass false false ((c, c) :: ranges) cs

/-- An open brace: the parts before it and its finished alternatives, the last ones first. -/
structure OpenBrace where
  before : List Part
  branches : List (List Part)

/-- What two stars add to the parts before them, the last of which comes first, and what is left
to read. They stand for directories at the beginning and behind a slash, if a slash or the end
follows, and else for two stars one after the other. -/
def doubleStar (previous : Option Char) (inBraces : Bool) (parts : List Part) (rest : List Char) :
    List Part × Char × List Char :=
  let names := (.anyName :: .anyName :: parts, '*', rest)
  let directories (p : Part) : List Part :=
    match parts with
    | .leading :: _ | .inside :: _ => parts
    | parts => p :: parts.drop 1
  match parts.isEmpty, rest with
  | true, [] => ([.leading], '*', [])
  | true, '/' :: more => ([.leading], '/', more)
  | true, _ => names
  | false, rest =>
    if previous ≠ some '/' then names
    else match rest with
      | [] => (directories .inside, '*', [])
      | '/' :: more => (directories .between, '/', more)
      | c :: _ =>
        if inBraces && (c == ',' || c == '}') then (directories .inside, '*', rest) else names

/-- The parts of a pattern behind those read so far, of which the last one comes first. `none` if a
brace is not closed or not opened, if a class has its ends in the wrong order, or if the pattern
ends with a backslash. `fuel` is greater than the number of characters. -/
def readFrom (previous : Option Char) (braces : List OpenBrace) (parts : List Part) :
    List Char → Nat → Option (List Part)
  | _, 0 => none
  | [], _ + 1 => if braces.isEmpty then some parts.reverse else none
  | c :: cs, fuel + 1 =>
    match c, cs with
    | '*', '*' :: rest =>
      let (parts, last, rest) := doubleStar previous (!braces.isEmpty) parts rest
      readFrom (some last) braces parts rest fuel
    | '*', _ => readFrom (some c) braces (.anyName :: parts) cs fuel
    | '?', _ => readFrom (some c) braces (.anyByte :: parts) cs fuel
    | '\\', [] => none
    | '\\', e :: rest => readFrom (some e) braces (.literal e :: parts) rest fuel
    | '{', _ => readFrom (some c) (⟨parts, []⟩ :: braces) [] cs fuel
    | '}', _ =>
      match braces with
      | [] => none
      | b :: outer =>
        readFrom (some c) outer (.choice (parts.reverse :: b.branches).reverse :: b.before) cs fuel
    | ',', _ =>
      match braces with
      | [] => readFrom (some c) [] (.literal c :: parts) cs fuel
      | b :: outer => readFrom (some c) (⟨b.before, parts.reverse :: b.branches⟩ :: outer) [] cs fuel
    | '[', _ =>
      let negated := cs.head? == some '!' || cs.head? == some '^'
      match readClass true false [] (if negated then cs.drop 1 else cs) with
      | .closed ranges rest =>
        let bytes := ranges.flatMap fun (lo, hi) => byteRanges lo hi
        readFrom (some ']') braces (.oneOf negated bytes :: parts) rest fuel
      | .unclosed => readFrom (some c) braces (.literal c :: parts) cs fuel
      | .invalid => none
    | _, _ => readFrom (some c) braces (.literal c :: parts) cs fuel

/-- The parts of a pattern. -/
def read? (pattern : List Char) : Option (List Part) :=
  readFrom none [] [] pattern (pattern.length + 1)

end PugSize.Glob
