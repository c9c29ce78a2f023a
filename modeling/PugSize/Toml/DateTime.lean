/-!
Dates and times, and their text. Either part may be absent, and so may seconds and their fraction.
-/

namespace PugSize.Toml

structure Date where
  year : Nat
  month : Nat
  day : Nat
deriving DecidableEq

structure Time where
  hour : Nat
  minute : Nat
  second : Option Nat
  nanosecond : Option Nat
deriving DecidableEq

/-- The distance from universal time, in minutes. -/
inductive Offset
  | utc
  | minutes (n : Int)
deriving DecidableEq

structure DateTime where
  date : Option Date
  time : Option Time
  offset : Option Offset
deriving DecidableEq

/-- Two digits. -/
def twoDigits (n : Nat) : String := if n < 10 then s!"0{n}" else s!"{n}"

def Date.text (d : Date) : String :=
  let year := String.ofList (List.replicate (4 - (toString d.year).length) '0') ++ toString d.year
  s!"{year}-{twoDigits d.month}-{twoDigits d.day}"

/-- Nanoseconds as a fraction of a second, without trailing zeros behind the first digit. -/
def fractionText (n : Nat) : String :=
  let digits := (toString n).toList
  let padded := List.replicate (9 - digits.length) '0' ++ digits
  String.ofList ('.' :: if n = 0 then ['0'] else (padded.reverse.dropWhile (· == '0')).reverse)

def Time.text (t : Time) : String :=
  let seconds := match t.second with
    | some s => ":" ++ twoDigits s
    | none => ""
  let fraction := match t.nanosecond with
    | some n => fractionText n
    | none => ""
  s!"{twoDigits t.hour}:{twoDigits t.minute}{seconds}{fraction}"

def Offset.text : Offset → String
  | .utc => "Z"
  | .minutes n =>
    let sign := if n < 0 then "-" else "+"
    s!"{sign}{twoDigits (n.natAbs / 60)}:{twoDigits (n.natAbs % 60)}"

def DateTime.text (d : DateTime) : String :=
  let date := (d.date.map Date.text).getD ""
  let joint := if d.date.isSome ∧ d.time.isSome then "T" else ""
  let time := (d.time.map Time.text).getD ""
  let offset := (d.offset.map Offset.text).getD ""
  date ++ joint ++ time ++ offset

end PugSize.Toml
