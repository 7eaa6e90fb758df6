/-
Dates and times of a document.

Every field has a fixed number of digits and lies in its range; a day exists in its
month.  The normal form separates date and time by `T`, writes the fraction of a second
without zeros at its end, at most to the nanosecond, and no zone offset as `Z`.
-/
import AtomicCss.Decimal.Numeral
import AtomicCss.Text.Blank

namespace AtomicCss.Toml

open Decimal Text

/-- Reads a number of exactly `width` digits. -/
def fixedDigits? (width : Nat) (cs : List Char) : Option (Nat × List Char) :=
  let ds := cs.take width
  if ds.length = width && ds.all Char.isDigit then some (digitsValue ds, cs.drop width)
  else none

/-- Reads a number of exactly `width` digits between two bounds. -/
def boundedDigits? (width low high : Nat) (cs : List Char) : Option (Nat × List Char) := do
  let (n, rest) ← fixedDigits? width cs
  if low ≤ n && n ≤ high then some (n, rest) else none

/-- Reads one given character. -/
def skipChar? (c : Char) : List Char → Option (List Char)
  | d :: cs => if d = c then some cs else none
  | [] => none

/-- A number with zeros in front up to a width. -/
def padded (width n : Nat) : String :=
  let ds := Nat.toDigits 10 n
  String.ofList (List.replicate (width - ds.length) '0' ++ ds)

/-- How many days a month has. -/
def daysIn (year month : Nat) : Nat :=
  match month with
  | 2 => if year % 4 = 0 && (year % 100 ≠ 0 || year % 400 = 0) then 29 else 28
  | 4 | 6 | 9 | 11 => 30
  | _ => 31

/-- Reads a date. -/
def date? (cs : List Char) : Option (String × List Char) := do
  let (year, cs) ← fixedDigits? 4 cs
  let cs ← skipChar? '-' cs
  let (month, cs) ← boundedDigits? 2 1 12 cs
  let cs ← skipChar? '-' cs
  let (day, cs) ← boundedDigits? 2 1 (daysIn year month) cs
  return (s!"{padded 4 year}-{padded 2 month}-{padded 2 day}", cs)

/-- Reads the fraction of a second, if there is one. -/
def fraction (cs : List Char) : String × List Char :=
  match cs with
  | '.' :: rest =>
    let ds := rest.takeWhile Char.isDigit
    if ds.isEmpty then ("", cs)
    else
      let kept := dropEndWhile (· == '0') (ds.take 9)
      let text := if kept.isEmpty then "" else String.ofList ('.' :: kept)
      (text, rest.dropWhile Char.isDigit)
  | _ => ("", cs)

/-- Reads a time of day. -/
def time? (cs : List Char) : Option (String × List Char) := do
  let (hour, cs) ← boundedDigits? 2 0 23 cs
  let cs ← skipChar? ':' cs
  let (minute, cs) ← boundedDigits? 2 0 59 cs
  let cs ← skipChar? ':' cs
  let (second, cs) ← boundedDigits? 2 0 60 cs
  let (part, cs) := fraction cs
  return (s!"{padded 2 hour}:{padded 2 minute}:{padded 2 second}{part}", cs)

/-- Reads the hours and minutes of a zone's offset. -/
def offsetTime? (cs : List Char) : Option (Nat × Nat × List Char) := do
  let (hour, cs) ← boundedDigits? 2 0 23 cs
  let cs ← skipChar? ':' cs
  let (minute, cs) ← boundedDigits? 2 0 59 cs
  return (hour, minute, cs)

/-- Reads a zone's offset; none, if it is malformed. -/
def offset? (cs : List Char) : Option (String × List Char) :=
  match cs with
  | 'Z' :: cs | 'z' :: cs => some ("Z", cs)
  | '+' :: cs => (offsetTime? cs).map (written "+")
  | '-' :: cs => (offsetTime? cs).map (written "-")
  | cs => some ("", cs)
where
  /-- The text of an offset; one of no minutes has a plus sign. -/
  written (sign : String) : Nat × Nat × List Char → String × List Char
    | (hour, minute, rest) =>
      let sign := if hour = 0 && minute = 0 then "+" else sign
      (s!"{sign}{padded 2 hour}:{padded 2 minute}", rest)

/-- Reads the time after a date, if there is one. -/
def timeAfterDate (cs : List Char) : Option (String × List Char) :=
  let separated := match cs with
    | c :: rest => if c = 'T' || c = 't' || c = ' ' then time? rest else none
    | [] => none
  match separated with
  | none => some ("", cs)
  | some (time, rest) => do
    let (zone, rest) ← offset? rest
    return (s!"T{time}{zone}", rest)

/-- Reads a date, a time, or both. -/
def moment? (cs : List Char) : Option (String × List Char) :=
  match date? cs with
  | some (date, rest) => (timeAfterDate rest).map fun (time, rest) => (date ++ time, rest)
  | none => time? cs

end AtomicCss.Toml
