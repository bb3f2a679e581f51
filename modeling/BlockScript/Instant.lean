import BlockScript.Text

/-! Instants written as a date, a time of day and an offset from universal time, such as
`2024-01-02T03:04:05.5Z` and `2024-01-02T03:04:05+01:00`. The hour may have one digit, the fraction any
number of digits, of which nine count, and its mark may be a comma. -/

namespace BlockScript

/-- Nanoseconds since the first of January of the year zero, in universal time. -/
abbrev Instant := Int

namespace Instant

def isLeap (year : Nat) : Bool := year % 4 == 0 && (year % 100 != 0 || year % 400 == 0)

def daysIn (year month : Nat) : Nat :=
  if month = 2 then (if isLeap year then 29 else 28)
  else if month = 4 || month = 6 || month = 9 || month = 11 then 30
  else 31

def daysBeforeYear (year : Nat) : Nat :=
  year * 365 + (year + 3) / 4 - (year + 99) / 100 + (year + 399) / 400

def daysBeforeMonth (year month : Nat) : Nat :=
  (List.range (month - 1)).foldl (fun days m => days + daysIn year (m + 1)) 0

def digit? (b : UInt8) : Option Nat := if Bytes.isDigit b then some (b.toNat - 48) else none

def pair? : Bytes → Option (Nat × Bytes)
  | a :: b :: rest => do
    let x ← digit? a
    let y ← digit? b
    return (x * 10 + y, rest)
  | _ => none

def oneOrTwo? (s : Bytes) : Option (Nat × Bytes) :=
  match s with
  | a :: rest => (digit? a).map fun x =>
    match rest with
    | b :: more => match digit? b with
      | some y => (x * 10 + y, more)
      | none => (x, rest)
    | [] => (x, rest)
  | [] => none

def pairBelow? (bound : Nat) (s : Bytes) : Option (Nat × Bytes) := do
  let (n, rest) ← pair? s
  if n < bound then some (n, rest) else none

def mark? (b : UInt8) : Bytes → Option Bytes
  | c :: rest => if c = b then some rest else none
  | [] => none

/-- The nanoseconds of a fraction; without a digit behind the mark there is none. -/
def fraction (s : Bytes) : Nat × Bytes :=
  match s with
  | mark :: rest =>
    let digits := rest.takeWhile Bytes.isDigit
    if (mark = 46 || mark = 44) && !digits.isEmpty then
      let kept := digits.take 9
      (Bytes.digitsValue kept * Nat.pow 10 (9 - kept.length),
        rest.dropWhile Bytes.isDigit)
    else (0, s)
  | [] => (0, s)

/-- The seconds by which local time is ahead. -/
def offset? : Bytes → Option (Int × Bytes)
  | 90 :: rest => some (0, rest)
  | sign :: rest => do
    let (hours, rest) ← pair? rest
    let rest ← mark? 58 rest
    let (minutes, rest) ← pair? rest
    if 24 < hours || 60 < minutes then none
    else
      let seconds : Int := (hours * 60 + minutes) * 60
      if sign = 43 then some (seconds, rest)
      else if sign = 45 then some (-seconds, rest)
      else none
  | [] => none

def parse? (s : Bytes) : Option Instant := do
  let (century, s) ← pair? s
  let (yearInCentury, s) ← pair? s
  let year := century * 100 + yearInCentury
  let s ← mark? 45 s
  let (month, s) ← pairBelow? 13 s
  let s ← mark? 45 s
  let (day, s) ← pair? s
  let s ← mark? 84 s
  let (hour, s) ← oneOrTwo? s
  let s ← mark? 58 s
  let (minute, s) ← pairBelow? 60 s
  let s ← mark? 58 s
  let (second, s) ← pairBelow? 60 s
  let (nanoseconds, s) := fraction s
  let (ahead, s) ← offset? s
  if s.isEmpty && hour < 24 && 0 < month && 0 < day && day ≤ daysIn year month then
    let days : Int := daysBeforeYear year + daysBeforeMonth year month + (day - 1)
    let seconds : Int := days * 86400 + hour * 3600 + minute * 60 + second - ahead
    some (seconds * 1000000000 + nanoseconds)
  else none

def epoch : Instant := 719528 * 86400 * 1000000000

def dayOfMonth (year : Nat) : (fuel month day : Nat) → Nat × Nat
  | 0, month, day => (month, day + 1)
  | fuel + 1, month, day =>
    if day < daysIn year month then (month, day + 1)
    else dayOfMonth year fuel (month + 1) (day - daysIn year month)

def yearOfDay (day : Nat) : Nat :=
  let guess := day / 366
  guess + ((List.range (day / 100000 + 2)).filter fun n => daysBeforeYear (guess + n + 1) ≤ day).length

def twoDigits (n : Nat) : Bytes := Bytes.natural (n / 10) ++ Bytes.natural (n % 10)

/-- The written form in universal time; a fraction has no zeros at its end. -/
def render (t : Instant) : Bytes :=
  let nanoseconds := t.toNat % 1000000000
  let seconds := t.toNat / 1000000000
  let day := seconds / 86400
  let year := yearOfDay day
  let (month, dayInMonth) := dayOfMonth year 11 1 (day - daysBeforeYear year)
  let yearText := Bytes.natural year
  let places := (((Bytes.natural (1000000000 + nanoseconds)).drop 1).reverse.dropWhile (· == 48)).reverse
  List.replicate (4 - yearText.length) 48 ++ yearText ++ Bytes.ofString "-" ++ twoDigits month ++
    Bytes.ofString "-" ++ twoDigits dayInMonth ++ Bytes.ofString "T" ++
    twoDigits (seconds / 3600 % 24) ++ Bytes.ofString ":" ++ twoDigits (seconds / 60 % 60) ++
    Bytes.ofString ":" ++ twoDigits (seconds % 60) ++ (if places.isEmpty then [] else 46 :: places) ++
    Bytes.ofString "Z"

def longest : Int := 0x7FFFFFFFFFFFFFFF

/-- The microseconds from one instant to another, with a fraction dropped. A span too long to be held
counts as the longest one. -/
def microseconds (start finish : Instant) : Int :=
  (max (-longest - 1) (min longest (finish - start))).tdiv 1000

end Instant

end BlockScript
