import ImageBuild.Text.Blank

/-!
# `ImageBuild.Text.Instant`: points in time and their RFC 3339 form

An instant is a day, a second of the day and nanoseconds, in UTC. A leap second is the second 59
with a thousand million nanoseconds or more. `Instant.read?` takes any offset and blanks between
the parts; `Instant.display` writes `Z` and the fewest of 0, 3, 6 or 9 fraction digits that lose
nothing.
-/

set_option autoImplicit false

namespace ImageBuild

/-- A point in time. -/
structure Instant where
  /-- Days since 1970-01-01. -/
  day : Int
  /-- The second of the day. -/
  second : Nat
  /-- Nanoseconds, from `10 ^ 9` on in a leap second. -/
  nanos : Nat
  deriving DecidableEq, Repr

namespace Instant

/-! ### The calendar -/

/-- How many seconds a day has. -/
def daySeconds : Nat := 86400

/-- Nanoseconds in a second. -/
def nanosPerSecond : Nat := 1000000000

/-- Whether a year of the Gregorian calendar has 366 days. -/
def isLeapYear (y : Int) : Bool := y % 4 == 0 && (y % 100 != 0 || y % 400 == 0)

/-- How many days a month has. -/
def monthLength (y : Int) (m : Nat) : Nat :=
  if m = 2 then (if isLeapYear y then 29 else 28)
  else if m = 4 ∨ m = 6 ∨ m = 9 ∨ m = 11 then 30
  else 31

/-- The number of a date, counted from 1970-01-01. Years are taken to start in March, so that the
leap day is the last one, and in groups of 400, which all have the same number of days. -/
def dayOfDate (y : Int) (m d : Nat) : Int :=
  let y := if m ≤ 2 then y - 1 else y
  let era := y / 400
  let yearOfEra := (y % 400).toNat
  let dayOfYear := (153 * ((m + 9) % 12) + 2) / 5 + d - 1
  let dayOfEra := yearOfEra * 365 + yearOfEra / 4 - yearOfEra / 100 + dayOfYear
  era * 146097 + dayOfEra - 719468

/-- Year, month and day of a numbered date. -/
def dateOfDay (day : Int) : Int × Nat × Nat :=
  let z := day + 719468
  let era := z / 146097
  let dayOfEra := (z % 146097).toNat
  let yearOfEra := (dayOfEra - dayOfEra / 1460 + dayOfEra / 36524 - dayOfEra / 146096) / 365
  let dayOfYear := dayOfEra - (365 * yearOfEra + yearOfEra / 4 - yearOfEra / 100)
  let shifted := (5 * dayOfYear + 2) / 153
  let d := dayOfYear - (153 * shifted + 2) / 5 + 1
  let m := if shifted < 10 then shifted + 3 else shifted - 9
  let y := yearOfEra + era * 400
  (if m ≤ 2 then y + 1 else y, m, d)

/-- The years that a date can have. -/
def minYear : Int := -262143

def maxYear : Int := 262142

/-! ### Writing -/

/-- A number in at least `width` digits. -/
def padded (width n : Nat) : List Char :=
  let digits := Nat.toDigits 10 n
  List.replicate (width - digits.length) '0' ++ digits

/-- A year: four digits, with a sign outside of 0 to 9999. -/
def yearChars (y : Int) : List Char :=
  if 0 ≤ y ∧ y ≤ 9999 then padded 4 y.toNat
  else if 0 ≤ y then '+' :: padded 4 y.toNat
  else '-' :: padded 4 (-y).toNat

/-- The fraction of a second in the fewest digits of 0, 3, 6, 9 that lose nothing. -/
def fractionChars (nanos : Nat) : List Char :=
  if nanos = 0 then []
  else if nanos % 1000000 = 0 then '.' :: padded 3 (nanos / 1000000)
  else if nanos % 1000 = 0 then '.' :: padded 6 (nanos / 1000)
  else '.' :: padded 9 nanos

/-- The RFC 3339 form. -/
def display (t : Instant) : String :=
  let (y, m, d) := dateOfDay t.day
  let leap := if nanosPerSecond ≤ t.nanos then 1 else 0
  String.ofList (yearChars y ++ '-' :: padded 2 m ++ '-' :: padded 2 d ++
    'T' :: padded 2 (t.second / 3600) ++ ':' :: padded 2 (t.second / 60 % 60) ++
    ':' :: padded 2 (t.second % 60 + leap) ++
    fractionChars (t.nanos - leap * nanosPerSecond) ++ ['Z'])

/-! ### Reading -/

def isDigit (c : Char) : Bool := '0' ≤ c && c ≤ '9'

def skipBlanks (cs : List Char) : List Char := cs.dropWhile Text.isBlank

/-- The number that decimal digits spell. -/
def digitsValue (cs : List Char) : Nat := cs.foldl (fun n c => 10 * n + (c.toNat - 48)) 0

/-- Reads at least one digit and at most `width`. -/
def readNumber (width : Nat) (cs : List Char) : Option (Nat × List Char) :=
  let digits := (cs.take width).takeWhile isDigit
  if digits.isEmpty then none else some (digitsValue digits, cs.drop digits.length)

/-- Reads a field of up to two digits, blanks allowed before it. -/
def readField (cs : List Char) : Option (Nat × List Char) := readNumber 2 (skipBlanks cs)

/-- Reads a year: four digits at most, or a sign and any number of digits. -/
def readYear (cs : List Char) : Option (Int × List Char) :=
  match skipBlanks cs with
  | '-' :: rest => (readNumber rest.length rest).map fun (n, after) => (-(n : Int), after)
  | '+' :: rest => (readNumber rest.length rest).map fun (n, after) => ((n : Int), after)
  | rest => (readNumber 4 rest).map fun (n, after) => ((n : Int), after)

/-- Reads one character after blanks. -/
def readMark (mark : Char) (cs : List Char) : Option (List Char) :=
  match skipBlanks cs with
  | c :: rest => if c = mark then some rest else none
  | [] => none

/-- Reads a fraction of a second, if there is one. Digits after the ninth say nothing. -/
def readFraction : List Char → Option (Nat × List Char)
  | '.' :: rest =>
    match readNumber 9 rest with
    | none => none
    | some (n, after) =>
      let width := rest.length - after.length
      some (n * Nat.pow 10 (9 - width), after.dropWhile isDigit)
  | cs => some (0, cs)

/-- Whether the characters start with `UTC` in any case. -/
def startsWithUtc : List Char → Bool
  | u :: t :: c :: _ => u.toUpper == 'U' && t.toUpper == 'T' && c.toUpper == 'C'
  | _ => false

/-- Reads two digits. -/
def readTwo : List Char → Option (Nat × List Char)
  | a :: b :: rest =>
    if isDigit a && isDigit b then some (digitsValue [a, b], rest) else none
  | _ => none

/-- Reads an offset from UTC in seconds. -/
def readOffset (cs : List Char) : Option (Int × List Char) :=
  if startsWithUtc cs then some (0, cs.drop 3)
  else
    match cs with
    | [] => none
    | sign :: rest =>
      if sign = 'Z' ∨ sign = 'z' then some (0, rest)
      else if sign ≠ '+' ∧ sign ≠ '-' ∧ sign ≠ '−' then none
      else do
        let (hours, rest) ← readTwo rest
        let (minutes, rest) ← readTwo (rest.dropWhile fun c => c == ':' || Text.isBlank c)
        if 60 ≤ minutes then none
        let seconds : Int := hours * 3600 + minutes * 60
        return (if sign = '+' then seconds else -seconds, rest)

/-- The instant of a local date and time at an offset from UTC, if all of them exist. -/
def ofLocal? (y : Int) (m d hour minute sec nanos : Nat) (offset : Int) : Option Instant :=
  if y < minYear ∨ maxYear < y ∨ m = 0 ∨ 12 < m ∨ d = 0 ∨ monthLength y m < d ∨ 24 ≤ hour ∨
      60 ≤ minute ∨ 61 ≤ sec ∨ (daySeconds : Int) ≤ offset.natAbs then none
  else
    let leap := if sec = 60 then 1 else 0
    let localSecond : Int := (hour * 3600 + minute * 60 + sec - leap : Nat)
    let shifted := localSecond - offset
    let day := dayOfDate y m d + shifted / daySeconds
    let year := (dateOfDay day).1
    if year < minYear ∨ maxYear < year then none
    else some ⟨day, (shifted % daySeconds).toNat, nanos + leap * nanosPerSecond⟩

/-- Reads an instant, with nothing but blanks after it. -/
def readChars? (cs : List Char) : Option Instant := do
  let (y, cs) ← readYear cs
  let cs ← readMark '-' cs
  let (m, cs) ← readField cs
  let cs ← readMark '-' cs
  let (d, cs) ← readField cs
  let cs ← match cs with
    | c :: rest => if c = 'T' ∨ c = 't' ∨ c = ' ' then some rest else none
    | [] => none
  let (hour, cs) ← readField cs
  let cs ← readMark ':' cs
  let (minute, cs) ← readField cs
  let cs ← readMark ':' cs
  let (sec, cs) ← readField cs
  let (nanos, cs) ← readFraction cs
  let (offset, cs) ← readOffset (skipBlanks cs)
  if (skipBlanks cs).isEmpty then ofLocal? y m d hour minute sec nanos offset else none

/-- Reads an instant, with nothing but blanks after it. -/
def read? (s : String) : Option Instant := readChars? s.toList

/-! ### Elapsed time -/

/-- The whole milliseconds from `start` to `stop`, cut off toward zero. A leap second between the
two counts. -/
def millisBetween (start stop : Instant) : Int :=
  let leap : Int :=
    if start.second < stop.second ∧ nanosPerSecond ≤ start.nanos then 1
    else if stop.second < start.second ∧ nanosPerSecond ≤ stop.nanos then -1
    else 0
  let seconds : Int :=
    (stop.day - start.day) * daySeconds + ((stop.second : Int) - start.second) + leap
  Int.tdiv (seconds * nanosPerSecond + ((stop.nanos : Int) - start.nanos)) 1000000

end Instant
end ImageBuild
