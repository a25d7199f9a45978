import DomiconExec.Primitives.Hex

-- An instant with a time zone: the seconds since January 1 of the year 1 UTC, the nanoseconds within
-- the second, and the offset of the zone in seconds.
structure GoTime where
  sec : Int
  nsec : Nat
  offset : Int
  nsec_lt : nsec < 1000000000
deriving DecidableEq

namespace GoTime

def zero : GoTime where
  sec := 0
  nsec := 0
  offset := 0
  nsec_lt := by decide

def unixToInternal : Int :=
  62135596800

def unix (t : GoTime) : Int :=
  t.sec - unixToInternal

-- The function `time.Unix` for whole seconds, in a zone with the given offset.
def ofUnix (offset sec : Int) : GoTime :=
  { zero with sec := sec + unixToInternal, offset }

def addSec (t : GoTime) (d : Int) : GoTime :=
  { t with sec := t.sec + d }

def before (t u : GoTime) : Bool :=
  t.sec < u.sec || t.sec = u.sec && t.nsec < u.nsec

-- The days before March 1 of the year 0 in the proleptic Gregorian calendar, relative to January 1
-- of the year 1.
def daysBeforeYear1 : Int :=
  306

-- A date of the proleptic Gregorian calendar.
structure Date where
  year : Int
  month : Nat
  day : Nat
deriving DecidableEq

-- The date `days` days after January 1 of the year 1. Years start in March, in cycles of 400 years.
def Date.ofDays (days : Int) : Date :=
  let z := days + daysBeforeYear1
  let era := z / 146097
  let doe := (z % 146097).toNat
  let yoe := (doe - doe / 1460 + doe / 36524 - doe / 146096) / 365
  let doy := doe - (365 * yoe + yoe / 4 - yoe / 100)
  let mp := (5 * doy + 2) / 153
  {
    year := yoe + era * 400 + if mp < 10 then 0 else 1
    month := if mp < 10 then mp + 3 else mp - 9
    day := doy - (153 * mp + 2) / 5 + 1
  }

def Date.toDays (d : Date) : Int :=
  let y := if d.month ≤ 2 then d.year - 1 else d.year
  let era := y / 400
  let yoe := (y % 400).toNat
  let mp := if d.month ≤ 2 then d.month + 9 else d.month - 3
  let doe := 365 * yoe + yoe / 4 - yoe / 100 + (153 * mp + 2) / 5 + d.day - 1
  era * 146097 + doe - daysBeforeYear1

def isLeap (year : Int) : Bool :=
  year % 4 = 0 && (year % 100 ≠ 0 || year % 400 = 0)

def daysIn (year : Int) (month : Nat) : Nat :=
  if month = 2 then
    if isLeap year then 29 else 28
  else if month ∈ [4, 6, 9, 11] then
    30
  else
    31

section RFC3339

open GoString (ascii)

-- The decimal digits of a number, with leading zeros up to the given width.
def pad (width n : Nat) : GoString :=
  let s := ascii (toString n)
  List.replicate (width - s.length) 48 ++ s

def padInt (width : Nat) (n : Int) : GoString :=
  (if n < 0 then ascii "-" else []) ++ pad width n.natAbs

-- The method `Format` for the layout `time.RFC3339`.
def format (t : GoTime) : GoString :=
  let loc := t.sec + t.offset
  let date := Date.ofDays (loc / 86400)
  let rem := (loc % 86400).toNat
  let zone := t.offset.natAbs / 60
  padInt 4 date.year ++ ascii "-" ++ pad 2 date.month ++ ascii "-" ++ pad 2 date.day ++
    ascii "T" ++ pad 2 (rem / 3600) ++ ascii ":" ++ pad 2 (rem % 3600 / 60) ++ ascii ":" ++
    pad 2 (rem % 60) ++
    if t.offset = 0 then
      ascii "Z"
    else
      ascii (if t.offset < 0 then "-" else "+") ++ pad 2 (zone / 60) ++ ascii ":" ++
        pad 2 (zone % 60)

def isDigit (c : UInt8) : Bool :=
  48 ≤ c && c ≤ 57

-- The value of a number between `min` and `max` that has decimal digits only.
def parseUint (s : GoString) (min max : Nat) : Option Nat := do
  guard (s.all isDigit)
  let n := s.foldl (fun n c => 10 * n + (c.toNat - 48)) 0
  guard (min ≤ n ∧ n ≤ max)
  return n

-- The offset of a zone. An hour of 24 and a minute of 60 are in range.
def parseZone : GoString → Option Int
  | [90] => some 0
  | [sign, h₁, h₂, 58, m₁, m₂] => do
    guard (sign = 43 ∨ sign = 45)
    let hour ← parseUint [h₁, h₂] 0 24
    let min ← parseUint [m₁, m₂] 0 60
    let offset := 60 * (60 * hour + min)
    return if sign = 45 then -offset else offset
  | _ => none

-- An hour may have a single digit.
def splitHour : GoString → GoString × GoString
  | h₁ :: h₂ :: rest => if isDigit h₂ then ([h₁, h₂], rest) else ([h₁], h₂ :: rest)
  | s                => (s, [])

-- The digits of a fraction of a second. There has to be one after the point or comma.
def splitFraction : GoString → GoString × GoString
  | c :: d :: rest =>
    if (c = 46 ∨ c = 44) ∧ isDigit d then (d :: rest).span isDigit else ([], c :: d :: rest)
  | s => ([], s)

-- The function `time.Parse` for `time.RFC3339`. What its fast path rejects is parsed by the layout.
def parse (s : GoString) : Option GoTime := do
  match s with
  | y₁ :: y₂ :: y₃ :: y₄ :: 45 :: o₁ :: o₂ :: 45 :: d₁ :: d₂ :: 84 :: clock =>
    let (h, 58 :: m₁ :: m₂ :: 58 :: s₁ :: s₂ :: rest) := splitHour clock | none
    let year ← parseUint [y₁, y₂, y₃, y₄] 0 9999
    let month ← parseUint [o₁, o₂] 1 12
    let day ← parseUint [d₁, d₂] 1 (daysIn year month)
    let hour ← parseUint h 0 23
    let min ← parseUint [m₁, m₂] 0 59
    let sec ← parseUint [s₁, s₂] 0 59
    let (frac, rest) := splitFraction rest
    let nsec := (frac.takeD 9 48).foldl (fun n c => 10 * n + (c.toNat - 48)) 0
    let offset ← parseZone rest
    let days := Date.toDays { year, month, day }
    if h : nsec < 1000000000 then
      return { sec := 86400 * days + 3600 * hour + 60 * min + sec - offset, nsec, offset, nsec_lt := h }
    else
      none
  | _ => none

end RFC3339
end GoTime
