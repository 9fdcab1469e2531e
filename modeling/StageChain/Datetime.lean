import StageChain.Numeral

/-! Dates and times of day, as settings files write them. -/
namespace StageChain

structure Date where
  year : Nat
  month : Nat
  day : Nat
deriving DecidableEq

structure TimeOfDay where
  hour : Nat
  minute : Nat
  second : Nat
  nanosecond : Nat
deriving DecidableEq

/-- How far a clock is from universal time. -/
inductive Offset
  | universal
  | shifted (west : Bool) (hours minutes : Nat)
deriving DecidableEq

/-- Only a date with a time has an offset. -/
inductive Datetime
  | date (date : Date)
  | time (time : TimeOfDay)
  | both (date : Date) (time : TimeOfDay) (offset : Option Offset)
deriving DecidableEq

/-! ## Reading -/

namespace Datetime

def number (width : Nat) (s : List Char) : Option (Nat × List Char) :=
  let ds := s.take width
  if ds.length = width ∧ ds.all Char.isDigit then some (Nat.ofDigitChars 10 ds 0, s.drop width)
  else none

def mark (c : Char) : List Char → Option (List Char)
  | [] => none
  | d :: rest => if d = c then some rest else none

/-- Reads a fraction of a second, in nanoseconds. Digits from the tenth on do not count. -/
def fraction : List Char → Nat × List Char
  | '.' :: s =>
      let ds := s.takeWhile Char.isDigit
      if ds.isEmpty then (0, '.' :: s)
      else (Nat.ofDigitChars 10 ((ds ++ List.replicate 9 '0').take 9) 0, s.drop ds.length)
  | s => (0, s)

end Datetime

open Datetime in
def Date.read (s : List Char) : Option (Date × List Char) := do
  let (year, s) ← number 4 s
  let (month, s) ← number 2 (← mark '-' s)
  let (day, s) ← number 2 (← mark '-' s)
  return (⟨year, month, day⟩, s)

open Datetime in
def TimeOfDay.read (s : List Char) : Option (TimeOfDay × List Char) := do
  let (hour, s) ← number 2 s
  let (minute, s) ← number 2 (← mark ':' s)
  let (second, s) ← number 2 (← mark ':' s)
  let (nanosecond, s) := fraction s
  return (⟨hour, minute, second, nanosecond⟩, s)

open Datetime in
def Offset.readShift (west : Bool) (s : List Char) : Option (Offset × List Char) := do
  let (hours, s) ← number 2 s
  let (minutes, s) ← number 2 (← mark ':' s)
  return (shifted west hours minutes, s)

def Offset.read : List Char → Option (Offset × List Char)
  | 'Z' :: s | 'z' :: s => some (universal, s)
  | '+' :: s => readShift false s
  | '-' :: s => readShift true s
  | _ => none

namespace Datetime

def readAfter (d : Date) (s : List Char) : Datetime × List Char :=
  let time := match s with
    | 'T' :: s | 't' :: s | ' ' :: s => TimeOfDay.read s
    | _ => none
  match time with
  | none => (date d, s)
  | some (t, s) =>
      match Offset.read s with
      | some (o, s) => (both d t (some o), s)
      | none => (both d t none, s)

/-- Reads as much as belongs to a date or a time. The numbers may be out of range. -/
def read (s : List Char) : Option (Datetime × List Char) :=
  match Date.read s with
  | some (d, s) => some (readAfter d s)
  | none => (TimeOfDay.read s).map fun (t, s) => (time t, s)

end Datetime

/-! ## Ranges -/

def Date.isLeap (year : Nat) : Bool := year % 4 == 0 && (year % 100 != 0 || year % 400 == 0)

def Date.daysIn (year month : Nat) : Nat :=
  if month = 2 then if isLeap year then 29 else 28
  else if month = 4 ∨ month = 6 ∨ month = 9 ∨ month = 11 then 30
  else 31

def Date.isValid (d : Date) : Bool :=
  1 ≤ d.month && d.month ≤ 12 && 1 ≤ d.day && d.day ≤ daysIn d.year d.month

/-- The second 60 is for leap seconds. -/
def TimeOfDay.isValid (t : TimeOfDay) : Bool :=
  t.hour ≤ 23 && t.minute ≤ 59 && t.second ≤ 60

def Offset.isValid : Offset → Bool
  | universal => true
  | shifted _ hours minutes => hours ≤ 23 && minutes ≤ 59

namespace Datetime

def isValid : Datetime → Bool
  | date d => d.isValid
  | time t => t.isValid
  | both d t o => d.isValid && t.isValid && o.all Offset.isValid

def parse (s : List Char) : Option (Datetime × List Char) := do
  let (d, s) ← read s
  guard d.isValid
  return (d, s)

def ofText? (s : List Char) : Option Datetime := do
  let (d, rest) ← parse s
  guard rest.isEmpty
  return d

end Datetime

/-! ## Writing -/

def Datetime.padded (width n : Nat) : List Char :=
  let ds := Decimal.ofNat n
  List.replicate (width - ds.length) '0' ++ ds

open Datetime in
def Date.render (d : Date) : List Char :=
  padded 4 d.year ++ '-' :: padded 2 d.month ++ '-' :: padded 2 d.day

/-- A fraction of a second without zeros at its end, and nothing for no fraction. -/
def TimeOfDay.renderFraction (nanosecond : Nat) : List Char :=
  if nanosecond = 0 then []
  else '.' :: ((Datetime.padded 9 nanosecond).reverse.dropWhile (· == '0')).reverse

open Datetime in
def TimeOfDay.render (t : TimeOfDay) : List Char :=
  padded 2 t.hour ++ ':' :: padded 2 t.minute ++ ':' :: padded 2 t.second
    ++ renderFraction t.nanosecond

open Datetime in
def Offset.render : Offset → List Char
  | universal => ['Z']
  | shifted west hours minutes =>
      let total := 60 * hours + minutes
      (if west && total != 0 then '-' else '+') :: padded 2 (total / 60) ++ ':' :: padded 2 (total % 60)

def Datetime.render : Datetime → List Char
  | date d => d.render
  | time t => t.render
  | both d t o => d.render ++ 'T' :: t.render ++ (o.map Offset.render).getD []

end StageChain
