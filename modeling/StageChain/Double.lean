import StageChain.Numeral

/-! Binary floating-point numbers of 64 bits: the one nearest to a decimal, and the shortest
decimal that reads back as it. Everything is exact arithmetic on naturals. -/
namespace StageChain

/-- A finite number is `mantissa * 2 ^ exponent`, with a mantissa below `2 ^ 53`. It is at
least `2 ^ 52` unless the exponent is the least one. -/
inductive Double
  | finite (negative : Bool) (mantissa : Nat) (exponent : Int)
  | infinite (negative : Bool)
  | nan
deriving DecidableEq

namespace Double

def power (base : Nat) (e : Int) : Nat := Nat.pow base e.toNat

def leading : Nat := Nat.pow 2 52

def minExponent : Int := -1074

def maxExponent : Int := 971

/-- The quotient rounded to the nearest natural. A half goes to the even neighbour. -/
def roundDiv (num den : Nat) : Nat :=
  let q := num / den
  let r := num % den
  if den < 2 * r ∨ (2 * r = den ∧ q % 2 = 1) then q + 1 else q

def exponentOf (num den : Nat) : Int :=
  let guess : Int := (num.log2 : Int) - (den.log2 : Int) - 53
  let tooLow := 2 * leading ≤ num * power 2 (-guess) / (den * power 2 guess)
  max minExponent (if tooLow then guess + 1 else guess)

def ofFraction (negative : Bool) (num den : Nat) : Double :=
  let q := exponentOf num den
  let m := roundDiv (num * power 2 (-q)) (den * power 2 q)
  let (m, q) := if m = 2 * leading then (leading, q + 1) else (m, q)
  if maxExponent < q then infinite negative else finite negative m q

def ofDecimal (negative : Bool) (digits : Nat) (exp : Int) : Double :=
  let size : Int := (Decimal.ofNat digits).length + exp
  if digits = 0 ∨ size < -330 then finite negative 0 minExponent
  else if 330 < size then infinite negative
  else ofFraction negative (digits * power 10 exp) (power 10 (-exp))

def isZero : Double → Bool
  | finite _ m _ => m == 0
  | _ => false

/-- Whether `c * 10 ^ k` rounds to `m * 2 ^ q`: it lies between the two points half way to the
neighbours, and an even mantissa takes both points in. -/
def readsBack (m : Nat) (q : Int) (c : Nat) (k : Int) : Bool :=
  let low := if m = leading ∧ minExponent < q then 4 * m - 1 else 4 * m - 2
  let high := 4 * m + 2
  let scale := power 10 (-k) * power 2 (q - 2)
  let x := c * power 10 k * power 2 (2 - q)
  if m % 2 = 0 then low * scale ≤ x && x ≤ high * scale else low * scale < x && x < high * scale

/-- The multiple of `10 ^ k` that reads back as `m * 2 ^ q`, the nearer one if there are two,
and the greater one if they are equally near. -/
def onGrid (m : Nat) (q k : Int) : Option Nat :=
  let num := m * power 2 q * power 10 (-k)
  let den := power 2 (-q) * power 10 k
  let c := num / den
  match readsBack m q c k, readsBack m q (c + 1) k with
  | true, true => if 2 * (num % den) < den then some c else some (c + 1)
  | true, false => some c
  | false, true => some (c + 1)
  | false, false => none

/-- The decimal with the fewest digits that reads back, a point of the coarsest grid that has one. -/
def shortest (m : Nat) (q : Int) : Nat × Int :=
  ((List.range 634).findSome? fun (i : Nat) =>
    let k : Int := 309 - i
    (onGrid m q k).map fun c => (c, k)).getD (0, 0)

def positional (c : Nat) (k : Int) : List Char :=
  let ds := Decimal.ofNat c
  let places := (-k).toNat
  if 0 ≤ k then ds ++ List.replicate k.toNat '0'
  else if places < ds.length then
    ds.take (ds.length - places) ++ '.' :: ds.drop (ds.length - places)
  else '0' :: '.' :: List.replicate (places - ds.length) '0' ++ ds

def sign (negative : Bool) : List Char := if negative then ['-'] else []

def render : Double → List Char
  | nan => ['N', 'a', 'N']
  | infinite negative => sign negative ++ ['i', 'n', 'f']
  | finite negative m q =>
      if m = 0 then sign negative ++ ['0']
      else
        let (c, k) := shortest m q
        sign negative ++ positional c k

end Double
end StageChain
