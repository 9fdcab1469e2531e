/-! Numerals: decimal ones of naturals, integers and machine words, and hexadecimal digits. -/
namespace StageChain

namespace Decimal

def ofNat (n : Nat) : List Char := Nat.toDigits 10 n

def ofInt (n : Int) : List Char :=
  if n < 0 then '-' :: ofNat n.natAbs else ofNat n.natAbs

/-- Reads a non-empty run of ASCII digits. Leading zeros are allowed. -/
def toNat? (s : List Char) : Option Nat :=
  if !s.isEmpty && s.all Char.isDigit then some (Nat.ofDigitChars 10 s 0) else none

def toInt? : List Char → Option Int
  | '-' :: s => (toNat? s).map fun n => -(n : Int)
  | '+' :: s => (toNat? s).map Int.ofNat
  | s => (toNat? s).map Int.ofNat

/-- The word with the value `n`, if there is one. -/
def word? (n : Int) : Option Int32 :=
  if Int32.minValue.toInt ≤ n ∧ n ≤ Int32.maxValue.toInt then some (Int32.ofInt n) else none

def toWord? (s : List Char) : Option Int32 := (toInt? s).bind word?

end Decimal

namespace Hexadecimal

/-- The digit of a number below 16, in lower case. -/
def digit (n : Nat) : Char := Nat.digitChar n

def value? (c : Char) : Option Nat :=
  if '0' ≤ c ∧ c ≤ '9' then some (c.toNat - '0'.toNat)
  else if 'a' ≤ c ∧ c ≤ 'f' then some (c.toNat - 'a'.toNat + 10)
  else if 'A' ≤ c ∧ c ≤ 'F' then some (c.toNat - 'A'.toNat + 10)
  else none

def number? (s : List Char) : Option Nat :=
  s.foldlM (fun n c => (value? c).map fun d => 16 * n + d) 0

end Hexadecimal
end StageChain
