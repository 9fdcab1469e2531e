import StageChain.Numeral
import StageChain.Proofs.Word

/-! Reading a numeral gives back the number it was written for. -/
namespace StageChain.Decimal

theorem isDigit_of_mem_ofNat {n : Nat} {c : Char} (h : c ∈ ofNat n) : c.isDigit :=
  Nat.isDigit_of_mem_toDigits (by decide) (by decide) h

theorem ofNat_ne_nil (n : Nat) : ofNat n ≠ [] := Nat.toDigits_ne_nil

/-- Only the numeral of zero starts with a zero. -/
theorem head?_ofNat_ne_zero {n : Nat} (h : 0 < n) : (ofNat n).head? ≠ some '0' := by
  have single : ∀ n < 10, 0 < n → [Nat.digitChar n].head? ≠ some '0' := by decide
  induction n using Nat.strongRecOn with
  | ind n ih =>
      by_cases small : n < 10
      · rw [ofNat, Nat.toDigits_of_lt_base small]
        exact single n small h
      · have more : 10 ≤ n := Nat.le_of_not_lt small
        have first := ih (n / 10) (Nat.div_lt_self h (by decide)) (Nat.div_pos more (by decide))
        rw [ofNat, Nat.toDigits_of_base_le (by decide) more]
        change (ofNat (n / 10) ++ _).head? ≠ some '0'
        cases spelled : ofNat (n / 10) with
        | nil => exact absurd spelled (ofNat_ne_nil (n / 10))
        | cons c s =>
            rw [spelled] at first
            exact first

theorem toNat?_ofNat (n : Nat) : toNat? (ofNat n) = some n := by
  have digits : (ofNat n).all Char.isDigit = true :=
    List.all_eq_true.mpr fun _ => isDigit_of_mem_ofNat
  have nonempty : (ofNat n).isEmpty = false := List.isEmpty_eq_false_iff.mpr (ofNat_ne_nil n)
  rw [toNat?, digits, nonempty]
  exact congrArg some Nat.ofDigitChars_ten_toDigits

theorem toInt?_of_isDigit {c : Char} {s : List Char} (h : c.isDigit) :
    toInt? (c :: s) = (toNat? (c :: s)).map Int.ofNat := by
  unfold toInt?
  split
  · rename_i e
    cases e
    exact absurd h (by decide)
  · rename_i e
    cases e
    exact absurd h (by decide)
  · rfl

theorem toInt?_ofNat (n : Nat) : toInt? (ofNat n) = some (n : Int) := by
  cases h : ofNat n with
  | nil => exact absurd h (ofNat_ne_nil n)
  | cons c s =>
      have digit : c.isDigit := isDigit_of_mem_ofNat (h ▸ List.mem_cons_self)
      rw [toInt?_of_isDigit digit, ← h, toNat?_ofNat]
      rfl

theorem toInt?_minus_ofNat (n : Nat) : toInt? ('-' :: ofNat n) = some (-(n : Int)) := by
  have read : toInt? ('-' :: ofNat n) = (toNat? (ofNat n)).map fun n => -(n : Int) := rfl
  rw [read, toNat?_ofNat]
  rfl

theorem word?_toInt (n : Int32) : word? n.toInt = some n := by
  have fits : word? n.toInt = some (Int32.ofInt n.toInt) := if_pos (Word.inRange_toInt n)
  rw [fits, Int32.ofInt_toInt]

theorem toWord?_of_nonneg {n : Int32} (h : 0 ≤ n.toInt) :
    toWord? (ofNat n.toInt.natAbs) = some n := by
  rw [toWord?, toInt?_ofNat, Int.natAbs_of_nonneg h]
  exact word?_toInt n

theorem toWord?_of_neg {n : Int32} (h : n.toInt < 0) :
    toWord? ('-' :: ofNat n.toInt.natAbs) = some n := by
  have value : -(n.toInt.natAbs : Int) = n.toInt := by omega
  rw [toWord?, toInt?_minus_ofNat, value]
  exact word?_toInt n

end StageChain.Decimal
