import StageChain.Json.Reader
import StageChain.Proofs.Numeral

/-! Reading back the JSON of strings and integers. What follows a string does not matter. What
follows a numeral must not go on with it, by more digits, a fraction or an exponent. -/
namespace StageChain.Json

variable {k : List Char}

/-! ## Strings -/

theorem stringBody_short {e c : Char} (h : unescape? e = some c) (s : List Char) :
    stringBody ('\\' :: e :: s) = (stringBody s).map (Prod.map (.char c :: ·) id) := by
  have other : e ≠ 'u' := by
    rintro rfl
    cases h
  rw [stringBody]
  · rw [h]
    cases stringBody s <;> rfl
  · exact fun _ _ _ _ _ unicode _ => other unicode

theorem stringBody_plain {c : Char} (quote : c ≠ '"') (escape : c ≠ '\\') (h : 32 ≤ c.toNat)
    (s : List Char) : stringBody (c :: s) = (stringBody s).map (Prod.map (.char c :: ·) id) := by
  rw [stringBody]
  · rw [if_neg (Nat.not_lt.mpr h)]
    cases stringBody s <;> rfl
  · exact quote
  · exact fun _ _ _ _ _ backslash _ => escape backslash
  · exact fun _ _ backslash _ => escape backslash

theorem number?_code : ∀ n < 32,
    Hexadecimal.number? ['0', '0', Hexadecimal.digit (n / 16), Hexadecimal.digit (n % 16)] =
      some n := by
  decide

theorem stringBody_code {n : Nat} (h : n < 32) (s : List Char) :
    stringBody ('\\' :: 'u' :: '0' :: '0' :: Hexadecimal.digit (n / 16) ::
      Hexadecimal.digit (n % 16) :: s) = (stringBody s).map (Prod.map (.unit n :: ·) id) := by
  rw [stringBody, number?_code n h]
  cases stringBody s <;> rfl

theorem textOf?_code {c : Char} (h : c.toNat < 32) (units : List Unit16) :
    textOf? (.unit c.toNat :: units) = (textOf? units).map (c :: ·) := by
  have low : c.toNat < 0xD800 := by omega
  rw [textOf?.eq_def]
  simp only [low, true_or, ↓reduceIte, Char.ofNat_toNat]

/-- The escaped character is read as one unit, which stands for the character again. -/
structure StandsFor (unit : Unit16) (c : Char) : Prop where
  read : ∀ s, stringBody (escape c ++ s) = (stringBody s).map (Prod.map (unit :: ·) id)
  text : ∀ units, textOf? (unit :: units) = (textOf? units).map (c :: ·)

theorem exists_standsFor (c : Char) : ∃ unit, StandsFor unit c := by
  have short : ∀ e, unescape? e = some c → escape c = ['\\', e] → ∃ unit, StandsFor unit c := by
    intro e named written
    refine ⟨.char c, ?_, fun _ => rfl⟩
    intro s
    rw [written]
    exact stringBody_short named s
  by_cases quote : c = '"'
  · subst quote
    exact short '"' rfl rfl
  by_cases backslash : c = '\\'
  · subst backslash
    exact short '\\' rfl rfl
  by_cases backspace : c = '\x08'
  · subst backspace
    exact short 'b' rfl rfl
  by_cases tab : c = '\t'
  · subst tab
    exact short 't' rfl rfl
  by_cases feed : c = '\n'
  · subst feed
    exact short 'n' rfl rfl
  by_cases page : c = '\x0c'
  · subst page
    exact short 'f' rfl rfl
  by_cases carriage : c = '\x0d'
  · subst carriage
    exact short 'r' rfl rfl
  by_cases code : c.toNat < 32
  · refine ⟨.unit c.toNat, ?_, textOf?_code code⟩
    intro s
    simp only [escape, quote, backslash, backspace, tab, feed, page, carriage, code, ↓reduceIte]
    exact stringBody_code code s
  · refine ⟨.char c, ?_, fun _ => rfl⟩
    intro s
    simp only [escape, quote, backslash, backspace, tab, feed, page, carriage, code, ↓reduceIte]
    exact stringBody_plain quote backslash (Nat.le_of_not_lt code) s

theorem stringBody_flatMap_escape (cs k : List Char) : ∃ units,
    stringBody (cs.flatMap escape ++ '"' :: k) = some (units, k) ∧ textOf? units = some cs := by
  induction cs with
  | nil => exact ⟨[], rfl, rfl⟩
  | cons c cs ih =>
      obtain ⟨units, body, text⟩ := ih
      obtain ⟨unit, stands⟩ := exists_standsFor c
      refine ⟨unit :: units, ?_, ?_⟩
      · rw [List.flatMap_cons, List.append_assoc, stands.read, body, Option.map_some, Prod.map_apply,
          id]
      · rw [stands.text, text, Option.map_some]

theorem stringLiteral_quote (s : String) (k : List Char) :
    stringLiteral (quote s ++ k) = some (some s, k) := by
  obtain ⟨units, body, text⟩ := stringBody_flatMap_escape s.toList k
  have written : quote s ++ k = '"' :: (s.toList.flatMap escape ++ '"' :: k) := by
    simp only [quote, List.cons_append, List.append_assoc, List.nil_append]
  rw [written, stringLiteral, body]
  simp only [Option.bind_eq_bind, Option.bind_some, text, Option.map_some, String.ofList_toList,
    Option.pure_def]

/-! ## Numerals -/

def startsNumeral (c : Char) : Bool := c.isDigit || c == '-'

theorem ofInt_eq_cons (n : Int) : ∃ c s, Decimal.ofInt n = c :: s ∧ startsNumeral c := by
  unfold Decimal.ofInt
  split
  · exact ⟨_, _, rfl, rfl⟩
  · cases spelled : Decimal.ofNat n.natAbs with
    | nil => exact absurd spelled (Decimal.ofNat_ne_nil _)
    | cons c s =>
        have digit : c.isDigit := Decimal.isDigit_of_mem_ofNat (spelled ▸ List.mem_cons_self)
        exact ⟨c, s, rfl, Bool.or_eq_true_iff.mpr (.inl digit)⟩

def continuesNumeral (c : Char) : Bool := c.isDigit || c == '.' || c == 'e' || c == 'E'

def EndsNumeral (k : List Char) : Prop := k.head?.any continuesNumeral = false

theorem EndsNumeral.digits (h : EndsNumeral k) (n : Nat) :
    digits (Decimal.ofNat n ++ k) = some (Decimal.ofNat n, k) := by
  have all : ∀ c ∈ Decimal.ofNat n, c.isDigit := fun _ => Decimal.isDigit_of_mem_ofNat
  have taken : k.takeWhile Char.isDigit = [] ∧ k.dropWhile Char.isDigit = k := by
    cases k with
    | nil => exact ⟨rfl, rfl⟩
    | cons c k =>
        have other : c.isDigit = false := by
          simp only [EndsNumeral, List.head?_cons, Option.any_some, continuesNumeral,
            Bool.or_eq_false_iff] at h
          exact h.1.1.1
        simp only [List.takeWhile_cons, List.dropWhile_cons, other, Bool.false_eq_true, ↓reduceIte,
          and_self]
  have some : (Decimal.ofNat n).isEmpty = false :=
    List.isEmpty_eq_false_iff.mpr (Decimal.ofNat_ne_nil n)
  simp only [Json.digits, List.takeWhile_append_of_pos all, List.dropWhile_append_of_pos all,
    taken.1, taken.2, List.append_nil, some, Bool.false_eq_true, ↓reduceIte]

theorem EndsNumeral.fraction (h : EndsNumeral k) : fraction k = some ([], k) := by
  unfold Json.fraction
  split
  · cases h
  · rfl

theorem EndsNumeral.exponent (h : EndsNumeral k) : exponent k = some ([], k) := by
  cases k with
  | nil => rfl
  | cons c k =>
      have other : ¬ (c = 'e' ∨ c = 'E') := by
        rintro (rfl | rfl)
        · cases h
        · cases h
      simp only [Json.exponent, other, ↓reduceIte]

theorem EndsNumeral.unsignedNumeral (h : EndsNumeral k) (n : Nat) :
    unsignedNumeral (Decimal.ofNat n ++ k) = some (Decimal.ofNat n, [], k) := by
  have canonical : ((Decimal.ofNat n).head? != some '0' || (Decimal.ofNat n).length == 1) = true := by
    cases n with
    | zero => rfl
    | succ n =>
        have first := Decimal.head?_ofNat_ne_zero n.succ_pos
        exact Bool.or_eq_true_iff.mpr (.inl (bne_iff_ne.mpr first))
  have allowed : (guard ((Decimal.ofNat n).head? != some '0' || (Decimal.ofNat n).length == 1) :
      Option Unit) = some () := if_pos canonical
  rw [Json.unsignedNumeral, h.digits, Option.bind_eq_bind, Option.bind_some]
  dsimp only
  rw [allowed]
  simp only [h.fraction, h.exponent, Option.bind_eq_bind, Option.bind_some, Option.pure_def,
    List.append_nil]

theorem numeral_unsigned {c : Char} {s whole rest : List Char} (digit : c.isDigit)
    (h : unsignedNumeral (c :: s) = some (whole, [], rest)) :
    numeral (c :: s) = some (.int (Nat.ofDigitChars 10 whole 0 : Nat), rest) := by
  rw [numeral]
  · simp only [h, Option.bind_eq_bind, Option.bind_some, List.isEmpty_nil, ↓reduceIte,
      Option.pure_def]
  · intro t signed
    cases signed
    exact absurd digit (by decide)

theorem numeral_negative {s whole rest : List Char}
    (h : unsignedNumeral s = some (whole, [], rest)) (nonzero : whole ≠ ['0']) :
    numeral ('-' :: s) = some (.int (-(Nat.ofDigitChars 10 whole 0 : Nat)), rest) := by
  have other : (whole != ['0']) = true := bne_iff_ne.mpr nonzero
  simp only [numeral, h, Option.bind_eq_bind, Option.bind_some, List.isEmpty_nil, other,
    Bool.and_self, ↓reduceIte, Option.pure_def]

theorem EndsNumeral.numeral (h : EndsNumeral k) (n : Int) :
    numeral (Decimal.ofInt n ++ k) = some (.int n, k) := by
  have digits := h.unsignedNumeral n.natAbs
  have value : Nat.ofDigitChars 10 (Decimal.ofNat n.natAbs) 0 = n.natAbs :=
    Nat.ofDigitChars_ten_toDigits
  by_cases negative : n < 0
  · have nonzero : Decimal.ofNat n.natAbs ≠ ['0'] := by
      intro zero
      have first := Decimal.head?_ofNat_ne_zero (Int.natAbs_pos.mpr (Int.ne_of_lt negative))
      rw [zero] at first
      exact first rfl
    have signed : -(n.natAbs : Int) = n := by omega
    rw [Decimal.ofInt, if_pos negative, List.cons_append, numeral_negative digits nonzero, value,
      signed]
  · have unsigned : (n.natAbs : Int) = n := by omega
    rw [Decimal.ofInt, if_neg negative]
    cases spelled : Decimal.ofNat n.natAbs with
    | nil => exact absurd spelled (Decimal.ofNat_ne_nil _)
    | cons c s =>
        have digit : c.isDigit := Decimal.isDigit_of_mem_ofNat (spelled ▸ List.mem_cons_self)
        rw [spelled] at digits value
        rw [List.cons_append] at digits ⊢
        rw [numeral_unsigned digit digits, value, unsigned]

end StageChain.Json
