/-! Words as integers. Addition and subtraction are exact as long as they stay in range, and one
turn of the words off elsewhere. -/
namespace StageChain.Word

/-- The integers that are values of words. -/
def InRange (n : Int) : Prop := Int32.minValue.toInt ≤ n ∧ n ≤ Int32.maxValue.toInt

instance (n : Int) : Decidable (InRange n) := inferInstanceAs (Decidable (_ ∧ _))

theorem inRange_iff {n : Int} : InRange n ↔ -2147483648 ≤ n ∧ n ≤ 2147483647 := by
  rw [InRange, Int32.toInt_minValue, Int32.toInt_maxValue]
  omega

theorem bmod_of_inRange {n : Int} (h : InRange n) : n.bmod Int32.size = n := by
  rw [inRange_iff] at h
  apply Int.bmod_eq_of_le
  · simp only [Int32.size]
    omega
  · simp only [Int32.size]
    omega

theorem toInt_add_ofInt {a : Int32} {d : Int} (h : InRange (a.toInt + d)) :
    (a + Int32.ofInt d).toInt = a.toInt + d := by
  rw [Int32.toInt_add, Int32.toInt_ofInt]
  exact Int.add_bmod_bmod.trans (bmod_of_inRange h)

theorem toInt_sub_ofInt {a : Int32} {d : Int} (h : InRange (a.toInt - d)) :
    (a - Int32.ofInt d).toInt = a.toInt - d := by
  rw [Int32.toInt_sub, Int32.toInt_ofInt]
  exact Int.sub_bmod_bmod.trans (bmod_of_inRange h)

theorem inRange_toInt (a : Int32) : InRange a.toInt := ⟨a.minValue_le_toInt, a.toInt_le⟩

/-- A number less than one turn away from zero wraps to itself, or one turn down or up. -/
theorem bmod_cases {n : Int} (low : -Int32.size ≤ n) (high : n < Int32.size) :
    (InRange n ∧ n.bmod Int32.size = n) ∨
      (Int32.maxValue.toInt < n ∧ n.bmod Int32.size = n - Int32.size) ∨
      (n < Int32.minValue.toInt ∧ n.bmod Int32.size = n + Int32.size) := by
  by_cases above : Int32.maxValue.toInt < n
  · have range : InRange (n - Int32.size) := by
      simp only [inRange_iff, Int32.toInt_maxValue, Int32.size] at above high ⊢
      omega
    refine .inr (.inl ⟨above, ?_⟩)
    rw [← Int.sub_bmod_right]
    exact bmod_of_inRange range
  · by_cases below : n < Int32.minValue.toInt
    · have range : InRange (n + Int32.size) := by
        simp only [inRange_iff, Int32.toInt_minValue, Int32.size] at below low ⊢
        omega
      refine .inr (.inr ⟨below, ?_⟩)
      rw [← Int.add_bmod_right]
      exact bmod_of_inRange range
    · have range : InRange n := ⟨Int.not_lt.mp below, Int.not_lt.mp above⟩
      exact .inl ⟨range, bmod_of_inRange range⟩

/-- An offset moves from one side of `<` to the other, and both sides are wrapped. The comparison
stays the same exactly if both sides were in range or neither was. -/
theorem bmod_add_lt_iff {a d b : Int} (ha : InRange a) (hb : InRange b)
    (low : Int32.minValue.toInt ≤ d) (high : d ≤ -Int32.minValue.toInt) :
    ((a + d).bmod Int32.size < b ↔ a < (b - d).bmod Int32.size) ↔
      (InRange (a + d) ↔ InRange (b - d)) := by
  have turn : (Int32.size : Int) = 4294967296 := by decide
  simp only [inRange_iff, Int32.toInt_minValue] at ha hb low high
  have sum := bmod_cases (n := a + d) (by omega) (by omega)
  have difference := bmod_cases (n := b - d) (by omega) (by omega)
  simp only [inRange_iff, Int32.toInt_minValue, Int32.toInt_maxValue] at sum difference ⊢
  -- A sum above the range needs a positive offset, so the difference can only fall below it.
  obtain ⟨fits, sum⟩ | ⟨above, sum⟩ | ⟨below, sum⟩ := sum
  · rw [sum]
    omega
  · rw [sum]
    omega
  · rw [sum]
    omega

/-- Of the exact sum `a + d` and the exact difference `b - d`, one is in range and one is not. -/
def wrapsApart (a d b : Int32) : Bool :=
  decide (InRange (a.toInt + d.toInt)) ^^ decide (InRange (b.toInt - d.toInt))

theorem decide_lt_sub (a d b : Int32) :
    decide (a < b - d) = (decide (a + d < b) ^^ wrapsApart a d b) := by
  have turned : ∀ p q r s : Bool, ((p = q) ↔ (r = s)) → q = (p ^^ (r ^^ s)) := by decide
  have moved := bmod_add_lt_iff (inRange_toInt a) (inRange_toInt b) d.minValue_le_toInt
    (Int.le_trans d.toInt_le (by decide))
  apply turned
  rw [decide_eq_decide, decide_eq_decide, Int32.lt_iff_toInt_lt, Int32.lt_iff_toInt_lt,
    Int32.toInt_add, Int32.toInt_sub]
  exact moved

theorem decide_sub_lt (a d b : Int32) :
    decide (b - d < a) = (decide (b < a + d) ^^ wrapsApart a d b) := by
  have turned : ∀ p q r s : Bool, ((q = p) ↔ (s = r)) → q = (p ^^ (r ^^ s)) := by decide
  -- The bound with the opposite offset takes the place of the shifted side.
  have moved := bmod_add_lt_iff (d := -d.toInt) (inRange_toInt b) (inRange_toInt a)
    (Int.le_neg_of_le_neg (Int.le_trans d.toInt_le (by decide)))
    (Int.neg_le_neg d.minValue_le_toInt)
  rw [← Int.sub_eq_add_neg, Int.sub_neg] at moved
  apply turned
  rw [decide_eq_decide, decide_eq_decide, Int32.lt_iff_toInt_lt, Int32.lt_iff_toInt_lt,
    Int32.toInt_add, Int32.toInt_sub]
  exact moved

theorem max_lt_iff {a b c : Int32} : max a b < c ↔ a < c ∧ b < c := by
  have unfolded : max a b = if a ≤ b then b else a := rfl
  rw [unfolded]
  split
  · rename_i h
    simp only [Int32.le_iff_toInt_le, Int32.lt_iff_toInt_lt] at h ⊢
    omega
  · rename_i h
    simp only [Int32.le_iff_toInt_le, Int32.lt_iff_toInt_lt] at h ⊢
    omega

theorem lt_min_iff {a b c : Int32} : c < min a b ↔ c < a ∧ c < b := by
  have unfolded : min a b = if a ≤ b then a else b := rfl
  rw [unfolded]
  split
  · rename_i h
    simp only [Int32.le_iff_toInt_le, Int32.lt_iff_toInt_lt] at h ⊢
    omega
  · rename_i h
    simp only [Int32.le_iff_toInt_le, Int32.lt_iff_toInt_lt] at h ⊢
    omega

theorem ne_maxValue_of_lt {a x : Int32} (h : a < x) : a ≠ Int32.maxValue := by
  rintro rfl
  rw [Int32.lt_iff_toInt_lt] at h
  exact Int.not_lt.mpr x.toInt_le h

theorem ne_minValue_of_lt {b x : Int32} (h : x < b) : b ≠ Int32.minValue := by
  rintro rfl
  rw [Int32.lt_iff_toInt_lt] at h
  exact Int.not_lt.mpr x.minValue_le_toInt h

theorem minValue_lt_iff {a : Int32} : Int32.minValue < a ↔ a ≠ Int32.minValue := by
  constructor
  · intro less
    exact ne_minValue_of_lt less
  · intro ne
    have ne' : a.toInt ≠ Int32.minValue.toInt := fun eq => ne (Int32.toInt_inj.mp eq)
    have low := a.minValue_le_toInt
    rw [Int32.lt_iff_toInt_lt]
    omega

theorem lt_maxValue_iff {a : Int32} : a < Int32.maxValue ↔ a ≠ Int32.maxValue := by
  constructor
  · intro less
    exact ne_maxValue_of_lt less
  · intro ne
    have ne' : a.toInt ≠ Int32.maxValue.toInt := fun eq => ne (Int32.toInt_inj.mp eq)
    have high := a.toInt_le
    rw [Int32.lt_iff_toInt_lt]
    omega

theorem toInt_add_one {a : Int32} (h : a ≠ Int32.maxValue) : (a + 1).toInt = a.toInt + 1 := by
  have low := a.minValue_le_toInt
  have high := Int32.lt_iff_toInt_lt.mp (lt_maxValue_iff.mpr h)
  have range : InRange (a.toInt + 1) := ⟨by omega, by omega⟩
  have next : (a + Int32.ofInt 1).toInt = a.toInt + 1 := toInt_add_ofInt range
  exact next

theorem toInt_sub_one {b : Int32} (h : b ≠ Int32.minValue) : (b - 1).toInt = b.toInt - 1 := by
  have low := Int32.lt_iff_toInt_lt.mp (minValue_lt_iff.mpr h)
  have high := b.toInt_le
  have range : InRange (b.toInt - 1) := ⟨by omega, by omega⟩
  have previous : (b - Int32.ofInt 1).toInt = b.toInt - 1 := toInt_sub_ofInt range
  exact previous

/-- Between two bounds there is a word if there is one next to the lower of them. -/
theorem add_one_lt_iff {a b : Int32} (h : a ≠ Int32.maxValue) :
    a + 1 < b ↔ ∃ x, a < x ∧ x < b := by
  constructor
  · intro room
    refine ⟨a + 1, ?_, room⟩
    rw [Int32.lt_iff_toInt_lt, toInt_add_one h]
    omega
  · rintro ⟨x, ha, hb⟩
    rw [Int32.lt_iff_toInt_lt] at ha hb ⊢
    rw [toInt_add_one h]
    omega

/-- Between two bounds there is a word if there is one next to the upper of them. -/
theorem lt_sub_one_iff {a b : Int32} (h : b ≠ Int32.minValue) :
    a < b - 1 ↔ ∃ x, a < x ∧ x < b := by
  constructor
  · intro room
    refine ⟨b - 1, room, ?_⟩
    rw [Int32.lt_iff_toInt_lt, toInt_sub_one h]
    omega
  · rintro ⟨x, ha, hb⟩
    rw [Int32.lt_iff_toInt_lt] at ha hb ⊢
    rw [toInt_sub_one h]
    omega

/-- The step up finds every gap. At the greatest word it also finds one that is not there. -/
theorem add_one_lt_iff_exists_or (a b : Int32) :
    a + 1 < b ↔ (∃ x, a < x ∧ x < b) ∨ a = Int32.maxValue ∧ b ≠ Int32.minValue := by
  by_cases greatest : a = Int32.maxValue
  · subst greatest
    have wrapped : Int32.maxValue + 1 = Int32.minValue := by decide
    have none : ¬ ∃ x, Int32.maxValue < x ∧ x < b := by
      rintro ⟨x, above, -⟩
      exact ne_maxValue_of_lt above rfl
    rw [wrapped, minValue_lt_iff, or_iff_right none, and_iff_right rfl]
  · rw [add_one_lt_iff greatest, or_iff_left]
    rintro ⟨eq, -⟩
    exact greatest eq

/-- The step down finds every gap. At the least word it also finds one that is not there. -/
theorem lt_sub_one_iff_exists_or (a b : Int32) :
    a < b - 1 ↔ (∃ x, a < x ∧ x < b) ∨ b = Int32.minValue ∧ a ≠ Int32.maxValue := by
  by_cases least : b = Int32.minValue
  · subst least
    have wrapped : Int32.minValue - 1 = Int32.maxValue := by decide
    have none : ¬ ∃ x, a < x ∧ x < Int32.minValue := by
      rintro ⟨x, -, below⟩
      exact ne_minValue_of_lt below rfl
    rw [wrapped, lt_maxValue_iff, or_iff_right none, and_iff_right rfl]
  · rw [lt_sub_one_iff least, or_iff_left]
    rintro ⟨eq, -⟩
    exact least eq

end StageChain.Word
