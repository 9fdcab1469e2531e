import StageChain.Expr.Rewriting
import StageChain.Proofs.Shape

/-! Carrying out constant arithmetic keeps the value of an expression and leaves none to carry
out. What comes to a single constant is arithmetic without `element`, and nothing else. -/
namespace StageChain.Expr

theorem eval_combine (left : Expr) (op : Operator) (right : Expr) (x : Int32) :
    (combine left op right).eval x = op.apply (left.eval x) (right.eval x) := by
  unfold combine
  split
  · rfl
  · rfl

theorem eval_foldConstants (e : Expr) (x : Int32) : e.foldConstants.eval x = e.eval x := by
  induction e with
  | element => rfl
  | const n => rfl
  | binary left op right hl hr => simp only [foldConstants, eval_combine, eval, hl, hr]

theorem combine_of_not_constantArithmetic {left right : Expr} {op : Operator}
    (h : Shape.constantArithmetic left op right = false) :
    combine left op right = binary left op right := by
  unfold combine
  split
  · cases h
  · rfl

theorem avoids_combine {left right : Expr} (op : Operator)
    (hl : left.avoids Shape.constantArithmetic) (hr : right.avoids Shape.constantArithmetic) :
    (combine left op right).avoids Shape.constantArithmetic := by
  by_cases h : Shape.constantArithmetic left op right
  · obtain ⟨a, op, b, rfl, rfl, rfl⟩ := Shape.eq_of_constantArithmetic h
    rfl
  · rw [Bool.not_eq_true] at h
    rw [combine_of_not_constantArithmetic h, avoids_binary]
    exact ⟨h, hl, hr⟩

theorem avoids_foldConstants (e : Expr) : e.foldConstants.avoids Shape.constantArithmetic := by
  induction e with
  | element => rfl
  | const n => rfl
  | binary left op right hl hr => exact avoids_combine op hl hr

theorem foldConstants_of_avoids {e : Expr} (h : e.avoids Shape.constantArithmetic) :
    e.foldConstants = e := by
  induction e with
  | element => rfl
  | const n => rfl
  | binary left op right hl hr =>
      rw [avoids_binary] at h
      rw [foldConstants, hl h.2.1, hr h.2.2, combine_of_not_constantArithmetic h.1]

theorem foldConstants_ne_element {e : Expr} (h : e ≠ element) : e.foldConstants ≠ element := by
  cases e with
  | element => exact absurd rfl h
  | const n => exact h
  | binary left op right =>
      rw [foldConstants]
      unfold combine
      split
      · intro h
        cases h
      · intro h
        cases h

/-! ## Closed arithmetic -/

theorem isConst_combine (left : Expr) (op : Operator) (right : Expr) :
    (combine left op right).isConst = Shape.constantArithmetic left op right := by
  by_cases h : Shape.constantArithmetic left op right
  · rw [h]
    obtain ⟨a, op, b, rfl, rfl, rfl⟩ := Shape.eq_of_constantArithmetic h
    rfl
  · rw [Bool.not_eq_true] at h
    rw [combine_of_not_constantArithmetic h, h]
    rfl

theorem occurrences_binary_eq_zero_iff {left right : Expr} {op : Operator} :
    (binary left op right).occurrences = 0 ↔ left.occurrences = 0 ∧ right.occurrences = 0 :=
  Nat.add_eq_zero_iff

theorem isConst_foldConstants_iff (e : Expr) :
    e.foldConstants.isConst ↔ e.isArithmetic ∧ e.occurrences = 0 := by
  induction e with
  | element =>
      constructor
      · intro const
        cases const
      · rintro ⟨_, closed⟩
        cases closed
  | const n => exact ⟨fun _ => ⟨rfl, rfl⟩, fun _ => rfl⟩
  | binary left op right hl hr =>
      rw [foldConstants, isConst_combine]
      cases op with
      | arith op =>
          simp only [Shape.constantArithmetic, isArithmetic, Bool.and_eq_true, hl, hr,
            occurrences_binary_eq_zero_iff]
          exact and_and_and_comm
      | logic op =>
          -- A comparison of constants is left as it is, so it is no constant to what stands above.
          simp only [Shape.constantArithmetic, isArithmetic, Bool.false_eq_true, false_and]

/-- The only constant that an expression can come to is its value. -/
theorem foldConstants_eq_const_iff (e : Expr) (x : Int32) :
    e.foldConstants = const (e.eval x) ↔ e.foldConstants.isConst := by
  constructor
  · intro h
    rw [h]
    rfl
  · intro h
    obtain ⟨n, folded⟩ := eq_const_of_isConst h
    have value : n = e.eval x := by
      rw [← eval_foldConstants, folded]
      rfl
    rw [folded, value]

/-- Constant folding keeps the value at every element. It comes to a single constant, the value,
for arithmetic in which `element` does not occur, and for no other expression. -/
theorem foldConstants_closed_arithmetic (e : Expr) :
    (∀ x, e.foldConstants.eval x = e.eval x) ∧
      (∀ x, e.isArithmetic ∧ e.occurrences = 0 ↔ e.foldConstants = const (e.eval x)) ∧
      (0 < e.occurrences → ∀ n, e.foldConstants ≠ const n) := by
  refine ⟨eval_foldConstants e, ?_, ?_⟩
  · intro x
    rw [foldConstants_eq_const_iff, isConst_foldConstants_iff]
  · intro occurs n folded
    have const : e.foldConstants.isConst := by
      rw [folded]
      rfl
    exact Nat.ne_of_gt occurs ((isConst_foldConstants_iff e).mp const).2

/-- The sum and both products of the first expression wrap around. The product of the second one is
0 at every element, and stays. -/
theorem foldConstants_closed_arithmetic_wrapping :
    let square : Expr := .binary (.const 65537) (.arith .times) (.const 65537)
    let wrapping : Expr := .binary (.binary (.const 2147483647) (.arith .plus) square)
      (.arith .minus) (.binary (.const (-2147483648)) (.arith .times) (.const 3))
    let vanishing : Expr := .binary .element (.arith .times) (.const 0)
    wrapping.foldConstants = const 131072 ∧ ∀ n, vanishing.foldConstants ≠ const n := by
  intro square wrapping vanishing
  have ⟨_, closed, _⟩ := foldConstants_closed_arithmetic wrapping
  have ⟨_, _, occurs⟩ := foldConstants_closed_arithmetic vanishing
  exact ⟨((closed 0).mp (by decide)).trans (by decide), occurs (by decide)⟩

end StageChain.Expr
