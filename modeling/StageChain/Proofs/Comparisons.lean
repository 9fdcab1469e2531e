import StageChain.Proofs.Fusion
import StageChain.Proofs.Shape
import StageChain.Proofs.Word

/-! Merging comparisons keeps the value of an expression at every word, the least and the
greatest included, and leaves no conjunction that could be merged again. -/
namespace StageChain

namespace Comparison

def holds (c : Comparison) (x : Int32) : Bool := c.op.holds x c.bound

end Comparison

namespace Conjunction

/-- What a conjunction with the given truth value may come to at an element. -/
def Agrees (x : Int32) (value : Bool) : Conjunction → Prop
  | single c => c.holds x = value
  | contradiction => value = false
  | unmerged => True

theorem agrees_exactly (n x : Int32) (test : Int32 → Bool) :
    Agrees x (x == n && test x) (Comparison.exactly n (test n)) := by
  unfold Comparison.exactly
  by_cases h : x = n
  · subst h
    split
    · rename_i meets
      simp only [Agrees, Comparison.holds, Logic.holds, meets, Bool.and_true]
    · rename_i meets
      simp only [Agrees, meets, Bool.and_false]
  · have differ : (x == n) = false := beq_false_of_ne h
    split
    · simp only [Agrees, Comparison.holds, Logic.holds, differ, Bool.false_and]
    · simp only [Agrees, differ, Bool.false_and]

end Conjunction

namespace Comparison

/-- The verdict on two comparisons is right at every element. -/
theorem agrees_meet (l r : Comparison) (x : Int32) :
    (l.meet r).Agrees x (l.holds x && r.holds x) := by
  unfold meet
  split
  · rename_i m n
    have h := Conjunction.agrees_exactly m x fun y => y == n
    exact h
  · rename_i m n
    exact Conjunction.agrees_exactly m x fun y => decide (n < y)
  · rename_i m n
    exact Conjunction.agrees_exactly m x fun y => decide (y < n)
  · rename_i m n
    rw [Bool.and_comm]
    exact Conjunction.agrees_exactly n x fun y => decide (m < y)
  · rename_i m n
    rw [Bool.and_comm]
    exact Conjunction.agrees_exactly n x fun y => decide (y < m)
  · rename_i m n
    simp only [Conjunction.Agrees, holds, Logic.holds, Word.max_lt_iff, Bool.decide_and]
  · rename_i m n
    simp only [Conjunction.Agrees, holds, Logic.holds, Word.lt_min_iff, Bool.decide_and]
  · rename_i m n
    split
    · trivial
    · rename_i close
      simp only [Conjunction.Agrees, holds, Logic.holds, ← Bool.decide_and,
        decide_eq_false_iff_not]
      rintro ⟨lower, upper⟩
      exact close ((Word.add_one_lt_iff_exists_or m n).mpr (.inl ⟨x, lower, upper⟩))
  · rename_i m n
    split
    · trivial
    · rename_i close
      simp only [Conjunction.Agrees, holds, Logic.holds, ← Bool.decide_and,
        decide_eq_false_iff_not]
      rintro ⟨upper, lower⟩
      exact close ((Word.lt_sub_one_iff_exists_or n m).mpr (.inl ⟨x, lower, upper⟩))
  · trivial

end Comparison

namespace Expr

theorem eval_toExpr (c : Comparison) (x : Int32) :
    c.toExpr.eval x = if c.holds x then 1 else 0 := rfl

theorem eval_contradiction (x : Int32) : contradiction.eval x = 0 := rfl

theorem eval_of_isContradiction {e : Expr} (h : e.isContradiction) (x : Int32) :
    e.eval x = 0 := by
  unfold isContradiction at h
  split at h
  · rename_i a b
    simp only [bne_iff_ne] at h
    simp only [eval, Operator.apply, Logic.holds, beq_false_of_ne h, Bool.false_eq_true,
      ↓reduceIte]
  · cases h

theorem eq_toExpr_of_comparison? {e : Expr} {c : Comparison} (h : e.comparison? = some c) :
    e = c.toExpr := by
  unfold comparison? at h
  split at h
  · split at h
    · cases h
      rfl
    · cases h
  · cases h

/-- How two finished operands are conjoined. -/
inductive Conjoined (left right : Expr) : Expr → Prop
  | absorbed : left.isContradiction ∨ right.isContradiction → Conjoined left right contradiction
  | merged {l r c : Comparison} : left.comparison? = some l → right.comparison? = some r →
      l.meet r = .single c → Conjoined left right c.toExpr
  | opposed {l r : Comparison} : left.comparison? = some l → right.comparison? = some r →
      l.meet r = .contradiction → Conjoined left right contradiction
  | kept : Shape.mergeable left (.logic .and) right = false →
      Conjoined left right (binary left (.logic .and) right)

theorem conjoined_conjoin (left right : Expr) : Conjoined left right (conjoin left right) := by
  unfold conjoin
  split
  · rename_i h
    exact .absorbed (Bool.or_eq_true _ _ ▸ h)
  · rename_i other
    rw [Bool.not_eq_true] at other
    split
    · rename_i l r hl hr
      split
      · rename_i c h
        exact .merged hl hr h
      · rename_i h
        exact .opposed hl hr h
      · rename_i h
        refine .kept ?_
        simp only [Shape.mergeable, other, hl, hr, h, Bool.false_or, bne_self_eq_false]
    · rename_i h
      refine .kept ?_
      simp only [Shape.mergeable, other, Bool.false_or]

theorem conjoin_of_not_mergeable {left right : Expr}
    (h : Shape.mergeable left (.logic .and) right = false) :
    conjoin left right = binary left (.logic .and) right := by
  have conjoined := conjoined_conjoin left right
  generalize conjoin left right = e at conjoined
  cases conjoined with
  | kept _ => rfl
  | absorbed contradicted =>
      simp only [Shape.mergeable, Bool.or_eq_false_iff] at h
      rw [h.1.1, h.1.2] at contradicted
      exact absurd contradicted (by decide)
  | merged hl hr single =>
      simp only [Shape.mergeable, hl, hr, single, Bool.or_eq_false_iff, bne_eq_false_iff_eq] at h
      cases h.2
  | opposed hl hr opposite =>
      simp only [Shape.mergeable, hl, hr, opposite, Bool.or_eq_false_iff, bne_eq_false_iff_eq] at h
      cases h.2

theorem eval_and_toExpr (l r : Comparison) (x : Int32) :
    (binary l.toExpr (.logic .and) r.toExpr).eval x =
      if l.holds x && r.holds x then 1 else 0 := by
  have test : ∀ b : Bool, ((if b then (1 : Int32) else 0) != 0) = b := by decide
  simp only [eval, eval_toExpr, Operator.apply, Logic.holds, test]

/-- The conjunction of two operands, merged or not, has the value of their conjunction. -/
theorem eval_conjoin (left right : Expr) (x : Int32) :
    (conjoin left right).eval x = (binary left (.logic .and) right).eval x := by
  have conjoined := conjoined_conjoin left right
  generalize conjoin left right = e at conjoined
  cases conjoined with
  | kept _ => rfl
  | absorbed contradicted =>
      have zero := (eval_and_eq_zero_iff left right x).mpr
        (contradicted.imp (eval_of_isContradiction · x) (eval_of_isContradiction · x))
      rw [zero, eval_contradiction]
  | @merged l r c hl hr single =>
      have agrees : c.holds x = (l.holds x && r.holds x) := by
        simpa only [single, Conjunction.Agrees] using Comparison.agrees_meet l r x
      rw [eq_toExpr_of_comparison? hl, eq_toExpr_of_comparison? hr, eval_and_toExpr, eval_toExpr,
        agrees]
  | @opposed l r hl hr opposite =>
      have agrees : (l.holds x && r.holds x) = false := by
        simpa only [opposite, Conjunction.Agrees] using Comparison.agrees_meet l r x
      rw [eq_toExpr_of_comparison? hl, eq_toExpr_of_comparison? hr, eval_and_toExpr, agrees,
        eval_contradiction]
      rfl

theorem mergeComparisons_and (left right : Expr) :
    (binary left (.logic .and) right).mergeComparisons =
      conjoin left.mergeComparisons right.mergeComparisons := rfl

theorem mergeComparisons_of_ne_and {op : Operator} (h : op ≠ .logic .and) (left right : Expr) :
    (binary left op right).mergeComparisons =
      binary left.mergeComparisons op right.mergeComparisons := by
  cases op with
  | arith op => rfl
  | logic op =>
      cases op with
      | and => exact absurd rfl h
      | gt | lt | eq | or => rfl

theorem eval_mergeComparisons (e : Expr) (x : Int32) : e.mergeComparisons.eval x = e.eval x := by
  induction e with
  | element => rfl
  | const n => rfl
  | binary left op right hl hr =>
      by_cases h : op = .logic .and
      · subst h
        rw [mergeComparisons_and, eval_conjoin, eval, eval, hl, hr]
      · rw [mergeComparisons_of_ne_and h, eval, eval, hl, hr]

/-- Every merged operation is a logic operation, as its conjunction was. -/
theorem conjoin_binary (left right : Expr) :
    ∃ left' op right', conjoin left right = binary left' (.logic op) right' := by
  have conjoined := conjoined_conjoin left right
  generalize conjoin left right = e at conjoined
  cases conjoined with
  | kept _ => exact ⟨left, .and, right, rfl⟩
  | absorbed _ => exact ⟨const 1, .eq, const 0, rfl⟩
  | merged _ _ _ => exact ⟨element, _, const _, rfl⟩
  | opposed _ _ _ => exact ⟨const 1, .eq, const 0, rfl⟩

theorem keepsArithmetic_mergeComparisons : KeepsArithmetic mergeComparisons where
  element := rfl
  const _ := rfl
  arith _ _ _ := rfl
  logic left op right := by
    by_cases h : op = .and
    · subst h
      exact conjoin_binary left.mergeComparisons right.mergeComparisons
    · refine ⟨left.mergeComparisons, op, right.mergeComparisons, ?_⟩
      exact mergeComparisons_of_ne_and (fun eq => h (Operator.logic.inj eq)) left right

theorem not_mergeable_of_ne_and {op : Operator} (h : op ≠ .logic .and) (left right : Expr) :
    Shape.mergeable left op right = false := by
  cases op with
  | arith op => rfl
  | logic op =>
      cases op with
      | and => exact absurd rfl h
      | gt | lt | eq | or => rfl

/-- Conjoining brings no shape in that neither a single comparison nor the contradiction has. -/
theorem conjoin_avoids {shape : Shape} {left right : Expr}
    (comparison : ∀ c : Comparison, c.toExpr.avoids shape) (contradicted : contradiction.avoids shape)
    (node : Shape.mergeable left (.logic .and) right = false →
      shape left (.logic .and) right = false)
    (hl : left.avoids shape) (hr : right.avoids shape) : (conjoin left right).avoids shape := by
  have conjoined := conjoined_conjoin left right
  generalize conjoin left right = e at conjoined
  cases conjoined with
  | kept h => exact avoids_binary.mpr ⟨node h, hl, hr⟩
  | absorbed _ => exact contradicted
  | merged _ _ _ => exact comparison _
  | opposed _ _ _ => exact contradicted

theorem toExpr_avoids_mergeable (c : Comparison) : c.toExpr.avoids Shape.mergeable := by
  refine avoids_binary.mpr ⟨?_, rfl, rfl⟩
  cases c.op with
  | and => rfl
  | gt | lt | eq | or => rfl

theorem avoids_mergeComparisons (e : Expr) : e.mergeComparisons.avoids Shape.mergeable := by
  induction e with
  | element => rfl
  | const n => rfl
  | binary left op right hl hr =>
      by_cases h : op = .logic .and
      · subst h
        exact conjoin_avoids toExpr_avoids_mergeable rfl id hl hr
      · rw [mergeComparisons_of_ne_and h, avoids_binary]
        exact ⟨not_mergeable_of_ne_and h _ _, hl, hr⟩

theorem mergeComparisons_of_avoids {e : Expr} (h : e.avoids Shape.mergeable) :
    e.mergeComparisons = e := by
  induction e with
  | element => rfl
  | const n => rfl
  | binary left op right hl hr =>
      obtain ⟨shape, left', right'⟩ := avoids_binary.mp h
      by_cases hop : op = .logic .and
      · subst hop
        rw [mergeComparisons_and, hl left', hr right', conjoin_of_not_mergeable shape]
      · rw [mergeComparisons_of_ne_and hop, hl left', hr right']

/-- Merging keeps the value of every expression at every element, whatever bounds it compares
with, and leaves no conjunction to merge. -/
theorem mergeComparisons_sound (e : Expr) :
    (∀ x, e.mergeComparisons.eval x = e.eval x) ∧
      e.mergeComparisons.avoids Shape.mergeable := by
  constructor
  · intro x
    exact eval_mergeComparisons e x
  · exact avoids_mergeComparisons e

/-- Merging brings no shape in that is read off the operator, the constants among the operands
and an offset on the left, and that neither a single comparison nor the contradiction has. -/
theorem mergeComparisons_avoids {shape : Shape} {e : Expr}
    (hcongr : ∀ {l l' r r' : Expr} {op : Operator}, l.isConst = l'.isConst →
      l.isOffset = l'.isOffset → r.isConst = r'.isConst → shape l op r = shape l' op r')
    (comparison : ∀ c : Comparison, c.toExpr.avoids shape)
    (contradicted : contradiction.avoids shape) (h : e.avoids shape) :
    e.mergeComparisons.avoids shape := by
  induction e with
  | element => rfl
  | const n => rfl
  | binary left op right hl hr =>
      obtain ⟨hs, left', right'⟩ := avoids_binary.mp h
      have node : shape left.mergeComparisons op right.mergeComparisons = false := by
        rw [← hs]
        exact hcongr (keepsArithmetic_mergeComparisons.isConst _)
          (keepsArithmetic_mergeComparisons.isOffset _) (keepsArithmetic_mergeComparisons.isConst _)
      by_cases hop : op = .logic .and
      · subst hop
        exact conjoin_avoids comparison contradicted (fun _ => node) (hl left') (hr right')
      · rw [mergeComparisons_of_ne_and hop, avoids_binary]
        exact ⟨node, hl left', hr right'⟩

end Expr
/-! ## Opposite bounds

A lower and an upper bound contradict each other exactly if no word lies between them, and the
verdict says so except at the two ends of the range. There the step past the first bound wraps. The
other order of the bounds steps from the other one, so the two orders disagree at the ends. -/

namespace Comparison

theorem meet_gt_lt_eq_contradiction_iff (m n : Int32) :
    meet ⟨.gt, m⟩ ⟨.lt, n⟩ = .contradiction ↔
      (¬ ∃ x, m < x ∧ x < n) ∧ (m = Int32.maxValue → n = Int32.minValue) := by
  have verdict : meet ⟨.gt, m⟩ ⟨.lt, n⟩ = .contradiction ↔ ¬ m + 1 < n := by
    simp only [meet, ite_eq_right_iff, reduceCtorEq, imp_false]
  rw [verdict, Word.add_one_lt_iff_exists_or, not_or, not_and, Classical.not_not]

theorem meet_lt_gt_eq_contradiction_iff (m n : Int32) :
    meet ⟨.lt, n⟩ ⟨.gt, m⟩ = .contradiction ↔
      (¬ ∃ x, m < x ∧ x < n) ∧ (n = Int32.minValue → m = Int32.maxValue) := by
  have verdict : meet ⟨.lt, n⟩ ⟨.gt, m⟩ = .contradiction ↔ ¬ m < n - 1 := by
    simp only [meet, ite_eq_right_iff, reduceCtorEq, imp_false]
  rw [verdict, Word.lt_sub_one_iff_exists_or, not_or, not_and, Classical.not_not]

/-- A lower and an upper bound never come to a single comparison, so their verdict is settled by
whether it is a contradiction. -/
theorem meet_comm_iff_contradiction (m n : Int32) :
    meet ⟨.lt, n⟩ ⟨.gt, m⟩ = meet ⟨.gt, m⟩ ⟨.lt, n⟩ ↔
      (meet ⟨.lt, n⟩ ⟨.gt, m⟩ = .contradiction ↔ meet ⟨.gt, m⟩ ⟨.lt, n⟩ = .contradiction) := by
  constructor
  · intro same
    rw [same]
  · intro agree
    simp only [meet, ite_eq_right_iff, reduceCtorEq, imp_false] at agree ⊢
    simp only [Decidable.not_iff_not.mp agree]

/-- When the verdict on two opposite bounds is a contradiction, in either order, and when the two
orders agree. -/
theorem meet_opposite_bounds (m n : Int32) :
    (meet ⟨.gt, m⟩ ⟨.lt, n⟩ = .contradiction ↔
      (¬ ∃ x, m < x ∧ x < n) ∧ (m = Int32.maxValue → n = Int32.minValue)) ∧
    (meet ⟨.lt, n⟩ ⟨.gt, m⟩ = .contradiction ↔
      (¬ ∃ x, m < x ∧ x < n) ∧ (n = Int32.minValue → m = Int32.maxValue)) ∧
    (meet ⟨.lt, n⟩ ⟨.gt, m⟩ = meet ⟨.gt, m⟩ ⟨.lt, n⟩ ↔
      (m = Int32.maxValue ↔ n = Int32.minValue)) := by
  refine ⟨meet_gt_lt_eq_contradiction_iff m n, meet_lt_gt_eq_contradiction_iff m n, ?_⟩
  rw [meet_comm_iff_contradiction, meet_gt_lt_eq_contradiction_iff,
    meet_lt_gt_eq_contradiction_iff]
  by_cases gap : ∃ x, m < x ∧ x < n
  · -- A word in between keeps both bounds away from the ends.
    obtain ⟨x, lower, upper⟩ := gap
    have notGreatest := Word.ne_maxValue_of_lt lower
    have notLeast := Word.ne_minValue_of_lt upper
    have same : m = Int32.maxValue ↔ n = Int32.minValue :=
      ⟨fun h => absurd h notGreatest, fun h => absurd h notLeast⟩
    simp only [same]
  · simp only [gap, not_false_eq_true, true_and]
    constructor
    · intro agree
      constructor
      · intro greatest
        exact agree.mp (fun _ => greatest) greatest
      · intro least
        exact agree.mpr (fun _ => least) least
    · intro same
      rw [same]

example : meet ⟨.gt, Int32.maxValue⟩ ⟨.lt, 0⟩ = .unmerged ∧
    meet ⟨.lt, 0⟩ ⟨.gt, Int32.maxValue⟩ = .contradiction := by decide

end Comparison
end StageChain
