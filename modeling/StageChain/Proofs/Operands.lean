import StageChain.Expr.Rewriting
import StageChain.Proofs.Shape

/-! Moving lone constants to the right changes the value of an expression in one way only: a
difference whose constant moves is taken the other way round. -/
namespace StageChain

theorem Arith.apply_comm {op : Arith} (h : op ≠ .minus) (a b : Int32) :
    op.apply a b = op.apply b a := by
  cases op with
  | plus => exact Int32.add_comm a b
  | minus => exact absurd rfl h
  | times => exact Int32.mul_comm a b

theorem Logic.holds_converse (op : Logic) (a b : Int32) :
    op.converse.holds a b = op.holds b a := by
  cases op with
  | gt => rfl
  | lt => rfl
  | eq => exact Bool.beq_comm
  | and => exact Bool.and_comm _ _
  | or => exact Bool.or_comm _ _

theorem Operator.apply_converse {op : Operator} (h : op ≠ .arith .minus) (a b : Int32) :
    op.converse.apply a b = op.apply b a := by
  cases op with
  | arith op => exact Arith.apply_comm (fun e => h (congrArg Operator.arith e)) a b
  | logic op => simp only [converse, apply, Logic.holds_converse]

theorem Shape.reversedDifference_iff {left right : Expr} {op : Operator} :
    reversedDifference left op right ↔ op = .arith .minus ∧ constantFirst left op right := by
  unfold reversedDifference
  split
  · exact (and_iff_right rfl).symm
  · rename_i other
    exact ⟨fun h => absurd h Bool.false_ne_true, fun h => absurd h.1 other⟩

namespace Expr

/-- Takes every difference with a constant on its left only the other way round. -/
def reverseDifferences : Expr → Expr
  | binary left op right =>
      if Shape.reversedDifference left op right then binary right.reverseDifferences op left
      else binary left.reverseDifferences op right.reverseDifferences
  | e => e

theorem orientOperands_swapped {left right : Expr} {op : Operator}
    (h : Shape.constantFirst left op right) :
    (binary left op right).orientOperands = binary right.orientOperands op.converse left :=
  if_pos h

theorem orientOperands_kept {left right : Expr} {op : Operator}
    (h : ¬ Shape.constantFirst left op right) :
    (binary left op right).orientOperands = binary left.orientOperands op right.orientOperands :=
  if_neg h

theorem reverseDifferences_swapped {left right : Expr} {op : Operator}
    (h : Shape.reversedDifference left op right) :
    (binary left op right).reverseDifferences = binary right.reverseDifferences op left :=
  if_pos h

theorem reverseDifferences_kept {left right : Expr} {op : Operator}
    (h : ¬ Shape.reversedDifference left op right) :
    (binary left op right).reverseDifferences =
      binary left.reverseDifferences op right.reverseDifferences :=
  if_neg h

theorem reverseDifferences_of_avoids {e : Expr} (h : e.avoids Shape.reversedDifference) :
    e.reverseDifferences = e := by
  induction e with
  | element => rfl
  | const n => rfl
  | binary left op right hl hr =>
      obtain ⟨shape, left', right'⟩ := avoids_binary.mp h
      rw [reverseDifferences_kept (ne_true_of_eq_false shape), hl left', hr right']

/-- The moved operands evaluate as if only those differences had been reversed. -/
theorem eval_orientOperands (e : Expr) (x : Int32) :
    e.orientOperands.eval x = e.reverseDifferences.eval x := by
  induction e with
  | element => rfl
  | const n => rfl
  | binary left op right hl hr =>
      by_cases first : Shape.constantFirst left op right
      · rw [orientOperands_swapped first]
        by_cases minus : op = .arith .minus
        · subst minus
          rw [reverseDifferences_swapped (Shape.reversedDifference_iff.mpr ⟨rfl, first⟩)]
          simp only [eval, hr, Operator.converse]
        · have kept : ¬ Shape.reversedDifference left op right :=
            fun h => minus (Shape.reversedDifference_iff.mp h).1
          obtain ⟨n, rfl⟩ := eq_const_of_isConst (Shape.isConst_of_constantFirst first).1
          rw [reverseDifferences_kept kept]
          simp only [eval, hr, reverseDifferences, Operator.apply_converse minus]
      · have kept : ¬ Shape.reversedDifference left op right :=
          fun h => first (Shape.reversedDifference_iff.mp h).2
        rw [orientOperands_kept first, reverseDifferences_kept kept]
        simp only [eval, hl, hr]

theorem eval_orientOperands_of_avoids {e : Expr} (h : e.avoids Shape.reversedDifference)
    (x : Int32) : e.orientOperands.eval x = e.eval x := by
  rw [eval_orientOperands, reverseDifferences_of_avoids h]

/-- Moving constants to the right changes values through the reversed differences only, and not at
all where there are none. -/
theorem orientOperands_reverses (e : Expr) (x : Int32) :
    e.orientOperands.eval x = e.reverseDifferences.eval x ∧
      (e.avoids Shape.reversedDifference → e.orientOperands.eval x = e.eval x) := by
  refine ⟨eval_orientOperands e x, ?_⟩
  intro ordered
  exact eval_orientOperands_of_avoids ordered x

/-- A difference with its constant on the right stays as it is, within an exchanged comparison and
around an exchanged product. The product and the difference wrap at the element. -/
theorem orientOperands_reverses_nothing :
    (binary (const 3) (.logic .lt) (binary (binary (const 2) (.arith .times) element)
      (.arith .minus) (const 5))).avoids Shape.reversedDifference ∧
    (binary (const 3) (.logic .lt) (binary (binary (const 2) (.arith .times) element)
      (.arith .minus) (const 5))).orientOperands.eval 1073741824 = 1 := by
  have ordered : (binary (const 3) (.logic .lt) (binary (binary (const 2) (.arith .times) element)
      (.arith .minus) (const 5))).avoids Shape.reversedDifference := by decide
  exact ⟨ordered, ((orientOperands_reverses _ 1073741824).2 ordered).trans (by decide)⟩

@[simp] theorem isConst_orientOperands (e : Expr) : e.orientOperands.isConst = e.isConst := by
  cases e with
  | element => rfl
  | const n => rfl
  | binary left op right =>
      rw [orientOperands]
      split
      · rfl
      · rfl

theorem orientOperands_ne_element {e : Expr} (h : e ≠ element) : e.orientOperands ≠ element := by
  cases e with
  | element => exact absurd rfl h
  | const n => exact h
  | binary left op right =>
      rw [orientOperands]
      split
      · intro h
        cases h
      · intro h
        cases h

theorem avoids_orientOperands (e : Expr) : e.orientOperands.avoids Shape.constantFirst := by
  induction e with
  | element => rfl
  | const n => rfl
  | binary left op right hl hr =>
      by_cases first : Shape.constantFirst left op right
      · obtain ⟨isConst, other⟩ := Shape.isConst_of_constantFirst first
        obtain ⟨n, rfl⟩ := eq_const_of_isConst isConst
        rw [orientOperands_swapped first, avoids_binary]
        refine ⟨?_, hr, rfl⟩
        simp only [Shape.constantFirst, isConst_orientOperands, other, Bool.false_and]
      · rw [orientOperands_kept first, avoids_binary]
        refine ⟨?_, hl, hr⟩
        simpa only [Shape.constantFirst, isConst_orientOperands, Bool.not_eq_true] using first

theorem orientOperands_of_avoids {e : Expr} (h : e.avoids Shape.constantFirst) :
    e.orientOperands = e := by
  induction e with
  | element => rfl
  | const n => rfl
  | binary left op right hl hr =>
      obtain ⟨shape, left', right'⟩ := avoids_binary.mp h
      rw [orientOperands_kept (ne_true_of_eq_false shape), hl left', hr right']

theorem orientOperands_avoids_constantArithmetic {e : Expr}
    (h : e.avoids Shape.constantArithmetic) :
    e.orientOperands.avoids Shape.constantArithmetic := by
  induction e with
  | element => rfl
  | const n => rfl
  | binary left op right hl hr =>
      obtain ⟨shape, left', right'⟩ := avoids_binary.mp h
      by_cases first : Shape.constantFirst left op right
      · rw [orientOperands_swapped first, avoids_binary]
        refine ⟨?_, hr right', left'⟩
        have other := (Shape.isConst_of_constantFirst first).2
        exact Shape.constantArithmetic_of_left (by rw [isConst_orientOperands, other])
      · rw [orientOperands_kept first, avoids_binary]
        refine ⟨?_, hl left', hr right'⟩
        rw [← shape]
        exact Shape.constantArithmetic_congr (isConst_orientOperands _) (isConst_orientOperands _)

end Expr
end StageChain
