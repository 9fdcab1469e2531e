import StageChain.Expr.Rewriting

/-! Shapes of operations. Each rewriting of an expression removes one shape from all of it, and
its normal form is that no operation within has this shape. -/
namespace StageChain

/-- A property of an operation, read off its operands and its operator. -/
abbrev Shape := Expr → Operator → Expr → Bool

namespace Expr

/-- No operation within the expression has the shape. -/
def avoids (shape : Shape) : Expr → Bool
  | binary left op right => !shape left op right && left.avoids shape && right.avoids shape
  | _ => true

/-- Something plus or minus a constant. -/
def isOffset : Expr → Bool
  | binary _ (.arith .plus) right | binary _ (.arith .minus) right => right.isConst
  | _ => false

@[simp] theorem avoids_binary {shape : Shape} {left right : Expr} {op : Operator} :
    (binary left op right).avoids shape ↔
      shape left op right = false ∧ left.avoids shape ∧ right.avoids shape := by
  simp only [avoids, Bool.and_eq_true, Bool.not_eq_true', and_assoc]

theorem eq_const_of_isConst {e : Expr} (h : e.isConst) : ∃ n, e = const n := by
  cases e with
  | element => cases h
  | const n => exact ⟨n, rfl⟩
  | binary left op right => cases h

/-- A rewriting that keeps leaves, goes into the operands of arithmetic, and makes a logic
operation of a logic operation. -/
structure KeepsArithmetic (f : Expr → Expr) : Prop where
  element : f .element = .element
  const : ∀ n, f (.const n) = .const n
  arith : ∀ left op right,
    f (.binary left (.arith op) right) = .binary (f left) (.arith op) (f right)
  logic : ∀ left op right,
    ∃ left' op' right', f (.binary left (.logic op) right) = .binary left' (.logic op') right'

namespace KeepsArithmetic

variable {f : Expr → Expr}

theorem isConst (h : KeepsArithmetic f) (e : Expr) : (f e).isConst = e.isConst := by
  cases e with
  | element => rw [h.element]
  | const n => rw [h.const]
  | binary left op right =>
      cases op with
      | arith op =>
          rw [h.arith]
          rfl
      | logic op =>
          obtain ⟨left', op', right', hb⟩ := h.logic left op right
          rw [hb]
          rfl

theorem isOffset (h : KeepsArithmetic f) (e : Expr) : (f e).isOffset = e.isOffset := by
  cases e with
  | element => rw [h.element]
  | const n => rw [h.const]
  | binary left op right =>
      cases op with
      | arith op =>
          rw [h.arith]
          cases op with
          | plus | minus => exact h.isConst right
          | times => rfl
      | logic op =>
          obtain ⟨left', op', right', hb⟩ := h.logic left op right
          rw [hb]
          rfl

theorem ne_element (h : KeepsArithmetic f) {e : Expr} (he : e ≠ .element) : f e ≠ .element := by
  cases e with
  | element => exact absurd rfl he
  | const n =>
      rw [h.const]
      exact he
  | binary left op right =>
      cases op with
      | arith op =>
          rw [h.arith]
          intro eq
          cases eq
      | logic op =>
          obtain ⟨left', op', right', hb⟩ := h.logic left op right
          rw [hb]
          intro eq
          cases eq

end KeepsArithmetic
end Expr

namespace Shape

/-- Arithmetic over two constants. -/
def constantArithmetic : Shape
  | left, .arith _, right => left.isConst && right.isConst
  | _, .logic _, _ => false

theorem eq_of_constantArithmetic {left right : Expr} {op : Operator}
    (h : constantArithmetic left op right) :
    ∃ a arith b, left = .const a ∧ op = .arith arith ∧ right = .const b := by
  cases op with
  | logic op => cases h
  | arith op =>
      simp only [constantArithmetic, Bool.and_eq_true] at h
      obtain ⟨a, rfl⟩ := Expr.eq_const_of_isConst h.1
      obtain ⟨b, rfl⟩ := Expr.eq_const_of_isConst h.2
      exact ⟨a, op, b, rfl, rfl, rfl⟩

theorem constantArithmetic_of_left {left right : Expr} {op : Operator}
    (h : left.isConst = false) : constantArithmetic left op right = false := by
  cases op with
  | arith op => simp only [constantArithmetic, h, Bool.false_and]
  | logic op => rfl

theorem constantArithmetic_congr {left right left' right' : Expr} {op : Operator}
    (hl : left.isConst = left'.isConst) (hr : right.isConst = right'.isConst) :
    constantArithmetic left op right = constantArithmetic left' op right' := by
  cases op with
  | arith op => simp only [constantArithmetic, hl, hr]
  | logic op => rfl

/-- A constant on the left of something that is none. -/
def constantFirst : Shape
  | left, _, right => left.isConst && !right.isConst

theorem isConst_of_constantFirst {left right : Expr} {op : Operator}
    (h : constantFirst left op right) : left.isConst ∧ right.isConst = false := by
  simpa only [constantFirst, Bool.and_eq_true, Bool.not_eq_true'] using h

theorem constantFirst_congr {left right left' right' : Expr} {op : Operator}
    (hl : left.isConst = left'.isConst) (hr : right.isConst = right'.isConst) :
    constantFirst left op right = constantFirst left' op right' := by
  simp only [constantFirst, hl, hr]

/-- A constant from which something that is none is subtracted. -/
def reversedDifference : Shape
  | left, .arith .minus, right => left.isConst && !right.isConst
  | _, _, _ => false

/-- A comparison of an offset with a constant, such as `((x+1)>2)`. -/
def offsetComparison : Shape
  | left, .logic op, right => op.isComparison && left.isOffset && right.isConst
  | _, .arith _, _ => false

theorem offsetComparison_congr {left right left' right' : Expr} {op : Operator}
    (hl : left.isOffset = left'.isOffset) (hr : right.isConst = right'.isConst) :
    offsetComparison left op right = offsetComparison left' op right' := by
  cases op with
  | arith op => rfl
  | logic op => simp only [offsetComparison, hl, hr]

/-- A conjunction with a contradiction in it, or of two comparisons that come to a single one or
to none. -/
def mergeable : Shape
  | left, .logic .and, right =>
      left.isContradiction || right.isContradiction ||
        match left.comparison?, right.comparison? with
        | some l, some r => l.meet r != .unmerged
        | _, _ => false
  | _, _, _ => false

end Shape
end StageChain
