import StageChain.Proofs.Offsets

/-! What moving offsets does to comparisons when words wrap. The offsets of a side come to one
word, and moving them all is moving this word. An equation keeps its truth value. An order
comparison keeps it if the shifted side and the moved bound are both in range or both out of it,
and otherwise changes to the opposite. -/
namespace StageChain

namespace Logic

/-- The comparisons by order. -/
def isOrder : Logic → Bool
  | gt | lt => true
  | eq | and | or => false

/-- The offset of the left side moves to the bound. -/
theorem holds_moved {op : Logic} (comparison : op.isComparison) (a d b : Int32) :
    op.holds a (b - d) = (op.holds (a + d) b ^^ (op.isOrder && Word.wrapsApart a d b)) := by
  cases op with
  | gt => exact Word.decide_sub_lt a d b
  | lt => exact Word.decide_lt_sub a d b
  | eq =>
      rw [isOrder, Bool.false_and, Bool.xor_false]
      exact eq_holds_sub a d b
  | and => cases comparison
  | or => cases comparison

end Logic

namespace Expr

/-- What is left of an expression without the constants that are added or subtracted last. -/
def withoutOffsets : Expr → Expr
  | binary inner (.arith .plus) (const _) => inner.withoutOffsets
  | binary inner (.arith .minus) (const _) => inner.withoutOffsets
  | e => e

/-- The sum of those constants, where a subtracted one counts negatively. -/
def totalOffset : Expr → Int32
  | binary inner (.arith .plus) (const c) => inner.totalOffset + c
  | binary inner (.arith .minus) (const c) => inner.totalOffset - c
  | _ => 0

/-- Induction along the offsets of an expression, from its base outwards. -/
@[elab_as_elim] theorem offsetInduction {motive : Expr → Prop}
    (whole : ∀ e, e.splitOffset? = none → motive e)
    (shifted : ∀ e base d, e.splitOffset? = some (base, d) → motive base → motive e)
    (e : Expr) : motive e := by
  induction e with
  | element => exact whole element rfl
  | const n => exact whole (const n) rfl
  | binary left op right hl hr =>
      cases h : (binary left op right).splitOffset? with
      | none => exact whole _ h
      | some parts =>
          obtain ⟨base, d⟩ := parts
          obtain ⟨c, ⟨shape, -⟩ | ⟨shape, -⟩⟩ := splitOffset?_cases h
          · cases shape
            exact shifted _ _ d h hl
          · cases shape
            exact shifted _ _ d h hl

theorem withoutOffsets_of_split {e base : Expr} {d : Int} (h : e.splitOffset? = some (base, d)) :
    e.withoutOffsets = base.withoutOffsets := by
  obtain ⟨c, ⟨rfl, -⟩ | ⟨rfl, -⟩⟩ := splitOffset?_cases h
  · rfl
  · rfl

theorem totalOffset_of_split {e base : Expr} {d : Int} (h : e.splitOffset? = some (base, d)) :
    e.totalOffset = base.totalOffset + Int32.ofInt d := by
  obtain ⟨c, ⟨rfl, rfl⟩ | ⟨rfl, rfl⟩⟩ := splitOffset?_cases h
  · rw [totalOffset, Int32.ofInt_toInt]
  · rw [totalOffset, Int32.ofInt_neg, Int32.ofInt_toInt, Int32.sub_eq_add_neg]

theorem withoutOffsets_of_whole {e : Expr} (h : e.splitOffset? = none) : e.withoutOffsets = e := by
  unfold withoutOffsets
  split
  · cases h
  · cases h
  · rfl

theorem totalOffset_of_whole {e : Expr} (h : e.splitOffset? = none) : e.totalOffset = 0 := by
  unfold totalOffset
  split
  · cases h
  · cases h
  · rfl

theorem eval_withoutOffsets (e : Expr) (x : Int32) :
    e.withoutOffsets.eval x = e.eval x - e.totalOffset := by
  induction e using offsetInduction with
  | whole e h => rw [withoutOffsets_of_whole h, totalOffset_of_whole h, Int32.sub_zero]
  | shifted e base d h ih =>
      rw [withoutOffsets_of_split h, totalOffset_of_split h, eval_of_splitOffset? h, ih]
      grind

/-- All offsets leave the bound together. -/
theorem stripOffsets_eq (e : Expr) (bound : Int32) :
    e.stripOffsets bound = (e.withoutOffsets, bound - e.totalOffset) := by
  induction e using offsetInduction generalizing bound with
  | whole e h =>
      rw [stripOffsets_of_splitOffset?_none h, withoutOffsets_of_whole h, totalOffset_of_whole h,
        Int32.sub_zero]
  | shifted e base d h ih =>
      have regrouped : bound - Int32.ofInt d - base.totalOffset =
          bound - (base.totalOffset + Int32.ofInt d) := by grind
      rw [stripOffsets_of_splitOffset? h, ih, withoutOffsets_of_split h, totalOffset_of_split h,
        regrouped]

theorem KeepsArithmetic.totalOffset {f : Expr → Expr} (h : KeepsArithmetic f) (e : Expr) :
    (f e).totalOffset = e.totalOffset := by
  induction e using offsetInduction with
  | whole e split =>
      have split' : (f e).splitOffset? = none := by
        rw [h.splitOffset?, split]
        rfl
      rw [totalOffset_of_whole split, totalOffset_of_whole split']
  | shifted e base d split ih =>
      have split' : (f e).splitOffset? = some (f base, d) := by
        rw [h.splitOffset?, split]
        rfl
      rw [totalOffset_of_split split, totalOffset_of_split split', ih]

end Expr

/-- An order comparison with a constant whose two sides wrap apart at the given element when the
offset of the left side moves. -/
def Shape.wrapsApart (x : Int32) : Shape
  | left, .logic op, right =>
      op.isOrder && right.isConst &&
        Word.wrapsApart (left.withoutOffsets.eval x) left.totalOffset (right.eval x)
  | _, .arith _, _ => false

namespace Expr

theorem wrapsApart_of_right {left right : Expr} {op : Operator} {x : Int32}
    (h : right.isConst = false) : Shape.wrapsApart x left op right = false := by
  cases op with
  | arith op => rfl
  | logic op => simp only [Shape.wrapsApart, h, Bool.and_false, Bool.false_and]

/-- What matters of the operands is their values at the element, the offset on the left and
whether the right one is a constant. -/
theorem wrapsApart_congr {left right left' right' : Expr} {x : Int32} (op : Operator)
    (value : left.eval x = left'.eval x) (offset : left.totalOffset = left'.totalOffset)
    (bound : right.eval x = right'.eval x) (constant : right.isConst = right'.isConst) :
    Shape.wrapsApart x left op right = Shape.wrapsApart x left' op right' := by
  cases op with
  | arith op => rfl
  | logic op =>
      simp only [Shape.wrapsApart, eval_withoutOffsets, value, offset, bound, constant]

/-- Holds where a given truth value does not. -/
def denial (e : Expr) : Expr := binary e (.logic .eq) (const 0)

theorem eval_denial_logic (left : Expr) (op : Logic) (right : Expr) (x : Int32) :
    (binary left (.logic op) right).denial.eval x =
      if !op.holds (left.eval x) (right.eval x) then 1 else 0 := by
  have test : ∀ b : Bool, (if (if b then (1 : Int32) else 0) == 0 then (1 : Int32) else 0) =
      if !b then 1 else 0 := by decide
  exact test _

/-- The operation on two finished operands, or its denial if the sides wrap apart. -/
def denyIfApart (x : Int32) (left : Expr) (op : Operator) (right : Expr) : Expr :=
  if Shape.wrapsApart x left op right then (binary left op right).denial
  else binary left op right

/-- Denies every order comparison whose sides wrap apart at the element, innermost first. -/
def denyApart (x : Int32) : Expr → Expr
  | binary left op right => denyIfApart x (left.denyApart x) op (right.denyApart x)
  | e => e

theorem denyIfApart_of_together {left right : Expr} {op : Operator} {x : Int32}
    (h : Shape.wrapsApart x left op right = false) :
    denyIfApart x left op right = binary left op right :=
  if_neg (ne_true_of_eq_false h)

theorem eval_denyIfApart_logic (x : Int32) (left : Expr) (op : Logic) (right : Expr) :
    (denyIfApart x left (.logic op) right).eval x =
      if op.holds (left.eval x) (right.eval x) ^^ Shape.wrapsApart x left (.logic op) right
      then 1 else 0 := by
  unfold denyIfApart
  split
  · rename_i apart
    rw [eval_denial_logic, apart, Bool.xor_true]
  · rename_i together
    rw [Bool.not_eq_true] at together
    rw [together, Bool.xor_false]
    rfl

theorem eval_denyIfApart_congr {left right left' right' : Expr} {x : Int32} (op : Operator)
    (value : left.eval x = left'.eval x) (offset : left.totalOffset = left'.totalOffset)
    (bound : right.eval x = right'.eval x) (constant : right.isConst = right'.isConst) :
    (denyIfApart x left op right).eval x = (denyIfApart x left' op right').eval x := by
  have node : (binary left op right).eval x = (binary left' op right').eval x := by
    rw [eval, eval, value, bound]
  rw [denyIfApart, denyIfApart, wrapsApart_congr op value offset bound constant]
  split
  · exact congrArg (fun v => (Operator.logic .eq).apply v 0) node
  · exact node

/-- A comparison with a constant loses all offsets of its left side at once. -/
theorem compareStripped_comparison {op : Logic} (comparison : op.isComparison) (left : Expr)
    (bound : Int32) :
    compareStripped left (.logic op) (const bound) =
      binary left.withoutOffsets (.logic op) (const (bound - left.totalOffset)) := by
  simp only [compareStripped, comparison, ↓reduceIte, stripOffsets_eq]

/-- Moving the offsets of one comparison denies it or does nothing to its value. -/
theorem eval_compareStripped (left : Expr) (op : Operator) (right : Expr) (x : Int32) :
    (compareStripped left op right).eval x = (denyIfApart x left op right).eval x := by
  by_cases constant : right.isConst
  · obtain ⟨bound, rfl⟩ := eq_const_of_isConst constant
    cases op with
    | arith op => rfl
    | logic op =>
        by_cases comparison : op.isComparison
        · have moved : op.holds (left.withoutOffsets.eval x) (bound - left.totalOffset) =
              (op.holds (left.eval x) bound ^^
                Shape.wrapsApart x left (.logic op) (const bound)) := by
            rw [Logic.holds_moved comparison, eval_withoutOffsets, Int32.sub_add_cancel]
            simp only [Shape.wrapsApart, isConst, Bool.and_true, eval, eval_withoutOffsets]
          rw [compareStripped_comparison comparison, eval_denyIfApart_logic]
          exact congrArg (fun b : Bool => if b then (1 : Int32) else 0) moved
        · have together : Shape.wrapsApart x left (.logic op) (const bound) = false := by
            cases op with
            | gt | lt => exact absurd rfl comparison
            | eq | and | or => rfl
          rw [denyIfApart_of_together together]
          simp only [compareStripped, comparison, Bool.false_eq_true, ↓reduceIte]
  · rw [Bool.not_eq_true] at constant
    rw [compareStripped_of_right constant, denyIfApart_of_together (wrapsApart_of_right constant)]

theorem keepsArithmetic_denyApart (x : Int32) : KeepsArithmetic (denyApart x) where
  element := rfl
  const _ := rfl
  arith _ _ _ := rfl
  logic left op right := by
    rw [denyApart, denyIfApart]
    split
    · exact ⟨_, _, _, rfl⟩
    · exact ⟨_, _, _, rfl⟩

/-- Isolating offsets throughout an expression denies the comparisons that wrap apart and does
nothing else to its value. -/
theorem eval_isolateOffsets_eq_denyApart (e : Expr) (x : Int32) :
    e.isolateOffsets.eval x = (e.denyApart x).eval x := by
  induction e with
  | element => rfl
  | const n => rfl
  | binary left op right hl hr =>
      rw [isolateOffsets, denyApart, eval_compareStripped]
      refine eval_denyIfApart_congr op hl ?_ hr ?_
      · rw [keepsArithmetic_isolateOffsets.totalOffset, (keepsArithmetic_denyApart x).totalOffset]
      · rw [isConst_isolateOffsets, (keepsArithmetic_denyApart x).isConst]

theorem denyApart_of_avoids {e : Expr} {x : Int32} (h : e.avoids (Shape.wrapsApart x)) :
    e.denyApart x = e := by
  induction e with
  | element => rfl
  | const n => rfl
  | binary left op right hl hr =>
      obtain ⟨together, left', right'⟩ := avoids_binary.mp h
      rw [denyApart, hl left', hr right', denyIfApart_of_together together]

/-- The isolated expression has the value of the given one with the comparisons denied that wrap
apart, and so the same value where there are none. -/
theorem isolateOffsets_denies (e : Expr) (x : Int32) :
    e.isolateOffsets.eval x = (e.denyApart x).eval x ∧
      (e.avoids (Shape.wrapsApart x) → e.isolateOffsets.eval x = e.eval x) := by
  refine ⟨eval_isolateOffsets_eq_denyApart e x, ?_⟩
  intro together
  rw [eval_isolateOffsets_eq_denyApart, denyApart_of_avoids together]

/-- Both sides wrap here, the sum to the least word and the bound to 2. -/
theorem isolateOffsets_denies_nothing :
    (binary (binary element (.arith .plus) (const 2147483647)) (.logic .lt)
      (const (-2147483647))).avoids (Shape.wrapsApart 1) ∧
    (binary (binary element (.arith .plus) (const 2147483647)) (.logic .lt)
      (const (-2147483647))).isolateOffsets.eval 1 = 1 := by
  have together : (binary (binary element (.arith .plus) (const 2147483647)) (.logic .lt)
      (const (-2147483647))).avoids (Shape.wrapsApart 1) := by decide
  exact ⟨together, ((isolateOffsets_denies _ 1).2 together).trans (by decide)⟩

/-- Isolation does not keep truth values: `((element+1)>0)` fails at the greatest word, where the
sum wraps, and `(element>(-1))` holds there. -/
theorem isolateOffsets_not_faithful :
    ¬ ∀ (e : Expr) (x : Int32), e.isBoolean → (e.isolateOffsets.eval x ≠ 0 ↔ e.eval x ≠ 0) := by
  intro faithful
  have kept := faithful
    (binary (binary element (.arith .plus) (const 1)) (.logic .gt) (const 0)) Int32.maxValue rfl
  exact kept.mp (by decide) (by decide)

end Expr
end StageChain
