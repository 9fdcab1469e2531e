import StageChain.Expr.Rewriting
import StageChain.Proofs.Shape
import StageChain.Proofs.Word

/-! Offsets move into bounds one at a time, from the outside in. A move keeps an equation as it
is. It keeps an order comparison where neither side of it leaves the range of words. -/
namespace StageChain

theorem Logic.eq_holds_sub (a d b : Int32) : eq.holds a (b - d) = eq.holds (a + d) b := by
  rw [holds, holds, Bool.eq_iff_iff, beq_iff_eq, beq_iff_eq]
  grind

/-- The offset of the left side of a comparison, taken off the bound instead. -/
theorem Logic.holds_sub {op : Logic} (comparison : op.isComparison) {a b : Int32} {d : Int}
    (hx : op ≠ .eq → Word.InRange (a.toInt + d) ∧ Word.InRange (b.toInt - d)) :
    op.holds a (b - Int32.ofInt d) = op.holds (a + Int32.ofInt d) b := by
  cases op with
  | gt =>
      obtain ⟨left, right⟩ := hx (by decide)
      simp only [holds, Int32.lt_iff_toInt_lt, Word.toInt_add_ofInt left, Word.toInt_sub_ofInt right,
        decide_eq_decide]
      omega
  | lt =>
      obtain ⟨left, right⟩ := hx (by decide)
      simp only [holds, Int32.lt_iff_toInt_lt, Word.toInt_add_ofInt left, Word.toInt_sub_ofInt right,
        decide_eq_decide]
      omega
  | eq => exact eq_holds_sub a (Int32.ofInt d) b
  | and => cases comparison
  | or => cases comparison

/-- A move of an offset from one side of a comparison to the other. Before it, `base` shifted by
`offset` is compared with `bound`. -/
structure OffsetMove where
  base : Expr
  offset : Int
  op : Logic
  bound : Int32
deriving DecidableEq

namespace OffsetMove

/-- The comparison after the move. -/
def result (m : OffsetMove) : Expr :=
  .binary m.base (.logic m.op) (.const (m.bound - Int32.ofInt m.offset))

/-- Neither the shifted base nor the moved bound wraps. -/
def Exact (m : OffsetMove) (x : Int32) : Prop :=
  Word.InRange ((m.base.eval x).toInt + m.offset) ∧ Word.InRange (m.bound.toInt - m.offset)

instance (m : OffsetMove) (x : Int32) : Decidable (m.Exact x) :=
  inferInstanceAs (Decidable (_ ∧ _))

end OffsetMove

namespace Expr

/-- Reads a sum or a difference with a constant on its right: what the constant is added to, and
the number that is added. -/
def splitOffset? : Expr → Option (Expr × Int)
  | binary base (.arith .plus) (const c) => some (base, c.toInt)
  | binary base (.arith .minus) (const c) => some (base, -c.toInt)
  | _ => none

/-- The first move at an operation. Only a comparison of an offset with a constant has one. -/
def offsetMove? (left : Expr) (op : Operator) (right : Expr) : Option OffsetMove :=
  match op, right with
  | .logic op, const bound =>
      if op.isComparison then
        left.splitOffset?.map fun (base, offset) => ⟨base, offset, op, bound⟩
      else none
  | _, _ => none

theorem splitOffset?_cases {e base : Expr} {d : Int} (h : e.splitOffset? = some (base, d)) :
    ∃ c, (e = binary base (.arith .plus) (const c) ∧ d = c.toInt) ∨
      (e = binary base (.arith .minus) (const c) ∧ d = -c.toInt) := by
  unfold splitOffset? at h
  split at h
  · rename_i c
    cases h
    exact ⟨c, .inl ⟨rfl, rfl⟩⟩
  · rename_i c
    cases h
    exact ⟨c, .inr ⟨rfl, rfl⟩⟩
  · cases h

theorem offsetMove?_cases {left right : Expr} {op : Operator} {m : OffsetMove}
    (h : offsetMove? left op right = some m) :
    m.op.isComparison ∧ op = .logic m.op ∧ right = const m.bound ∧
      left.splitOffset? = some (m.base, m.offset) := by
  unfold offsetMove? at h
  split at h
  · rename_i op bound
    split at h
    · rename_i comparison
      obtain ⟨⟨base, offset⟩, hs, rfl⟩ := Option.map_eq_some_iff.mp h
      exact ⟨comparison, rfl, rfl, hs⟩
    · cases h
  · cases h

theorem height_result_lt {left right : Expr} {op : Operator} {m : OffsetMove}
    (h : offsetMove? left op right = some m) : m.result.height < (binary left op right).height := by
  obtain ⟨-, -, rfl, split⟩ := offsetMove?_cases h
  obtain ⟨c, ⟨rfl, -⟩ | ⟨rfl, -⟩⟩ := splitOffset?_cases split
  · simp only [OffsetMove.result, height]
    omega
  · simp only [OffsetMove.result, height]
    omega

/-- All moves, in the order in which they are made: at an operation as long as it has one, then
within its operands. -/
def offsetMoves (e : Expr) : List OffsetMove :=
  match e with
  | binary left op right =>
      match _h : offsetMove? left op right with
      | some m => m :: m.result.offsetMoves
      | none => left.offsetMoves ++ right.offsetMoves
  | _ => []
termination_by e.height
decreasing_by
  · exact height_result_lt _h
  · simp only [height]
    omega
  · simp only [height]
    omega

/-- Induction along the moves: at an operation with a move, the claim may be taken for granted of
what the move gives. -/
@[elab_as_elim] theorem moveInduction {motive : Expr → Prop} (element : motive .element)
    (const : ∀ n, motive (.const n))
    (move : ∀ left op right m, offsetMove? left op right = some m → motive m.result →
      motive (.binary left op right))
    (stay : ∀ left op right, offsetMove? left op right = none → motive left → motive right →
      motive (.binary left op right))
    (e : Expr) : motive e := by
  fun_induction offsetMoves e with
  | case1 left op right m h ih => exact move left op right m h ih
  | case2 left op right h hl hr => exact stay left op right h hl hr
  | case3 e other =>
      cases e with
      | element => exact element
      | const n => exact const n
      | binary left op right => exact absurd rfl (other left op right)

theorem offsetMoves_of_move {left right : Expr} {op : Operator} {m : OffsetMove}
    (h : offsetMove? left op right = some m) :
    (binary left op right).offsetMoves = m :: m.result.offsetMoves := by
  rw [offsetMoves]
  split
  · rename_i m' h'
    rw [h] at h'
    cases h'
    rfl
  · rename_i h'
    rw [h] at h'
    cases h'

theorem offsetMoves_of_no_move {left right : Expr} {op : Operator}
    (h : offsetMove? left op right = none) :
    (binary left op right).offsetMoves = left.offsetMoves ++ right.offsetMoves := by
  rw [offsetMoves]
  split
  · rename_i m' h'
    rw [h] at h'
    cases h'
  · rfl

theorem eval_of_splitOffset? {e base : Expr} {d : Int} (h : e.splitOffset? = some (base, d))
    (x : Int32) : e.eval x = base.eval x + Int32.ofInt d := by
  obtain ⟨c, ⟨rfl, rfl⟩ | ⟨rfl, rfl⟩⟩ := splitOffset?_cases h
  · simp only [eval, Operator.apply, Arith.apply, Int32.ofInt_toInt]
  · simp only [eval, Operator.apply, Arith.apply, Int32.ofInt_neg, Int32.ofInt_toInt,
      Int32.sub_eq_add_neg]

theorem stripOffsets_of_splitOffset? {e base : Expr} {d : Int}
    (h : e.splitOffset? = some (base, d)) (bound : Int32) :
    e.stripOffsets bound = base.stripOffsets (bound - Int32.ofInt d) := by
  obtain ⟨c, ⟨rfl, rfl⟩ | ⟨rfl, rfl⟩⟩ := splitOffset?_cases h
  · rw [stripOffsets, Int32.ofInt_toInt]
  · rw [stripOffsets, Int32.ofInt_neg, Int32.ofInt_toInt, Int32.sub_neg]

theorem stripOffsets_of_splitOffset?_none {e : Expr} (h : e.splitOffset? = none)
    (bound : Int32) : e.stripOffsets bound = (e, bound) := by
  unfold stripOffsets
  split
  · cases h
  · cases h
  · rfl

theorem splitOffset?_of_right {left right : Expr} {op : Operator} (h : right.isConst = false) :
    (binary left op right).splitOffset? = none := by
  unfold splitOffset?
  split
  · rename_i shape
    cases shape
    cases h
  · rename_i shape
    cases shape
    cases h
  · rfl

/-- A rewriting within an offset leaves it the same offset of a rewritten base. -/
theorem KeepsArithmetic.splitOffset? {f : Expr → Expr} (h : KeepsArithmetic f) (e : Expr) :
    (f e).splitOffset? = e.splitOffset?.map (Prod.map f id) := by
  cases e with
  | element =>
      rw [h.element]
      rfl
  | const n =>
      rw [h.const]
      rfl
  | binary left op right =>
      cases op with
      | logic op =>
          obtain ⟨left', op', right', hb⟩ := h.logic left op right
          rw [hb]
          rfl
      | arith op =>
          rw [h.arith]
          by_cases constant : right.isConst
          · obtain ⟨n, rfl⟩ := eq_const_of_isConst constant
            rw [h.const]
            cases op <;> rfl
          · rw [Bool.not_eq_true] at constant
            rw [splitOffset?_of_right constant, splitOffset?_of_right (by rw [h.isConst, constant])]
            rfl

theorem keepsArithmetic_isolateOffsets : KeepsArithmetic isolateOffsets where
  element := rfl
  const _ := rfl
  arith _ _ _ := rfl
  logic left op right := by
    simp only [isolateOffsets, compareStripped]
    split
    · split
      · exact ⟨_, _, _, rfl⟩
      · exact ⟨_, _, _, rfl⟩
    · exact ⟨_, _, _, rfl⟩

theorem compareStripped_of_right {left right : Expr} {op : Operator} (h : right.isConst = false) :
    compareStripped left op right = binary left op right := by
  unfold compareStripped
  split
  · cases h
  · rfl

@[simp] theorem isConst_isolateOffsets (e : Expr) : e.isolateOffsets.isConst = e.isConst :=
  keepsArithmetic_isolateOffsets.isConst e

/-- Isolation makes the first move and goes on with what it gives. -/
theorem isolateOffsets_of_move {left right : Expr} {op : Operator} {m : OffsetMove}
    (h : offsetMove? left op right = some m) :
    (binary left op right).isolateOffsets = m.result.isolateOffsets := by
  obtain ⟨comparison, rfl, rfl, split⟩ := offsetMove?_cases h
  have split' : left.isolateOffsets.splitOffset? = some (m.base.isolateOffsets, m.offset) := by
    rw [keepsArithmetic_isolateOffsets.splitOffset?, split]
    rfl
  simp only [OffsetMove.result, isolateOffsets, compareStripped, comparison, ↓reduceIte,
    stripOffsets_of_splitOffset? split']

theorem isolateOffsets_of_no_move {left right : Expr} {op : Operator}
    (h : offsetMove? left op right = none) :
    (binary left op right).isolateOffsets =
      binary left.isolateOffsets op right.isolateOffsets := by
  cases op with
  | arith op => rfl
  | logic op =>
      by_cases constant : right.isConst
      · obtain ⟨bound, rfl⟩ := eq_const_of_isConst constant
        simp only [isolateOffsets, compareStripped]
        split
        · rename_i comparison
          have split : left.splitOffset? = none := by
            simpa only [offsetMove?, comparison, ↓reduceIte, Option.map_eq_none_iff] using h
          have split' : left.isolateOffsets.splitOffset? = none := by
            rw [keepsArithmetic_isolateOffsets.splitOffset?, split]
            rfl
          rw [stripOffsets_of_splitOffset?_none split']
        · rfl
      · rw [Bool.not_eq_true] at constant
        rw [isolateOffsets, compareStripped_of_right (by rw [isConst_isolateOffsets, constant])]

theorem eval_result {left right : Expr} {op : Operator} {m : OffsetMove} {x : Int32}
    (h : offsetMove? left op right = some m) (hx : m.op ≠ .eq → m.Exact x) :
    m.result.eval x = (binary left op right).eval x := by
  obtain ⟨comparison, rfl, rfl, split⟩ := offsetMove?_cases h
  simp only [OffsetMove.result, eval, Operator.apply, eval_of_splitOffset? split,
    Logic.holds_sub comparison hx]

theorem eval_isolateOffsets {e : Expr} {x : Int32}
    (hx : ∀ m ∈ e.offsetMoves, m.op ≠ .eq → m.Exact x) :
    e.isolateOffsets.eval x = e.eval x := by
  induction e using moveInduction with
  | element => rfl
  | const n => rfl
  | move left op right m h ih =>
      rw [offsetMoves_of_move h] at hx
      rw [isolateOffsets_of_move h, ih fun n hn => hx n (List.mem_cons_of_mem m hn)]
      exact eval_result h (hx m List.mem_cons_self)
  | stay left op right h hl hr =>
      rw [offsetMoves_of_no_move h] at hx
      rw [isolateOffsets_of_no_move h, eval, eval,
        hl fun n hn => hx n (List.mem_append_left _ hn),
        hr fun n hn => hx n (List.mem_append_right _ hn)]

theorem isOffset_eq_isSome (e : Expr) : e.isOffset = e.splitOffset?.isSome := by
  cases e with
  | element => rfl
  | const n => rfl
  | binary left op right =>
      cases op with
      | logic op => rfl
      | arith op => cases op <;> cases right <;> rfl

@[simp] theorem isOffset_isolateOffsets (e : Expr) : e.isolateOffsets.isOffset = e.isOffset :=
  keepsArithmetic_isolateOffsets.isOffset e

theorem offsetMove?_eq_none_iff {left right : Expr} {op : Operator} :
    offsetMove? left op right = none ↔ Shape.offsetComparison left op right = false := by
  cases op with
  | arith op => exact ⟨fun _ => rfl, fun _ => rfl⟩
  | logic op =>
      cases right with
      | element => simp only [offsetMove?, Shape.offsetComparison, isConst, Bool.and_false]
      | binary l o r => simp only [offsetMove?, Shape.offsetComparison, isConst, Bool.and_false]
      | const bound =>
          simp only [offsetMove?, Shape.offsetComparison, isOffset_eq_isSome, isConst,
            Bool.and_true]
          cases op.isComparison with
          | false => simp only [Bool.false_eq_true, ↓reduceIte, Bool.false_and]
          | true =>
              simp only [↓reduceIte, Option.map_eq_none_iff, Bool.true_and,
                Option.isSome_eq_false_iff, Option.isNone_iff_eq_none]

theorem avoids_isolateOffsets (e : Expr) : e.isolateOffsets.avoids Shape.offsetComparison := by
  induction e using moveInduction with
  | element => rfl
  | const n => rfl
  | move left op right m h ih =>
      rw [isolateOffsets_of_move h]
      exact ih
  | stay left op right h hl hr =>
      rw [isolateOffsets_of_no_move h, avoids_binary]
      refine ⟨?_, hl, hr⟩
      rw [← offsetMove?_eq_none_iff.mp h]
      exact Shape.offsetComparison_congr (isOffset_isolateOffsets _) (isConst_isolateOffsets _)

theorem isolateOffsets_of_avoids {e : Expr} (h : e.avoids Shape.offsetComparison) :
    e.isolateOffsets = e := by
  induction e with
  | element => rfl
  | const n => rfl
  | binary left op right hl hr =>
      obtain ⟨shape, left', right'⟩ := avoids_binary.mp h
      rw [isolateOffsets_of_no_move (offsetMove?_eq_none_iff.mpr shape), hl left', hr right']

theorem offsetMoves_of_avoids {e : Expr} (h : e.avoids Shape.offsetComparison) :
    e.offsetMoves = [] := by
  induction e with
  | element => simp only [offsetMoves]
  | const n => simp only [offsetMoves]
  | binary left op right hl hr =>
      obtain ⟨shape, left', right'⟩ := avoids_binary.mp h
      rw [offsetMoves_of_no_move (offsetMove?_eq_none_iff.mpr shape), hl left', hr right']
      rfl

/-- A move takes an operation away and leaves what stood below it. -/
theorem avoids_result {shape : Shape} {left right : Expr} {op : Operator} {m : OffsetMove}
    (h : offsetMove? left op right = some m) (ha : (binary left op right).avoids shape)
    (rebuilt : shape m.base (.logic m.op) (const (m.bound - Int32.ofInt m.offset)) = false) :
    m.result.avoids shape := by
  obtain ⟨-, rfl, rfl, split⟩ := offsetMove?_cases h
  obtain ⟨c, ⟨rfl, -⟩ | ⟨rfl, -⟩⟩ := splitOffset?_cases split
  · simp only [avoids_binary] at ha
    exact avoids_binary.mpr ⟨rebuilt, ha.2.1.2.1, rfl⟩
  · simp only [avoids_binary] at ha
    exact avoids_binary.mpr ⟨rebuilt, ha.2.1.2.1, rfl⟩

/-- Isolation brings no shape in that is read off the operator and the constants among the
operands, and that no logic operation with a constant on its right has. -/
theorem isolateOffsets_avoids {shape : Shape} {e : Expr}
    (hcongr : ∀ {l l' r r' : Expr} {op : Operator}, l.isConst = l'.isConst →
      r.isConst = r'.isConst → shape l op r = shape l' op r')
    (rebuilt : ∀ l op n, shape l (.logic op) (const n) = false)
    (h : e.avoids shape) : e.isolateOffsets.avoids shape := by
  induction e using moveInduction with
  | element => rfl
  | const n => rfl
  | move left op right m hm ih =>
      rw [isolateOffsets_of_move hm]
      exact ih (avoids_result hm h (rebuilt m.base m.op _))
  | stay left op right hm hl hr =>
      obtain ⟨hs, left', right'⟩ := avoids_binary.mp h
      rw [isolateOffsets_of_no_move hm, avoids_binary]
      refine ⟨?_, hl left', hr right'⟩
      rw [← hs]
      exact hcongr (isConst_isolateOffsets _) (isConst_isolateOffsets _)

end Expr
end StageChain
