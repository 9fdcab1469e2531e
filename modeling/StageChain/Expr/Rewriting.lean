import StageChain.Expr

/-! The rewritings that simplification is made of. Each one works from the inside out. -/
namespace StageChain

namespace Expr

def combine : Expr → Operator → Expr → Expr
  | const a, .arith op, const b => const (op.apply a b)
  | left, op, right => binary left op right

/-- Evaluates `+`, `-` and `*` over constants. -/
def foldConstants : Expr → Expr
  | binary left op right => combine left.foldConstants op right.foldConstants
  | e => e

/-- Exchanges the operands of every operation that has a constant on its left only. -/
def orientOperands : Expr → Expr
  | binary left op right =>
      if left.isConst && !right.isConst then binary right.orientOperands op.converse left
      else binary left.orientOperands op right.orientOperands
  | e => e

def stripOffsets : Expr → Int32 → Expr × Int32
  | binary inner (.arith .plus) (const c), bound => stripOffsets inner (bound - c)
  | binary inner (.arith .minus) (const c), bound => stripOffsets inner (bound + c)
  | e, bound => (e, bound)

def compareStripped (left : Expr) (op : Operator) (right : Expr) : Expr :=
  match op, right with
  | .logic cmp, const bound =>
      if cmp.isComparison then
        let (base, bound) := left.stripOffsets bound
        binary base op (const bound)
      else binary left op right
  | _, _ => binary left op right

/-- Offsets added to one side of a comparison move into a constant on the other: `(((x+1)-3)>5)`
becomes `(x>7)`. The moved bound wraps like all arithmetic. -/
def isolateOffsets : Expr → Expr
  | binary left op right => compareStripped left.isolateOffsets op right.isolateOffsets
  | e => e

end Expr

/-- The condition `(element op bound)`. -/
structure Comparison where
  op : Logic
  bound : Int32
deriving DecidableEq

inductive Conjunction
  | single (comparison : Comparison)
  | contradiction
  | unmerged
deriving DecidableEq

namespace Comparison

def toExpr (c : Comparison) : Expr := .binary .element (.logic c.op) (.const c.bound)

def exactly (n : Int32) (meets : Bool) : Conjunction :=
  if meets then .single ⟨.eq, n⟩ else .contradiction

/-- The conjunction of two comparisons. Opposite bounds contradict each other when no word lies
strictly between them; the test steps one past the first bound, and that step wraps. -/
def meet : Comparison → Comparison → Conjunction
  | ⟨.eq, m⟩, ⟨.eq, n⟩ => exactly m (m == n)
  | ⟨.eq, m⟩, ⟨.gt, n⟩ => exactly m (n < m)
  | ⟨.eq, m⟩, ⟨.lt, n⟩ => exactly m (m < n)
  | ⟨.gt, m⟩, ⟨.eq, n⟩ => exactly n (m < n)
  | ⟨.lt, m⟩, ⟨.eq, n⟩ => exactly n (n < m)
  | ⟨.gt, m⟩, ⟨.gt, n⟩ => .single ⟨.gt, max m n⟩
  | ⟨.lt, m⟩, ⟨.lt, n⟩ => .single ⟨.lt, min m n⟩
  | ⟨.gt, m⟩, ⟨.lt, n⟩ => if m + 1 < n then .unmerged else .contradiction
  | ⟨.lt, m⟩, ⟨.gt, n⟩ => if n < m - 1 then .unmerged else .contradiction
  | _, _ => .unmerged

end Comparison

namespace Expr

def comparison? : Expr → Option Comparison
  | binary element (.logic op) (const n) => if op.isComparison then some ⟨op, n⟩ else none
  | _ => none

def conjoin (left right : Expr) : Expr :=
  if left.isContradiction || right.isContradiction then contradiction
  else match left.comparison?, right.comparison? with
    | some l, some r =>
        match l.meet r with
        | .single c => c.toExpr
        | .contradiction => contradiction
        | .unmerged => binary left (.logic .and) right
    | _, _ => binary left (.logic .and) right

/-- Combines comparisons joined by `&`. A contradiction absorbs what it is joined with. -/
def mergeComparisons : Expr → Expr
  | binary left (.logic .and) right => conjoin left.mergeComparisons right.mergeComparisons
  | binary left op right => binary left.mergeComparisons op right.mergeComparisons
  | e => e

end Expr
end StageChain
