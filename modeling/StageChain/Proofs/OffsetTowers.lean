import StageChain.Proofs.Kinds
import StageChain.Proofs.WrappingOffsets

/-! Offsets on top of one another. Compared with a constant, they come off all at once: the bound
loses their sum, which wraps only there. So their order does not matter, and an equation between
numbers keeps its truth value whatever wraps on the way. -/
namespace StageChain.Expr

/-- One constant added or subtracted. -/
inductive Offset
  | plus (c : Int32)
  | minus (c : Int32)
deriving DecidableEq

namespace Offset

def shift (e : Expr) : Offset → Expr
  | plus c => binary e (.arith .plus) (const c)
  | minus c => binary e (.arith .minus) (const c)

/-- The exact number that an offset adds. -/
def amount : Offset → Int
  | plus c => c.toInt
  | minus c => -c.toInt

/-- The exact sum of the offsets. -/
def total : List Offset → Int
  | [] => 0
  | o :: offsets => o.amount + total offsets

theorem total_perm {offsets offsets' : List Offset} (h : offsets.Perm offsets') :
    total offsets = total offsets' := by
  induction h with
  | nil => rfl
  | cons o _ ih => rw [total, total, ih]
  | swap o o' rest =>
      simp only [total]
      omega
  | trans _ _ first second => exact first.trans second

theorem splitOffset?_shift (e : Expr) (o : Offset) :
    (shift e o).splitOffset? = some (e, o.amount) := by
  cases o with
  | plus c => rfl
  | minus c => rfl

theorem isolateOffsets_shift (e : Expr) (o : Offset) :
    (shift e o).isolateOffsets = shift e.isolateOffsets o := by
  cases o with
  | plus c => rfl
  | minus c => rfl

theorem isArithmetic_shift {e : Expr} (number : e.isArithmetic) (o : Offset) :
    (shift e o).isArithmetic := by
  cases o with
  | plus c => exact isArithmetic_binary.mpr ⟨number, rfl⟩
  | minus c => exact isArithmetic_binary.mpr ⟨number, rfl⟩

end Offset

/-- An expression with offsets put on it, the first one innermost. -/
def tower (base : Expr) (offsets : List Offset) : Expr := offsets.foldl Offset.shift base

theorem withoutOffsets_tower (base : Expr) (offsets : List Offset) :
    (base.tower offsets).withoutOffsets = base.withoutOffsets := by
  induction offsets generalizing base with
  | nil => rfl
  | cons o offsets ih =>
      exact (ih _).trans (withoutOffsets_of_split (Offset.splitOffset?_shift base o))

theorem totalOffset_tower (base : Expr) (offsets : List Offset) :
    (base.tower offsets).totalOffset = base.totalOffset + Int32.ofInt (Offset.total offsets) := by
  induction offsets generalizing base with
  | nil => exact (Int32.add_zero _).symm
  | cons o offsets ih =>
      have inner := totalOffset_of_split (Offset.splitOffset?_shift base o)
      have outer : ((Offset.shift base o).tower offsets).totalOffset = _ := ih _
      rw [inner, Int32.add_assoc, ← Int32.ofInt_add] at outer
      exact outer

theorem isolateOffsets_tower (base : Expr) (offsets : List Offset) :
    (base.tower offsets).isolateOffsets = base.isolateOffsets.tower offsets := by
  induction offsets generalizing base with
  | nil => rfl
  | cons o offsets ih =>
      have inner : ((Offset.shift base o).tower offsets).isolateOffsets = _ := ih _
      rw [Offset.isolateOffsets_shift] at inner
      exact inner

theorem isArithmetic_tower {base : Expr} (number : base.isArithmetic) (offsets : List Offset) :
    (base.tower offsets).isArithmetic := by
  induction offsets generalizing base with
  | nil => exact number
  | cons o offsets ih => exact ih (Offset.isArithmetic_shift number o)

/-- Numbers hold no comparisons, and so none that wraps apart. -/
theorem avoids_wrapsApart_of_isArithmetic {e : Expr} (number : e.isArithmetic) (x : Int32) :
    e.avoids (Shape.wrapsApart x) := by
  induction e with
  | element => rfl
  | const n => rfl
  | binary left op right hl hr =>
      cases op with
      | logic op => cases number
      | arith op =>
          obtain ⟨first, second⟩ := isArithmetic_binary.mp number
          exact avoids_binary.mpr ⟨rfl, hl first, hr second⟩

variable {base : Expr} {cmp : Logic}

theorem isolateOffsets_tower_comparison (whole : base.isOffset = false)
    (comparison : cmp.isComparison) (offsets : List Offset) (bound : Int32) :
    (binary (base.tower offsets) (.logic cmp) (const bound)).isolateOffsets =
      binary base.isolateOffsets (.logic cmp)
        (const (Int32.ofInt (bound.toInt - Offset.total offsets))) := by
  have split : base.isolateOffsets.splitOffset? = none := by
    rw [← Option.isNone_iff_eq_none, ← Option.isSome_eq_false_iff, ← isOffset_eq_isSome,
      isOffset_isolateOffsets, whole]
  have moved : bound - (0 + Int32.ofInt (Offset.total offsets)) =
      Int32.ofInt (bound.toInt - Offset.total offsets) := by
    rw [Int32.zero_add, Int32.ofInt_sub, Int32.ofInt_toInt]
  calc (binary (base.tower offsets) (.logic cmp) (const bound)).isolateOffsets
      = compareStripped (base.tower offsets).isolateOffsets (.logic cmp) (const bound) := rfl
    _ = compareStripped (base.isolateOffsets.tower offsets) (.logic cmp) (const bound) := by
        rw [isolateOffsets_tower]
    _ = _ := by
        rw [compareStripped_comparison comparison, withoutOffsets_tower, totalOffset_tower,
          withoutOffsets_of_whole split, totalOffset_of_whole split, moved]

/-- A tower of offsets over something that is none collapses. Isolation leaves the base, with the
bound less the sum of the offsets, in whatever order they stand. An equation between numbers keeps
its value at every element. -/
theorem isolateOffsets_collapses (whole : base.isOffset = false) (comparison : cmp.isComparison)
    (offsets : List Offset) (bound : Int32) :
    let compared := fun offsets => binary (base.tower offsets) (.logic cmp) (const bound)
    (compared offsets).isolateOffsets = binary base.isolateOffsets (.logic cmp)
        (const (Int32.ofInt (bound.toInt - Offset.total offsets))) ∧
      (∀ reordered : List Offset, reordered.Perm offsets →
        (compared reordered).isolateOffsets = (compared offsets).isolateOffsets) ∧
      (cmp = .eq → base.isArithmetic → ∀ x,
        (compared offsets).isolateOffsets.eval x = (compared offsets).eval x) := by
  intro compared
  have collapsed : ∀ offsets, (compared offsets).isolateOffsets = _ := fun offsets =>
    isolateOffsets_tower_comparison whole comparison offsets bound
  refine ⟨collapsed offsets, ?_, ?_⟩
  · intro reordered same
    rw [collapsed, collapsed, Offset.total_perm same]
  · rintro rfl number x
    have sides := avoids_wrapsApart_of_isArithmetic (isArithmetic_tower number offsets) x
    have together : (compared offsets).avoids (Shape.wrapsApart x) :=
      avoids_binary.mpr ⟨rfl, sides, rfl⟩
    rw [eval_isolateOffsets_eq_denyApart, denyApart_of_avoids together]

/-- The sum of these three offsets is more than one turn of the words. -/
theorem isolateOffsets_collapses_turning :
    let square := binary element (.arith .times) element
    let offsets := [Offset.plus Int32.maxValue, .minus Int32.minValue, .plus Int32.maxValue]
    let compared := binary (square.tower offsets) (.logic .eq) (const (-2147483641))
    square.isOffset = false ∧ Logic.eq.isComparison ∧
      compared.isolateOffsets = binary square (.logic .eq) (const 9) ∧
      compared.eval 3 = 1 := by
  intro square offsets compared
  have ⟨collapsed, _, kept⟩ := @isolateOffsets_collapses square .eq rfl rfl offsets (-2147483641)
  have isolated : compared.isolateOffsets = binary square (.logic .eq) (const 9) :=
    collapsed.trans (by decide)
  refine ⟨rfl, rfl, isolated, ?_⟩
  rw [← kept rfl rfl 3, isolated]
  decide

end StageChain.Expr
