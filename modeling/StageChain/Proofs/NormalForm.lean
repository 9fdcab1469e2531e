import StageChain.Proofs.Comparisons
import StageChain.Proofs.Constants
import StageChain.Proofs.Offsets
import StageChain.Proofs.Operands

/-! One run of the passes reaches the pairs that none of them changes. Each pass brings its own
normal form about, and every later one preserves it. -/
namespace StageChain

namespace Expr

theorem isolateOffsets_avoids_constantArithmetic {e : Expr}
    (h : e.avoids Shape.constantArithmetic) :
    e.isolateOffsets.avoids Shape.constantArithmetic :=
  isolateOffsets_avoids Shape.constantArithmetic_congr (fun _ _ _ => rfl) h

theorem isolateOffsets_avoids_constantFirst {e : Expr} (h : e.avoids Shape.constantFirst) :
    e.isolateOffsets.avoids Shape.constantFirst :=
  isolateOffsets_avoids Shape.constantFirst_congr (fun _ _ _ => Bool.and_false _) h

theorem mergeComparisons_avoids_constantArithmetic {e : Expr}
    (h : e.avoids Shape.constantArithmetic) :
    e.mergeComparisons.avoids Shape.constantArithmetic :=
  mergeComparisons_avoids (fun hl _ hr => Shape.constantArithmetic_congr hl hr) (fun _ => rfl) rfl h

theorem mergeComparisons_avoids_constantFirst {e : Expr} (h : e.avoids Shape.constantFirst) :
    e.mergeComparisons.avoids Shape.constantFirst :=
  mergeComparisons_avoids (fun hl _ hr => Shape.constantFirst_congr hl hr) (fun _ => rfl) rfl h

theorem mergeComparisons_avoids_offsetComparison {e : Expr}
    (h : e.avoids Shape.offsetComparison) :
    e.mergeComparisons.avoids Shape.offsetComparison := by
  refine mergeComparisons_avoids (fun _ hl hr => Shape.offsetComparison_congr hl hr) ?_ rfl h
  intro c
  refine avoids_binary.mpr ⟨?_, rfl, rfl⟩
  simp only [Shape.offsetComparison, isOffset, Bool.and_false, Bool.false_and]

/-- A filter that no rewriting changes. -/
structure IsNormalFilter (e : Expr) : Prop where
  ne_element : e ≠ element
  folded : e.avoids Shape.constantArithmetic
  oriented : e.avoids Shape.constantFirst
  isolated : e.avoids Shape.offsetComparison
  merged : e.avoids Shape.mergeable

theorem isNormalFilter_rewritten {e : Expr} (h : e ≠ element) :
    e.foldConstants.orientOperands.isolateOffsets.mergeComparisons.IsNormalFilter where
  ne_element := keepsArithmetic_mergeComparisons.ne_element
    (keepsArithmetic_isolateOffsets.ne_element
      (orientOperands_ne_element (foldConstants_ne_element h)))
  folded := mergeComparisons_avoids_constantArithmetic (isolateOffsets_avoids_constantArithmetic
    (orientOperands_avoids_constantArithmetic (avoids_foldConstants e)))
  oriented := mergeComparisons_avoids_constantFirst (isolateOffsets_avoids_constantFirst
    (avoids_orientOperands _))
  isolated := mergeComparisons_avoids_offsetComparison (avoids_isolateOffsets _)
  merged := avoids_mergeComparisons _

end Expr

namespace Pair

/-- The pairs in normal form. Behind a contradiction nothing is left to map. -/
structure IsNormal (p : Pair) : Prop where
  filter : p.filter.IsNormalFilter
  map_folded : p.map.avoids Shape.constantArithmetic
  unreachable : p.filter.isContradiction → p.map = .element

theorem materialize_ne_element (p : Pair) :
    (Pass.materializeTautology.apply p).filter ≠ .element := by
  simp only [Pass.materializeTautology]
  split
  · intro h
    cases h
  · rename_i blank
    exact fun h => blank (beq_iff_eq.mpr h)

theorem isNormal_propagateFalse {p : Pair} (filter : p.filter.IsNormalFilter)
    (map_folded : p.map.avoids Shape.constantArithmetic) :
    (Pass.propagateFalse.apply p).IsNormal := by
  simp only [Pass.propagateFalse]
  split
  · exact ⟨filter, rfl, fun _ => rfl⟩
  · rename_i reachable
    exact ⟨filter, map_folded, fun h => absurd h reachable⟩

theorem isNormal_simplify (p : Pair) : p.simplify.IsNormal :=
  isNormal_propagateFalse (Expr.isNormalFilter_rewritten (materialize_ne_element p))
    (Expr.avoids_foldConstants _)

theorem IsNormal.apply_eq {p : Pair} (h : p.IsNormal) :
    ∀ pass ∈ Pass.defaults, pass.apply p = p := by
  simp only [Pass.defaults, List.forall_mem_cons, List.not_mem_nil, false_implies, implies_true,
    and_true]
  refine ⟨?_, ?_, ?_, ?_, ?_, ?_⟩
  · have filled : p.hasBlankFilter = false := beq_false_of_ne h.filter.ne_element
    simp only [Pass.materializeTautology, filled, Bool.false_eq_true, ↓reduceIte]
  · simp only [Pass.foldConstants, Expr.foldConstants_of_avoids h.filter.folded,
      Expr.foldConstants_of_avoids h.map_folded]
  · simp only [Pass.normalizeOperands, Expr.orientOperands_of_avoids h.filter.oriented]
  · simp only [Pass.isolateOffsets, Expr.isolateOffsets_of_avoids h.filter.isolated]
  · simp only [Pass.mergeComparisons, Expr.mergeComparisons_of_avoids h.filter.merged]
  · simp only [Pass.propagateFalse]
    split
    · rename_i contradicted
      rw [← h.unreachable contradicted]
    · rfl

theorem runAll_of_apply_eq {p : Pair} {passes : List Pass}
    (h : ∀ pass ∈ passes, pass.apply p = p) : Pass.runAll passes p = p := by
  induction passes with
  | nil => rfl
  | cons pass rest ih =>
      have head := h pass List.mem_cons_self
      have tail := ih fun q hq => h q (List.mem_cons_of_mem pass hq)
      calc Pass.runAll rest (pass.apply p)
          = Pass.runAll rest p := by rw [head]
        _ = p := tail

/-- The normal forms are the pairs that every pass leaves as they are. -/
theorem isNormal_iff (p : Pair) : p.IsNormal ↔ ∀ pass ∈ Pass.defaults, pass.apply p = p := by
  constructor
  · intro h
    exact h.apply_eq
  · intro h
    have fixed : p.simplify = p := runAll_of_apply_eq h
    exact fixed ▸ isNormal_simplify p

/-- One run reaches a normal form, which no further pass changes, in whatever order they come. -/
theorem simplify_normal (p : Pair) :
    p.simplify.IsNormal ∧
      (∀ pass ∈ Pass.defaults, pass.apply p.simplify = p.simplify) ∧
      (∀ passes : List Pass, (∀ pass ∈ passes, pass ∈ Pass.defaults) →
        Pass.runAll passes p.simplify = p.simplify) ∧
      p.simplify.simplify = p.simplify := by
  have normal := isNormal_simplify p
  have fixed := (isNormal_iff p.simplify).mp normal
  refine ⟨normal, fixed, ?_, ?_⟩
  · intro passes builtin
    exact runAll_of_apply_eq fun pass h => fixed pass (builtin pass h)
  · exact runAll_of_apply_eq fixed

end Pair
end StageChain
