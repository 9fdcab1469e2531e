import StageChain.Proofs.Comparisons
import StageChain.Proofs.Constants
import StageChain.Proofs.Fusion
import StageChain.Proofs.Offsets
import StageChain.Proofs.Operands

/-! Simplifying a folded chain keeps what it does to an element, as long as no difference is
reversed on the way and no order comparison wraps when an offset moves. -/
namespace StageChain.Pair

/-- What a pair does depends on the values of its two expressions only. -/
theorem run_congr {p q : Pair} {x : Int32} (filter : p.filter.eval x = q.filter.eval x)
    (map : p.map.eval x = q.map.eval x) : p.run x = q.run x := by
  rw [run, run, filter, map]

theorem run_propagateFalse (p : Pair) (x : Int32) :
    (Pass.propagateFalse.apply p).run x = p.run x := by
  simp only [Pass.propagateFalse]
  split
  · rename_i h
    simp only [run, Expr.eval_of_isContradiction h x, ↓reduceIte]
  · rfl

theorem run_mergeComparisons (p : Pair) (x : Int32) :
    (Pass.mergeComparisons.apply p).run x = p.run x :=
  run_congr (Expr.eval_mergeComparisons p.filter x) rfl

theorem run_isolateOffsets {p : Pair} {x : Int32}
    (moves : ∀ m ∈ p.filter.offsetMoves, m.op ≠ .eq → m.Exact x) :
    (Pass.isolateOffsets.apply p).run x = p.run x :=
  run_congr (Expr.eval_isolateOffsets moves) rfl

theorem run_normalizeOperands {p : Pair} (ordered : p.filter.avoids Shape.reversedDifference)
    (x : Int32) : (Pass.normalizeOperands.apply p).run x = p.run x :=
  run_congr (Expr.eval_orientOperands_of_avoids ordered x) rfl

theorem run_foldConstants (p : Pair) (x : Int32) :
    (Pass.foldConstants.apply p).run x = p.run x :=
  run_congr (Expr.eval_foldConstants p.filter x) (Expr.eval_foldConstants p.map x)

/-- The pair that isolation starts from. -/
def oriented (p : Pair) : Pair :=
  Pass.runAll [Pass.materializeTautology, Pass.foldConstants, Pass.normalizeOperands] p

theorem simplify_eq (p : Pair) :
    p.simplify = Pass.propagateFalse.apply
      (Pass.mergeComparisons.apply (Pass.isolateOffsets.apply p.oriented)) := rfl

theorem avoids_foldConstants_materialize {p : Pair}
    (ordered : p.filter.foldConstants.avoids Shape.reversedDifference) :
    (Pass.foldConstants.apply (Pass.materializeTautology.apply p)).filter.avoids
      Shape.reversedDifference := by
  by_cases blank : p.hasBlankFilter
  · simp only [Pass.materializeTautology, blank, ↓reduceIte]
    rfl
  · rw [materialize_of_not_blank blank]
    exact ordered

/-- The simplified pair of a chain does what the chain's stages do one after another. -/
theorem run_simplify_ofChain {chain : Chain} (typed : ∀ s ∈ chain.stages, s.isWellTyped)
    {x : Int32}
    (ordered : (ofChain chain).filter.foldConstants.avoids Shape.reversedDifference)
    (moves : ∀ m ∈ (ofChain chain).oriented.filter.offsetMoves, m.op ≠ .eq → m.Exact x) :
    (ofChain chain).simplify.run x = chain.run x := by
  rw [simplify_eq, run_propagateFalse, run_mergeComparisons, run_isolateOffsets moves]
  calc (ofChain chain).oriented.run x
      = (Pass.foldConstants.apply (Pass.materializeTautology.apply (ofChain chain))).run x :=
        run_normalizeOperands (avoids_foldConstants_materialize ordered) x
    _ = (Pass.materializeTautology.apply (ofChain chain)).run x := run_foldConstants _ x
    _ = chain.run x := run_materialize_ofChain typed x

/-- The first filter is turned round before its offset moves, exactly. The second one is an
equation whose left side wraps. -/
theorem run_simplify_ofChain_shifted :
    (ofChain
      (.link (.map (.binary .element (.arith .plus) (.const 3)))
        (.link (.filter (.binary (.const 10) (.logic .lt) .element))
          (.link (.map (.binary .element (.arith .plus) (.const 2147483640)))
            (.single (.filter (.binary .element (.logic .eq) (.const (-2147483640))))))))).simplify.run
      13 = some (-2147483640) := by
  refine (run_simplify_ofChain (by decide) (by decide) ?_).trans (by decide)
  let shifted : Expr := .binary .element (.arith .plus) (.const 3)
  have order : (Expr.binary shifted (.logic .gt) (.const 10)).offsetMoves =
      [⟨.element, (3 : Int32).toInt, .gt, 10⟩] :=
    (Expr.offsetMoves_of_move rfl).trans (congrArg _ (Expr.offsetMoves_of_avoids rfl))
  have equation : (Expr.binary (.binary shifted (.arith .plus) (.const 2147483640)) (.logic .eq)
      (.const (-2147483640))).offsetMoves =
      [⟨shifted, (2147483640 : Int32).toInt, .eq, -2147483640⟩,
        ⟨.element, (3 : Int32).toInt, .eq,
          -2147483640 - Int32.ofInt (2147483640 : Int32).toInt⟩] :=
    (Expr.offsetMoves_of_move rfl).trans (congrArg _
      ((Expr.offsetMoves_of_move rfl).trans (congrArg _ (Expr.offsetMoves_of_avoids rfl))))
  change ∀ m ∈ (Expr.binary (.binary shifted (.logic .gt) (.const 10)) (.logic .and)
    (.binary (.binary shifted (.arith .plus) (.const 2147483640)) (.logic .eq)
      (.const (-2147483640)))).offsetMoves, m.op ≠ .eq → m.Exact 13
  rw [Expr.offsetMoves_of_no_move (by rfl), order, equation]
  decide

end StageChain.Pair
