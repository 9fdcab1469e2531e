import Mathlib.Algebra.BigOperators.Fin
import StageChain.Proofs.Composition
import StageChain.Proofs.Reprinting

/-! How large a folded chain is. Every map puts what came before it in the place of each `element`,
so occurrences multiply along the maps, and a filter counts as often as the maps before it repeat
the first element. Nesting does not bound this: stages that nest three levels double it each. -/
namespace StageChain

theorem Expr.occurrences_subst (e value : Expr) :
    (e.subst value).occurrences = e.occurrences * value.occurrences := by
  induction e with
  | element => exact (Nat.one_mul _).symm
  | const n => exact (Nat.zero_mul _).symm
  | binary left op right hl hr => rw [subst, occurrences, occurrences, hl, hr, Nat.add_mul]

namespace Stage

/-- The product of the occurrences of `element` over the maps among the stages. -/
def mapProduct (stages : List Stage) : Nat :=
  ((stages.filter fun s => !s.isFilter).map fun s => s.body.occurrences).prod

/-- The sum over the filters among the stages of their occurrences of `element`, each times the
product over the maps before it. -/
def filterSum (stages : List Stage) : Nat :=
  ∑ i : Fin stages.length with (stages.get i).isFilter,
    (stages.get i).body.occurrences * mapProduct (stages.take i)

theorem mapProduct_cons_map (e : Expr) (stages : List Stage) :
    mapProduct (map e :: stages) = e.occurrences * mapProduct stages :=
  List.prod_cons

theorem mapProduct_cons_filter (e : Expr) (stages : List Stage) :
    mapProduct (filter e :: stages) = mapProduct stages := rfl

theorem filterSum_cons_map (e : Expr) (stages : List Stage) :
    filterSum (map e :: stages) = e.occurrences * filterSum stages := by
  simp only [filterSum, Finset.sum_filter, Finset.mul_sum]
  refine (Fin.sum_univ_succ _).trans ((Nat.zero_add _).trans (Finset.sum_congr rfl fun i _ => ?_))
  change (if (stages.get i).isFilter then
      (stages.get i).body.occurrences * mapProduct (map e :: stages.take i) else 0) = _
  rw [mapProduct_cons_map, Nat.mul_left_comm, mul_ite, Nat.mul_zero]

theorem filterSum_cons_filter (e : Expr) (stages : List Stage) :
    filterSum (filter e :: stages) = e.occurrences + filterSum stages := by
  simp only [filterSum, Finset.sum_filter]
  refine (Fin.sum_univ_succ _).trans ?_
  exact congrArg (· + _) (Nat.mul_one e.occurrences)

/-- A map whose element comes twice. -/
def square : Stage := map (.binary .element (.arith .times) .element)

end Stage

namespace Pair

/-- The occurrences of `element` in the filter. A blank filter has none. -/
def filterOccurrences (p : Pair) : Nat := if p.hasBlankFilter then 0 else p.filter.occurrences

theorem filterOccurrences_of_blank {p : Pair} (blank : p.hasBlankFilter) :
    p.filterOccurrences = 0 := if_pos blank

theorem filterOccurrences_of_full {p : Pair} (full : ¬ p.hasBlankFilter) :
    p.filterOccurrences = p.filter.occurrences := if_neg full

theorem filterOccurrences_push_filter (p : Pair) {e : Expr} (typed : (Stage.filter e).isWellTyped) :
    (p.push (.filter e)).filterOccurrences =
      p.filterOccurrences + e.occurrences * p.map.occurrences := by
  rw [filterOccurrences_of_full (push_filter_not_blank p typed)]
  by_cases blank : p.hasBlankFilter
  · rw [push_filter_of_blank blank, filterOccurrences_of_blank blank, Nat.zero_add]
    exact e.occurrences_subst p.map
  · rw [push_filter_of_not_blank blank, filterOccurrences_of_full blank]
    exact congrArg (p.filter.occurrences + ·) (e.occurrences_subst p.map)

theorem occurrences_map_foldl_push (p : Pair) (stages : List Stage) :
    (stages.foldl push p).map.occurrences = Stage.mapProduct stages * p.map.occurrences := by
  induction stages generalizing p with
  | nil => exact (Nat.one_mul _).symm
  | cons s rest ih =>
      rw [List.foldl_cons, ih]
      cases s with
      | map e =>
          rw [push, Expr.occurrences_subst, Stage.mapProduct_cons_map, Nat.mul_left_comm,
            Nat.mul_assoc]
      | filter e => rfl

/-- The induction goes along the stages from any pair. What it has mapped so far multiplies all
that is still to come. -/
theorem filterOccurrences_foldl_push (p : Pair) {stages : List Stage}
    (typed : ∀ s ∈ stages, s.isWellTyped) :
    (stages.foldl push p).filterOccurrences =
      p.filterOccurrences + Stage.filterSum stages * p.map.occurrences := by
  induction stages generalizing p with
  | nil => exact (congrArg (p.filterOccurrences + ·) (Nat.zero_mul _)).symm
  | cons s rest ih =>
      obtain ⟨first, others⟩ := List.forall_mem_cons.mp typed
      rw [List.foldl_cons, ih (p.push s) others]
      cases s with
      | map e =>
          have same : (p.push (.map e)).filterOccurrences = p.filterOccurrences := rfl
          rw [same, push, Expr.occurrences_subst, Stage.filterSum_cons_map, Nat.mul_left_comm,
            Nat.mul_assoc]
      | filter e =>
          have same : (p.push (.filter e)).map = p.map := rfl
          rw [filterOccurrences_push_filter p first, same, Stage.filterSum_cons_filter, Nat.add_mul,
            Nat.add_assoc]

theorem occurrences_filter_ofChain {chain : Chain} (typed : ∀ s ∈ chain.stages, s.isWellTyped)
    (filtered : ∃ s ∈ chain.stages, s.isFilter) :
    (ofChain chain).filter.occurrences = Stage.filterSum chain.stages := by
  have full : ¬ (ofChain chain).hasBlankFilter :=
    mt (hasBlankFilter_iff _).mp (ofChain_filter_ne_element typed filtered)
  calc (ofChain chain).filter.occurrences
      = (ofChain chain).filterOccurrences := (filterOccurrences_of_full full).symm
    _ = identity.filterOccurrences + Stage.filterSum chain.stages * 1 :=
        filterOccurrences_foldl_push identity typed
    _ = Stage.filterSum chain.stages := by
        rw [filterOccurrences_of_blank rfl, Nat.zero_add, Nat.mul_one]

end Pair

namespace Chain

/-- One square and then `n` more. -/
def squares : Nat → Chain
  | 0 => single .square
  | n + 1 => link .square (squares n)

theorem eq_square_of_mem_squares (n : Nat) : ∀ s ∈ (squares n).stages, s = .square := by
  induction n with
  | zero => exact List.forall_mem_singleton.mpr rfl
  | succ n ih => exact List.forall_mem_cons.mpr ⟨rfl, ih⟩

theorem length_squares (n : Nat) : (squares n).length = n + 1 := by
  induction n with
  | zero => rfl
  | succ n ih => exact congrArg (· + 1) ih

theorem printedWeight_squares (n : Nat) : (squares n).printedWeight = 4 * (n + 1) := by
  induction n with
  | zero => rfl
  | succ n ih =>
      rw [squares, printedWeight, ih, Nat.mul_add 4 (n + 1) 1, Nat.add_comm]
      rfl

theorem mapProduct_squares (n : Nat) : Stage.mapProduct (squares n).stages = 2 ^ (n + 1) := by
  induction n with
  | zero => rfl
  | succ n ih =>
      have first : Stage.mapProduct (squares (n + 1)).stages =
          2 * Stage.mapProduct (squares n).stages := Stage.mapProduct_cons_map _ _
      rw [first, ih, ← Nat.pow_succ']

theorem parse_render_squares {n : Nat} (h : n < 512) :
    Chain.parse (String.ofList (squares n).render) = .ok (squares n) := by
  have typed : ∀ s ∈ (squares n).stages, s.isWellTyped := by
    intro s mem
    rw [eq_square_of_mem_squares n s mem]
    rfl
  have shallow : ∀ s ∈ (squares n).stages, s.body.printedNesting ≤ maxNesting := by
    intro s mem
    rw [eq_square_of_mem_squares n s mem]
    decide
  apply parse_render_of_fits typed
  refine ⟨shallow, ?_⟩
  rw [printedWeight_squares, maxWeight]
  omega

end Chain

/-- Folding multiplies. The map of a folded chain has the product of the occurrences of `element`
over its maps, and its filter, if there is one, the sum over its filters of their occurrences times
the product over the maps before. So a chain that nests three levels in each of its stages, and is
accepted from its text, folds to a map with a power of two occurrences, one factor for each stage. -/
theorem Pair.occurrences_ofChain {chain : Chain} (typed : ∀ s ∈ chain.stages, s.isWellTyped) :
    (ofChain chain).map.occurrences = Stage.mapProduct chain.stages ∧
      ((∃ s ∈ chain.stages, s.isFilter) →
        (ofChain chain).filter.occurrences = Stage.filterSum chain.stages) ∧
      ∀ n, ∃ squares : Chain, squares.length = n + 1 ∧
        (∀ s ∈ squares.stages, s.isWellTyped ∧ s.body.printedNesting = 3) ∧
        (n < 512 → Chain.parse (String.ofList squares.render) = .ok squares) ∧
        (ofChain squares).map.occurrences = 2 ^ (n + 1) := by
  have product : ∀ chain, (ofChain chain).map.occurrences = Stage.mapProduct chain.stages :=
    fun chain => (occurrences_map_foldl_push identity chain.stages).trans (Nat.mul_one _)
  refine ⟨product chain, occurrences_filter_ofChain typed, ?_⟩
  intro n
  refine ⟨Chain.squares n, Chain.length_squares n, ?_, Chain.parse_render_squares, ?_⟩
  · intro s mem
    rw [Chain.eq_square_of_mem_squares n s mem]
    exact ⟨rfl, rfl⟩
  · rw [product, Chain.mapProduct_squares]

/-- The two squares repeat the element four times, and the last filter has it twice. -/
theorem Pair.occurrences_ofChain_two_filters :
    let chain : Chain := .link (.filter (.binary .element (.logic .gt) (.const 0)))
      (.link .square (.link .square
        (.single (.filter (.binary .element (.logic .eq) .element)))))
    (∀ s ∈ chain.stages, s.isWellTyped) ∧ (∃ s ∈ chain.stages, s.isFilter) ∧
      (ofChain chain).map.occurrences = 4 ∧ (ofChain chain).filter.occurrences = 1 + 2 * 4 := by
  intro chain
  have typed : ∀ s ∈ chain.stages, s.isWellTyped := by decide
  have filtered : ∃ s ∈ chain.stages, s.isFilter := by decide
  obtain ⟨map, filter, _⟩ := occurrences_ofChain typed
  refine ⟨typed, filtered, map.trans ?_, (filter filtered).trans ?_⟩
  · rfl
  · decide

end StageChain
