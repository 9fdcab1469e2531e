import StageChain.Compile

/-! Folding a chain loses nothing. After each stage the pair does to an element what the stages
read so far do one after another, as long as a blank filter is taken for one that keeps all. -/
namespace StageChain

theorem Expr.subst_ne_element {e : Expr} (typed : e.isBoolean) (value : Expr) :
    e.subst value ≠ .element := by
  cases e with
  | element => cases typed
  | const n => cases typed
  | binary left op right =>
      intro h
      cases h

theorem Expr.eval_and_eq_zero_iff (left right : Expr) (x : Int32) :
    (binary left (.logic .and) right).eval x = 0 ↔ left.eval x = 0 ∨ right.eval x = 0 := by
  simp only [eval, Operator.apply, Logic.holds, Bool.and_eq_true, bne_iff_ne]
  by_cases hl : left.eval x = 0
  · simp only [hl, ne_eq, not_true_eq_false, false_and, ↓reduceIte, true_or]
  · by_cases hr : right.eval x = 0
    · simp only [hr, ne_eq, not_true_eq_false, and_false, ↓reduceIte, or_true]
    · simp only [hl, hr, ne_eq, not_false_eq_true, and_self, ↓reduceIte, or_self, iff_false]
      decide

theorem Expr.eval_tautology (x : Int32) : tautology.eval x = 1 := by
  simp only [tautology, eval, Operator.apply, Logic.holds, BEq.rfl, ↓reduceIte]

namespace Pair

theorem hasBlankFilter_iff (p : Pair) : p.hasBlankFilter ↔ p.filter = .element := beq_iff_eq

theorem push_filter_of_blank {p : Pair} (blank : p.hasBlankFilter) (e : Expr) :
    p.push (.filter e) = ⟨e.subst p.map, p.map⟩ := by
  simp only [push, blank, ↓reduceIte]

theorem push_filter_of_not_blank {p : Pair} (h : ¬ p.hasBlankFilter) (e : Expr) :
    p.push (.filter e) = ⟨.binary p.filter (.logic .and) (e.subst p.map), p.map⟩ := by
  simp only [push, h, Bool.false_eq_true, ↓reduceIte]

/-- A pushed filter is an operation, so it is never taken for a blank one. -/
theorem push_filter_not_blank (p : Pair) {e : Expr} (typed : e.isBoolean) :
    ¬ (p.push (.filter e)).hasBlankFilter := by
  rw [hasBlankFilter_iff]
  by_cases blank : p.hasBlankFilter
  · rw [push_filter_of_blank blank]
    exact Expr.subst_ne_element typed p.map
  · rw [push_filter_of_not_blank blank]
    intro h
    cases h

theorem run_materialize_of_blank {p : Pair} (blank : p.hasBlankFilter) (x : Int32) :
    (Pass.materializeTautology.apply p).run x = some (p.map.eval x) := by
  have hone : (1 : Int32) ≠ 0 := by decide
  simp only [Pass.materializeTautology, blank, ↓reduceIte, run, Expr.eval_tautology, hone]

theorem materialize_of_not_blank {p : Pair} (h : ¬ p.hasBlankFilter) :
    Pass.materializeTautology.apply p = p := by
  simp only [Pass.materializeTautology, h, Bool.false_eq_true, ↓reduceIte]

/-- A stage does to the outcome of a pair what it does to a single element. -/
theorem run_push {s : Stage} (typed : s.isWellTyped) (p : Pair) (x : Int32) :
    (Pass.materializeTautology.apply (p.push s)).run x =
      ((Pass.materializeTautology.apply p).run x).bind s.run := by
  cases s with
  | map e =>
      by_cases blank : p.hasBlankFilter
      · have blank' : (p.push (.map e)).hasBlankFilter := blank
        rw [run_materialize_of_blank blank', run_materialize_of_blank blank]
        simp only [push, Expr.eval_subst, Option.bind_some, Stage.run]
      · have blank' : ¬ (p.push (.map e)).hasBlankFilter := blank
        rw [materialize_of_not_blank blank', materialize_of_not_blank blank]
        simp only [run, push, Expr.eval_subst]
        split
        · rfl
        · rfl
  | filter e =>
      rw [materialize_of_not_blank (push_filter_not_blank p typed)]
      by_cases blank : p.hasBlankFilter
      · rw [push_filter_of_blank blank, run_materialize_of_blank blank]
        simp only [run, Expr.eval_subst, Option.bind_some, Stage.run]
      · rw [push_filter_of_not_blank blank, materialize_of_not_blank blank]
        simp only [run, Expr.eval_and_eq_zero_iff, Expr.eval_subst]
        by_cases hp : p.filter.eval x = 0
        · simp only [hp, true_or, ↓reduceIte, Option.bind_none]
        · simp only [hp, false_or, ↓reduceIte, Option.bind_some, Stage.run]

theorem run_pushChain {chain : Chain} (typed : ∀ s ∈ chain.stages, s.isWellTyped) (p : Pair)
    (x : Int32) :
    (Pass.materializeTautology.apply (p.pushChain chain)).run x =
      ((Pass.materializeTautology.apply p).run x).bind chain.run := by
  induction chain generalizing p with
  | single s => exact run_push (typed s (List.mem_singleton_self s)) p x
  | link s rest ih =>
      have head := run_push (typed s List.mem_cons_self) p x
      have tail := ih (fun t ht => typed t (List.mem_cons_of_mem s ht)) (p.push s)
      calc (Pass.materializeTautology.apply ((p.push s).pushChain rest)).run x
          = ((Pass.materializeTautology.apply (p.push s)).run x).bind rest.run := tail
        _ = (((Pass.materializeTautology.apply p).run x).bind s.run).bind rest.run := by rw [head]
        _ = ((Pass.materializeTautology.apply p).run x).bind (Chain.link s rest).run := by
          rw [Option.bind_assoc]
          rfl

/-- A folded chain with its blank filter made explicit does what its stages do. -/
theorem run_materialize_ofChain {chain : Chain} (typed : ∀ s ∈ chain.stages, s.isWellTyped)
    (x : Int32) : (Pass.materializeTautology.apply (ofChain chain)).run x = chain.run x := by
  rw [ofChain, run_pushChain typed, run_materialize_of_blank rfl]
  rfl

/-- Without simplification nothing is lost, on any element. -/
theorem run_foldOnly {chain : Chain} (typed : ∀ s ∈ chain.stages, s.isWellTyped) (x : Int32) :
    (Pass.runAll Pass.foldOnly (ofChain chain)).run x = chain.run x :=
  run_materialize_ofChain typed x

/-- The first map wraps around, and the filter behind it sees the wrapped value. -/
theorem run_foldOnly_wrapped :
    (Pass.runAll Pass.foldOnly (ofChain
      (.link (.map (.binary .element (.arith .times) (.const 3)))
        (.link (.filter (.binary .element (.logic .gt) (.const 5)))
          (.link (.map (.binary .element (.arith .minus) (.const 1)))
            (.single (.filter (.binary (.const 100) (.logic .gt) .element)))))))).run 1431655768 =
      some 7 :=
  (run_foldOnly (by decide) 1431655768).trans (by decide)

end Pair
end StageChain
