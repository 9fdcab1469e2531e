import StageChain.Proofs.BlankFilter

/-! Folding a chain in two parts. The second part can be folded on its own: its map and its filter
then see elements as the first part maps them, and its filter joins the one of the first part. Only
the grouping of the conjunctions differs from what folding in one go gives. -/
namespace StageChain

namespace Chain

/-- The stages of one chain, then those of another. -/
def append : Chain → Chain → Chain
  | single s, second => link s second
  | link s rest, second => link s (rest.append second)

@[simp] theorem stages_append (first second : Chain) :
    (first.append second).stages = first.stages ++ second.stages := by
  induction first with
  | single s => rfl
  | link s rest ih => exact congrArg (s :: ·) ih

theorem ofStages?_append (first second : Chain) :
    ofStages? (first.stages ++ second.stages) = some (first.append second) := by
  rw [← stages_append, ofStages?_stages]

end Chain

theorem Expr.subst_subst (e inner value : Expr) :
    (e.subst inner).subst value = e.subst (inner.subst value) := by
  induction e with
  | element => rfl
  | const n => rfl
  | binary left op right hl hr => simp only [subst, hl, hr]

theorem Operator.logic_apply_bne_zero (op : Logic) (a b : Int32) :
    ((logic op).apply a b != 0) = op.holds a b := by
  rw [apply]
  cases op.holds a b with
  | false => rfl
  | true => rfl

theorem Operator.and_apply_assoc (a b c : Int32) :
    (logic .and).apply ((logic .and).apply a b) c =
      (logic .and).apply a ((logic .and).apply b c) := by
  have same : Logic.and.holds ((logic .and).apply a b) c =
      Logic.and.holds a ((logic .and).apply b c) := by
    simp only [Logic.holds, logic_apply_bne_zero, Bool.and_assoc]
  exact congrArg (fun t : Bool => if t then 1 else 0) same

namespace Pair

variable {p q r : Pair}

/-- Some stages fold to `q` on their own, and to `r` behind `p`. -/
structure Continues (p q r : Pair) : Prop where
  map : r.map = q.map.subst p.map
  blank : r.filter = .element ↔ p.filter = .element ∧ q.filter = .element
  kept : q.filter = .element → r.filter = p.filter
  moved : p.filter = .element → q.filter ≠ .element → r.filter = q.filter.subst p.map
  joined : p.filter ≠ .element → q.filter ≠ .element → ∀ x,
    r.filter.eval x = (Expr.binary p.filter (.logic .and) (q.filter.subst p.map)).eval x

theorem continues_identity (p : Pair) : Continues p identity p where
  map := rfl
  blank := (and_iff_left rfl).symm
  kept _ := rfl
  moved _ full := absurd rfl full
  joined _ full := absurd rfl full

theorem filter_push_of_blank (blank : p.filter = .element) (e : Expr) :
    (p.push (.filter e)).filter = e.subst p.map := by
  rw [push_filter_of_blank ((hasBlankFilter_iff p).mpr blank)]

theorem filter_push_of_full (full : p.filter ≠ .element) (e : Expr) :
    (p.push (.filter e)).filter = .binary p.filter (.logic .and) (e.subst p.map) := by
  rw [push_filter_of_not_blank (mt (hasBlankFilter_iff p).mp full)]

namespace Continues

theorem push_map (h : Continues p q r) (e : Expr) :
    Continues p (q.push (.map e)) (r.push (.map e)) where
  map := by
    simp only [Pair.push, h.map, Expr.subst_subst]
  blank := h.blank
  kept := h.kept
  moved := h.moved
  joined := h.joined

theorem push_filter (h : Continues p q r) {e : Expr} (typed : (Stage.filter e).isWellTyped) :
    Continues p (q.push (.filter e)) (r.push (.filter e)) := by
  have test : e.subst r.map = (e.subst q.map).subst p.map := by rw [h.map, Expr.subst_subst]
  have added : (q.push (.filter e)).filter ≠ .element := by
    intro blank
    exact ((push_filter_eq_element_iff typed).mp blank).2 rfl
  refine ⟨h.map, ?_, fun blank => absurd blank added, ?_, ?_⟩
  · rw [push_filter_eq_element_iff typed, push_filter_eq_element_iff typed, h.blank, and_assoc]
  · intro first _
    by_cases second : q.filter = .element
    · rw [filter_push_of_blank (h.blank.mpr ⟨first, second⟩), filter_push_of_blank second, test]
    · rw [filter_push_of_full (mt h.blank.mp fun both => second both.2), filter_push_of_full second,
        h.moved first second, test, Expr.subst]
  · intro first _ x
    rw [filter_push_of_full (mt h.blank.mp fun both => first both.1), test]
    by_cases second : q.filter = .element
    · rw [filter_push_of_blank second, h.kept second]
    · -- The new test joins the conjunction of all earlier ones here, and those of `q` there.
      rw [filter_push_of_full second]
      simp only [Expr.subst, Expr.eval, h.joined first second x, Operator.and_apply_assoc]

theorem push (h : Continues p q r) {s : Stage} (typed : s.isWellTyped) :
    Continues p (q.push s) (r.push s) := by
  cases s with
  | map e => exact h.push_map e
  | filter e => exact h.push_filter typed

theorem foldl_push (h : Continues p q r) {stages : List Stage}
    (typed : ∀ s ∈ stages, s.isWellTyped) :
    Continues p (stages.foldl Pair.push q) (stages.foldl Pair.push r) := by
  induction stages generalizing q r with
  | nil => exact h
  | cons s rest ih =>
      obtain ⟨first, others⟩ := List.forall_mem_cons.mp typed
      exact ih (h.push first) others

end Continues

variable {first second : Chain}

theorem ofChain_append_eq (first second : Chain) :
    ofChain (first.append second) = (ofChain first).pushChain second := by
  simp only [ofChain, pushChain, Chain.stages_append, List.foldl_append]

theorem continues_append (first : Chain) (typed : ∀ s ∈ second.stages, s.isWellTyped) :
    Continues (ofChain first) (ofChain second) (ofChain (first.append second)) := by
  rw [ofChain_append_eq]
  exact (continues_identity _).foldl_push typed

theorem ofChain_filter_eq_element_iff {chain : Chain} (typed : ∀ s ∈ chain.stages, s.isWellTyped) :
    (ofChain chain).filter = .element ↔ ∀ s ∈ chain.stages, ¬ s.isFilter :=
  (foldl_push_filter_eq_element_iff typed).trans (and_iff_right rfl)

theorem ofChain_filter_ne_element {chain : Chain} (typed : ∀ s ∈ chain.stages, s.isWellTyped)
    (filtered : ∃ s ∈ chain.stages, s.isFilter) : (ofChain chain).filter ≠ .element := by
  obtain ⟨s, mem, filter⟩ := filtered
  intro blank
  exact (ofChain_filter_eq_element_iff typed).mp blank s mem filter

/-- A chain of two parts folds to its second part, folded from what the first part folds to. Its
map is one map after the other. Its filter is that of the only part that has one, seen from the
first element, and has the value of the conjunction of both filters if both parts have one. -/
theorem ofChain_append_parts (typed : ∀ s ∈ first.stages, s.isWellTyped)
    (typed' : ∀ s ∈ second.stages, s.isWellTyped) :
    let p := ofChain first
    let q := ofChain second
    let whole := ofChain (first.append second)
    Chain.ofStages? (first.stages ++ second.stages) = some (first.append second) ∧
      whole = p.pushChain second ∧
      whole.map = q.map.subst p.map ∧
      ((∀ s ∈ second.stages, ¬ s.isFilter) → whole.filter = p.filter) ∧
      ((∀ s ∈ first.stages, ¬ s.isFilter) → (∃ s ∈ second.stages, s.isFilter) →
        whole.filter = q.filter.subst p.map) ∧
      ((∃ s ∈ first.stages, s.isFilter) → (∃ s ∈ second.stages, s.isFilter) → ∀ x,
        whole.filter.eval x =
          (Expr.binary p.filter (.logic .and) (q.filter.subst p.map)).eval x) := by
  intro p q whole
  have continues : Continues p q whole := continues_append first typed'
  refine ⟨Chain.ofStages?_append first second, ofChain_append_eq first second, continues.map,
    ?_, ?_, ?_⟩
  · intro unfiltered
    exact continues.kept ((ofChain_filter_eq_element_iff typed').mpr unfiltered)
  · intro unfiltered filtered
    exact continues.moved ((ofChain_filter_eq_element_iff typed).mpr unfiltered)
      (ofChain_filter_ne_element typed' filtered)
  · intro filtered filtered'
    exact continues.joined (ofChain_filter_ne_element typed filtered)
      (ofChain_filter_ne_element typed' filtered')

/-- Two filters stand in the second part, so the whole groups its three filters in another way. The
first part maps 2147483647 to -2147483648, which the filters of the second part see and keep. They
drop 10, which is mapped to 11. -/
theorem ofChain_append_parts_regrouped :
    let next : Expr := .binary .element (.arith .plus) (.const 1)
    let positive : Expr := .binary .element (.logic .gt) (.const 0)
    let first : Chain := .link (.filter positive) (.single (.map next))
    let second : Chain := .link (.filter (.binary .element (.logic .lt) (.const 5)))
      (.single (.filter (.binary .element (.logic .or) (.const 0))))
    let whole := ofChain (first.append second)
    let small : Expr := .binary next (.logic .lt) (.const 5)
    let nonzero : Expr := .binary next (.logic .or) (.const 0)
    (∀ s ∈ first.stages, s.isWellTyped) ∧ (∀ s ∈ second.stages, s.isWellTyped) ∧
      whole = ⟨.binary (.binary positive (.logic .and) small) (.logic .and) nonzero, next⟩ ∧
      Expr.binary (ofChain first).filter (.logic .and)
          ((ofChain second).filter.subst (ofChain first).map) =
        .binary positive (.logic .and) (.binary small (.logic .and) nonzero) ∧
      whole.filter.eval 2147483647 = 1 ∧ whole.filter.eval 10 = 0 := by
  intro next positive first second whole small nonzero
  have typed : ∀ s ∈ first.stages, s.isWellTyped := by decide
  have typed' : ∀ s ∈ second.stages, s.isWellTyped := by decide
  have ⟨_, _, _, _, _, joined⟩ := ofChain_append_parts typed typed'
  refine ⟨typed, typed', rfl, rfl, ?_, ?_⟩
  · exact (joined (by decide) (by decide) 2147483647).trans (by decide)
  · exact (joined (by decide) (by decide) 10).trans (by decide)

end Pair
end StageChain
