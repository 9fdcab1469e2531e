import StageChain.Proofs.Acceptance
import StageChain.Proofs.Kinds

/-! The blank filter says exactly that no filter was folded in yet. Up to that point, and through
all passes, a filter is blank or a truth value, and a map is a number. Once the blank is filled in,
it does not come back. -/
namespace StageChain
namespace Pair

variable {p : Pair}

theorem push_filter_eq_element_iff {s : Stage} (typed : s.isWellTyped) :
    (p.push s).filter = .element ↔ p.filter = .element ∧ ¬ s.isFilter := by
  cases s with
  | map e => exact ⟨fun blank => ⟨blank, Bool.false_ne_true⟩, fun blank => blank.1⟩
  | filter e =>
      constructor
      · intro blank
        exact absurd ((hasBlankFilter_iff _).mpr blank) (push_filter_not_blank p typed)
      · intro blank
        exact absurd rfl blank.2

theorem foldl_push_filter_eq_element_iff {stages : List Stage}
    (typed : ∀ s ∈ stages, s.isWellTyped) :
    (stages.foldl push p).filter = .element ↔
      p.filter = .element ∧ ∀ s ∈ stages, ¬ s.isFilter := by
  induction stages generalizing p with
  | nil => exact ⟨fun blank => ⟨blank, fun _ mem => absurd mem List.not_mem_nil⟩, And.left⟩
  | cons s rest ih =>
      obtain ⟨first, others⟩ := List.forall_mem_cons.mp typed
      rw [List.foldl_cons, ih others, push_filter_eq_element_iff first, List.forall_mem_cons,
        and_assoc]

theorem hasKinds_identity : identity.HasKinds := ⟨.inl rfl, rfl⟩

theorem IsWellTyped.hasKinds (h : p.IsWellTyped) : p.HasKinds := ⟨.inr h.filter, h.map⟩

/-- A blank filter is filled in by one pass, and the others leave it alone. -/
theorem hasKinds_apply_of_blank {map : Expr} (number : map.isArithmetic) :
    ∀ pass ∈ Pass.defaults, (pass.apply ⟨.element, map⟩).HasKinds := by
  simp only [Pass.defaults, List.forall_mem_cons, List.not_mem_nil, false_implies, implies_true,
    and_true]
  have blank : HasKinds ⟨.element, map⟩ := ⟨.inl rfl, number⟩
  refine ⟨?_, ?_, ?_, ?_, ?_, ?_⟩
  · exact (isWellTyped_materialize blank).hasKinds
  · exact ⟨.inl rfl, (Expr.keepsKind_foldConstants map).arithmetic number⟩
  · exact blank
  · exact blank
  · exact blank
  · exact blank

theorem HasKinds.apply (h : p.HasKinds) : ∀ pass ∈ Pass.defaults, (pass.apply p).HasKinds := by
  obtain ⟨filter, map⟩ := p
  obtain ⟨rfl | truth, number⟩ := h
  · exact hasKinds_apply_of_blank number
  · intro pass builtin
    exact (IsWellTyped.apply ⟨truth, number⟩ pass builtin).hasKinds

theorem HasKinds.runAll (h : p.HasKinds) {passes : List Pass}
    (builtin : ∀ pass ∈ passes, pass ∈ Pass.defaults) : (Pass.runAll passes p).HasKinds :=
  Pass.runAll_induction (fun _ kinds => kinds.apply) builtin h

theorem HasKinds.runAll_materialize (h : p.HasKinds) {before after : List Pass}
    (first : ∀ pass ∈ before, pass ∈ Pass.defaults)
    (last : ∀ pass ∈ after, pass ∈ Pass.defaults) :
    (Pass.runAll (before ++ Pass.materializeTautology :: after) p).IsWellTyped := by
  have reached : (Pass.runAll before p).HasKinds := h.runAll first
  have filled := isWellTyped_materialize reached
  rw [Pass.runAll, List.foldl_append]
  exact filled.runAll last

end Pair

theorem isWellTyped_of_compile? {o : Options} {source : String} {p : Pair}
    (h : compile? o source = .ok p) : p.IsWellTyped := by
  obtain ⟨chain, read, rfl⟩ := parse_of_compile? h
  exact Chain.isWellTyped_canonical (Chain.typed_of_parse read) o

namespace Pair

/-- After any number of stages the map is a number, and the filter is blank if no filter was among
them and a truth value otherwise. From there no sequence of passes leaves these kinds, and from the
filling in of the blank on the filter is a truth value. So is every filter that was compiled. -/
theorem kinds_preserved {stages : List Stage} (typed : ∀ s ∈ stages, s.isWellTyped) (n : Nat) :
    let done := stages.take n
    let p := done.foldl push identity
    p.map.isArithmetic ∧
      (p.filter = .element ↔ ∀ s ∈ done, ¬ s.isFilter) ∧
      ((∃ s ∈ done, s.isFilter) → p.filter.isBoolean) ∧
      (∀ passes : List Pass, (∀ pass ∈ passes, pass ∈ Pass.defaults) →
        let q := Pass.runAll passes p
        q.map.isArithmetic ∧ (q.filter.isBoolean ∨ q.filter = .element)) ∧
      (∀ before after : List Pass, (∀ pass ∈ before, pass ∈ Pass.defaults) →
        (∀ pass ∈ after, pass ∈ Pass.defaults) →
        let q := Pass.runAll (before ++ Pass.materializeTautology :: after) p
        q.map.isArithmetic ∧ q.filter.isBoolean) ∧
      ∀ (o : Options) (source : String) (q : Pair), compile? o source = .ok q →
        q.filter.isBoolean ∧ q.map.isArithmetic := by
  intro done p
  have typedDone : ∀ s ∈ done, s.isWellTyped := fun s mem => typed s (List.mem_of_mem_take mem)
  have kinds : p.HasKinds := hasKinds_identity.foldl_push typedDone
  have blank : p.filter = .element ↔ ∀ s ∈ done, ¬ s.isFilter :=
    (foldl_push_filter_eq_element_iff typedDone).trans (and_iff_right rfl)
  refine ⟨kinds.map, blank, ?_, ?_, ?_, ?_⟩
  · rintro ⟨s, mem, filter⟩
    exact kinds.filter.resolve_left fun empty => blank.mp empty s mem filter
  · intro passes builtin
    have reached := kinds.runAll builtin
    exact ⟨reached.map, reached.filter.symm⟩
  · intro before after first last
    have reached := kinds.runAll_materialize first last
    exact ⟨reached.map, reached.filter⟩
  · intro o source q compiled
    have reached := isWellTyped_of_compile? compiled
    exact ⟨reached.filter, reached.map⟩

/-- The filter is blank behind the first stage, stays blank where other passes run, and is filled
in afterwards. Behind the second stage it is a conjunction of a comparison with a disjunction. -/
theorem kinds_preserved_two_filters :
    let stages : List Stage := [.map (.binary (.const 3) (.arith .minus) .element),
      .filter (.binary .element (.logic .gt) (.const 0)),
      .filter (.binary .element (.logic .or) (.const 1))]
    (∀ s ∈ stages, s.isWellTyped) ∧
      ((stages.take 1).foldl push identity).filter = .element ∧
      ((stages.take 3).foldl push identity).filter.isBoolean ∧
      (Pass.runAll [.isolateOffsets, .materializeTautology, .normalizeOperands, .isolateOffsets]
        ((stages.take 1).foldl push identity)).filter.isBoolean := by
  intro stages
  have typed : ∀ s ∈ stages, s.isWellTyped := by decide
  have ⟨_, blank, _, _, filled, _⟩ := kinds_preserved typed 1
  have ⟨_, _, truth, _⟩ := kinds_preserved typed 3
  refine ⟨typed, blank.mpr (by decide), truth (by decide), ?_⟩
  refine (filled [.isolateOffsets] [.normalizeOperands, .isolateOffsets] ?_ ?_).2
  · simp only [Pass.defaults, List.mem_cons, List.not_mem_nil, or_false, forall_eq, true_or, or_true]
  · simp only [Pass.defaults, List.mem_cons, List.not_mem_nil, or_false, forall_eq_or_imp, forall_eq,
      true_or, or_true, and_self]

end Pair
end StageChain
