import StageChain.Compile
import StageChain.Proofs.Fusion
import StageChain.Proofs.NormalForm

/-! Numbers stay numbers and truth values stay truth values, through every rewriting and through
folding. So the canonical pair of a well-typed chain is well-typed itself. -/
namespace StageChain

namespace Expr

/-- The second expression is a number if the first one is, and a truth value if the first one is. -/
structure KeepsKind (e e' : Expr) : Prop where
  arithmetic : e.isArithmetic → e'.isArithmetic
  boolean : e.isBoolean → e'.isBoolean

variable {left right left' right' : Expr}

theorem isArithmetic_binary {op : Arith} : (binary left (.arith op) right).isArithmetic ↔
    left.isArithmetic ∧ right.isArithmetic := by
  simp only [isArithmetic, Bool.and_eq_true]

theorem isBoolean_binary {op : Logic} : (binary left (.logic op) right).isBoolean ↔
    (left.isArithmetic ∧ right.isArithmetic) ∨ (left.isBoolean ∧ right.isBoolean) := by
  simp only [isBoolean, Bool.or_eq_true, Bool.and_eq_true]

namespace KeepsKind

theorem refl (e : Expr) : KeepsKind e e := ⟨id, id⟩

theorem trans {e e' e'' : Expr} (h : KeepsKind e e') (h' : KeepsKind e' e'') : KeepsKind e e'' :=
  ⟨h'.arithmetic ∘ h.arithmetic, h'.boolean ∘ h.boolean⟩

theorem binary (hl : KeepsKind left left') (hr : KeepsKind right right') (op : Operator) :
    KeepsKind (.binary left op right) (.binary left' op right') := by
  constructor
  · intro h
    cases op with
    | arith op =>
        obtain ⟨first, second⟩ := isArithmetic_binary.mp h
        exact isArithmetic_binary.mpr ⟨hl.arithmetic first, hr.arithmetic second⟩
    | logic op => cases h
  · intro h
    cases op with
    | arith op => cases h
    | logic op =>
        apply isBoolean_binary.mpr
        exact (isBoolean_binary.mp h).imp (And.imp hl.arithmetic hr.arithmetic)
          (And.imp hl.boolean hr.boolean)

theorem exchange (left : Expr) (op : Operator) (right : Expr) :
    KeepsKind (.binary left op right) (.binary right op.converse left) := by
  constructor
  · intro h
    cases op with
    | arith op => exact isArithmetic_binary.mpr (isArithmetic_binary.mp h).symm
    | logic op => cases h
  · intro h
    cases op with
    | arith op => cases h
    | logic op => exact isBoolean_binary.mpr ((isBoolean_binary.mp h).imp And.symm And.symm)

end KeepsKind

theorem keepsKind_subst (e : Expr) {value : Expr} (h : value.isArithmetic) :
    KeepsKind e (e.subst value) := by
  induction e with
  | element => exact ⟨fun _ => h, fun blank => absurd blank Bool.false_ne_true⟩
  | const n => exact .refl _
  | binary left op right hl hr => exact .binary hl hr op

theorem keepsKind_combine (left : Expr) (op : Operator) (right : Expr) :
    KeepsKind (binary left op right) (combine left op right) := by
  by_cases h : Shape.constantArithmetic left op right
  · obtain ⟨a, op, b, rfl, rfl, rfl⟩ := Shape.eq_of_constantArithmetic h
    exact ⟨fun _ => rfl, id⟩
  · rw [combine_of_not_constantArithmetic (Bool.not_eq_true _ ▸ h)]
    exact .refl _

theorem keepsKind_foldConstants (e : Expr) : KeepsKind e e.foldConstants := by
  induction e with
  | element => exact .refl _
  | const n => exact .refl _
  | binary left op right hl hr => exact (hl.binary hr op).trans (keepsKind_combine _ op _)

theorem keepsKind_orientOperands (e : Expr) : KeepsKind e e.orientOperands := by
  induction e with
  | element => exact .refl _
  | const n => exact .refl _
  | binary left op right hl hr =>
      by_cases first : Shape.constantFirst left op right
      · rw [orientOperands_swapped first]
        exact ((KeepsKind.refl left).binary hr op).trans (.exchange left op _)
      · rw [orientOperands_kept first]
        exact hl.binary hr op

theorem isArithmetic_of_splitOffset? {e base : Expr} {d : Int}
    (h : e.splitOffset? = some (base, d)) (number : e.isArithmetic) : base.isArithmetic := by
  obtain ⟨c, ⟨rfl, _⟩ | ⟨rfl, _⟩⟩ := splitOffset?_cases h
  · exact (isArithmetic_binary.mp number).1
  · exact (isArithmetic_binary.mp number).1

theorem keepsKind_result {op : Operator} {m : OffsetMove}
    (h : offsetMove? left op right = some m) : KeepsKind (binary left op right) m.result := by
  obtain ⟨_, rfl, rfl, split⟩ := offsetMove?_cases h
  constructor
  · intro number
    cases number
  · intro truth
    apply isBoolean_binary.mpr
    obtain ⟨number, _⟩ | ⟨_, const⟩ := isBoolean_binary.mp truth
    · exact .inl ⟨isArithmetic_of_splitOffset? split number, rfl⟩
    · cases const

theorem keepsKind_isolateOffsets (e : Expr) : KeepsKind e e.isolateOffsets := by
  induction e using moveInduction with
  | element => exact .refl _
  | const n => exact .refl _
  | move left op right m h ih =>
      rw [isolateOffsets_of_move h]
      exact (keepsKind_result h).trans ih
  | stay left op right h hl hr =>
      rw [isolateOffsets_of_no_move h]
      exact hl.binary hr op

theorem keepsKind_conjoin (left right : Expr) :
    KeepsKind (binary left (.logic .and) right) (conjoin left right) := by
  have conjoined := conjoined_conjoin left right
  generalize conjoin left right = e at conjoined
  refine ⟨fun number => absurd number Bool.false_ne_true, ?_⟩
  intro truth
  cases conjoined with
  | kept _ => exact truth
  | absorbed _ => rfl
  | merged _ _ _ => rfl
  | opposed _ _ _ => rfl

theorem keepsKind_mergeComparisons (e : Expr) : KeepsKind e e.mergeComparisons := by
  induction e with
  | element => exact .refl _
  | const n => exact .refl _
  | binary left op right hl hr =>
      by_cases h : op = .logic .and
      · subst h
        exact (hl.binary hr _).trans (keepsKind_conjoin _ _)
      · rw [mergeComparisons_of_ne_and h]
        exact hl.binary hr op

end Expr

/-- What every built-in pass preserves holds after any sequence of them. -/
theorem Pass.runAll_induction {motive : Pair → Prop}
    (step : ∀ p, motive p → ∀ pass ∈ defaults, motive (pass.apply p)) {passes : List Pass}
    (builtin : ∀ pass ∈ passes, pass ∈ defaults) {p : Pair} (start : motive p) :
    motive (runAll passes p) := by
  induction passes generalizing p with
  | nil => exact start
  | cons pass rest ih =>
      obtain ⟨first, others⟩ := List.forall_mem_cons.mp builtin
      exact ih others (step p start pass first)

namespace Pair

variable {p : Pair}

/-- A filter that is a truth value and a map that is a number. -/
structure IsWellTyped (p : Pair) : Prop where
  filter : p.filter.isBoolean
  map : p.map.isArithmetic

/-- A pair while its chain is being folded: the filter may still be blank. -/
structure HasKinds (p : Pair) : Prop where
  filter : p.filter = .element ∨ p.filter.isBoolean
  map : p.map.isArithmetic

theorem HasKinds.push (h : p.HasKinds) {s : Stage} (typed : s.isWellTyped) :
    (p.push s).HasKinds := by
  cases s with
  | map e => exact ⟨h.filter, (Expr.keepsKind_subst e h.map).arithmetic typed⟩
  | filter e =>
      have test : (e.subst p.map).isBoolean := (Expr.keepsKind_subst e h.map).boolean typed
      by_cases blank : p.hasBlankFilter
      · rw [push_filter_of_blank blank]
        exact ⟨.inr test, h.map⟩
      · rw [push_filter_of_not_blank blank]
        have filter : p.filter.isBoolean :=
          h.filter.resolve_left (mt (hasBlankFilter_iff p).mpr blank)
        exact ⟨.inr (Expr.isBoolean_binary.mpr (.inr ⟨filter, test⟩)), h.map⟩

theorem HasKinds.foldl_push (h : p.HasKinds) {stages : List Stage}
    (typed : ∀ s ∈ stages, s.isWellTyped) : (stages.foldl Pair.push p).HasKinds := by
  induction stages generalizing p with
  | nil => exact h
  | cons s rest ih =>
      obtain ⟨first, others⟩ := List.forall_mem_cons.mp typed
      exact ih (h.push first) others

theorem hasKinds_ofChain {chain : Chain} (typed : ∀ s ∈ chain.stages, s.isWellTyped) :
    (ofChain chain).HasKinds :=
  HasKinds.foldl_push ⟨.inl rfl, rfl⟩ typed

theorem isWellTyped_materialize (h : p.HasKinds) :
    (Pass.materializeTautology.apply p).IsWellTyped := by
  by_cases blank : p.hasBlankFilter
  · simp only [Pass.materializeTautology, blank, ↓reduceIte]
    exact ⟨rfl, h.map⟩
  · rw [materialize_of_not_blank blank]
    exact ⟨h.filter.resolve_left (mt (hasBlankFilter_iff p).mpr blank), h.map⟩

theorem not_blank_of_isWellTyped (h : p.IsWellTyped) : ¬ p.hasBlankFilter := by
  rw [hasBlankFilter_iff]
  intro blank
  have filter := h.filter
  rw [blank] at filter
  cases filter

theorem IsWellTyped.apply (h : p.IsWellTyped) :
    ∀ pass ∈ Pass.defaults, (pass.apply p).IsWellTyped := by
  simp only [Pass.defaults, List.forall_mem_cons, List.not_mem_nil, false_implies, implies_true,
    and_true]
  refine ⟨?_, ?_, ?_, ?_, ?_, ?_⟩
  · exact isWellTyped_materialize ⟨.inr h.filter, h.map⟩
  · exact ⟨(Expr.keepsKind_foldConstants _).boolean h.filter,
      (Expr.keepsKind_foldConstants _).arithmetic h.map⟩
  · exact ⟨(Expr.keepsKind_orientOperands _).boolean h.filter, h.map⟩
  · exact ⟨(Expr.keepsKind_isolateOffsets _).boolean h.filter, h.map⟩
  · exact ⟨(Expr.keepsKind_mergeComparisons _).boolean h.filter, h.map⟩
  · simp only [Pass.propagateFalse]
    split
    · exact ⟨h.filter, rfl⟩
    · exact h

theorem IsWellTyped.runAll (h : p.IsWellTyped) {passes : List Pass}
    (builtin : ∀ pass ∈ passes, pass ∈ Pass.defaults) : (Pass.runAll passes p).IsWellTyped :=
  Pass.runAll_induction (fun _ typed => typed.apply) builtin h

end Pair

theorem Options.passes_of_simplify {o : Options} (h : o.simplify = true) :
    o.passes = Pass.defaults :=
  if_pos h

theorem Options.passes_of_not_simplify {o : Options} (h : o.simplify = false) :
    o.passes = Pass.foldOnly :=
  if_neg (ne_true_of_eq_false h)

namespace Chain

theorem canonical_of_simplify {o : Options} (h : o.simplify = true) (chain : Chain) :
    chain.canonical o = (Pair.ofChain chain).simplify := by
  rw [canonical, Options.passes_of_simplify h, Pair.simplify]

theorem canonical_of_not_simplify {o : Options} (h : o.simplify = false) (chain : Chain) :
    chain.canonical o = Pass.materializeTautology.apply (Pair.ofChain chain) := by
  rw [canonical, Options.passes_of_not_simplify h]
  rfl

theorem isWellTyped_canonical {chain : Chain} (typed : ∀ s ∈ chain.stages, s.isWellTyped)
    (o : Options) : (chain.canonical o).IsWellTyped := by
  have start := Pair.isWellTyped_materialize (Pair.hasKinds_ofChain typed)
  cases h : o.simplify with
  | false =>
      rw [canonical_of_not_simplify h]
      exact start
  | true =>
      rw [canonical_of_simplify h]
      exact start.runAll fun pass mem => List.mem_cons_of_mem _ mem

end Chain
end StageChain
