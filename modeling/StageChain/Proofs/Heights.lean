import StageChain.Proofs.Acceptance
import StageChain.Proofs.Kinds

/-! Folding stacks the expressions of all stages into one tree. The levels that a parser counts bound
how high it gets: each stage adds at most its own levels, and no pass adds any. -/
namespace StageChain

namespace Expr

variable {left right left' right' : Expr}

theorem height_subst_le (e value : Expr) : (e.subst value).height ≤ e.height + value.height := by
  induction e with
  | element => exact Nat.le_add_left _ _
  | const n => exact Nat.zero_le _
  | binary left op right hl hr =>
      simp only [subst, height]
      omega

theorem height_binary_le (hl : left'.height ≤ left.height) (hr : right'.height ≤ right.height)
    (op op' : Operator) : (binary left' op' right').height ≤ (binary left op right).height := by
  simp only [height]
  omega

theorem height_combine_le (left : Expr) (op : Operator) (right : Expr) :
    (combine left op right).height ≤ (binary left op right).height := by
  unfold combine
  split
  · exact Nat.zero_le _
  · exact Nat.le_refl _

theorem height_foldConstants_le (e : Expr) : e.foldConstants.height ≤ e.height := by
  induction e with
  | element => exact Nat.le_refl _
  | const n => exact Nat.le_refl _
  | binary left op right hl hr =>
      exact Nat.le_trans (height_combine_le _ op _) (height_binary_le hl hr op op)

theorem height_orientOperands_le (e : Expr) : e.orientOperands.height ≤ e.height := by
  induction e with
  | element => exact Nat.le_refl _
  | const n => exact Nat.le_refl _
  | binary left op right hl hr =>
      by_cases first : Shape.constantFirst left op right
      · rw [orientOperands_swapped first]
        simp only [height]
        omega
      · rw [orientOperands_kept first]
        exact height_binary_le hl hr op op

theorem height_isolateOffsets_le (e : Expr) : e.isolateOffsets.height ≤ e.height := by
  induction e using moveInduction with
  | element => exact Nat.le_refl _
  | const n => exact Nat.le_refl _
  | move left op right m h ih =>
      rw [isolateOffsets_of_move h]
      exact Nat.le_trans ih (Nat.le_of_lt (height_result_lt h))
  | stay left op right h hl hr =>
      rw [isolateOffsets_of_no_move h]
      exact height_binary_le hl hr op op

theorem height_conjoin_le (left right : Expr) :
    (conjoin left right).height ≤ (binary left (.logic .and) right).height := by
  have conjoined := conjoined_conjoin left right
  generalize conjoin left right = e at conjoined
  -- whatever the conjunction is replaced by is a single operation
  have single : 1 ≤ (binary left (.logic .and) right).height := Nat.le_add_left 1 _
  cases conjoined with
  | kept _ => exact Nat.le_refl _
  | absorbed _ => exact single
  | merged _ _ _ => exact single
  | opposed _ _ _ => exact single

theorem height_mergeComparisons_le (e : Expr) : e.mergeComparisons.height ≤ e.height := by
  induction e with
  | element => exact Nat.le_refl _
  | const n => exact Nat.le_refl _
  | binary left op right hl hr =>
      by_cases h : op = .logic .and
      · subst h
        exact Nat.le_trans (height_conjoin_le _ _) (height_binary_le hl hr _ _)
      · rw [mergeComparisons_of_ne_and h]
        exact height_binary_le hl hr op op

end Expr

namespace Pair

variable {p : Pair} {m n : Nat}

structure WithinHeight (n : Nat) (p : Pair) : Prop where
  filter : p.filter.height ≤ n
  map : p.map.height ≤ n

theorem WithinHeight.mono (h : p.WithinHeight m) (le : m ≤ n) : p.WithinHeight n :=
  ⟨Nat.le_trans h.filter le, Nat.le_trans h.map le⟩

theorem withinHeight_identity : identity.WithinHeight 0 := ⟨Nat.le_refl 0, Nat.le_refl 0⟩

/-- The conjunction with the filters before is one operation more than a stage has by itself, so a
stage counts for one more than its height. -/
theorem WithinHeight.push (h : p.WithinHeight m) {s : Stage} (low : s.body.height < n) :
    (p.push s).WithinHeight (m + n) := by
  have filter := h.filter
  have map := h.map
  have stacked := Expr.height_subst_le s.body p.map
  cases s with
  | map e =>
      simp only [Stage.body] at low stacked
      constructor
      · exact Nat.le_trans filter (Nat.le_add_right m n)
      · simp only [Pair.push]
        omega
  | filter e =>
      simp only [Stage.body] at low stacked
      by_cases blank : p.hasBlankFilter
      · rw [push_filter_of_blank blank]
        constructor
        · simp only
          omega
        · exact Nat.le_trans map (Nat.le_add_right m n)
      · rw [push_filter_of_not_blank blank]
        constructor
        · simp only [Expr.height]
          omega
        · exact Nat.le_trans map (Nat.le_add_right m n)

theorem WithinHeight.apply (positive : 0 < n) (p : Pair) (h : p.WithinHeight n) :
    ∀ pass ∈ Pass.defaults, (pass.apply p).WithinHeight n := by
  simp only [Pass.defaults, List.forall_mem_cons, List.not_mem_nil, false_implies, implies_true,
    and_true]
  refine ⟨?_, ?_, ?_, ?_, ?_, ?_⟩
  · simp only [Pass.materializeTautology]
    split
    · exact ⟨positive, h.map⟩
    · exact h
  · exact ⟨Nat.le_trans (Expr.height_foldConstants_le _) h.filter,
      Nat.le_trans (Expr.height_foldConstants_le _) h.map⟩
  · exact ⟨Nat.le_trans (Expr.height_orientOperands_le _) h.filter, h.map⟩
  · exact ⟨Nat.le_trans (Expr.height_isolateOffsets_le _) h.filter, h.map⟩
  · exact ⟨Nat.le_trans (Expr.height_mergeComparisons_le _) h.filter, h.map⟩
  · simp only [Pass.propagateFalse]
    split
    · exact ⟨h.filter, Nat.zero_le n⟩
    · exact h

theorem WithinHeight.runAll (h : p.WithinHeight n) (positive : 0 < n) {passes : List Pass}
    (builtin : ∀ pass ∈ passes, pass ∈ Pass.defaults) : (Pass.runAll passes p).WithinHeight n :=
  Pass.runAll_induction (WithinHeight.apply positive) builtin h

end Pair

theorem Options.passes_subset_defaults (o : Options) : ∀ pass ∈ o.passes, pass ∈ Pass.defaults := by
  cases h : o.simplify with
  | true =>
      rw [passes_of_simplify h]
      exact fun _ mem => mem
  | false =>
      rw [passes_of_not_simplify h]
      exact List.forall_mem_singleton.mpr List.mem_cons_self

namespace Grammar

variable {k : Phrase} {ts : List Token} {chain : Chain} {ns : List Nat}

def totalLevels : List Nat → Nat
  | [] => 0
  | n :: ns => n + totalLevels ns

theorem weightOf_eq (ns : List Nat) : weightOf ns = totalLevels ns + ns.length := by
  induction ns with
  | nil => rfl
  | cons n ns ih =>
      simp only [weightOf, totalLevels, List.length_cons, ih]
      omega

/-- An expression is a level by itself, so its tree is lower than it nests. -/
theorem Derives.height_le {e : Expr} {n : Nat} (h : Derives k ts e n) : e.height ≤ n - 1 := by
  induction h with
  | element => exact Nat.zero_le _
  | negative _ => exact Nat.zero_le _
  | number _ => exact Nat.zero_le _
  | paren _ ih => exact ih
  | last _ ih => omega
  | operation _ second hl hr =>
      have positive := second.pos
      simp only [Expr.height]
      omega

theorem DerivesStage.height_lt {s : Stage} {n : Nat} (h : DerivesStage ts s n) :
    s.body.height < n := by
  obtain ⟨body⟩ := h
  have positive := body.pos
  have low := body.height_le
  omega

theorem DerivesChain.length_pos (h : DerivesChain ts chain ns) : 0 < ns.length := by
  cases h with
  | single _ => exact Nat.succ_pos _
  | link _ _ => exact Nat.succ_pos _

theorem DerivesChain.totalLevels_pos (h : DerivesChain ts chain ns) : 0 < totalLevels ns := by
  cases h with
  | single stage => exact Nat.lt_of_le_of_lt (Nat.zero_le _) stage.height_lt
  | link stage _ =>
      exact Nat.lt_add_right _ (Nat.lt_of_le_of_lt (Nat.zero_le _) stage.height_lt)

theorem DerivesChain.withinHeight (h : DerivesChain ts chain ns) {p : Pair} {m : Nat}
    (start : p.WithinHeight m) (done : Nat) :
    ((chain.stages.take done).foldl Pair.push p).WithinHeight (m + totalLevels ns) := by
  induction h generalizing p m done with
  | single stage =>
      cases done with
      | zero => exact start.mono (Nat.le_add_right _ _)
      | succ done =>
          rw [Chain.stages, List.take_succ_cons, List.take_nil]
          exact start.push stage.height_lt
  | link stage _ ih =>
      cases done with
      | zero => exact start.mono (Nat.le_add_right _ _)
      | succ done =>
          rw [Chain.stages, List.take_succ_cons, List.foldl_cons, totalLevels, ← Nat.add_assoc]
          exact ih (start.push stage.height_lt) done

end Grammar

open Grammar

namespace Parser

variable {p q : Parser} {s : Stage}

/-- The levels that a parser counts for the stages of the chain it reads. It adds them to the
weight, each time with one more for the stage itself. -/
def countedLevels (p : Parser) : List Nat :=
  match _h : p.stage with
  | (.error _, _) => []
  | (.ok _, q) =>
      (q.weight - p.weight - 1) ::
        match q.rest with
        | .pipe :: rest => countedLevels { q with rest }
        | _ => []
termination_by maxWeight - p.weight
decreasing_by
  have := weight_of_stage _h
  omega

theorem countedLevels_of_last (h : p.stage = (.ok s, q)) (last : q.rest = []) :
    p.countedLevels = [q.weight - p.weight - 1] := by
  rw [countedLevels]
  split
  · rename_i failed
    cases h.symm.trans failed
  · rename_i found
    cases h.symm.trans found
    simp only [last]

theorem countedLevels_of_pipe {rest : List Token} {d w : Nat}
    (h : p.stage = (.ok s, ⟨.pipe :: rest, d, w⟩)) :
    p.countedLevels = (w - p.weight - 1) :: countedLevels ⟨rest, d, w⟩ := by
  rw [countedLevels]
  split
  · rename_i failed
    cases h.symm.trans failed
  · rename_i found
    cases h.symm.trans found
    rfl

theorem weight_behind_singleton (p : Parser) (n : Nat) (rest : List Token) :
    (p.behind [n] rest).weight - p.weight - 1 = p.depth + n := by
  simp only [behind, List.map_cons, List.map_nil, weightOf]
  omega

/-- What is counted are the levels of the grammar, on top of those that were left open before. -/
theorem countedLevels_of_derives {ts : List Token} {chain : Chain} {ns : List Nat}
    (h : DerivesChain ts chain ns) {p : Parser} (tokens : p.rest = ts) (room : p.HasRoom ns)
    (typed : ∀ s ∈ chain.stages, s.isWellTyped) : p.countedLevels = ns.map (p.depth + ·) := by
  induction h generalizing p with
  | @single ts s n stage =>
      have taken : p.TakesStage s (p.behind [n] []) :=
        ⟨ts, n, tokens.trans (List.append_nil ts).symm, stage, room, rfl⟩
      have read := stage_of_takesStage taken
      rw [Stage.checked_of_isWellTyped (typed s List.mem_cons_self)] at read
      rw [countedLevels_of_last read rfl, weight_behind_singleton]
      rfl
  | @link ts rest s chain n ns stage _ ih =>
      obtain ⟨first, others⟩ := (hasRoom_cons rest).mp room
      obtain ⟨typedFirst, typedOthers⟩ := List.forall_mem_cons.mp typed
      have taken : p.TakesStage s (p.behind [n] (.pipe :: rest)) :=
        ⟨ts, n, tokens, stage, first, rfl⟩
      have read := stage_of_takesStage taken
      rw [Stage.checked_of_isWellTyped typedFirst] at read
      have counted : (p.behind [n] rest).countedLevels = ns.map (p.depth + ·) :=
        ih rfl others typedOthers
      have weight := p.weight_behind_singleton n (.pipe :: rest)
      rw [countedLevels_of_pipe read, List.map_cons]
      exact List.cons_eq_cons.mpr ⟨weight, counted⟩

end Parser

namespace Chain

theorem countedLevels_of_accepts {ts : List Token} {chain : Chain} (h : Accepts ts chain) :
    DerivesChain ts chain (Parser.ofTokens ts).countedLevels ∧
      WithinLimits (Parser.ofTokens ts).countedLevels := by
  obtain ⟨ns, derived, limits, typed⟩ := h
  have counted := Parser.countedLevels_of_derives derived (p := Parser.ofTokens ts) rfl
    (hasRoom_ofTokens.mpr limits) typed
  have fresh : ns.map ((Parser.ofTokens ts).depth + ·) = ns := by
    simp only [Parser.ofTokens, Nat.zero_add, List.map_id']
  rw [counted, fresh]
  exact ⟨derived, limits⟩

/-- The levels that a parser counts for an accepted chain, taken together, bound the height of the
pair after every stage and after every pass, and they stay below the limit on weight. -/
theorem withinHeight_countedLevels {ts : List Token} {chain : Chain}
    (h : Chain.ofTokens ts = .ok chain) :
    let levels := (Parser.ofTokens ts).countedLevels
    DerivesChain ts chain levels ∧
      (∀ done, ((chain.stages.take done).foldl Pair.push Pair.identity).WithinHeight
        (totalLevels levels)) ∧
      (∀ (o : Options) done, (Pass.runAll (o.passes.take done) (Pair.ofChain chain)).WithinHeight
        (totalLevels levels)) ∧
      totalLevels levels < 2048 := by
  intro levels
  obtain ⟨derived, limits⟩ := countedLevels_of_accepts (ofTokens_eq_ok_iff.mp h)
  have folded : ∀ done, ((chain.stages.take done).foldl Pair.push Pair.identity).WithinHeight
      (totalLevels levels) := by
    intro done
    have within := derived.withinHeight Pair.withinHeight_identity done
    rw [Nat.zero_add] at within
    exact within
  refine ⟨derived, folded, ?_, ?_⟩
  · intro o done
    have whole : (Pair.ofChain chain).WithinHeight (totalLevels levels) := by
      have all := folded chain.stages.length
      rw [List.take_length] at all
      exact all
    apply whole.runAll derived.totalLevels_pos
    intro pass mem
    exact o.passes_subset_defaults pass (List.mem_of_mem_take mem)
  · have light := limits.light
    have stages := derived.length_pos
    rw [weightOf_eq] at light
    exact Nat.lt_of_lt_of_le (Nat.lt_add_of_pos_right stages) light

/-- Two filters over a map: three operations above each other, out of six levels. -/
theorem withinHeight_countedLevels_filters :
    let ts := [Token.mapOpen, .element, .times, .element, .closeBrace, .pipe,
      .filterOpen, .element, .greater, .number ['1'], .closeBrace, .pipe,
      .filterOpen, .element, .less, .number ['9'], .closeBrace]
    let chain := Chain.link (.map (.binary .element (.arith .times) .element))
      (.link (.filter (.binary .element (.logic .gt) (.const 1)))
        (.single (.filter (.binary .element (.logic .lt) (.const 9)))))
    Chain.ofTokens ts = .ok chain ∧
      (Parser.ofTokens ts).countedLevels = [2, 2, 2] ∧
      (Pair.ofChain chain).filter.height = 3 ∧
      (chain.canonical {}).WithinHeight 6 := by
  intro ts chain
  have square : Derives .expression ([.element] ++ .times :: [.element]) _ 2 :=
    @Derives.operation _ _ _ _ (.arith .times) _ _ .element (.last .element)
  have lower : Derives .expression ([.element] ++ .greater :: [.number ['1']]) _ 2 :=
    @Derives.operation _ _ _ _ (.logic .gt) _ _ .element (.last (@Derives.number _ 1 (by decide)))
  have upper : Derives .expression ([.element] ++ .less :: [.number ['9']]) _ 2 :=
    @Derives.operation _ _ _ _ (.logic .lt) _ _ .element (.last (@Derives.number _ 9 (by decide)))
  have derived : DerivesChain ts chain [2, 2, 2] :=
    .link (@DerivesStage.intro _ (.map _) _ square)
      (.link (@DerivesStage.intro _ (.filter _) _ lower)
        (.single (@DerivesStage.intro _ (.filter _) _ upper)))
  have accepted : Chain.ofTokens ts = .ok chain :=
    ofTokens_eq_ok_iff.mpr ⟨[2, 2, 2], derived, ⟨by decide, by decide⟩, by decide⟩
  have ⟨counted, _, passed, _⟩ := withinHeight_countedLevels accepted
  have levels := (counted.unique derived rfl).2
  refine ⟨accepted, levels, by decide, ?_⟩
  rw [levels] at passed
  exact passed {} 6

end Chain
end StageChain
