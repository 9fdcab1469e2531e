import StageChain.Proofs.Kinds
import StageChain.Proofs.Reprinting

/-! The text of a canonical pair is a source in its own right. Unless it nests too deep, compiling
it gives the same pair again, or its simplification if that was left out the first time. However
deep it nests, no other pair has that text. -/
namespace StageChain

theorem Expr.subst_element (e : Expr) : e.subst .element = e := by
  induction e with
  | element => rfl
  | const n => rfl
  | binary left op right hl hr => rw [subst, hl, hr]

namespace Pair

theorem render_toChain (p : Pair) : p.toChain.render = p.render := by
  simp only [toChain, Chain.render, Stage.render, render, List.cons_append, List.append_assoc,
    List.nil_append]

/-- A pair is what its own filter and map fold to. -/
theorem ofChain_toChain (p : Pair) : ofChain p.toChain = p := by
  have filtered : identity.push (.filter p.filter) = ⟨p.filter, .element⟩ := by
    rw [push_filter_of_blank rfl]
    exact congrArg (Pair.mk · .element) p.filter.subst_element
  calc ofChain p.toChain
      = (identity.push (.filter p.filter)).push (.map p.map) := rfl
    _ = ⟨p.filter, p.map.subst .element⟩ := by rw [filtered]; rfl
    _ = p := by rw [Expr.subst_element]

theorem typed_toChain {p : Pair} (h : p.IsWellTyped) : ∀ s ∈ p.toChain.stages, s.isWellTyped :=
  List.forall_mem_cons.mpr ⟨h.filter, List.forall_mem_singleton.mpr h.map⟩

/-- Two stages can be too deep, but they are never too heavy. -/
theorem fits_toChain_iff {p : Pair} :
    p.toChain.Fits 0 ↔ p.filter.printedNesting ≤ 256 ∧ p.map.printedNesting ≤ 256 := by
  rw [toChain, Chain.fits_link, Chain.fits_single]
  simp only [Stage.Fits, Stage.printedWeight, Stage.body, maxNesting, maxWeight]
  omega

theorem compile?_render_of_isWellTyped {p : Pair} (h : p.IsWellTyped) (o : Options) :
    compile? o (String.ofList p.render) =
      if p.filter.printedNesting ≤ 256 ∧ p.map.printedNesting ≤ 256
      then .ok (Pass.runAll o.passes p) else .error .malformed := by
  rw [compile?_eq_map_parse, ← render_toChain]
  by_cases fits : p.toChain.Fits 0
  · rw [Chain.parse_render_of_fits (typed_toChain h) fits, if_pos (fits_toChain_iff.mp fits)]
    exact congrArg (Except.ok <| Pass.runAll o.passes ·) p.ofChain_toChain
  · rw [Chain.parse_render_of_not_fits (typed_toChain h) fits,
      if_neg (mt fits_toChain_iff.mpr fits)]
    rfl

theorem simplify_materialize (p : Pair) :
    (Pass.materializeTautology.apply p).simplify = p.simplify := by
  have once : Pass.materializeTautology.apply (Pass.materializeTautology.apply p) =
      Pass.materializeTautology.apply p :=
    materialize_of_not_blank (mt (hasBlankFilter_iff _).mp (materialize_ne_element p))
  simp only [simplify, Pass.runAll, Pass.defaults, List.foldl_cons, once]

theorem simplify_simplify (p : Pair) : p.simplify.simplify = p.simplify :=
  runAll_of_apply_eq (isNormal_simplify p).apply_eq

end Pair

/-- Running passes over a canonical pair changes it only if it is not simplified yet. -/
theorem Chain.runAll_canonical {chain : Chain} (typed : ∀ s ∈ chain.stages, s.isWellTyped)
    (o o' : Options) :
    Pass.runAll o'.passes (chain.canonical o) =
      if o.simplify || !o'.simplify then chain.canonical o else chain.canonical {} := by
  cases again : o'.simplify with
  | false =>
      have filled := Pair.not_blank_of_isWellTyped (isWellTyped_canonical typed o)
      rw [Options.passes_of_not_simplify again]
      simp only [Bool.not_false, Bool.or_true, ↓reduceIte]
      exact Pair.materialize_of_not_blank filled
  | true =>
      rw [Options.passes_of_simplify again]
      cases simplified : o.simplify with
      | true =>
          rw [canonical_of_simplify simplified]
          simp only [Bool.true_or, ↓reduceIte]
          exact (Pair.ofChain chain).simplify_simplify
      | false =>
          rw [canonical_of_not_simplify simplified, canonical_of_simplify rfl]
          simp only [Bool.not_true, Bool.or_false, Bool.false_eq_true, ↓reduceIte]
          exact (Pair.ofChain chain).simplify_materialize

/-- A canonical text compiles to the pair it shows, or to the simplified pair of the source if only
the second run simplifies. It fails if the filter or the map nests too deep. -/
theorem compile?_render {o : Options} {source : String} {p : Pair}
    (h : compile? o source = .ok p) (o' : Options) :
    ∃ q, compile? {} source = .ok q ∧
      compile? o' (String.ofList p.render) =
        if p.filter.printedNesting ≤ 256 ∧ p.map.printedNesting ≤ 256
        then .ok (if o.simplify || !o'.simplify then p else q) else .error .malformed := by
  obtain ⟨chain, read, rfl⟩ := parse_of_compile? h
  have typed := Chain.typed_of_parse read
  refine ⟨chain.canonical {}, compile?_of_parse read {}, ?_⟩
  rw [Pair.compile?_render_of_isWellTyped (Chain.isWellTyped_canonical typed o) o',
    Chain.runAll_canonical typed o o']

/-- Folded only, the filter keeps its offset. Compiling the text moves it into the bound. -/
theorem compile?_render_folded :
    let chain := Chain.link (.map (.binary .element (.arith .plus) (.const 10)))
      (.single (.filter (.binary .element (.logic .gt) (.const 10))))
    let p : Pair := ⟨.binary (.binary .element (.arith .plus) (.const 10)) (.logic .gt) (.const 10),
      .binary .element (.arith .plus) (.const 10)⟩
    compile? ⟨false⟩ (String.ofList chain.render) = .ok p ∧
      compile? {} (String.ofList p.render) =
        .ok ⟨.binary .element (.logic .gt) (.const 0), p.map⟩ := by
  intro chain p
  have read : Chain.parse (String.ofList chain.render) = .ok chain :=
    Chain.parse_render_of_fits (by decide) (Chain.fits_zero_iff.mpr (by decide))
  have folded : compile? ⟨false⟩ (String.ofList chain.render) = .ok p :=
    compile?_of_parse read ⟨false⟩
  obtain ⟨q, simplified, again⟩ := compile?_render folded {}
  rw [compile?_of_parse read] at simplified
  cases simplified
  exact ⟨folded, again.trans (if_pos (by decide))⟩

/-! ## Texts

The tokens of a printed chain derive it in the grammar, where the limits of the parser play no part,
and no tokens derive two chains. -/

namespace Grammar

/-- A reader that is given room for all its levels finds a printed expression, so the grammar
derives it. -/
theorem derives_tokens (e : Expr) : Derives .operand e.tokens e e.innerLevels := by
  have read : Phrase.operand.read e.innerLevels (e.tokens ++ []) = .ok ⟨e, e.innerLevels, []⟩ :=
    Reading.operand_tokens e (Nat.le_refl _) []
  obtain ⟨⟨used, split, derived⟩, _, _⟩ := read_eq_ok_iff.mp read
  rw [List.append_cancel_right split]
  exact derived

theorem derivesStage_tokens (s : Stage) : DerivesStage s.tokens s s.body.printedNesting :=
  .intro (.last (derives_tokens s.body))

theorem derivesChain_tokens (chain : Chain) :
    DerivesChain chain.tokens chain (chain.stages.map fun s => s.body.printedNesting) := by
  induction chain with
  | single s => exact .single (derivesStage_tokens s)
  | link s rest ih => exact .link (derivesStage_tokens s) ih

end Grammar

theorem Chain.render_injective : Function.Injective Chain.render := by
  intro chain other same
  have tokens : chain.tokens = other.tokens := by
    rw [← chain.scan_render, ← other.scan_render, same]
  have derived := Grammar.derivesChain_tokens chain
  exact (derived.unique (Grammar.derivesChain_tokens other) tokens).1

theorem Pair.toChain_injective : Function.Injective Pair.toChain := by
  intro p q same
  have left := p.ofChain_toChain
  rw [same, q.ofChain_toChain] at left
  exact left.symm

/-- No two chains have the same text, and no two pairs. The text of a pair is that of the chain of
its two stages. -/
theorem render_unambiguous :
    Function.Injective Chain.render ∧ Function.Injective Pair.render ∧
      ∀ p : Pair, p.render = p.toChain.render := by
  refine ⟨Chain.render_injective, ?_, fun p => p.render_toChain.symm⟩
  intro p q same
  rw [← p.render_toChain, ← q.render_toChain] at same
  exact Pair.toChain_injective (Chain.render_injective same)

end StageChain
