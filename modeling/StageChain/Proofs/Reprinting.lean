import StageChain.Proofs.Acceptance

/-! Printing a chain that was read, and reading it again. Every operation is printed in parentheses,
which makes the text nest up to twice as deep as the source. A source within half of the limits is
always read back from its printed form. A deeper one may not be: a long sum without parentheses is
accepted, and what it prints as is refused. -/
namespace StageChain

namespace Grammar

variable {k : Phrase} {ts : List Token} {e : Expr} {n : Nat}

/-- The levels that a phrase may print with, without the outermost one. -/
def Phrase.printedBound : Phrase → Nat → Nat
  | operand, n => max 1 (2 * n)
  | expression, n => 2 * n - 1

theorem Derives.innerLevels_le (h : Derives k ts e n) : e.innerLevels ≤ k.printedBound n := by
  have leaf : ∀ value, (Expr.const value).innerLevels ≤ 1 := by
    intro value
    simp only [Expr.innerLevels]
    split
    · exact Nat.le_refl 1
    · exact Nat.zero_le 1
  induction h with
  | element => exact Nat.zero_le _
  | negative _ => exact leaf _
  | number _ => exact leaf _
  | paren _ ih =>
      simp only [Phrase.printedBound] at ih ⊢
      omega
  | last _ ih =>
      simp only [Phrase.printedBound] at ih ⊢
      omega
  | operation _ second ihl ihr =>
      -- a negative number on the left prints a level that it is not, but the right side is one
      have positive := second.pos
      simp only [Phrase.printedBound, Expr.innerLevels] at ihl ihr ⊢
      omega

theorem Derives.printedNesting_le (h : Derives .expression ts e n) :
    e.printedNesting ≤ 2 * n := by
  have positive := h.pos
  have inner : e.innerLevels ≤ 2 * n - 1 := h.innerLevels_le
  simp only [Expr.printedNesting]
  omega

theorem DerivesStage.printedNesting_le {s : Stage} (h : DerivesStage ts s n) :
    s.body.printedNesting ≤ 2 * n := by
  obtain ⟨body⟩ := h
  exact body.printedNesting_le

theorem DerivesStage.fits {s : Stage} (h : DerivesStage ts s n) {w : Nat}
    (shallow : 2 * n ≤ maxNesting) (light : w + (2 * n + 1) ≤ maxWeight) : s.Fits w := by
  have nesting := h.printedNesting_le
  refine ⟨Nat.le_trans nesting shallow, ?_⟩
  simp only [Stage.printedWeight]
  omega

/-- A chain prints within the limits if twice its levels are within them. -/
theorem DerivesChain.fits {chain : Chain} {ns : List Nat} (h : DerivesChain ts chain ns) {w : Nat}
    (shallow : ∀ n ∈ ns, 2 * n ≤ maxNesting) (light : w + weightOf (ns.map (2 * ·)) ≤ maxWeight) :
    chain.Fits w := by
  induction h generalizing w with
  | single stage =>
      exact Chain.fits_single.mpr (stage.fits (shallow _ List.mem_cons_self) light)
  | link stage _ ih =>
      obtain ⟨first, others⟩ := List.forall_mem_cons.mp shallow
      simp only [List.map_cons, weightOf] at light
      refine Chain.fits_link.mpr ⟨stage.fits first (by omega), ih others ?_⟩
      have nesting := stage.printedNesting_le
      simp only [Stage.printedWeight]
      omega

end Grammar

open Grammar

/-- The element added to itself, with the given number of operators. -/
def Expr.elementSum : Nat → Expr
  | 0 => element
  | n + 1 => binary element (.arith .plus) (elementSum n)

/-- The same sum without any parentheses. -/
def Token.elementSum : Nat → List Token
  | 0 => [.element]
  | n + 1 => [.element] ++ .plus :: elementSum n

theorem Grammar.derives_elementSum (n : Nat) :
    Derives .expression (Token.elementSum n) (Expr.elementSum n) (n + 1) := by
  induction n with
  | zero => exact .last .element
  | succ n ih =>
      have sum := @Derives.operation _ _ _ _ (.arith .plus) _ _ .element ih
      rw [Nat.zero_max] at sum
      exact sum

theorem Expr.isArithmetic_elementSum (n : Nat) : (Expr.elementSum n).isArithmetic := by
  induction n with
  | zero => rfl
  | succ n ih => exact ih

theorem Expr.innerLevels_elementSum (n : Nat) : (Expr.elementSum n).innerLevels = 2 * n := by
  induction n with
  | zero => rfl
  | succ n ih =>
      simp only [elementSum, innerLevels, ih]
      omega

theorem Token.elementSum_fixed (n : Nat) : ∀ t ∈ Token.elementSum n, t ∈ fixed := by
  induction n with
  | zero => decide
  | succ n ih =>
      exact List.forall_mem_cons.mpr ⟨by decide, List.forall_mem_cons.mpr ⟨by decide, ih⟩⟩

theorem Token.scan_flatMap_lexeme {ts : List Token} (h : ∀ t ∈ ts, t ∈ fixed) :
    Token.scan (ts.flatMap lexeme) = ts := by
  induction ts with
  | nil => exact scan_nil
  | cons t ts ih =>
      obtain ⟨first, others⟩ := List.forall_mem_cons.mp h
      rw [List.flatMap_cons, scan_fixed first, ih others]

namespace Chain

theorem parse_render_of_fits {chain : Chain} (typed : ∀ s ∈ chain.stages, s.isWellTyped)
    (fits : chain.Fits 0) : Chain.parse (String.ofList chain.render) = .ok chain := by
  have read : (Parser.ofTokens chain.tokens).chain = _ := Parser.chain_tokens chain typed fits
  rw [parse_ofList_render]
  simp only [Parser.parse, read, List.isEmpty_nil, ↓reduceIte]

theorem parse_render_of_not_fits {chain : Chain} (typed : ∀ s ∈ chain.stages, s.isWellTyped)
    (h : ¬ chain.Fits 0) : Chain.parse (String.ofList chain.render) = .error .malformed := by
  obtain ⟨q, failed⟩ := Parser.chain_tokens_error chain typed h
  have read : (Parser.ofTokens chain.tokens).chain = (.error .malformed, q) := failed
  rw [parse_ofList_render]
  simp only [Parser.parse, read]

theorem fits_zero_iff {chain : Chain} : chain.Fits 0 ↔
    (∀ s ∈ chain.stages, s.body.printedNesting ≤ 256) ∧ chain.printedWeight ≤ 2048 := by
  simp only [Fits, maxNesting, maxWeight, Nat.zero_add]

def elementSum (n : Nat) : Chain := single (.map (.elementSum n))

/-- The text `map{element+element+...}` with the given number of operators. -/
def elementSumSource (n : Nat) : String :=
  String.ofList ((Token.mapOpen :: (Token.elementSum n ++ [.closeBrace])).flatMap Token.lexeme)

theorem typed_elementSum (n : Nat) : ∀ s ∈ (elementSum n).stages, s.isWellTyped :=
  List.forall_mem_singleton.mpr (Expr.isArithmetic_elementSum n)

theorem parse_elementSumSource {n : Nat} (h : n < 256) :
    Chain.parse (elementSumSource n) = .ok (elementSum n) := by
  have words : ∀ t ∈ Token.mapOpen :: (Token.elementSum n ++ [.closeBrace]), t ∈ Token.fixed := by
    refine List.forall_mem_cons.mpr ⟨by decide, List.forall_mem_append.mpr ⟨?_, by decide⟩⟩
    exact Token.elementSum_fixed n
  have derived : DerivesChain (Token.mapOpen :: (Token.elementSum n ++ [.closeBrace]))
      (elementSum n) [n + 1] :=
    .single (@DerivesStage.intro _ (.map _) _ (derives_elementSum n))
  rw [Chain.parse_eq_ofTokens, elementSumSource, String.toList_ofList, Token.scan_flatMap_lexeme words]
  refine ofTokens_eq_ok_iff.mpr ⟨[n + 1], derived, ⟨?_, ?_⟩, typed_elementSum n⟩
  · exact List.forall_mem_singleton.mpr h
  · simp only [weightOf]
    omega

theorem fits_elementSum_iff {n : Nat} : (elementSum n).Fits 0 ↔ n < 128 := by
  have nesting : (Expr.elementSum n).printedNesting = 2 * n + 1 := by
    rw [Expr.printedNesting, Expr.innerLevels_elementSum]
  rw [elementSum, fits_single]
  simp only [Stage.Fits, Stage.printedWeight, Stage.body, nesting, maxNesting, maxWeight]
  omega

/-- A chain that was read is read again from its printed form, unless that form exceeds the limits.
It does not if twice the levels of the source are within them. -/
theorem parse_render_of_parse {source : String} {chain : Chain}
    (h : Chain.parse source = .ok chain) :
    Chain.parse (String.ofList chain.render) =
      (if (∀ s ∈ chain.stages, s.body.printedNesting ≤ 256) ∧ chain.printedWeight ≤ 2048
      then .ok chain else .error .malformed) ∧
    ∃ ns, DerivesChain (Token.scan source.toList) chain ns ∧
      (WithinLimits (ns.map (2 * ·)) → Chain.parse (String.ofList chain.render) = .ok chain) := by
  obtain ⟨ns, derived, _, typed⟩ := accepts_of_parse h
  refine ⟨?_, ns, derived, ?_⟩
  · by_cases fits : chain.Fits 0
    · rw [parse_render_of_fits typed fits, if_pos (fits_zero_iff.mp fits)]
    · rw [parse_render_of_not_fits typed fits, if_neg (mt fits_zero_iff.mpr fits)]
  · intro limits
    apply parse_render_of_fits typed
    apply derived.fits
    · intro n mem
      exact limits.shallow (2 * n) (List.mem_map_of_mem mem)
    · rw [Nat.zero_add]
      exact limits.light

/-- With 127 operators the printed sum still fits. -/
theorem parse_render_of_parse_fitting :
    Chain.parse (elementSumSource 127) = .ok (elementSum 127) ∧
      Chain.parse (String.ofList (elementSum 127).render) = .ok (elementSum 127) := by
  have read : Chain.parse (elementSumSource 127) = .ok (elementSum 127) :=
    parse_elementSumSource (by decide)
  have fits := fits_zero_iff.mp (fits_elementSum_iff.mpr (by decide : 127 < 128))
  exact ⟨read, (parse_render_of_parse read).1.trans (if_pos fits)⟩

/-- With 128 operators a sum is accepted, and its printed form is not. -/
theorem parse_render_not_accepted :
    Chain.parse (elementSumSource 128) = .ok (elementSum 128) ∧
      Chain.parse (String.ofList (elementSum 128).render) = .error .malformed := by
  refine ⟨parse_elementSumSource (by decide), ?_⟩
  exact parse_render_of_not_fits (typed_elementSum 128) (mt fits_elementSum_iff.mp (by decide))

end Chain
end StageChain
