import StageChain.Compile
import StageChain.Proofs.Printing

/-! Reading a printed chain gives the chain back if it keeps to the limits on nesting and weight,
and fails otherwise. -/
namespace StageChain
namespace Reading

variable {room : Nat} {ts rest : List Token} {e : Expr} {n : Nat}

theorem operand_paren {inner : List Token → Except Failure Reading}
    (h : inner ts = .ok ⟨e, n, .closeParen :: rest⟩) :
    operand inner (.openParen :: ts) = .ok ⟨e, n, rest⟩ := by
  simp only [operand, h]

theorem operand_paren_error {inner : List Token → Except Failure Reading} {f : Failure}
    (h : inner ts = .error f) : operand inner (.openParen :: ts) = .error f := by
  simp only [operand, h]

theorem expression_of_operand (h : operand (expression room) ts = .ok ⟨e, n, rest⟩)
    (last : rest.head?.bind Token.operator? = none) :
    expression (room + 1) ts = .ok ⟨e, n + 1, rest⟩ := by
  simp only [expression, h, last]

theorem expression_of_operator {op : Operator} {right : Reading}
    (h : operand (expression room) ts = .ok ⟨e, n, op.token :: rest⟩)
    (hr : expression room rest = .ok right) :
    expression (room + 1) ts =
      .ok ⟨.binary e op right.expr, max n right.nesting + 1, right.rest⟩ := by
  simp only [expression, h, List.head?_cons, Option.bind_some, op.operator?_token,
    List.tail_cons, hr]

theorem expression_operand_error {f : Failure} (h : operand (expression room) ts = .error f) :
    expression (room + 1) ts = .error ⟨f.levels + 1, f.rest⟩ := by
  simp only [expression, h]

theorem expression_operator_error {op : Operator} {f : Failure}
    (h : operand (expression room) ts = .ok ⟨e, n, op.token :: rest⟩)
    (hr : expression room rest = .error f) :
    expression (room + 1) ts = .error ⟨f.levels + 1, f.rest⟩ := by
  simp only [expression, h, List.head?_cons, Option.bind_some, op.operator?_token,
    List.tail_cons, hr]

/-- An expression that cannot even begin with its operand cannot be read. -/
theorem expression_error (h : ∀ k, room = k + 1 → ∃ f, operand (expression k) ts = .error f) :
    ∃ f, expression room ts = .error f := by
  cases room with
  | zero => exact ⟨_, rfl⟩
  | succ room =>
      obtain ⟨f, hf⟩ := h room rfl
      exact ⟨_, expression_operand_error hf⟩

theorem literal_of_toWord? {text : List Char} {value : Int32}
    (h : Decimal.toWord? text = some value) :
    literal text rest = .ok ⟨.const value, 0, rest⟩ := by
  simp only [literal, h]

theorem operand_digits {inner : List Token → Except Failure Reading} {value : Int32}
    (h : ¬ value < 0) :
    operand inner (.number (Expr.digits value) :: rest) = .ok ⟨.const value, 0, rest⟩ := by
  have nonneg : 0 ≤ value.toInt := Int.not_lt.mp (mt Expr.toInt_neg_iff.mpr h)
  exact literal_of_toWord? (Decimal.toWord?_of_nonneg nonneg)

theorem operand_minus_digits {inner : List Token → Except Failure Reading} {value : Int32}
    (h : value < 0) :
    operand inner (.minus :: .number (Expr.digits value) :: rest) =
      .ok ⟨.const value, 0, rest⟩ :=
  literal_of_toWord? (Decimal.toWord?_of_neg (Expr.toInt_neg_iff.mp h))

/-- A printed operand is read back, whatever follows it, if there is room for its levels. -/
theorem operand_tokens (e : Expr) {room : Nat} (h : e.innerLevels ≤ room) (rest : List Token) :
    operand (expression room) (e.tokens ++ rest) = .ok ⟨e, e.innerLevels, rest⟩ := by
  induction e generalizing room rest with
  | element => rfl
  | const value =>
      by_cases negative : value < 0
      · simp only [Expr.innerLevels, negative, ↓reduceIte] at h ⊢
        obtain ⟨room, rfl⟩ := Nat.exists_eq_add_of_le' h
        simp only [Expr.tokens, Expr.constTokens, negative, ↓reduceIte, List.cons_append,
          List.nil_append]
        exact operand_paren (expression_of_operand (operand_minus_digits negative) rfl)
      · simp only [Expr.tokens, Expr.constTokens, Expr.innerLevels, negative, ↓reduceIte,
          List.cons_append, List.nil_append]
        exact operand_digits negative
  | binary left op right ihl ihr =>
      simp only [Expr.innerLevels] at h ⊢
      obtain ⟨room, rfl⟩ : ∃ k, room = k + 2 := ⟨room - 2, by omega⟩
      have hl : left.innerLevels ≤ room + 1 := by omega
      have hr : right.innerLevels ≤ room := by omega
      simp only [Expr.tokens, List.cons_append, List.append_assoc, List.nil_append]
      have readRight := expression_of_operand (ihr hr (.closeParen :: rest)) rfl
      have readLeft := ihl hl (op.token :: (right.tokens ++ .closeParen :: rest))
      have readBoth := expression_of_operator readLeft readRight
      have levels : max left.innerLevels (right.innerLevels + 1) + 1 =
          max (left.innerLevels + 1) (right.innerLevels + 2) := by omega
      rw [levels] at readBoth
      exact operand_paren readBoth

/-- Reading fails at the first level there is no room for. -/
theorem operand_tokens_error (e : Expr) {room : Nat} (h : room < e.innerLevels)
    (rest : List Token) : ∃ f, operand (expression room) (e.tokens ++ rest) = .error f := by
  induction e generalizing room rest with
  | element => exact absurd h (Nat.not_lt_zero room)
  | const value =>
      by_cases negative : value < 0
      · simp only [Expr.innerLevels, negative, ↓reduceIte, Nat.lt_one_iff] at h
        subst h
        simp only [Expr.tokens, Expr.constTokens, negative, ↓reduceIte, List.cons_append]
        exact ⟨_, operand_paren_error rfl⟩
      · simp only [Expr.innerLevels, negative, ↓reduceIte] at h
        exact absurd h (Nat.not_lt_zero room)
  | binary left op right ihl ihr =>
      simp only [Expr.innerLevels] at h
      simp only [Expr.tokens, List.cons_append, List.append_assoc, List.nil_append]
      have fails : ∃ f, expression room
          (left.tokens ++ op.token :: (right.tokens ++ .closeParen :: rest)) = .error f := by
        cases room with
        | zero => exact ⟨_, rfl⟩
        | succ room =>
            by_cases hl : left.innerLevels ≤ room
            · -- the left side fits, so it is the right one that is too deep
              have readLeft := operand_tokens left hl
                (op.token :: (right.tokens ++ .closeParen :: rest))
              have deep : ∀ k, room = k + 1 → k < right.innerLevels := by omega
              obtain ⟨f, hf⟩ := expression_error fun k hk => ihr (deep k hk) (.closeParen :: rest)
              exact ⟨_, expression_operator_error readLeft hf⟩
            · obtain ⟨f, hf⟩ := ihl (Nat.lt_of_not_le hl) _
              exact ⟨_, expression_operand_error hf⟩
      obtain ⟨f, hf⟩ := fails
      exact ⟨f, operand_paren_error hf⟩

theorem expression_tokens (e : Expr) {room : Nat} (h : e.printedNesting ≤ room)
    (last : rest.head?.bind Token.operator? = none) :
    expression room (e.tokens ++ rest) = .ok ⟨e, e.printedNesting, rest⟩ := by
  obtain ⟨room, rfl⟩ := Nat.exists_eq_add_of_le' (Nat.le_trans (Nat.le_add_left 1 _) h)
  exact expression_of_operand (operand_tokens e (Nat.le_of_succ_le_succ h) rest) last

theorem expression_tokens_error (e : Expr) {room : Nat} (h : room < e.printedNesting)
    (rest : List Token) : ∃ f, expression room (e.tokens ++ rest) = .error f := by
  apply expression_error
  intro k hk
  subst hk
  exact operand_tokens_error e (Nat.lt_of_succ_lt_succ h) rest

end Reading

def Stage.printedWeight (s : Stage) : Nat := s.body.printedNesting + 1

/-- What a parser that has read the weight `w` can still take. -/
def Stage.Fits (w : Nat) (s : Stage) : Prop :=
  s.body.printedNesting ≤ maxNesting ∧ w + s.printedWeight ≤ maxWeight

namespace Chain

def printedWeight : Chain → Nat
  | single s => s.printedWeight
  | link s rest => s.printedWeight + rest.printedWeight

def Fits (w : Nat) (chain : Chain) : Prop :=
  (∀ s ∈ chain.stages, s.body.printedNesting ≤ maxNesting) ∧ w + chain.printedWeight ≤ maxWeight

theorem fits_single {w : Nat} {s : Stage} : (single s).Fits w ↔ s.Fits w := by
  simp only [Fits, Stage.Fits, stages, printedWeight, List.mem_singleton, forall_eq]

theorem fits_link {w : Nat} {s : Stage} {rest : Chain} :
    (link s rest).Fits w ↔ s.Fits w ∧ rest.Fits (w + s.printedWeight) := by
  simp only [Fits, Stage.Fits, stages, printedWeight, List.mem_cons, forall_eq_or_imp]
  constructor
  · rintro ⟨⟨shallow, others⟩, light⟩
    exact ⟨⟨shallow, by omega⟩, others, by omega⟩
  · rintro ⟨⟨shallow, _⟩, others, light⟩
    exact ⟨⟨shallow, others⟩, by omega⟩

end Chain

namespace Parser

variable {p q : Parser} {s : Stage} {w : Nat}

theorem stage_eq_weigh {ts rest : List Token} {n : Nat} (tokens : p.rest = s.opening :: ts)
    (h : Reading.expression (maxNesting - p.depth) ts = .ok ⟨s.body, n, .closeBrace :: rest⟩) :
    p.stage = p.weigh s n rest := by
  cases s with
  | map e => simp only [stage, tokens, Stage.opening, opening?, h, Stage.body]
  | filter e => simp only [stage, tokens, Stage.opening, opening?, h, Stage.body]

theorem stage_of_expression_error {ts : List Token} {f : Failure}
    (h : Reading.expression maxNesting ts = .error f) :
    ∃ q, stage ⟨s.opening :: ts, 0, w⟩ = (.error .malformed, q) := by
  cases s with
  | map e => simp only [stage, Stage.opening, opening?, Nat.sub_zero, h, Prod.mk.injEq,
      true_and, exists_eq']
  | filter e => simp only [stage, Stage.opening, opening?, Nat.sub_zero, h, Prod.mk.injEq,
      true_and, exists_eq']

theorem stage_tokens_eq_weigh (shallow : s.body.printedNesting ≤ maxNesting)
    (rest : List Token) :
    stage ⟨s.tokens ++ rest, 0, w⟩ =
      weigh ⟨s.tokens ++ rest, 0, w⟩ s s.body.printedNesting rest := by
  simp only [Stage.tokens, List.cons_append, List.append_assoc, List.nil_append]
  exact stage_eq_weigh rfl (Reading.expression_tokens s.body shallow rfl)

theorem stage_tokens (typed : s.isWellTyped) (fits : s.Fits w) (rest : List Token) :
    stage ⟨s.tokens ++ rest, 0, w⟩ = (.ok s, ⟨rest, 0, w + s.printedWeight⟩) := by
  have light : ¬ maxWeight < w + (s.body.printedNesting + 1) := Nat.not_lt.mpr fits.2
  rw [stage_tokens_eq_weigh fits.1]
  simp only [weigh, Nat.zero_add, light, typed, Bool.not_true, Bool.false_eq_true, ↓reduceIte,
    Stage.printedWeight]

theorem stage_tokens_error (h : ¬ s.Fits w) (rest : List Token) :
    ∃ q, stage ⟨s.tokens ++ rest, 0, w⟩ = (.error .malformed, q) := by
  by_cases shallow : s.body.printedNesting ≤ maxNesting
  · have heavy : maxWeight < w + (s.body.printedNesting + 1) :=
      Nat.lt_of_not_le fun light => h ⟨shallow, light⟩
    rw [stage_tokens_eq_weigh shallow]
    simp only [weigh, Nat.zero_add, heavy, ↓reduceIte, Prod.mk.injEq, true_and, exists_eq']
  · obtain ⟨f, hf⟩ := Reading.expression_tokens_error s.body (Nat.lt_of_not_le shallow)
      (.closeBrace :: rest)
    simp only [Stage.tokens, List.cons_append, List.append_assoc, List.nil_append]
    exact stage_of_expression_error hf

theorem chain_of_error {e : CompileError} (h : p.stage = (.error e, q)) :
    p.chain = (.error e, q) := by
  rw [chain]
  split
  · rename_i failed
    cases h.symm.trans failed
    rfl
  · rename_i found
    cases h.symm.trans found

theorem chain_of_last (h : p.stage = (.ok s, q)) (last : q.rest = []) :
    p.chain = (.ok (.single s), q) := by
  rw [chain]
  split
  · rename_i failed
    cases h.symm.trans failed
  · rename_i found
    cases h.symm.trans found
    simp only [last]

theorem chain_of_pipe {rest : List Token} {d : Nat} {r : Except CompileError Chain}
    (h : p.stage = (.ok s, ⟨.pipe :: rest, d, w⟩)) (hr : chain ⟨rest, d, w⟩ = (r, q)) :
    p.chain = (r.map (.link s), q) := by
  rw [chain]
  split
  · rename_i failed
    cases h.symm.trans failed
  · rename_i found
    cases h.symm.trans found
    simp only [hr]
    cases r with
    | error e => rfl
    | ok c => rfl

/-- Stage by stage, the weight read so far grows by the weight of the stage. -/
theorem chain_tokens (chain : Chain) (typed : ∀ s ∈ chain.stages, s.isWellTyped)
    (fits : chain.Fits w) :
    Parser.chain ⟨chain.tokens, 0, w⟩ = (.ok chain, ⟨[], 0, w + chain.printedWeight⟩) := by
  induction chain generalizing w with
  | single s =>
      have read := stage_tokens (typed s List.mem_cons_self) (Chain.fits_single.mp fits) []
      rw [List.append_nil] at read
      exact chain_of_last read rfl
  | link s rest ih =>
      obtain ⟨first, others⟩ := Chain.fits_link.mp fits
      have read := stage_tokens (typed s List.mem_cons_self) first (.pipe :: rest.tokens)
      have readRest := ih (fun t mem => typed t (List.mem_cons_of_mem s mem)) others
      rw [Nat.add_assoc] at readRest
      exact chain_of_pipe read readRest

theorem chain_tokens_error (chain : Chain) (typed : ∀ s ∈ chain.stages, s.isWellTyped)
    (h : ¬ chain.Fits w) :
    ∃ q, Parser.chain ⟨chain.tokens, 0, w⟩ = (.error .malformed, q) := by
  induction chain generalizing w with
  | single s =>
      obtain ⟨q, failed⟩ := stage_tokens_error (mt Chain.fits_single.mpr h) []
      rw [List.append_nil] at failed
      exact ⟨q, chain_of_error failed⟩
  | link s rest ih =>
      by_cases first : s.Fits w
      · have read := stage_tokens (typed s List.mem_cons_self) first (.pipe :: rest.tokens)
        have others : ¬ rest.Fits (w + s.printedWeight) :=
          fun others => h (Chain.fits_link.mpr ⟨first, others⟩)
        obtain ⟨q, failed⟩ := ih (fun t mem => typed t (List.mem_cons_of_mem s mem)) others
        exact ⟨q, chain_of_pipe read failed⟩
      · obtain ⟨q, failed⟩ := stage_tokens_error first (.pipe :: rest.tokens)
        exact ⟨q, chain_of_error failed⟩

end Parser

namespace Chain

theorem parse_ofList_render (chain : Chain) :
    Chain.parse (String.ofList chain.render) = (Parser.ofTokens chain.tokens).parse.1 := by
  rw [Chain.parse_eq_ofTokens, String.toList_ofList, scan_render, Chain.ofTokens]

/-- Printing loses nothing: a well-typed chain is read back from its own text, unless the text
nests too deep or weighs too much, and then it is refused as malformed. -/
theorem parse_render {chain : Chain} (typed : ∀ s ∈ chain.stages, s.isWellTyped) :
    Chain.parse (String.ofList chain.render) =
      if (∀ s ∈ chain.stages, s.body.printedNesting ≤ 256) ∧ chain.printedWeight ≤ 2048
      then .ok chain else .error .malformed := by
  have limits : chain.Fits 0 ↔
      (∀ s ∈ chain.stages, s.body.printedNesting ≤ 256) ∧ chain.printedWeight ≤ 2048 := by
    simp only [Fits, maxNesting, maxWeight, Nat.zero_add]
  rw [parse_ofList_render]
  by_cases fits : chain.Fits 0
  · have read : (Parser.ofTokens chain.tokens).chain = _ := Parser.chain_tokens chain typed fits
    rw [if_pos (limits.mp fits)]
    simp only [Parser.parse, read, List.isEmpty_nil, ↓reduceIte]
  · obtain ⟨q, failed⟩ := Parser.chain_tokens_error chain typed fits
    have read : (Parser.ofTokens chain.tokens).chain = (.error .malformed, q) := failed
    rw [if_neg (mt limits.mpr fits)]
    simp only [Parser.parse, read]

theorem parse_render_minValue :
    let chain := link (.filter (.binary .element (.logic .gt) (.const Int32.minValue)))
      (single (.map (.binary .element (.arith .minus) (.const (-1)))))
    (∀ s ∈ chain.stages, s.isWellTyped) ∧
      Chain.parse (String.ofList chain.render) = .ok chain :=
  ⟨by decide, (parse_render (by decide)).trans (if_pos (by decide))⟩

end Chain
end StageChain
