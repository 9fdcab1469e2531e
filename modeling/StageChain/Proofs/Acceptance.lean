import StageChain.Proofs.Grammar

/-! A parser accepts the chains that the grammar derives from its tokens, if they keep to the limits
and have well-typed stages only. The first stage that is out of order decides the error. -/
namespace StageChain

/-- The stage, or the error that the type check reports. -/
def Stage.checked (s : Stage) : Except CompileError Stage :=
  if s.isWellTyped then .ok s else .error .illTyped

theorem Stage.checked_of_isWellTyped {s : Stage} (h : s.isWellTyped) : s.checked = .ok s :=
  if_pos h

theorem Stage.checked_of_not_isWellTyped {s : Stage} (h : ¬ s.isWellTyped) :
    s.checked = .error .illTyped :=
  if_neg h

theorem Stage.eq_of_checked_ok {s t : Stage} (h : s.checked = .ok t) : s = t ∧ s.isWellTyped := by
  by_cases typed : s.isWellTyped
  · rw [checked_of_isWellTyped typed] at h
    cases h
    exact ⟨rfl, typed⟩
  · rw [checked_of_not_isWellTyped typed] at h
    cases h

theorem Stage.eq_of_checked_error {s : Stage} {e : CompileError} (h : s.checked = .error e) :
    e = .illTyped ∧ ¬ s.isWellTyped := by
  by_cases typed : s.isWellTyped
  · rw [checked_of_isWellTyped typed] at h
    cases h
  · rw [checked_of_not_isWellTyped typed] at h
    cases h
    exact ⟨rfl, typed⟩

/-- The last stage is ill-typed, and no other one is. -/
def Chain.EndsIllTyped : Chain → Prop
  | single s => ¬ s.isWellTyped
  | link s rest => s.isWellTyped ∧ rest.EndsIllTyped

open Grammar

namespace Parser

variable {p q : Parser} {s : Stage} {chain : Chain}

/-- Stages with the given levels keep to the limits. Levels that an earlier failure left open count
for every one of them. -/
structure HasRoom (p : Parser) (levels : List Nat) : Prop where
  shallow : ∀ n ∈ levels, p.depth + n ≤ maxNesting
  light : p.weight + weightOf (levels.map (p.depth + ·)) ≤ maxWeight

/-- The parser that has read stages with the given levels. -/
def behind (p : Parser) (levels : List Nat) (rest : List Token) : Parser :=
  ⟨rest, p.depth, p.weight + weightOf (levels.map (p.depth + ·))⟩

def TakesStage (p : Parser) (s : Stage) (q : Parser) : Prop :=
  ∃ used n, p.rest = used ++ q.rest ∧ DerivesStage used s n ∧ p.HasRoom [n] ∧
    q = p.behind [n] q.rest

def TakesChain (p : Parser) (chain : Chain) (q : Parser) : Prop :=
  ∃ used ns, p.rest = used ++ q.rest ∧ DerivesChain used chain ns ∧ p.HasRoom ns ∧
    q = p.behind ns q.rest

theorem hasRoom_singleton {n : Nat} :
    p.HasRoom [n] ↔ p.depth + n ≤ maxNesting ∧ p.weight + (p.depth + n + 1) ≤ maxWeight := by
  constructor
  · rintro ⟨shallow, light⟩
    exact ⟨shallow n List.mem_cons_self, light⟩
  · rintro ⟨shallow, light⟩
    exact ⟨List.forall_mem_singleton.mpr shallow, light⟩

theorem hasRoom_cons {n : Nat} {ns : List Nat} (rest : List Token) :
    p.HasRoom (n :: ns) ↔ p.HasRoom [n] ∧ (p.behind [n] rest).HasRoom ns := by
  rw [hasRoom_singleton]
  constructor
  · rintro ⟨shallow, light⟩
    obtain ⟨first, others⟩ := List.forall_mem_cons.mp shallow
    simp only [List.map_cons, weightOf] at light
    refine ⟨⟨first, by omega⟩, others, ?_⟩
    simp only [behind, List.map_cons, List.map_nil, weightOf]
    omega
  · rintro ⟨⟨first, _⟩, others, light⟩
    refine ⟨List.forall_mem_cons.mpr ⟨first, others⟩, ?_⟩
    simp only [behind, List.map_cons, List.map_nil, weightOf] at light ⊢
    omega

theorem behind_cons (p : Parser) (n : Nat) (ns : List Nat) (mid rest : List Token) :
    p.behind (n :: ns) rest = (p.behind [n] mid).behind ns rest := by
  simp only [behind, List.map_cons, List.map_nil, weightOf, Nat.add_zero, Nat.add_assoc]

theorem weigh_of_hasRoom {n : Nat} (room : p.HasRoom [n]) (rest : List Token) :
    p.weigh s n rest = (s.checked, p.behind [n] rest) := by
  have light : ¬ maxWeight < p.weight + (p.depth + n + 1) :=
    Nat.not_lt.mpr (hasRoom_singleton.mp room).2
  simp only [weigh, light, ↓reduceIte]
  by_cases typed : s.isWellTyped
  · rw [Stage.checked_of_isWellTyped typed]
    simp only [typed, Bool.not_true, Bool.false_eq_true, ↓reduceIte]
    rfl
  · rw [Stage.checked_of_not_isWellTyped typed]
    simp only [typed, Bool.not_false, ↓reduceIte]
    rfl

/-- A stage that the grammar derives is read, whatever follows it. -/
theorem stage_of_takesStage (h : p.TakesStage s q) : p.stage = (s.checked, q) := by
  obtain ⟨used, n, tokens, ⟨body⟩, room, state⟩ := h
  have fits : n ≤ maxNesting - p.depth := Nat.le_sub_of_add_le' (hasRoom_singleton.mp room).1
  rw [List.cons_append, List.append_assoc, List.singleton_append] at tokens
  rw [stage_eq_weigh tokens (body.read fits rfl), weigh_of_hasRoom room, ← state]

theorem eq_opening_of_opening? {t : Token} {make : Expr → Stage} (h : opening? t = some make)
    (e : Expr) : (make e).opening = t ∧ (make e).body = e := by
  cases t <;> cases h <;> exact ⟨rfl, rfl⟩

theorem takesStage_of_weigh {n : Nat} {rest : List Token} {r : Except CompileError Stage}
    (h : p.weigh s n rest = (r, q)) (shallow : p.depth + n ≤ maxNesting)
    {used : List Token} (tokens : p.rest = used ++ rest) (derived : DerivesStage used s n) :
    r = .error .malformed ∨ r = s.checked ∧ p.TakesStage s q := by
  by_cases light : p.weight + (p.depth + n + 1) ≤ maxWeight
  · have room : p.HasRoom [n] := hasRoom_singleton.mpr ⟨shallow, light⟩
    rw [weigh_of_hasRoom room] at h
    cases h
    exact .inr ⟨rfl, used, n, tokens, derived, room, rfl⟩
  · left
    simp only [weigh, Nat.lt_of_not_le light, ↓reduceIte] at h
    cases h
    rfl

/-- Unless it is malformed, what a parser reads as a stage is derived by the grammar. -/
theorem takesStage_of_stage {r : Except CompileError Stage} (h : p.stage = (r, q)) :
    r = .error .malformed ∨ ∃ s, r = s.checked ∧ p.TakesStage s q := by
  unfold stage at h
  split at h
  · cases h
    exact .inl rfl
  · rename_i t rest tokens
    split at h
    · cases h
      exact .inl rfl
    · rename_i make opened
      split at h
      · cases h
        exact .inl rfl
      · rename_i e n rest found
        obtain ⟨⟨used, split, derived⟩, fits, _⟩ := (read_eq_ok_iff (k := .expression)).mp found
        obtain ⟨opening, body⟩ := eq_opening_of_opening? opened e
        have shallow : p.depth + n ≤ maxNesting := by
          have positive : 0 < n := derived.pos
          have within : n ≤ maxNesting - p.depth := fits
          omega
        have whole : p.rest = (make e).opening :: (used ++ [.closeBrace]) ++ rest := by
          rw [tokens, split, opening, List.cons_append, List.append_assoc, List.singleton_append]
        have stage : DerivesStage _ (make e) n := .intro (body.symm ▸ derived)
        exact (takesStage_of_weigh h shallow whole stage).imp_right fun taken => ⟨make e, taken⟩
      · cases h
        exact .inl rfl

theorem takesStage_of_ok (h : p.stage = (.ok s, q)) : p.TakesStage s q ∧ s.isWellTyped := by
  obtain malformed | ⟨t, checked, taken⟩ := takesStage_of_stage h
  · cases malformed
  · obtain ⟨rfl, typed⟩ := Stage.eq_of_checked_ok checked.symm
    exact ⟨taken, typed⟩

theorem takesStage_of_error {e : CompileError} (h : p.stage = (.error e, q)) :
    e = .malformed ∨ e = .illTyped ∧ ∃ s, p.TakesStage s q ∧ ¬ s.isWellTyped := by
  obtain malformed | ⟨t, checked, taken⟩ := takesStage_of_stage h
  · cases malformed
    exact .inl rfl
  · obtain ⟨rfl, fault⟩ := Stage.eq_of_checked_error checked.symm
    exact .inr ⟨rfl, t, taken, fault⟩

theorem takesChain_single : p.TakesChain (.single s) q ↔ p.TakesStage s q := by
  constructor
  · rintro ⟨used, ns, tokens, ⟨derived⟩, room, state⟩
    exact ⟨used, _, tokens, derived, room, state⟩
  · rintro ⟨used, n, tokens, derived, room, state⟩
    exact ⟨used, [n], tokens, .single derived, room, state⟩

theorem takesChain_link : p.TakesChain (.link s chain) q ↔
    ∃ mid : Parser, p.TakesStage s { mid with rest := .pipe :: mid.rest } ∧
      mid.TakesChain chain q := by
  constructor
  · rintro ⟨used, ns, tokens, derived, room, state⟩
    cases derived with
    | @link ts rest _ _ n ns first others =>
        obtain ⟨roomFirst, roomOthers⟩ := (hasRoom_cons (rest ++ q.rest)).mp room
        refine ⟨p.behind [n] (rest ++ q.rest), ⟨ts, n, ?_, first, roomFirst, rfl⟩,
          rest, ns, rfl, others, roomOthers, ?_⟩
        · rw [tokens, List.append_assoc, List.cons_append]
          rfl
        · rw [← behind_cons]
          exact state
  · rintro ⟨mid, ⟨ts, n, tokens, first, roomFirst, state⟩, rest, ns, tokens', others, roomOthers,
      state'⟩
    have reached : mid = p.behind [n] mid.rest := by
      cases mid
      cases state
      rfl
    refine ⟨ts ++ .pipe :: rest, n :: ns, ?_, .link first others, ?_, ?_⟩
    · rw [tokens, tokens', List.append_assoc, List.cons_append]
    · rw [reached] at roomOthers
      exact (hasRoom_cons mid.rest).mpr ⟨roomFirst, roomOthers⟩
    · rw [behind_cons p n ns mid.rest, ← reached]
      exact state'

theorem chain_of_takesChain (h : p.TakesChain chain q) (last : q.rest = [])
    (typed : ∀ s ∈ chain.stages, s.isWellTyped) : p.chain = (.ok chain, q) := by
  induction chain generalizing p with
  | single s =>
      have read := stage_of_takesStage (takesChain_single.mp h)
      rw [Stage.checked_of_isWellTyped (typed s List.mem_cons_self)] at read
      exact chain_of_last read last
  | link s rest ih =>
      obtain ⟨mid, first, others⟩ := takesChain_link.mp h
      have read := stage_of_takesStage first
      rw [Stage.checked_of_isWellTyped (typed s List.mem_cons_self)] at read
      exact chain_of_pipe read (ih others fun t mem => typed t (List.mem_cons_of_mem s mem))

theorem chain_of_endsIllTyped (h : p.TakesChain chain q) (fault : chain.EndsIllTyped) :
    p.chain = (.error .illTyped, q) := by
  induction chain generalizing p with
  | single s =>
      have read := stage_of_takesStage (takesChain_single.mp h)
      rw [Stage.checked_of_not_isWellTyped fault] at read
      exact chain_of_error read
  | link s rest ih =>
      obtain ⟨mid, first, others⟩ := takesChain_link.mp h
      have read := stage_of_takesStage first
      rw [Stage.checked_of_isWellTyped fault.1] at read
      exact chain_of_pipe read (ih others fault.2)

/-- What a parser may answer, and the parser it is afterwards. -/
inductive Answers (p : Parser) : Except CompileError Chain → Parser → Prop
  | ok {chain : Chain} {q : Parser} : p.TakesChain chain q →
      (∀ s ∈ chain.stages, s.isWellTyped) → Answers p (.ok chain) q
  | illTyped {chain : Chain} {q : Parser} : p.TakesChain chain q → chain.EndsIllTyped →
      Answers p (.error .illTyped) q
  | malformed {q : Parser} : Answers p (.error .malformed) q

theorem answers_of_stage_error {e : CompileError} (h : p.stage = (.error e, q)) :
    p.Answers (.error e) q := by
  obtain rfl | ⟨rfl, s, taken, fault⟩ := takesStage_of_error h
  · exact .malformed
  · exact .illTyped (takesChain_single.mpr taken) fault

/-- A well-typed stage in front leaves the answer for the rest of the chain in force. -/
theorem Answers.link {mid : Parser} {r : Except CompileError Chain}
    (h : p.stage = (.ok s, { mid with rest := .pipe :: mid.rest })) (rest : mid.Answers r q) :
    p.Answers (r.map (.link s)) q := by
  obtain ⟨taken, typed⟩ := takesStage_of_ok h
  cases rest with
  | ok others typedOthers =>
      exact .ok (takesChain_link.mpr ⟨mid, taken, others⟩)
        (List.forall_mem_cons.mpr ⟨typed, typedOthers⟩)
  | illTyped others fault =>
      exact .illTyped (takesChain_link.mpr ⟨mid, taken, others⟩) ⟨typed, fault⟩
  | malformed => exact .malformed

theorem answers_chain (p : Parser) : p.Answers p.chain.1 p.chain.2 := by
  fun_induction Parser.chain p with
  | case1 p e q failed => exact answers_of_stage_error failed
  | case2 p s q read rest pipe c r found ih =>
      obtain ⟨_, d, w⟩ := q
      cases pipe
      rw [found] at ih
      exact ih.link read
  | case3 p s q read rest pipe e r failed ih =>
      obtain ⟨_, d, w⟩ := q
      cases pipe
      rw [failed] at ih
      exact ih.link read
  | case4 p s q read _ =>
      obtain ⟨taken, typed⟩ := takesStage_of_ok read
      exact .ok (takesChain_single.mpr taken) (List.forall_mem_singleton.mpr typed)

theorem parse_eq_ok_iff : p.parse = (.ok chain, q) ↔
    p.TakesChain chain q ∧ q.rest = [] ∧ ∀ s ∈ chain.stages, s.isWellTyped := by
  constructor
  · intro h
    have answer := answers_chain p
    unfold parse at h
    split at h
    · rename_i found
      rw [found] at answer
      split at h
      · rename_i last
        cases h
        cases answer with
        | ok taken typed => exact ⟨taken, List.isEmpty_iff.mp last, typed⟩
      · cases h
    · cases h
  · rintro ⟨taken, last, typed⟩
    simp only [parse, chain_of_takesChain taken last typed, last, List.isEmpty_nil, ↓reduceIte]

theorem parse_eq_illTyped_iff : p.parse = (.error .illTyped, q) ↔
    ∃ chain, p.TakesChain chain q ∧ chain.EndsIllTyped := by
  constructor
  · intro h
    have answer := answers_chain p
    unfold parse at h
    split at h
    · split at h
      · cases h
      · cases h
    · rename_i found
      rw [found] at answer
      cases h
      cases answer with
      | illTyped taken fault => exact ⟨_, taken, fault⟩
  · rintro ⟨chain, taken, fault⟩
    simp only [parse, chain_of_endsIllTyped taken fault]

end Parser

namespace Grammar

/-- Levels of stages that a fresh parser has room for. -/
structure WithinLimits (ns : List Nat) : Prop where
  shallow : ∀ n ∈ ns, n ≤ 256
  light : weightOf ns ≤ 2048

/-- The tokens derive the chain within the limits, and all its stages are well-typed. -/
def Accepts (ts : List Token) (chain : Chain) : Prop :=
  ∃ ns, DerivesChain ts chain ns ∧ WithinLimits ns ∧ ∀ s ∈ chain.stages, s.isWellTyped

/-- The tokens derive a chain within the limits and end with its first ill-typed stage. -/
def IllTypedStart (ts : List Token) : Prop :=
  ∃ chain ns, DerivesChain ts chain ns ∧ WithinLimits ns ∧ chain.EndsIllTyped

theorem hasRoom_ofTokens {ts : List Token} {ns : List Nat} :
    (Parser.ofTokens ts).HasRoom ns ↔ WithinLimits ns := by
  constructor
  · rintro ⟨shallow, light⟩
    simp only [Parser.ofTokens, Nat.zero_add, List.map_id'] at shallow light
    exact ⟨shallow, light⟩
  · rintro ⟨shallow, light⟩
    refine ⟨?_, ?_⟩
    · simp only [Parser.ofTokens, Nat.zero_add]
      exact shallow
    · simp only [Parser.ofTokens, Nat.zero_add, List.map_id']
      exact light

end Grammar

namespace Chain

theorem ofTokens_eq_ok_iff {ts : List Token} {chain : Chain} :
    ofTokens ts = .ok chain ↔ Accepts ts chain := by
  constructor
  · intro h
    obtain ⟨⟨used, ns, tokens, derived, room, _⟩, last, typed⟩ :=
      Parser.parse_eq_ok_iff.mp (Prod.ext h rfl)
    rw [last, List.append_nil] at tokens
    subst tokens
    exact ⟨ns, derived, hasRoom_ofTokens.mp room, typed⟩
  · rintro ⟨ns, derived, limits, typed⟩
    have taken : (Parser.ofTokens ts).TakesChain chain ((Parser.ofTokens ts).behind ns []) :=
      ⟨ts, ns, (List.append_nil ts).symm, derived, hasRoom_ofTokens.mpr limits, rfl⟩
    exact congrArg Prod.fst (Parser.parse_eq_ok_iff.mpr ⟨taken, rfl, typed⟩)

theorem accepts_of_parse {source : String} {chain : Chain} (h : Chain.parse source = .ok chain) :
    Accepts (Token.scan source.toList) chain :=
  ofTokens_eq_ok_iff.mp ((parse_eq_ofTokens source).symm.trans h)

theorem typed_of_parse {source : String} {chain : Chain} (h : Chain.parse source = .ok chain) :
    ∀ s ∈ chain.stages, s.isWellTyped := by
  obtain ⟨_, _, _, typed⟩ := accepts_of_parse h
  exact typed

theorem ofTokens_of_illTypedStart {start : List Token} (h : IllTypedStart start)
    (rest : List Token) : ofTokens (start ++ rest) = .error .illTyped := by
  obtain ⟨chain, ns, derived, limits, fault⟩ := h
  have taken : (Parser.ofTokens (start ++ rest)).TakesChain chain
      ((Parser.ofTokens (start ++ rest)).behind ns rest) :=
    ⟨start, ns, rfl, derived, hasRoom_ofTokens.mpr limits, rfl⟩
  exact congrArg Prod.fst (Parser.parse_eq_illTyped_iff.mpr ⟨chain, taken, fault⟩)

theorem ofTokens_eq_illTyped_iff {ts : List Token} :
    ofTokens ts = .error .illTyped ↔ ∃ start rest, ts = start ++ rest ∧ IllTypedStart start := by
  constructor
  · intro h
    obtain ⟨chain, ⟨start, ns, tokens, derived, room, _⟩, fault⟩ :=
      Parser.parse_eq_illTyped_iff.mp (Prod.ext h rfl)
    exact ⟨start, _, tokens, chain, ns, derived, hasRoom_ofTokens.mp room, fault⟩
  · rintro ⟨start, rest, rfl, h⟩
    exact ofTokens_of_illTypedStart h rest

/-- Tokens are accepted as the chain that the grammar derives from them, which is the only one. -/
theorem ofTokens_derived (ts : List Token) :
    (∀ chain, ofTokens ts = .ok chain ↔
      ∃ ns, DerivesChain ts chain ns ∧ WithinLimits ns ∧ ∀ s ∈ chain.stages, s.isWellTyped) ∧
    ∀ chain chain' ns ns', DerivesChain ts chain ns → DerivesChain ts chain' ns' →
      chain = chain' ∧ ns = ns' :=
  ⟨fun _ => ofTokens_eq_ok_iff, fun _ _ _ _ h h' => h.unique h' rfl⟩

/-- A minus is an operator behind an operand and a sign in front of a number. -/
theorem ofTokens_derived_minus :
    let ts := [Token.mapOpen, .element, .minus, .minus, .number ['1'], .closeBrace]
    let chain := Chain.single (.map (.binary .element (.arith .minus) (.const (-1))))
    ofTokens ts = .ok chain ∧ ∀ chain' ns, DerivesChain ts chain' ns → chain' = chain := by
  intro ts chain
  have body : Derives .expression ([.element] ++ .minus :: [.minus, .number ['1']])
      (.binary .element (.arith .minus) (.const (-1))) 2 :=
    @Derives.operation _ _ _ _ (.arith .minus) _ _ .element (.last (.negative (by decide)))
  have derived : DerivesChain ts chain [2] := .single (@DerivesStage.intro _ (.map _) _ body)
  have ⟨accepted, unique⟩ := ofTokens_derived ts
  refine ⟨(accepted chain).mpr ⟨[2], derived, ⟨by decide, by decide⟩, by decide⟩, ?_⟩
  intro chain' ns other
  exact (unique chain' chain ns [2] other derived).1

/-- The first error decides: tokens are ill-typed if they start with a chain whose last stage is the
first ill-typed one, and then whatever follows has no influence. All other tokens that are not
accepted are malformed. -/
theorem ofTokens_first_error (ts : List Token) :
    (ofTokens ts = .error .illTyped ↔ ∃ start rest, ts = start ++ rest ∧ IllTypedStart start) ∧
    (∀ start rest, IllTypedStart start → ofTokens (start ++ rest) = .error .illTyped) ∧
    (ofTokens ts = .error .malformed ↔
      (∀ chain, ¬ Accepts ts chain) ∧
        ∀ start rest, ts = start ++ rest → ¬ IllTypedStart start) := by
  refine ⟨ofTokens_eq_illTyped_iff, fun start rest h => ofTokens_of_illTypedStart h rest, ?_⟩
  constructor
  · intro malformed
    constructor
    · intro chain accepted
      have read := ofTokens_eq_ok_iff.mpr accepted
      rw [malformed] at read
      cases read
    · rintro start rest rfl fault
      have failed := ofTokens_of_illTypedStart fault rest
      rw [malformed] at failed
      cases failed
  · rintro ⟨unaccepted, typed⟩
    cases answer : ofTokens ts with
    | ok chain => exact absurd (ofTokens_eq_ok_iff.mp answer) (unaccepted chain)
    | error e =>
        cases e with
        | malformed => rfl
        | illTyped =>
            obtain ⟨start, rest, split, fault⟩ := ofTokens_eq_illTyped_iff.mp answer
            exact absurd fault (typed start rest split)

/-- The first stage has the wrong type, the second one breaks off. -/
theorem ofTokens_first_error_broken_off :
    ofTokens [.mapOpen, .element, .greater, .minus, .number ['1'], .closeBrace, .pipe, .filterOpen,
      .openParen, .element] = .error .illTyped := by
  have body : Derives .expression ([.element] ++ .greater :: [.minus, .number ['1']])
      (.binary .element (.logic .gt) (.const (-1))) 2 :=
    @Derives.operation _ _ _ _ (.logic .gt) _ _ .element (.last (.negative (by decide)))
  have stage : DerivesChain [.mapOpen, .element, .greater, .minus, .number ['1'], .closeBrace]
      (.single (.map (.binary .element (.logic .gt) (.const (-1))))) [2] :=
    .single (@DerivesStage.intro _ (.map _) _ body)
  exact (ofTokens_first_error []).2.1 _ [.pipe, .filterOpen, .openParen, .element]
    ⟨_, [2], stage, ⟨by decide, by decide⟩, Bool.false_ne_true⟩

end Chain
end StageChain
