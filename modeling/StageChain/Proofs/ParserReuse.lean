import StageChain.Proofs.ParserSteps

/-! A parser that is asked again after it has failed. It goes on where it stopped, and still counts the
levels it had open and the weight of the stages it had read. Its steps never go back, and leave every
expression for the depth at which it was entered. What was counted before can only make it refuse more
than a parser that begins at the same token. -/
namespace StageChain
namespace Parser
namespace Moment

/-! ## What a step does -/

/-- What a step does to the depth, and to the expressions that are not left yet. -/
inductive Shift (m n : Moment) : Prop
  | stay (depth : n.depth = m.depth) (entries : n.task.entries = m.task.entries)
  /-- A failure leaves no expression, and the depth as it is. -/
  | stop (depth : n.depth = m.depth) (entries : n.task.entries = [])
  | enter (free : m.depth < maxNesting) (depth : n.depth = m.depth + 1)
      (entries : n.task.entries = m.depth :: m.task.entries)
  | leave {entry : Nat} (depth : n.depth = m.depth - 1)
      (entries : m.task.entries = entry :: n.task.entries)

structure Moves (m n : Moment) : Prop where
  rest : n.rest <:+ m.rest
  weight : m.weight ≤ n.weight
  depth : Shift m n

variable {m : Moment} {rest : List Token} {task : Task} {entry : Nat} {place : Place}

theorem moves_turn (suffix : rest <:+ m.rest) (same : task.entries = m.task.entries) :
    Moves m (m.turn rest task) :=
  ⟨suffix, Nat.le_refl _, .stay rfl same⟩

theorem moves_answer (suffix : rest <:+ m.rest) (r : Except CompileError Chain) :
    Moves m (m.turn rest (.answer r)) :=
  ⟨suffix, Nat.le_refl _, .stop rfl rfl⟩

theorem moves_fail (suffix : rest <:+ m.rest) : Moves m (m.fail rest) := moves_answer suffix _

theorem moves_leave {e : Expr} (inside : m.task.entries = entry :: place.frames.map Frame.entry) :
    Moves m (m.leave place e) :=
  ⟨List.suffix_rfl, Nat.le_refl _, .leave rfl inside⟩

theorem moves_stage {before : List Stage} (outside : m.task.entries = []) :
    Moves m (m.stage before) := by
  unfold stage
  split
  · exact moves_fail (List.nil_suffix)
  · rename_i t rest tokens
    have suffix : rest <:+ m.rest := tokens ▸ List.suffix_cons t rest
    split
    · exact moves_fail suffix
    · exact ⟨suffix, Nat.le_refl _, .stay rfl outside.symm⟩

theorem moves_enter (inside : m.task.entries = place.frames.map Frame.entry) :
    Moves m (m.enter place) := by
  unfold enter
  split
  · rename_i free
    exact ⟨List.suffix_rfl, Nat.le_refl _, .enter free rfl (congrArg (m.depth :: ·) inside.symm)⟩
  · exact moves_fail List.suffix_rfl

theorem moves_literal (inside : m.task.entries = entry :: place.frames.map Frame.entry)
    {text : List Char} (suffix : rest <:+ m.rest) : Moves m (m.literal entry place text rest) := by
  unfold literal
  split
  · exact moves_turn suffix inside.symm
  · exact moves_fail suffix

theorem moves_operand (inside : m.task.entries = entry :: place.frames.map Frame.entry) :
    Moves m (m.operand entry place) := by
  have behind : ∀ {t ts}, m.rest = t :: ts → ts <:+ m.rest := by
    intro t ts tokens
    rw [tokens]
    exact List.suffix_cons t ts
  unfold operand
  split
  · rename_i tokens
    exact moves_turn (behind tokens) inside.symm
  · rename_i tokens
    exact moves_literal inside ((List.suffix_cons _ _).trans (behind tokens))
  · rename_i tokens
    exact moves_fail ((List.tail_suffix _).trans (behind tokens))
  · rename_i tokens
    exact moves_literal inside (behind tokens)
  · rename_i tokens
    exact moves_turn (behind tokens) inside.symm
  · exact moves_fail (List.tail_suffix _)

theorem moves_operator {left : Expr} (inside : m.task.entries = entry :: place.frames.map Frame.entry) :
    Moves m (m.operator entry place left) := by
  unfold operator
  split
  · exact moves_turn (List.tail_suffix _) inside.symm
  · exact moves_leave inside

theorem entries_verdict (weight : Nat) (before : List Stage) (s : Stage) :
    (verdict weight before s).entries = [] := by
  unfold verdict
  split
  · rfl
  · split
    · rfl
    · rfl

theorem moves_weigh {before : List Stage} {s : Stage} (suffix : rest <:+ m.rest) :
    Moves m (m.weigh before s rest) :=
  ⟨suffix, Nat.le_add_right _ _, .stop rfl (entries_verdict _ before s)⟩

theorem moves_closing {e : Expr} (inside : m.task.entries = place.frames.map Frame.entry) :
    Moves m (m.closing place e) := by
  unfold closing
  split
  · rename_i frames around
    rw [around] at inside
    exact moves_leave inside
  · rename_i frames around
    rw [around] at inside
    split
    · rename_i tokens
      exact moves_turn (tokens ▸ List.suffix_cons _ _) inside.symm
    · exact moves_fail (List.tail_suffix _)
  · split
    · rename_i tokens
      exact moves_weigh (tokens ▸ List.suffix_cons _ _)
    · exact moves_fail (List.tail_suffix _)

theorem moves_pipe {before : List Stage} (outside : m.task.entries = []) :
    Moves m (m.pipe before) := by
  unfold pipe
  split
  · rename_i tokens
    exact moves_turn (tokens ▸ List.suffix_cons _ _) outside.symm
  · exact moves_answer List.suffix_rfl _

/-- Each task is told by the expressions that are open in it. -/
theorem moves_next (m : Moment) : Moves m m.next := by
  obtain ⟨p, k, task⟩ := m
  cases task with
  | stage before => exact moves_stage rfl
  | expression place => exact moves_enter rfl
  | operand entry place => exact moves_operand rfl
  | operator entry place left => exact moves_operator rfl
  | closing place e => exact moves_closing rfl
  | pipe before => exact moves_pipe rfl
  | answer r => exact ⟨List.suffix_rfl, Nat.le_refl _, .stay rfl rfl⟩

/-! ## What a run keeps -/

/-- The depth is one more than the depth at which the last expression was entered, which in turn was
entered one level below the one around it. -/
def Descending : Nat → List Nat → Prop
  | _, [] => True
  | d, entry :: around => d = entry + 1 ∧ Descending entry around

theorem Descending.lt {d : Nat} {entries : List Nat} (h : Descending d entries) :
    ∀ entry ∈ entries, entry < d := by
  induction entries generalizing d with
  | nil =>
      intro entry mem
      cases mem
  | cons last around ih =>
      obtain ⟨rfl, outer⟩ := h
      intro entry mem
      rcases List.mem_cons.mp mem with rfl | mem
      · exact Nat.lt_succ_self _
      · exact Nat.lt_succ_of_lt (ih outer entry mem)

structure Sound (m : Moment) : Prop where
  bounded : m.depth ≤ maxNesting
  levels : Descending m.depth m.task.entries

theorem sound_start {p : Parser} (h : p.depth ≤ maxNesting) (k : Nat) : Sound (start p k) :=
  ⟨h, trivial⟩

theorem Sound.step (h : Sound m) : Sound m.next := by
  obtain ⟨bounded, levels⟩ := h
  cases (moves_next m).depth with
  | stay depth entries =>
      refine ⟨depth ▸ bounded, ?_⟩
      rw [depth, entries]
      exact levels
  | stop depth entries =>
      refine ⟨depth ▸ bounded, ?_⟩
      rw [entries]
      trivial
  | enter free depth entries =>
      refine ⟨depth ▸ free, ?_⟩
      rw [depth, entries]
      exact ⟨rfl, levels⟩
  | leave depth entries =>
      rw [entries] at levels
      obtain ⟨level, outer⟩ := levels
      have back : m.next.depth = _ := depth.trans (congrArg (· - 1) level)
      refine ⟨?_, ?_⟩
      · omega
      · rw [back]
        exact outer

theorem Sound.iterate (h : Sound m) (t : Nat) : Sound (next^[t] m) := by
  induction t with
  | zero => exact h
  | succ t ih =>
      rw [Function.iterate_succ_apply']
      exact ih.step

/-- An expression is left for the depth at which it was entered, and not for a smaller one. -/
theorem Sound.entry_le_next (h : Sound m) : ∀ entry ∈ m.task.entries, entry ≤ m.next.depth := by
  intro entry mem
  have below : entry < m.depth := h.levels.lt entry mem
  cases (moves_next m).depth with
  | stay depth _ => omega
  | stop depth _ => omega
  | enter _ depth _ => omega
  | leave depth _ => omega

theorem iterate_rest (m : Moment) (t : Nat) : (next^[t] m).rest <:+ m.rest := by
  induction t with
  | zero => exact List.suffix_rfl
  | succ t ih =>
      rw [Function.iterate_succ_apply']
      exact (moves_next _).rest.trans ih

theorem le_iterate_weight (m : Moment) (t : Nat) : m.weight ≤ (next^[t] m).weight := by
  induction t with
  | zero => exact Nat.le_refl _
  | succ t ih =>
      rw [Function.iterate_succ_apply']
      exact Nat.le_trans ih (moves_next _).weight

/-- A moment, and the step behind it, in the parsing of the given tokens. -/
structure Orderly (tokens : List Token) (m : Moment) : Prop where
  /-- The cursor has not passed the end. -/
  rest : m.rest <:+ tokens
  /-- The cursor does not go back. -/
  cursor : m.next.rest <:+ m.rest
  weight : m.weight ≤ m.next.weight
  depth : m.depth ≤ 256
  /-- Every expression that was entered and not left counts as a level. -/
  entered : ∀ entry ∈ m.task.entries, entry < m.depth
  /-- The step does not lower the depth below where any of them was entered. -/
  kept : ∀ entry ∈ m.task.entries, entry ≤ m.next.depth

theorem Sound.orderly {tokens : List Token} (h : Sound m) (suffix : m.rest <:+ tokens) :
    Orderly tokens m where
  rest := suffix
  cursor := (moves_next m).rest
  weight := (moves_next m).weight
  depth := h.bounded
  entered := h.levels.lt
  kept := h.entry_le_next

end Moment

/-! ## What a call keeps -/

open Moment

variable {p : Parser}

/-- What holds at all moments of a call holds behind it. -/
theorem parse_of_iterate {C : Parser → Prop} (k : Nat) (h : ∀ t, C (next^[t] (start p k)).toParser) :
    C p.parse.2 := by
  obtain ⟨k', t, reached⟩ := reaches_parse p k
  have last := h t
  rw [reached] at last
  exact last

theorem parse_rest (p : Parser) : p.parse.2.rest <:+ p.rest :=
  parse_of_iterate (C := fun q => q.rest <:+ p.rest) 0 (iterate_rest (start p 0))

theorem le_parse_weight (p : Parser) : p.weight ≤ p.parse.2.weight :=
  parse_of_iterate (C := fun q => p.weight ≤ q.weight) 0 (le_iterate_weight (start p 0))

theorem parse_depth_le (h : p.depth ≤ maxNesting) : p.parse.2.depth ≤ maxNesting :=
  parse_of_iterate (C := fun q => q.depth ≤ maxNesting) 0 fun t => ((sound_start h 0).iterate t).bounded

/-- The first step takes a token, whatever it makes of it. -/
theorem parse_consumes (h : p.rest ≠ []) : p.parse.2.rest.length < p.rest.length := by
  obtain ⟨ts, d, w⟩ := p
  obtain ⟨t, ts, rfl⟩ := List.exists_cons_of_ne_nil h
  obtain ⟨k, s, reached⟩ := reaches_parse ⟨t :: ts, d, w⟩ 0
  have first : (Moment.next (start ⟨t :: ts, d, w⟩ 0)).rest = ts := by
    simp only [start, next, Moment.stage]
    cases opening? t with
    | none => rfl
    | some make => rfl
  cases s with
  | zero => cases congrArg Moment.task reached
  | succ s =>
      have others := iterate_rest (Moment.next (start ⟨t :: ts, d, w⟩ 0)) s
      rw [Function.iterate_succ_apply] at reached
      rw [reached, first] at others
      exact Nat.lt_succ_of_le others.length_le

theorem parse_of_stage_error {e : CompileError} {q : Parser} (h : p.stage = (.error e, q)) :
    p.parse = (.error e, q) := by
  rw [parse, chain_of_error h]

theorem parse_of_last_stage {s : Stage} {q : Parser} (h : p.stage = (.ok s, q)) (last : q.rest = []) :
    p.parse = (.ok (.single s), q) := by
  rw [parse, chain_of_last h last]
  simp only [last, List.isEmpty_nil, ↓reduceIte]

theorem parse_of_rest_nil (h : p.rest = []) : p.parse = (.error .malformed, p) :=
  parse_of_stage_error (by simp only [Parser.stage, h])

theorem iterate_next_of_rest_nil (h : p.rest = []) (k t : Nat) :
    (next^[t] (start p k)).toParser = p ∧ (next^[t] (start p k)).deepest = k := by
  obtain ⟨ts, d, w⟩ := p
  cases h
  cases t with
  | zero => exact ⟨rfl, rfl⟩
  | succ t =>
      have ended : Moment.next (start ⟨[], d, w⟩ k) = ⟨⟨[], d, w⟩, k, .answer (.error .malformed)⟩ := rfl
      rw [Function.iterate_succ_apply, ended, iterate_next_answer]
      exact ⟨rfl, rfl⟩

theorem parse_ok {chain : Chain} (h : p.parse.1 = .ok chain) :
    p.parse.2.depth = p.depth ∧ p.parse.2.rest = [] := by
  obtain ⟨⟨_, _, _, _, _, state⟩, last, _⟩ := parse_eq_ok_iff.mp (Prod.ext h rfl)
  have kept := congrArg Parser.depth state
  exact ⟨kept, last⟩

/-! ## Calls on one parser -/

/-- The parser after some calls. -/
def afterCalls : Nat → Parser → Parser
  | 0, p => p
  | n + 1, p => afterCalls n p.parse.2

theorem afterCalls_rest (n : Nat) (p : Parser) : (afterCalls n p).rest <:+ p.rest := by
  induction n generalizing p with
  | zero => exact List.suffix_rfl
  | succ n ih => exact (ih p.parse.2).trans (parse_rest p)

theorem afterCalls_depth_le (n : Nat) (h : p.depth ≤ maxNesting) :
    (afterCalls n p).depth ≤ maxNesting := by
  induction n generalizing p with
  | zero => exact h
  | succ n ih => exact ih (parse_depth_le h)

theorem parseTimes_succ (n : Nat) (p : Parser) :
    parseTimes (n + 1) p = parseTimes n p ++ [(afterCalls n p).parse.1] := by
  induction n generalizing p with
  | zero => rfl
  | succ n ih =>
      rw [parseTimes, ih, parseTimes, List.cons_append]
      rfl

theorem parseTimes_of_rest_nil (n : Nat) (h : p.rest = []) :
    parseTimes n p = List.replicate n (.error .malformed) := by
  induction n with
  | zero => rfl
  | succ n ih => rw [parseTimes, parse_of_rest_nil h, ih, List.replicate_succ]

/-- Behind an accepted chain nothing is left to accept. -/
theorem countP_parseTimes_le (n : Nat) (p : Parser) : (parseTimes n p).countP Except.isOk ≤ 1 := by
  induction n generalizing p with
  | zero => exact Nat.zero_le 1
  | succ n ih =>
      rw [parseTimes]
      cases answer : p.parse.1 with
      | error e =>
          rw [List.countP_cons_of_neg Bool.false_ne_true]
          exact ih p.parse.2
      | ok chain =>
          rw [parseTimes_of_rest_nil n (parse_ok answer).2, List.countP_cons_of_pos rfl,
            List.countP_replicate]
          exact Nat.le_refl 1

/-- However often a parser is asked, each call comes to its answer by orderly steps. It takes a token
at least unless none is left, and then it fails and changes nothing. A call that succeeds leaves the
depth as it was and no tokens, so there is one of them at most. -/
theorem reuse_orderly (tokens : List Token) (n : Nat) :
    let p := afterCalls n (ofTokens tokens)
    let q := p.parse.2
    (∀ k, (∃ t k', ∀ s, t ≤ s → next^[s] (start p k) = ⟨q, k', .answer p.parse.1⟩) ∧
      ∀ t, Orderly tokens (next^[t] (start p k))) ∧
    (q.rest <:+ p.rest ∧ p.weight ≤ q.weight ∧ q.depth ≤ 256) ∧
    (p.rest ≠ [] → q.rest.length < p.rest.length) ∧
    (∀ chain, p.parse.1 = .ok chain → q.depth = p.depth ∧ q.rest = []) ∧
    (p.rest = [] → p.parse = (.error .malformed, p) ∧
      ∀ k t, (next^[t] (start p k)).toParser = p ∧ (next^[t] (start p k)).deepest = k) ∧
    parseTimes (n + 1) (ofTokens tokens) = parseTimes n (ofTokens tokens) ++ [p.parse.1] ∧
    (parseTimes n (ofTokens tokens)).countP Except.isOk ≤ 1 := by
  intro p q
  have bounded : p.depth ≤ maxNesting := afterCalls_depth_le n (Nat.zero_le maxNesting)
  have suffix : p.rest <:+ tokens := afterCalls_rest n (ofTokens tokens)
  refine ⟨?_, ⟨parse_rest p, le_parse_weight p, parse_depth_le bounded⟩, parse_consumes,
    fun _ => parse_ok, ?_, parseTimes_succ n _, countP_parseTimes_le n _⟩
  · intro k
    obtain ⟨k', reached⟩ := reaches_parse p k
    obtain ⟨t, stays⟩ := reached.iterate_eq
    refine ⟨⟨t, k', stays⟩, ?_⟩
    intro t
    exact ((sound_start bounded k).iterate t).orderly ((iterate_rest (start p k) t).trans suffix)
  · intro ended
    exact ⟨parse_of_rest_nil ended, iterate_next_of_rest_nil ended⟩

/-- A stage that breaks off leaves a level open. The stage behind it is accepted one level deeper, and
the level stays open. -/
theorem reuse_orderly_open_level :
    let tokens := [.mapOpen, .plus, .mapOpen, .element, .closeBrace]
    let p := afterCalls 1 (ofTokens tokens)
    let q := p.parse.2
    p = ⟨[.mapOpen, .element, .closeBrace], 1, 0⟩ ∧ p.rest ≠ [] ∧ q.rest.length < p.rest.length ∧
      1 ∈ (next^[2] (start p 0)).task.entries ∧ 1 < (next^[2] (start p 0)).depth ∧
      p.parse.1 = .ok (.single (.map .element)) ∧ q.depth = 1 ∧ q.rest = [] ∧
      q = afterCalls 2 (ofTokens tokens) ∧ q.parse = (.error .malformed, q) := by
  intro tokens p q
  have left : p = ⟨[.mapOpen, .element, .closeBrace], 1, 0⟩ :=
    congrArg Prod.snd (parse_of_stage_error (p := ofTokens tokens) (e := .malformed) (by decide))
  have accepted : p.parse = (.ok (.single (.map .element)), ⟨[], 1, 3⟩) := by
    rw [left]
    exact parse_of_last_stage (by decide) rfl
  have some_left : p.rest ≠ [] := by
    rw [left]
    exact List.cons_ne_nil _ _
  have entered : 1 ∈ (next^[2] (start p 0)).task.entries := by
    rw [left]
    exact List.mem_cons_self
  obtain ⟨steps, _, consumes, succeeds, _⟩ := reuse_orderly tokens 1
  obtain ⟨_, _, _, _, ends, _⟩ := reuse_orderly tokens 2
  obtain ⟨depth, last⟩ := succeeds _ (congrArg Prod.fst accepted)
  exact ⟨left, some_left, consumes some_left, entered, ((steps 0).2 2).entered 1 entered,
    congrArg Prod.fst accepted, depth.trans (congrArg Parser.depth left), last, rfl, (ends last).1⟩

/-! ## A parser that counts less

The runs of two parsers over the same tokens are compared by what the grammar derives: an answer that
takes a chain within the limits stands for any parser that has more room. -/

theorem weightOf_map_add_le {d d' : Nat} (h : d' ≤ d) (levels : List Nat) :
    Grammar.weightOf (levels.map (d' + ·)) ≤ Grammar.weightOf (levels.map (d + ·)) := by
  induction levels with
  | nil => exact Nat.le_refl 0
  | cons n levels ih =>
      simp only [List.map_cons, Grammar.weightOf]
      omega

/-- Everything that the second parser counts, the first one counts too. -/
structure Freer (q p : Parser) : Prop where
  rest : q.rest = p.rest
  depth : q.depth ≤ p.depth
  weight : q.weight ≤ p.weight

theorem freer_ofTokens (p : Parser) : Freer (ofTokens p.rest) p :=
  ⟨rfl, Nat.zero_le _, Nat.zero_le _⟩

theorem Freer.hasRoom {q : Parser} (h : Freer q p) {levels : List Nat} (room : p.HasRoom levels) :
    q.HasRoom levels := by
  obtain ⟨shallow, light⟩ := room
  refine ⟨?_, ?_⟩
  · intro n mem
    exact Nat.le_trans (Nat.add_le_add_right h.depth n) (shallow n mem)
  · exact Nat.le_trans (Nat.add_le_add h.weight (weightOf_map_add_le h.depth levels)) light

theorem Freer.takesChain {q r : Parser} (h : Freer q p) {chain : Chain} (taken : p.TakesChain chain r) :
    ∃ s, q.TakesChain chain s ∧ s.rest = r.rest := by
  obtain ⟨used, ns, tokens, derived, room, _⟩ := taken
  exact ⟨q.behind ns r.rest, ⟨used, ns, h.rest.trans tokens, derived, h.hasRoom room, rfl⟩, rfl⟩

theorem Freer.parse_ok {q : Parser} (h : Freer q p) {chain : Chain} (accepted : p.parse.1 = .ok chain) :
    q.parse.1 = .ok chain := by
  obtain ⟨taken, last, typed⟩ := parse_eq_ok_iff.mp (Prod.ext accepted rfl)
  obtain ⟨s, others, same⟩ := h.takesChain taken
  exact congrArg Prod.fst (parse_eq_ok_iff.mpr ⟨others, same.trans last, typed⟩)

theorem Freer.parse_illTyped {q : Parser} (h : Freer q p) (fault : p.parse.1 = .error .illTyped) :
    q.parse.1 = .error .illTyped := by
  obtain ⟨chain, taken, last⟩ := parse_eq_illTyped_iff.mp (Prod.ext fault rfl)
  obtain ⟨s, others, _⟩ := h.takesChain taken
  exact congrArg Prod.fst (parse_eq_illTyped_iff.mpr ⟨chain, others, last⟩)

/-- Room is all that a parser can lack where a new one accepts. -/
theorem parse_ok_of_hasRoom {chain : Chain} {ns : List Nat} (fresh : Chain.ofTokens p.rest = .ok chain)
    (derived : Grammar.DerivesChain p.rest chain ns) (room : p.HasRoom ns) : p.parse.1 = .ok chain := by
  obtain ⟨_, _, typed⟩ := parse_eq_ok_iff.mp (Prod.ext fresh rfl)
  have taken : p.TakesChain chain (p.behind ns []) :=
    ⟨p.rest, ns, (List.append_nil _).symm, derived, room, rfl⟩
  exact congrArg Prod.fst (parse_eq_ok_iff.mpr ⟨taken, rfl, typed⟩)

/-- Parentheses alone use up the room there is. -/
theorem expression_openParens (n : Nat) (ts : List Token) :
    Reading.expression n (List.replicate n .openParen ++ ts) = .error ⟨n, ts⟩ := by
  induction n with
  | zero => rfl
  | succ n ih =>
      rw [List.replicate_succ, List.cons_append]
      exact Reading.expression_operand_error (Reading.operand_paren_error ih)

/-- A chain or a type error is the answer of a new parser over the tokens that are left, too. Where a
parser that was asked before answers otherwise, it finds the tokens malformed. It accepts what a new
one accepts as long as it has room for the levels of the stages. -/
theorem reuse_stricter (tokens : List Token) (n : Nat) :
    let p := afterCalls n (ofTokens tokens)
    p.rest <:+ tokens ∧
    (∀ chain, p.parse.1 = .ok chain → Chain.ofTokens p.rest = .ok chain) ∧
    (p.parse.1 = .error .illTyped → Chain.ofTokens p.rest = .error .illTyped) ∧
    (p.parse.1 ≠ Chain.ofTokens p.rest → p.parse.1 = .error .malformed) ∧
    ∀ chain ns, Chain.ofTokens p.rest = .ok chain → Grammar.DerivesChain p.rest chain ns →
      p.HasRoom ns → p.parse.1 = .ok chain := by
  intro p
  have fresh : Freer (ofTokens p.rest) p := freer_ofTokens p
  refine ⟨afterCalls_rest n (ofTokens tokens), fun _ => fresh.parse_ok, fresh.parse_illTyped, ?_,
    fun _ _ => parse_ok_of_hasRoom⟩
  intro differs
  cases answer : p.parse.1 with
  | ok chain => exact absurd (answer.trans (fresh.parse_ok answer).symm) differs
  | error e =>
      cases e with
      | malformed => rfl
      | illTyped => exact absurd (answer.trans (fresh.parse_illTyped answer).symm) differs

/-- A level that was left open makes no difference to a stage with few levels, whether it is accepted
or has the wrong type. If all levels were left open, the same stage is refused. -/
theorem reuse_stricter_open_levels :
    let accepted : List Token := [.mapOpen, .element, .closeBrace]
    let fault : List Token := [.filterOpen, .element, .closeBrace]
    let opened : List Token := .mapOpen :: (List.replicate 256 .openParen ++ accepted)
    let chain := Chain.single (.map .element)
    let p := afterCalls 1 (ofTokens (.mapOpen :: .plus :: accepted))
    let q := afterCalls 1 (ofTokens (.mapOpen :: .plus :: fault))
    let r := afterCalls 1 (ofTokens opened)
    (p.rest = accepted ∧ Grammar.DerivesChain accepted chain [1] ∧ p.HasRoom [1] ∧
        p.parse.1 = .ok chain ∧ Chain.ofTokens p.rest = .ok chain) ∧
      (q.parse.1 = .error .illTyped ∧ Chain.ofTokens q.rest = .error .illTyped) ∧
      r.rest = accepted ∧ r.parse.1 ≠ Chain.ofTokens r.rest ∧ r.parse.1 = .error .malformed := by
  intro accepted fault opened chain p q r
  have atP : p = ⟨accepted, 1, 0⟩ :=
    congrArg Prod.snd (parse_of_stage_error (e := .malformed) (by decide))
  have atQ : q = ⟨fault, 1, 0⟩ :=
    congrArg Prod.snd (parse_of_stage_error (e := .malformed) (by decide))
  have atR : r = ⟨accepted, 256, 0⟩ := by
    have broken : (ofTokens opened).stage = (.error .malformed, ⟨accepted, 256, 0⟩) := by
      simp only [Parser.stage, ofTokens, opened, opening?, Nat.sub_zero, maxNesting,
        expression_openParens]
    exact congrArg Prod.snd (parse_of_stage_error broken)
  have fresh : Chain.ofTokens accepted = .ok chain :=
    congrArg Prod.fst (parse_of_last_stage (q := ⟨[], 0, 2⟩) (by decide) rfl)
  have derived : Grammar.DerivesChain accepted chain [1] :=
    .single (@Grammar.DerivesStage.intro [.element] (.map .element) 1 (.last .element))
  have room : p.HasRoom [1] := by
    rw [atP]
    exact hasRoom_singleton.mpr (by decide)
  have restP : p.rest = accepted := congrArg Parser.rest atP
  have answerP : p.parse.1 = .ok chain := by
    refine (reuse_stricter _ 1).2.2.2.2 chain [1] ?_ ?_ room
    · exact (congrArg Chain.ofTokens restP).trans fresh
    · exact Eq.mpr (congrArg (Grammar.DerivesChain · chain [1]) restP) derived
  have answerQ : q.parse.1 = .error .illTyped := by
    rw [atQ]
    exact congrArg Prod.fst (parse_of_stage_error (q := ⟨[], 1, 3⟩) (by decide))
  have differs : r.parse.1 ≠ Chain.ofTokens r.rest := by
    have refused : r.parse = (.error .malformed, ⟨[.element, .closeBrace], 256, 0⟩) := by
      rw [atR]
      exact parse_of_stage_error (by decide)
    rw [refused, atR, fresh]
    intro same
    cases same
  refine ⟨⟨restP, derived, room, answerP, (reuse_stricter _ 1).2.1 chain answerP⟩,
    ⟨answerQ, (reuse_stricter _ 1).2.2.1 answerQ⟩, congrArg Parser.rest atR, differs, ?_⟩
  exact (reuse_stricter opened 1).2.2.2.1 differs

end Parser
end StageChain
