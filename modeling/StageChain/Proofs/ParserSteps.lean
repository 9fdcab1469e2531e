import Mathlib.Logic.Function.Iterate
import StageChain.Proofs.Acceptance

/-! A parser at work, one step at a time. A step takes a token or two, enters an expression, leaves
one, or weighs a stage. Between the steps everything can be seen that the parser counts: the tokens
left, the depth, the deepest level of the stage, and the weight. The steps from a stage to an answer
come to what `Parser.parse` says. -/
namespace StageChain
namespace Parser

/-- An expression in the middle of which another one is read, with the depth it was entered at. -/
inductive Frame
  /-- The other one stands in parentheses and is its first operand. -/
  | paren (entry : Nat)
  /-- The other one stands behind its operator. -/
  | right (entry : Nat) (left : Expr) (op : Operator)

def Frame.entry : Frame → Nat
  | paren entry | right entry _ _ => entry

/-- Where an expression is read: the stages before its own, the kind of its own, and the expressions
around it, the innermost first. -/
structure Place where
  before : List Stage
  make : Expr → Stage
  frames : List Frame

def Place.within (place : Place) (frame : Frame) : Place :=
  { place with frames := frame :: place.frames }

/-- What a parser turns to next. -/
inductive Task
  /-- A stage, behind the ones read before. -/
  | stage (before : List Stage)
  /-- An expression that is to be entered. -/
  | expression (place : Place)
  /-- The first operand of an expression that was entered at the given depth. -/
  | operand (entry : Nat) (place : Place)
  /-- The operator behind that operand, if there is one. -/
  | operator (entry : Nat) (place : Place) (left : Expr)
  /-- What has to follow a whole expression. -/
  | closing (place : Place) (e : Expr)
  /-- What follows a whole stage. -/
  | pipe (before : List Stage)
  /-- Nothing: the call has ended. -/
  | answer (r : Except CompileError Chain)

/-- The depths at which the expressions were entered that are not left yet, the last one first. -/
def Task.entries : Task → List Nat
  | operand entry place | operator entry place _ => entry :: place.frames.map Frame.entry
  | expression place | closing place _ => place.frames.map Frame.entry
  | stage _ | pipe _ | answer _ => []

/-- A parser between two steps. -/
structure Moment extends Parser where
  /-- The greatest depth since the stage began. -/
  deepest : Nat
  task : Task

namespace Moment

/-- The begin of a call. The deepest level is what the call before has left. -/
def start (p : Parser) (deepest : Nat) : Moment := ⟨p, deepest, .stage []⟩

/-! ## Steps -/

/-- Goes on with another task, with the given tokens left. -/
def turn (m : Moment) (rest : List Token) (task : Task) : Moment := { m with rest, task }

def fail (m : Moment) (rest : List Token) : Moment := m.turn rest (.answer (.error .malformed))

def stage (m : Moment) (before : List Stage) : Moment :=
  match m.rest with
  | [] => m.fail []
  | t :: rest =>
      match opening? t with
      | none => m.fail rest
      | some make => { m.turn rest (.expression ⟨before, make, []⟩) with deepest := 0 }

def enter (m : Moment) (place : Place) : Moment :=
  if m.depth < maxNesting then
    { m with
      depth := m.depth + 1
      deepest := max m.deepest (m.depth + 1)
      task := .operand m.depth place }
  else m.fail m.rest

def leave (m : Moment) (place : Place) (e : Expr) : Moment :=
  { m with depth := m.depth - 1, task := .closing place e }

def literal (m : Moment) (entry : Nat) (place : Place) (text : List Char) (rest : List Token) :
    Moment :=
  match Decimal.toWord? text with
  | some n => m.turn rest (.operator entry place (.const n))
  | none => m.fail rest

def operand (m : Moment) (entry : Nat) (place : Place) : Moment :=
  match m.rest with
  | .element :: rest => m.turn rest (.operator entry place .element)
  | .minus :: .number text :: rest => m.literal entry place ('-' :: text) rest
  | .minus :: rest => m.fail rest.tail
  | .number text :: rest => m.literal entry place text rest
  | .openParen :: rest => m.turn rest (.expression (place.within (.paren entry)))
  | rest => m.fail rest.tail

def operator (m : Moment) (entry : Nat) (place : Place) (left : Expr) : Moment :=
  match m.rest.head?.bind Token.operator? with
  | some op => m.turn m.rest.tail (.expression (place.within (.right entry left op)))
  | none => m.leave place left

/-- What comes of a stage that brings the weight to the given one. -/
def verdict (weight : Nat) (before : List Stage) (stage : Stage) : Task :=
  if maxWeight < weight then .answer (.error .malformed)
  else if stage.isWellTyped then .pipe (before ++ [stage])
  else .answer (.error .illTyped)

/-- Adds the deepest level of a stage to the weight and checks the stage. -/
def weigh (m : Moment) (before : List Stage) (stage : Stage) (rest : List Token) : Moment :=
  let weight := m.weight + (m.deepest + 1)
  { m with rest, weight, task := verdict weight before stage }

def closing (m : Moment) (place : Place) (e : Expr) : Moment :=
  match place.frames with
  | .right _ left op :: frames => m.leave { place with frames } (.binary left op e)
  | .paren entry :: frames =>
      match m.rest with
      | .closeParen :: rest => m.turn rest (.operator entry { place with frames } e)
      | rest => m.fail rest.tail
  | [] =>
      match m.rest with
      | .closeBrace :: rest => m.weigh place.before (place.make e) rest
      | rest => m.fail rest.tail

/-- The chain of the stages, if nothing is left. -/
def conclude (before : List Stage) (rest : List Token) : Except CompileError Chain :=
  match Chain.ofStages? before with
  | some chain => if rest.isEmpty then .ok chain else .error .malformed
  | none => .error .malformed

def pipe (m : Moment) (before : List Stage) : Moment :=
  match m.rest with
  | .pipe :: rest => m.turn rest (.stage before)
  | rest => m.turn rest (.answer (conclude before rest))

/-- One step. Behind an answer there are none, and nothing changes. -/
def next (m : Moment) : Moment :=
  match m.task with
  | .stage before => m.stage before
  | .expression place => m.enter place
  | .operand entry place => m.operand entry place
  | .operator entry place left => m.operator entry place left
  | .closing place e => m.closing place e
  | .pipe before => m.pipe before
  | .answer _ => m

/-! ## Reaching a moment -/

def Reaches (m m' : Moment) : Prop := ∃ t, next^[t] m = m'

theorem Reaches.refl (m : Moment) : Reaches m m := ⟨0, rfl⟩

theorem reaches_next (m : Moment) : Reaches m m.next := ⟨1, rfl⟩

theorem Reaches.trans {a b c : Moment} (first : Reaches a b) (second : Reaches b c) :
    Reaches a c := by
  obtain ⟨t, rfl⟩ := first
  obtain ⟨s, rfl⟩ := second
  exact ⟨s + t, Function.iterate_add_apply next s t a⟩

theorem Reaches.of_next {m n m' : Moment} (step : m.next = n) (h : Reaches n m') : Reaches m m' :=
  (step ▸ reaches_next m).trans h

theorem Reaches.then_next {m m' n : Moment} (h : Reaches m m') (step : m'.next = n) : Reaches m n :=
  h.trans (step ▸ reaches_next m')

/-- An answer is there for good. -/
theorem iterate_next_answer (p : Parser) (k : Nat) (r : Except CompileError Chain) (t : Nat) :
    next^[t] ⟨p, k, .answer r⟩ = ⟨p, k, .answer r⟩ :=
  Function.iterate_fixed rfl t

theorem Reaches.iterate_eq {m : Moment} {p : Parser} {k : Nat} {r : Except CompileError Chain}
    (h : Reaches m ⟨p, k, .answer r⟩) : ∃ t, ∀ s, t ≤ s → next^[s] m = ⟨p, k, .answer r⟩ := by
  obtain ⟨t, reached⟩ := h
  refine ⟨t, ?_⟩
  intro s late
  obtain ⟨u, rfl⟩ := Nat.exists_eq_add_of_le' late
  rw [Function.iterate_add_apply, reached, iterate_next_answer]

/-! ## The steps of a phrase -/

/-- What comes of reading a phrase that `task` goes on behind. -/
def Lands (m : Moment) (task : Expr → Task) : Except Failure Reading → Prop
  | .ok r => Reaches m
      ⟨⟨r.rest, m.depth, m.weight⟩, max m.deepest (m.depth + r.nesting), task r.expr⟩
  | .error f => ∃ k, Reaches m
      ⟨⟨f.rest, m.depth + f.levels, m.weight⟩, k, .answer (.error .malformed)⟩

variable {ts rest : List Token} {d w k entry : Nat} {place : Place}

theorem lands_of_next_fail {m : Moment} {task : Expr → Task} (h : m.next = m.fail rest) :
    Lands m task (.error ⟨0, rest⟩) :=
  ⟨m.deepest, (Reaches.refl m).then_next h⟩

/-- An operand without parentheses is no level of its own. -/
theorem lands_of_next_turn {m : Moment} {task : Expr → Task} {e : Expr}
    (h : m.next = m.turn rest (task e)) (deep : m.depth ≤ m.deepest) :
    Lands m task (.ok ⟨e, 0, rest⟩) := by
  have level : max m.deepest (m.depth + 0) = m.deepest := Nat.max_eq_left deep
  have reached : Reaches m (m.turn rest (task e)) := (Reaches.refl m).then_next h
  change Reaches m ⟨⟨rest, m.depth, m.weight⟩, max m.deepest (m.depth + 0), task e⟩
  rw [level]
  exact reached

theorem lands_literal {m : Moment} {text : List Char} (h : m.next = m.literal entry place text rest)
    (deep : m.depth ≤ m.deepest) :
    Lands m (.operator entry place) (Reading.literal text rest) := by
  unfold literal at h
  unfold Reading.literal
  cases word : Decimal.toWord? text with
  | some n =>
      rw [word] at h
      exact lands_of_next_turn h deep
  | none =>
      rw [word] at h
      exact lands_of_next_fail h

/-- `inner` is what the operand in parentheses comes to. -/
theorem lands_operand {room : Nat} (deep : d ≤ k)
    (inner : ∀ ts, Lands ⟨⟨ts, d, w⟩, k, .expression (place.within (.paren entry))⟩
      (.closing (place.within (.paren entry))) (Reading.expression room ts)) (ts : List Token) :
    Lands ⟨⟨ts, d, w⟩, k, .operand entry place⟩ (.operator entry place)
      (Reading.operand (Reading.expression room) ts) := by
  cases ts with
  | nil => exact lands_of_next_fail rfl
  | cons t ts =>
      cases t with
      | element => exact lands_of_next_turn rfl deep
      | number text => exact lands_literal rfl deep
      | minus =>
          cases ts with
          | nil => exact lands_of_next_fail rfl
          | cons t ts =>
              cases t with
              | number text => exact lands_literal rfl deep
              | _ => exact lands_of_next_fail rfl
      | openParen =>
          have inside := inner ts
          rw [Reading.operand]
          cases read : Reading.expression room ts with
          | error f =>
              rw [read] at inside
              obtain ⟨k', reached⟩ := inside
              exact ⟨k', Reaches.of_next rfl reached⟩
          | ok r =>
              obtain ⟨e, n, rest⟩ := r
              rw [read] at inside
              have within : Reaches ⟨⟨.openParen :: ts, d, w⟩, k, .operand entry place⟩
                  ⟨⟨rest, d, w⟩, max k (d + n), .closing (place.within (.paren entry)) e⟩ :=
                Reaches.of_next rfl inside
              cases rest with
              | nil => exact ⟨_, within.then_next rfl⟩
              | cons t rest =>
                  cases t with
                  | closeParen => exact within.then_next rfl
                  | _ => exact ⟨_, within.then_next rfl⟩
      | _ => exact lands_of_next_fail rfl

theorem next_operator_none {e : Expr} (last : rest.head?.bind Token.operator? = none) :
    next ⟨⟨rest, d + 1, w⟩, k, .operator entry place e⟩ = ⟨⟨rest, d, w⟩, k, .closing place e⟩ := by
  simp only [next, operator, last]
  rfl

theorem next_operator_token (op : Operator) (e : Expr) :
    next ⟨⟨op.token :: rest, d, w⟩, k, .operator entry place e⟩ =
      ⟨⟨rest, d, w⟩, k, .expression (place.within (.right entry e op))⟩ := by
  simp only [next, operator, List.head?_cons, Option.bind_some, op.operator?_token]
  rfl

/-- A failure one level deeper leaves one more level open. -/
theorem Reaches.lands_error {m n : Moment} (h : Reaches m n) (depth : n.depth = m.depth + 1)
    (weight : n.weight = m.weight) {task task' : Expr → Task} {f : Failure}
    (failed : Lands n task (.error f)) : Lands m task' (.error ⟨f.levels + 1, f.rest⟩) := by
  obtain ⟨k, reached⟩ := failed
  have levels : n.depth + f.levels = m.depth + (f.levels + 1) := by omega
  rw [levels, weight] at reached
  exact ⟨k, h.trans reached⟩

/-- The induction is on the levels there is room for. What the operand and the expression behind the
operator come to is counted from one level deeper, and the step that leaves the expression goes back. -/
theorem lands_expression {room : Nat} (left : maxNesting - d = room) (ts : List Token) :
    Lands ⟨⟨ts, d, w⟩, k, .expression place⟩ (.closing place) (Reading.expression room ts) := by
  induction room generalizing d k place ts with
  | zero =>
      have full : ¬ d < maxNesting := by omega
      exact lands_of_next_fail (if_neg full)
  | succ room ih =>
      have free : d < maxNesting := by omega
      have deeper : maxNesting - (d + 1) = room := by omega
      have entered : Reaches ⟨⟨ts, d, w⟩, k, .expression place⟩
          ⟨⟨ts, d + 1, w⟩, max k (d + 1), .operand d place⟩ :=
        (Reaches.refl _).then_next (if_pos free)
      have first : Lands ⟨⟨ts, d + 1, w⟩, max k (d + 1), .operand d place⟩ (.operator d place)
          (Reading.operand (Reading.expression room) ts) :=
        lands_operand (Nat.le_max_right k (d + 1)) (fun ts => ih deeper ts) ts
      cases readLeft : Reading.operand (Reading.expression room) ts with
      | error f =>
          rw [readLeft] at first
          rw [Reading.expression_operand_error readLeft]
          exact entered.lands_error rfl rfl first
      | ok l =>
          obtain ⟨e, n, rest⟩ := l
          rw [readLeft] at first
          have operand := entered.trans first
          cases found : rest.head?.bind Token.operator? with
          | none =>
              have level : max (max k (d + 1)) (d + 1 + n) = max k (d + (n + 1)) := by omega
              rw [Reading.expression_of_operand readLeft found]
              have left := operand.then_next (next_operator_none found)
              simp only [level] at left
              exact left
          | some op =>
              rw [Token.eq_cons_of_operator? found] at readLeft operand
              have behind := operand.then_next (next_operator_token op e)
              have second : Lands ⟨⟨rest.tail, d + 1, w⟩, max (max k (d + 1)) (d + 1 + n),
                  .expression (place.within (.right d e op))⟩ (.closing (place.within (.right d e op)))
                  (Reading.expression room rest.tail) :=
                ih deeper rest.tail
              cases readRight : Reading.expression room rest.tail with
              | error f =>
                  rw [readRight] at second
                  rw [Reading.expression_operator_error readLeft readRight]
                  exact behind.lands_error rfl rfl second
              | ok r =>
                  have level : max (max (max k (d + 1)) (d + 1 + n)) (d + 1 + r.nesting) =
                      max k (d + (max n r.nesting + 1)) := by omega
                  rw [readRight] at second
                  rw [Reading.expression_of_operator readLeft readRight]
                  have left : Reaches _ ⟨⟨r.rest, d, w⟩, _, .closing place (.binary e op r.expr)⟩ :=
                    (behind.trans second).then_next rfl
                  simp only [level] at left
                  exact left

/-! ## The steps of a call -/

/-- What comes next once a stage was read, or was not. -/
def afterStage (before : List Stage) : Except CompileError Stage → Task
  | .ok s => .pipe (before ++ [s])
  | .error e => .answer (.error e)

theorem weigh_eq (p : Parser) (before : List Stage) (s : Stage) (n : Nat) (task : Task) :
    (⟨p, p.depth + n, task⟩ : Moment).weigh before s rest =
      ⟨(p.weigh s n rest).2, p.depth + n, afterStage before (p.weigh s n rest).1⟩ := by
  unfold weigh verdict Parser.weigh
  by_cases heavy : maxWeight < p.weight + (p.depth + n + 1)
  · simp only [heavy, ↓reduceIte]
    rfl
  · simp only [heavy, ↓reduceIte]
    cases s.isWellTyped with
    | true => rfl
    | false => rfl

theorem reaches_stage (p : Parser) (k : Nat) (before : List Stage) :
    ∃ k', Reaches ⟨p, k, .stage before⟩ ⟨p.stage.2, k', afterStage before p.stage.1⟩ := by
  obtain ⟨ts, d, w⟩ := p
  cases ts with
  | nil => exact ⟨k, reaches_next _⟩
  | cons t ts =>
      cases opened : opening? t with
      | none =>
          have closed : next ⟨⟨t :: ts, d, w⟩, k, .stage before⟩ =
              ⟨⟨ts, d, w⟩, k, .answer (.error .malformed)⟩ := by
            simp only [next, stage, opened]
            rfl
          simp only [Parser.stage, opened]
          exact ⟨k, (Reaches.refl _).then_next closed⟩
      | some make =>
          have begun : next ⟨⟨t :: ts, d, w⟩, k, .stage before⟩ =
              ⟨⟨ts, d, w⟩, 0, .expression ⟨before, make, []⟩⟩ := by
            simp only [next, stage, opened]
            rfl
          have inside : Lands ⟨⟨ts, d, w⟩, 0, .expression ⟨before, make, []⟩⟩
              (.closing ⟨before, make, []⟩) (Reading.expression (maxNesting - d) ts) :=
            lands_expression rfl ts
          simp only [Parser.stage, opened]
          cases read : Reading.expression (maxNesting - d) ts with
          | error f =>
              rw [read] at inside
              obtain ⟨k', reached⟩ := inside
              exact ⟨k', Reaches.of_next begun reached⟩
          | ok r =>
              obtain ⟨e, n, rest⟩ := r
              rw [read] at inside
              have whole : Reaches ⟨⟨t :: ts, d, w⟩, k, .stage before⟩
                  ⟨⟨rest, d, w⟩, d + n, .closing ⟨before, make, []⟩ e⟩ := by
                have reached := Reaches.of_next begun inside
                simp only [Nat.zero_max] at reached
                exact reached
              cases rest with
              | nil => exact ⟨_, whole.then_next rfl⟩
              | cons t' rest =>
                  cases t' with
                  | closeBrace =>
                      exact ⟨d + n, whole.then_next (weigh_eq ⟨.closeBrace :: rest, d, w⟩ before (make e) n _)⟩
                  | _ => exact ⟨_, whole.then_next rfl⟩

/-- What a call answers if it has read some stages and then comes to `r`. -/
def conclusion (before : List Stage) (r : Except CompileError Chain × Parser) :
    Except CompileError Chain :=
  r.1.bind fun chain => conclude (before ++ chain.stages) r.2.rest

theorem conclusion_link (before : List Stage) (s : Stage) (r : Except CompileError Chain) (q : Parser) :
    conclusion (before ++ [s]) (r, q) = conclusion before (r.map (.link s), q) := by
  cases r with
  | error e => rfl
  | ok chain =>
      have stages : before ++ [s] ++ chain.stages = before ++ (Chain.link s chain).stages := by
        rw [List.append_assoc, List.singleton_append, Chain.stages]
      exact congrArg (conclude · q.rest) stages

theorem conclusion_nil (p : Parser) : conclusion [] p.chain = p.parse.1 := by
  unfold conclusion parse
  cases read : p.chain with
  | mk r q =>
      cases r with
      | error e => rfl
      | ok chain =>
          simp only [Except.bind, List.nil_append, conclude, Chain.ofStages?_stages]

theorem next_pipe_last {q : Parser} (last : ∀ rest, q.rest = .pipe :: rest → False) (k : Nat)
    (before : List Stage) :
    next ⟨q, k, .pipe before⟩ = ⟨q, k, .answer (conclude before q.rest)⟩ := by
  obtain ⟨ts, d, w⟩ := q
  cases ts with
  | nil => rfl
  | cons t ts =>
      cases t with
      | pipe => exact (last ts rfl).elim
      | _ => rfl

theorem reaches_link {p : Parser} {s : Stage} {q : Parser} (read : p.stage = (.ok s, q))
    (pipe : q.rest = .pipe :: rest) (k : Nat) (before : List Stage) :
    ∃ k', Reaches ⟨p, k, .stage before⟩ ⟨{ q with rest }, k', .stage (before ++ [s])⟩ := by
  obtain ⟨k', reached⟩ := reaches_stage p k before
  obtain ⟨ts, d, w⟩ := q
  cases pipe
  rw [read] at reached
  exact ⟨k', reached.then_next rfl⟩

/-- The induction follows the stages, with those read before generalized. -/
theorem reaches_chain (p : Parser) (k : Nat) (before : List Stage) :
    ∃ k', Reaches ⟨p, k, .stage before⟩ ⟨p.chain.2, k', .answer (conclusion before p.chain)⟩ := by
  fun_induction Parser.chain p generalizing k before with
  | case1 p e q failed =>
      obtain ⟨k', reached⟩ := reaches_stage p k before
      rw [failed] at reached
      exact ⟨k', reached⟩
  | case2 p s q read rest pipe c r found ih =>
      obtain ⟨k₁, first⟩ := reaches_link read pipe k before
      obtain ⟨k₂, others⟩ := ih k₁ (before ++ [s])
      rw [found, conclusion_link] at others
      exact ⟨k₂, first.trans others⟩
  | case3 p s q read rest pipe e r failed ih =>
      obtain ⟨k₁, first⟩ := reaches_link read pipe k before
      obtain ⟨k₂, others⟩ := ih k₁ (before ++ [s])
      rw [failed, conclusion_link] at others
      exact ⟨k₂, first.trans others⟩
  | case4 p s q read last =>
      obtain ⟨k', reached⟩ := reaches_stage p k before
      rw [read] at reached
      exact ⟨k', reached.then_next (next_pipe_last last k' (before ++ [s]))⟩

/-- A call takes finitely many steps to its answer, and leaves the parser as it is then. -/
theorem reaches_parse (p : Parser) (k : Nat) :
    ∃ k', Reaches (start p k) ⟨p.parse.2, k', .answer p.parse.1⟩ := by
  have left : p.parse.2 = p.chain.2 := by
    unfold parse
    split <;> rename_i read <;> rw [read]
  obtain ⟨k', reached⟩ := reaches_chain p k []
  rw [conclusion_nil, ← left] at reached
  exact ⟨k', reached⟩

end Moment
end Parser
end StageChain
