import StageChain.Chain
import StageChain.Token

/-! Reading a chain from tokens. All operators have the same strength and group to the right:

    chain      := stage (`%>%` stage)*
    stage      := (`map{` | `filter{`) expression `}`
    expression := operand (operator expression)?
    operand    := `element` | `-` number | number | `(` expression `)`

An expression may nest `maxNesting` levels, and all stages together may weigh `maxWeight`. A
parser can be asked again after a failure. It then goes on behind the token it failed at, and
still counts the levels that the failure left open and the weight of the stages read before. -/
namespace StageChain

inductive CompileError
  | malformed
  | illTyped
deriving DecidableEq

def CompileError.message : CompileError → String
  | malformed => "SYNTAX ERROR"
  | illTyped => "TYPE ERROR"

def maxNesting : Nat := 256

/-- Every stage weighs one more than its nesting. -/
def maxWeight : Nat := 2048

/-- An expression that was read, how many levels it nests, and the tokens after it. -/
structure Reading where
  expr : Expr
  nesting : Nat
  rest : List Token

/-- Where reading an expression failed: how many levels were open, and the tokens after. -/
structure Failure where
  levels : Nat
  rest : List Token

namespace Reading

def literal (text : List Char) (rest : List Token) : Except Failure Reading :=
  match Decimal.toWord? text with
  | some n => .ok ⟨.const n, 0, rest⟩
  | none => .error ⟨0, rest⟩

/-- Reads an operand. `inner` reads what stands in parentheses. -/
def operand (inner : List Token → Except Failure Reading) :
    List Token → Except Failure Reading
  | .element :: rest => .ok ⟨.element, 0, rest⟩
  | .minus :: .number text :: rest => literal ('-' :: text) rest
  | .minus :: rest => .error ⟨0, rest.tail⟩
  | .number text :: rest => literal text rest
  | .openParen :: rest =>
      match inner rest with
      | .error f => .error f
      | .ok ⟨e, n, .closeParen :: rest⟩ => .ok ⟨e, n, rest⟩
      | .ok ⟨_, _, rest⟩ => .error ⟨0, rest.tail⟩
  | ts => .error ⟨0, ts.tail⟩

def expression : Nat → List Token → Except Failure Reading
  | 0, ts => .error ⟨0, ts⟩
  | room + 1, ts =>
      match operand (expression room) ts with
      | .error f => .error ⟨f.levels + 1, f.rest⟩
      | .ok left =>
          match left.rest.head?.bind Token.operator? with
          | none => .ok ⟨left.expr, left.nesting + 1, left.rest⟩
          | some op =>
              match expression room left.rest.tail with
              | .error f => .error ⟨f.levels + 1, f.rest⟩
              | .ok right =>
                  .ok ⟨.binary left.expr op right.expr,
                    max left.nesting right.nesting + 1, right.rest⟩

end Reading

/-- The tokens not read yet, the levels left open, and the weight of the stages read so far. -/
structure Parser where
  rest : List Token
  depth : Nat := 0
  weight : Nat := 0
deriving DecidableEq

namespace Parser

def ofTokens (tokens : List Token) : Parser := { rest := tokens }

def opening? : Token → Option (Expr → Stage)
  | .mapOpen => some .map
  | .filterOpen => some .filter
  | _ => none

def weigh (p : Parser) (stage : Stage) (nesting : Nat) (rest : List Token) :
    Except CompileError Stage × Parser :=
  let q : Parser := { p with rest, weight := p.weight + (p.depth + nesting + 1) }
  if maxWeight < q.weight then (.error .malformed, q)
  else if !stage.isWellTyped then (.error .illTyped, q)
  else (.ok stage, q)

def stage (p : Parser) : Except CompileError Stage × Parser :=
  match p.rest with
  | [] => (.error .malformed, p)
  | t :: rest =>
      match opening? t with
      | none => (.error .malformed, { p with rest })
      | some make =>
          match Reading.expression (maxNesting - p.depth) rest with
          | .error f => (.error .malformed, { p with rest := f.rest, depth := p.depth + f.levels })
          | .ok ⟨e, nesting, .closeBrace :: rest⟩ => p.weigh (make e) nesting rest
          | .ok ⟨_, _, rest⟩ => (.error .malformed, { p with rest := rest.tail })

theorem weight_of_weigh {p q : Parser} {stage s : Stage} {nesting : Nat} {rest : List Token}
    (h : p.weigh stage nesting rest = (.ok s, q)) : p.weight < q.weight ∧ q.weight ≤ maxWeight := by
  simp only [weigh] at h
  split at h
  · cases h
  · rename_i light
    split at h
    · cases h
    · cases h
      exact ⟨Nat.lt_add_of_pos_right (Nat.succ_pos _), Nat.le_of_not_lt light⟩

/-- Each stage adds weight and stays within the limit, so a chain has finitely many. -/
theorem weight_of_stage {p q : Parser} {s : Stage} (h : p.stage = (.ok s, q)) :
    p.weight < q.weight ∧ q.weight ≤ maxWeight := by
  simp only [stage] at h
  split at h
  · cases h
  · split at h
    · cases h
    · split at h
      · cases h
      · exact weight_of_weigh h
      · cases h

def chain (p : Parser) : Except CompileError Chain × Parser :=
  match _h : p.stage with
  | (.error e, q) => (.error e, q)
  | (.ok s, q) =>
      match q.rest with
      | .pipe :: rest =>
          match chain { q with rest } with
          | (.ok c, r) => (.ok (.link s c), r)
          | (.error e, r) => (.error e, r)
      | _ => (.ok (.single s), q)
termination_by maxWeight - p.weight
decreasing_by
  have := weight_of_stage _h
  omega

def parse (p : Parser) : Except CompileError Chain × Parser :=
  match p.chain with
  | (.ok c, q) => (if q.rest.isEmpty then .ok c else .error .malformed, q)
  | (.error e, q) => (.error e, q)

def parseTimes : Nat → Parser → List (Except CompileError Chain)
  | 0, _ => []
  | n + 1, p => p.parse.1 :: parseTimes n p.parse.2

end Parser

def Chain.ofTokens (tokens : List Token) : Except CompileError Chain :=
  (Parser.ofTokens tokens).parse.1

end StageChain
