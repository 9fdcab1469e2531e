import StageChain.Chain
import StageChain.Json
import StageChain.Token

/-! Operators, expressions, stages, chains, pairs and tokens as data, their JSON, and how they are
read back from it. -/
namespace StageChain

namespace Json

def tagged (name : String) (body : Json) : Json := object [(name, body)]

def variant? : Json → Option (String × Option Json)
  | string name => some (name, none)
  | object [(name, body)] => some (name, some body)
  | _ => none

/-- The value of the field `name`, if it occurs exactly once. -/
def field? (fields : List (String × Json)) (name : String) : Option Json :=
  match fields.filter fun f => f.1 == name with
  | [(_, x)] => some x
  | _ => none

/-- The values of the named fields. An array gives them by position and holds nothing else; an
object gives them in any order, beside fields that do not count. -/
def record? (names : List String) : Json → Option (List Json)
  | array xs => if xs.length = names.length then some xs else none
  | object fields => names.mapM (field? fields)
  | _ => none

end Json

namespace Arith

def name : Arith → String
  | plus => "Plus"
  | minus => "Minus"
  | times => "Times"

def ofName? : String → Option Arith
  | "Plus" => some plus
  | "Minus" => some minus
  | "Times" => some times
  | _ => none

end Arith

namespace Logic

def name : Logic → String
  | gt => "Gt"
  | lt => "Lt"
  | eq => "Eq"
  | and => "And"
  | or => "Or"

def ofName? : String → Option Logic
  | "Gt" => some gt
  | "Lt" => some lt
  | "Eq" => some eq
  | "And" => some and
  | "Or" => some or
  | _ => none

end Logic

/-! ## Data -/

def Operator.toDatum : Operator → Datum
  | arith op => .variant "Num" (.text op.name)
  | logic op => .variant "Logic" (.text op.name)

def Expr.toDatum : Expr → Datum
  | element => .text "Element"
  | const n => .variant "Constant" (.scalar (.int n.toInt))
  | binary left op right => .variant "Binary"
      (.record [("left", left.toDatum), ("op", op.toDatum), ("right", right.toDatum)])

def Stage.toDatum : Stage → Datum
  | map e => .variant "Map" e.toDatum
  | filter e => .variant "Filter" e.toDatum

def Chain.toDatum : Chain → Datum
  | single s => .variant "Call" s.toDatum
  | link s rest => .variant "Chain" (.record [("head", s.toDatum), ("tail", rest.toDatum)])

def Pair.toDatum (p : Pair) : Datum :=
  .record [("filter", p.filter.toDatum), ("map", p.map.toDatum)]

def Token.toDatum : Token → Datum
  | number text => .variant "Number" (.text (String.ofList text))
  | t => .text t.name

/-! ## JSON -/

def Operator.toJson : Operator → Json
  | arith op => .tagged "Num" (.string op.name)
  | logic op => .tagged "Logic" (.string op.name)

def Expr.toJson : Expr → Json
  | element => .string "Element"
  | const n => .tagged "Constant" (.int n.toInt)
  | binary left op right => .tagged "Binary"
      (.object [("left", left.toJson), ("op", op.toJson), ("right", right.toJson)])

def Stage.toJson : Stage → Json
  | map e => .tagged "Map" e.toJson
  | filter e => .tagged "Filter" e.toJson

def Chain.toJson : Chain → Json
  | single s => .tagged "Call" s.toJson
  | link s rest => .tagged "Chain" (.object [("head", s.toJson), ("tail", rest.toJson)])

def Pair.toJson (p : Pair) : Json :=
  .object [("filter", p.filter.toJson), ("map", p.map.toJson)]

/-! ## Decoding

The number given to a decoder is how many more arrays and objects it may open. -/

namespace Decode

/-- How many levels a decoded text may nest. What a decoder passes over may nest deeper. -/
def maxLevels : Nat := 127

def unit? (levels : Nat) (x : Json) : Option String :=
  match x.variant?, levels with
  | some (name, none), _ => some name
  | some (name, some .null), _ + 1 => some name
  | _, _ => none

def operator? : Nat → Json → Option Operator
  | levels + 1, x =>
      match x.variant? with
      | some ("Num", some body) => (unit? levels body).bind fun s => (Arith.ofName? s).map .arith
      | some ("Logic", some body) => (unit? levels body).bind fun s => (Logic.ofName? s).map .logic
      | _ => none
  | 0, _ => none

def expr? : Nat → Json → Option Expr
  | 0, x => if unit? 0 x = some "Element" then some .element else none
  | levels + 1, x =>
      if unit? (levels + 1) x = some "Element" then some .element
      else match x.variant?, levels with
        | some ("Constant", some (.int n)), _ => (Decimal.word? n).map .const
        | some ("Binary", some body), levels + 1 =>
            match body.record? ["left", "op", "right"] with
            | some [l, op, r] => do
                return .binary (← expr? levels l) (← operator? levels op) (← expr? levels r)
            | _ => none
        | _, _ => none

def stage? : Nat → Json → Option Stage
  | levels + 1, x =>
      match x.variant? with
      | some ("Map", some body) => (expr? levels body).map .map
      | some ("Filter", some body) => (expr? levels body).map .filter
      | _ => none
  | 0, _ => none

def chain? : Nat → Json → Option Chain
  | levels + 1, x =>
      match x.variant?, levels with
      | some ("Call", some body), levels => (stage? levels body).map .single
      | some ("Chain", some body), levels + 1 =>
          match body.record? ["head", "tail"] with
          | some [head, tail] => do return .link (← stage? levels head) (← chain? levels tail)
          | _ => none
      | _, _ => none
  | 0, _ => none

def pair? : Nat → Json → Option Pair
  | levels + 1, x =>
      match x.record? ["filter", "map"] with
      | some [filter, map] => do return ⟨← expr? levels filter, ← expr? levels map⟩
      | _ => none
  | 0, _ => none

end Decode
end StageChain
