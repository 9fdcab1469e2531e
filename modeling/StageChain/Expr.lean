import StageChain.Numeral

/-! Binary operators on 32-bit signed words, and expressions over the one variable `element`.
Arithmetic wraps. A truth value is the word 1 or 0, and every non-zero word counts as true. Nothing
stops a tree from mixing numbers and truth values; `isArithmetic` and `isBoolean` single out the two
kinds that a stage may hold. -/
namespace StageChain

/-- Operators that make a number. -/
inductive Arith
  | plus | minus | times
deriving DecidableEq

/-- Operators that make a truth value. -/
inductive Logic
  | gt | lt | eq | and | or
deriving DecidableEq

inductive Operator
  | arith (op : Arith)
  | logic (op : Logic)
deriving DecidableEq

namespace Arith

def symbol : Arith → Char
  | plus => '+'
  | minus => '-'
  | times => '*'

def apply : Arith → Int32 → Int32 → Int32
  | plus, a, b => a + b
  | minus, a, b => a - b
  | times, a, b => a * b

end Arith

namespace Logic

def symbol : Logic → Char
  | gt => '>'
  | lt => '<'
  | eq => '='
  | and => '&'
  | or => '|'

def isComparison : Logic → Bool
  | gt | lt | eq => true
  | and | or => false

def holds : Logic → Int32 → Int32 → Bool
  | gt, a, b => b < a
  | lt, a, b => a < b
  | eq, a, b => a == b
  | and, a, b => a != 0 && b != 0
  | or, a, b => a != 0 || b != 0

/-- The operator that holds of two exchanged operands. -/
def converse : Logic → Logic
  | gt => lt
  | lt => gt
  | op => op

end Logic

namespace Operator

def symbol : Operator → Char
  | arith op => op.symbol
  | logic op => op.symbol

def apply : Operator → Int32 → Int32 → Int32
  | arith op, a, b => op.apply a b
  | logic op, a, b => if op.holds a b then 1 else 0

/-- The operator used when the operands change places. Arithmetic operators are kept, so an
exchanged subtraction changes its value. -/
def converse : Operator → Operator
  | arith op => arith op
  | logic op => logic op.converse

def all : List Operator :=
  [arith .plus, arith .minus, arith .times,
    logic .gt, logic .lt, logic .eq, logic .and, logic .or]

def ofSymbol? (c : Char) : Option Operator := all.find? fun op => op.symbol == c

end Operator

inductive Expr
  | element
  | const (value : Int32)
  | binary (left : Expr) (op : Operator) (right : Expr)
deriving DecidableEq

namespace Expr

/-- The filter that keeps every element. -/
def tautology : Expr := binary element (.logic .eq) element

/-- The filter that drops every element. -/
def contradiction : Expr := binary (const 1) (.logic .eq) (const 0)

def isConst : Expr → Bool
  | const _ => true
  | _ => false

def isArithmetic : Expr → Bool
  | binary left (.arith _) right => left.isArithmetic && right.isArithmetic
  | binary _ (.logic _) _ => false
  | _ => true

/-- A logic operator over two numbers or over two truth values. -/
def isBoolean : Expr → Bool
  | binary left (.logic _) right =>
      (left.isArithmetic && right.isArithmetic) || (left.isBoolean && right.isBoolean)
  | _ => false

/-- The first expression, with the second in place of every `element`. -/
def subst : Expr → Expr → Expr
  | element, value => value
  | const n, _ => const n
  | binary left op right, value => binary (left.subst value) op (right.subst value)

def isContradiction : Expr → Bool
  | binary (const a) (.logic .eq) (const b) => a != b
  | _ => false

def eval : Expr → Int32 → Int32
  | element, x => x
  | const n, _ => n
  | binary left op right, x => op.apply (left.eval x) (right.eval x)

theorem eval_subst (e value : Expr) (x : Int32) :
    (e.subst value).eval x = e.eval (value.eval x) := by
  induction e with
  | element => rfl
  | const n => rfl
  | binary left op right hl hr => simp only [subst, eval, hl, hr]

/-- A negative constant stands in parentheses. -/
def renderConst (n : Int32) : List Char :=
  if n < 0 then '(' :: Decimal.ofInt n.toInt ++ [')'] else Decimal.ofInt n.toInt

def render : Expr → List Char
  | element => ['e', 'l', 'e', 'm', 'e', 'n', 't']
  | const n => renderConst n
  | binary left op right => '(' :: left.render ++ op.symbol :: right.render ++ [')']

def height : Expr → Nat
  | element | const _ => 0
  | binary left _ right => max left.height right.height + 1

def occurrences : Expr → Nat
  | element => 1
  | const _ => 0
  | binary left _ right => left.occurrences + right.occurrences

/-- The levels that the printed text nests below its outermost one. Every pair of parentheses
opens a level, and so does the right side of an operator. -/
def innerLevels : Expr → Nat
  | element => 0
  | const n => if n < 0 then 1 else 0
  | binary left _ right => max (left.innerLevels + 1) (right.innerLevels + 2)

def printedNesting (e : Expr) : Nat := e.innerLevels + 1

end Expr

end StageChain
