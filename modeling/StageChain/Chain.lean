import StageChain.Expr

/-! Stages, the chains they form, and the pair that a chain comes to: one filter followed by one map,
both over the first element. -/
namespace StageChain

/-- One step of a chain: compute a new element, or test the one at hand. -/
inductive Stage
  | map (body : Expr)
  | filter (body : Expr)
deriving DecidableEq

namespace Stage

def body : Stage → Expr
  | map e | filter e => e

def isFilter : Stage → Bool
  | filter _ => true
  | map _ => false

/-- A map computes a number, a filter a truth value. -/
def isWellTyped : Stage → Bool
  | map e => e.isArithmetic
  | filter e => e.isBoolean

def subst : Stage → Expr → Stage
  | map e, value => map (e.subst value)
  | filter e, value => filter (e.subst value)

def render : Stage → List Char
  | map e => 'm' :: 'a' :: 'p' :: '{' :: e.render ++ ['}']
  | filter e => 'f' :: 'i' :: 'l' :: 't' :: 'e' :: 'r' :: '{' :: e.render ++ ['}']

/-- What becomes of an element: its new value, or nothing when the stage drops it. -/
def run : Stage → Int32 → Option Int32
  | map e, x => some (e.eval x)
  | filter e, x => if e.eval x = 0 then none else some x

end Stage

/-- A non-empty sequence of stages. -/
inductive Chain
  | single (stage : Stage)
  | link (head : Stage) (tail : Chain)
deriving DecidableEq

namespace Chain

def stages : Chain → List Stage
  | single s => [s]
  | link s rest => s :: rest.stages

def ofStages (head : Stage) : List Stage → Chain
  | [] => single head
  | s :: rest => link head (ofStages s rest)

def ofStages? : List Stage → Option Chain
  | [] => none
  | s :: rest => some (ofStages s rest)

@[simp] theorem stages_ofStages (s : Stage) (rest : List Stage) :
    (ofStages s rest).stages = s :: rest := by
  induction rest generalizing s with
  | nil => rfl
  | cons t rest ih => simp only [ofStages, stages, ih]

theorem ofStages?_stages (chain : Chain) : ofStages? chain.stages = some chain := by
  induction chain with
  | single s => rfl
  | link s rest ih =>
      cases rest with
      | single t => rfl
      | link t rest =>
          simp only [stages, ofStages?, ofStages, Option.some.injEq] at ih ⊢
          rw [ih]

def length (chain : Chain) : Nat := chain.stages.length

def render : Chain → List Char
  | single s => s.render
  | link s rest => s.render ++ '%' :: '>' :: '%' :: rest.render

def run : Chain → Int32 → Option Int32
  | single s, x => s.run x
  | link s rest, x => (s.run x).bind rest.run

end Chain

structure Pair where
  filter : Expr
  map : Expr
deriving DecidableEq

namespace Pair

/-- Keeps every element as it is. Its filter is blank. -/
def identity : Pair := ⟨.element, .element⟩

/-- The bare `element` as a filter stands for "no filter yet". No well-typed filter looks so. -/
def hasBlankFilter (p : Pair) : Bool := p.filter == .element

/-- The pair after one more stage, which sees elements as already mapped. -/
def push (p : Pair) : Stage → Pair
  | .map e => { p with map := e.subst p.map }
  | .filter e =>
      let test := e.subst p.map
      { p with filter := if p.hasBlankFilter then test else .binary p.filter (.logic .and) test }

def pushChain (p : Pair) (chain : Chain) : Pair := chain.stages.foldl push p

def ofChain (chain : Chain) : Pair := identity.pushChain chain

def toChain (p : Pair) : Chain := .link (.filter p.filter) (.single (.map p.map))

def render (p : Pair) : List Char :=
  'f' :: 'i' :: 'l' :: 't' :: 'e' :: 'r' :: '{' :: p.filter.render
    ++ '}' :: '%' :: '>' :: '%' :: 'm' :: 'a' :: 'p' :: '{' :: p.map.render ++ ['}']

/-- The mapped element, or nothing when the filter drops it. -/
def run (p : Pair) (x : Int32) : Option Int32 :=
  if p.filter.eval x = 0 then none else some (p.map.eval x)

end Pair

end StageChain
