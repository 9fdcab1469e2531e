import StageChain.Chain.Parser
import StageChain.Expr.Rewriting

/-! From the text of a chain to the text of its canonical pair. -/
namespace StageChain

structure Pass where
  name : String
  description : String := ""
  apply : Pair → Pair

namespace Pass

def materializeTautology : Pass where
  name := "materialize-tautology"
  description := "A chain without filters keeps every element"
  apply p := if p.hasBlankFilter then { p with filter := .tautology } else p

def foldConstants : Pass where
  name := "fold-constants"
  description := "Evaluate + - * over constant operands"
  apply p := ⟨p.filter.foldConstants, p.map.foldConstants⟩

def normalizeOperands : Pass where
  name := "normalize-operands"
  description := "Swap constant-first filter nodes, flipping < and >"
  apply p := { p with filter := p.filter.orientOperands }

def isolateOffsets : Pass where
  name := "isolate-offsets"
  description := "Rewrite ((x+c1)<c2) as (x<c2-c1)"
  apply p := { p with filter := p.filter.isolateOffsets }

def mergeComparisons : Pass where
  name := "merge-comparisons"
  description := "Combine (element op n) constraints joined by &"
  apply p := { p with filter := p.filter.mergeComparisons }

def propagateFalse : Pass where
  name := "propagate-false"
  description := "An always-false filter makes the map unreachable"
  apply p := if p.filter.isContradiction then { p with map := .element } else p

/-- The passes of a full simplification. Each one leaves the normal forms of those before it
intact, so one run in this order is enough. -/
def defaults : List Pass :=
  [materializeTautology, foldConstants, normalizeOperands,
    isolateOffsets, mergeComparisons, propagateFalse]

def foldOnly : List Pass := [materializeTautology]

def runAll (passes : List Pass) (p : Pair) : Pair := passes.foldl (fun q pass => pass.apply q) p

end Pass

def Pair.simplify (p : Pair) : Pair := Pass.runAll Pass.defaults p

structure Options where
  /-- Without it, a chain is only folded. -/
  simplify : Bool := true
deriving DecidableEq

def Options.passes (o : Options) : List Pass :=
  if o.simplify then Pass.defaults else Pass.foldOnly

def Chain.canonical (o : Options) (chain : Chain) : Pair :=
  Pass.runAll o.passes (Pair.ofChain chain)

/-! ## Front ends -/

def Chain.parse (source : String) : Except CompileError Chain :=
  let tokens := Token.scan source.toList
  if tokens.isEmpty then .error .malformed else (Parser.ofTokens tokens).parse.1

/-- This way into a text is a second one beside `Chain.parse`, with its own test for tokens. -/
def compile? (o : Options) (source : String) : Except CompileError Pair :=
  let tokens := Token.scan source.toList
  if tokens.isEmpty then .error .malformed
  else match (Parser.ofTokens tokens).parse.1 with
    | .ok chain => .ok (chain.canonical o)
    | .error e => .error e

/-- The canonical text of a source, or the message of the error in it. -/
def compile (o : Options) (source : String) : String :=
  match compile? o source with
  | .ok p => String.ofList p.render
  | .error e => e.message

theorem Chain.ofTokens_nil : Chain.ofTokens [] = .error .malformed := by
  rw [Chain.ofTokens, Parser.parse, Parser.chain]
  rfl

/-- The test for tokens decides nothing: the parser would say the same. -/
theorem Chain.parse_eq_ofTokens (source : String) :
    Chain.parse source = Chain.ofTokens (Token.scan source.toList) := by
  unfold Chain.parse
  cases Token.scan source.toList with
  | nil => exact Chain.ofTokens_nil.symm
  | cons t ts => rfl

/-- The two front ends accept the same texts, and refuse the others with the same error. -/
theorem compile?_eq_map_parse (o : Options) (source : String) :
    compile? o source = (Chain.parse source).map (Chain.canonical o) := by
  unfold compile? Chain.parse
  cases Token.scan source.toList with
  | nil => rfl
  | cons t ts =>
      simp only [List.isEmpty_cons, Bool.false_eq_true, ↓reduceIte]
      cases (Parser.ofTokens (t :: ts)).parse.1 with
      | ok chain => rfl
      | error e => rfl

theorem compile?_of_parse {source : String} {chain : Chain} (h : Chain.parse source = .ok chain)
    (o : Options) : compile? o source = .ok (chain.canonical o) := by
  rw [compile?_eq_map_parse, h]
  rfl

theorem parse_of_compile? {o : Options} {source : String} {p : Pair} (h : compile? o source = .ok p) :
    ∃ chain, Chain.parse source = .ok chain ∧ p = chain.canonical o := by
  rw [compile?_eq_map_parse] at h
  cases read : Chain.parse source with
  | error e =>
      rw [read] at h
      cases h
  | ok chain =>
      rw [read] at h
      cases h
      exact ⟨chain, rfl, rfl⟩

end StageChain
