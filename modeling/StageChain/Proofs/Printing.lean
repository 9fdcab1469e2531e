import StageChain.Chain
import StageChain.Proofs.Numeral
import StageChain.Proofs.Scanning

/-! The tokens of a printed chain. Scanning the text finds exactly these. -/
namespace StageChain

namespace Operator

def token : Operator → Token
  | arith .plus => .plus
  | arith .minus => .minus
  | arith .times => .times
  | logic .gt => .greater
  | logic .lt => .less
  | logic .eq => .equals
  | logic .and => .and
  | logic .or => .or

theorem operator?_token (op : Operator) : op.token.operator? = some op := by
  cases op with
  | arith op => cases op <;> rfl
  | logic op => cases op <;> rfl

theorem lexeme_token (op : Operator) : op.token.lexeme = [op.symbol] := by
  cases op with
  | arith op => cases op <;> rfl
  | logic op => cases op <;> rfl

theorem token_mem_fixed (op : Operator) : op.token ∈ Token.fixed := by
  cases op with
  | arith op => cases op <;> decide
  | logic op => cases op <;> decide

end Operator

namespace Expr

def digits (n : Int32) : List Char := Decimal.ofNat n.toInt.natAbs

def constTokens (n : Int32) : List Token :=
  if n < 0 then [.openParen, .minus, .number (digits n), .closeParen] else [.number (digits n)]

def tokens : Expr → List Token
  | element => [.element]
  | const n => constTokens n
  | binary left op right =>
      .openParen :: (left.tokens ++ op.token :: (right.tokens ++ [.closeParen]))

theorem toInt_neg_iff {n : Int32} : n < 0 ↔ n.toInt < 0 := Int32.lt_iff_toInt_lt

theorem scan_digits (n : Int32) {rest : List Char} (h : startsWithDigit rest = false) :
    Token.scan (digits n ++ rest) = .number (digits n) :: Token.scan rest := by
  have written : (Token.number (digits n)).IsWritten :=
    ⟨Decimal.ofNat_ne_nil _, fun _ => Decimal.isDigit_of_mem_ofNat⟩
  exact Token.scan_lexeme written h

theorem scan_renderConst (n : Int32) {rest : List Char} (h : startsWithDigit rest = false) :
    Token.scan (renderConst n ++ rest) = constTokens n ++ Token.scan rest := by
  by_cases negative : n < 0
  · have text : renderConst n ++ rest = Token.openParen.lexeme ++
        (Token.minus.lexeme ++ (digits n ++ (Token.closeParen.lexeme ++ rest))) := by
      simp only [renderConst, Decimal.ofInt, negative, toInt_neg_iff.mp negative, ↓reduceIte,
        Token.lexeme, digits, List.cons_append, List.nil_append, List.append_assoc]
    rw [text, Token.scan_fixed (by decide), Token.scan_fixed (by decide), scan_digits n rfl,
      Token.scan_fixed (by decide)]
    simp only [constTokens, negative, ↓reduceIte, List.cons_append, List.nil_append]
  · have text : renderConst n ++ rest = digits n ++ rest := by
      simp only [renderConst, Decimal.ofInt, negative, mt toInt_neg_iff.mpr negative, ↓reduceIte,
        digits]
    rw [text, scan_digits n h]
    simp only [constTokens, negative, ↓reduceIte, List.cons_append, List.nil_append]

theorem scan_render (e : Expr) {rest : List Char} (h : startsWithDigit rest = false) :
    Token.scan (e.render ++ rest) = e.tokens ++ Token.scan rest := by
  induction e generalizing rest with
  | element => exact Token.scan_fixed (t := .element) (by decide) rest
  | const n => exact scan_renderConst n h
  | binary left op right ihl ihr =>
      have text : (binary left op right).render ++ rest = Token.openParen.lexeme ++
          (left.render ++ (op.token.lexeme ++ (right.render ++
            (Token.closeParen.lexeme ++ rest)))) := by
        rw [op.lexeme_token]
        simp only [render, Token.lexeme, List.cons_append, List.nil_append, List.append_assoc]
      rw [text, Token.scan_fixed (by decide), ihl (Token.startsWithDigit_fixed op.token_mem_fixed _),
        Token.scan_fixed op.token_mem_fixed, ihr rfl, Token.scan_fixed (by decide)]
      simp only [tokens, List.cons_append, List.nil_append, List.append_assoc]

end Expr

namespace Stage

def opening : Stage → Token
  | map _ => .mapOpen
  | filter _ => .filterOpen

def tokens (s : Stage) : List Token := s.opening :: (s.body.tokens ++ [.closeBrace])

theorem opening_mem_fixed (s : Stage) : s.opening ∈ Token.fixed := by
  cases s with
  | map e => exact (by decide : Token.mapOpen ∈ Token.fixed)
  | filter e => exact (by decide : Token.filterOpen ∈ Token.fixed)

theorem scan_render (s : Stage) (rest : List Char) :
    Token.scan (s.render ++ rest) = s.tokens ++ Token.scan rest := by
  have text : s.render ++ rest =
      s.opening.lexeme ++ (s.body.render ++ (Token.closeBrace.lexeme ++ rest)) := by
    cases s <;> simp only [render, opening, body, Token.lexeme, List.cons_append,
      List.nil_append, List.append_assoc]
  rw [text, Token.scan_fixed s.opening_mem_fixed, Expr.scan_render s.body rfl,
    Token.scan_fixed (by decide)]
  simp only [tokens, List.cons_append, List.nil_append, List.append_assoc]

end Stage

namespace Chain

def tokens : Chain → List Token
  | single s => s.tokens
  | link s rest => s.tokens ++ .pipe :: rest.tokens

theorem scan_render (chain : Chain) : Token.scan chain.render = chain.tokens := by
  induction chain with
  | single s =>
      have scanned := s.scan_render []
      rw [Token.scan_nil, List.append_nil, List.append_nil] at scanned
      exact scanned
  | link s rest ih =>
      have text : (link s rest).render = s.render ++ (Token.pipe.lexeme ++ rest.render) := rfl
      rw [text, s.scan_render, Token.scan_fixed (by decide), ih]
      rfl

end Chain
end StageChain
