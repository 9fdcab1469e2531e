import StageChain.Expr

/-! The words of a chain's text, and how they are found in it. What starts no word is skipped, one
character at a time. -/
namespace StageChain

inductive Token
  | element
  | plus | minus | times
  | less | greater | equals
  | and | or
  | openParen | closeParen
  | number (text : List Char)
  | pipe
  | closeBrace | filterOpen | mapOpen
deriving DecidableEq

namespace Token

def lexeme : Token → List Char
  | element => ['e', 'l', 'e', 'm', 'e', 'n', 't']
  | plus => ['+']
  | minus => ['-']
  | times => ['*']
  | less => ['<']
  | greater => ['>']
  | equals => ['=']
  | and => ['&']
  | or => ['|']
  | openParen => ['(']
  | closeParen => [')']
  | number text => text
  | pipe => ['%', '>', '%']
  | closeBrace => ['}']
  | filterOpen => ['f', 'i', 'l', 't', 'e', 'r', '{']
  | mapOpen => ['m', 'a', 'p', '{']

/-- The tokens with one spelling each. None of their lexemes starts with another one. -/
def fixed : List Token :=
  [element, plus, minus, times, less, greater, equals, and, or, openParen, closeParen,
    pipe, closeBrace, filterOpen, mapOpen]

def name : Token → String
  | element => "Element"
  | plus => "Plus"
  | minus => "Minus"
  | times => "Times"
  | less => "Less"
  | greater => "Greater"
  | equals => "Equals"
  | and => "And"
  | or => "Or"
  | openParen => "OpenParen"
  | closeParen => "CloseParen"
  | number _ => "Number"
  | pipe => "Pipe"
  | closeBrace => "CloseBrace"
  | filterOpen => "FilterOpen"
  | mapOpen => "MapOpen"

def operator? : Token → Option Operator
  | plus => some (.arith .plus)
  | minus => some (.arith .minus)
  | times => some (.arith .times)
  | greater => some (.logic .gt)
  | less => some (.logic .lt)
  | equals => some (.logic .eq)
  | and => some (.logic .and)
  | or => some (.logic .or)
  | _ => none

def isOperator (t : Token) : Bool := t.operator?.isSome

/-- The token that is spelled exactly so. -/
def ofLexeme? (s : List Char) : Option Token :=
  match fixed.find? fun t => t.lexeme == s with
  | some t => some t
  | none => if !s.isEmpty && s.all Char.isDigit then some (number s) else none

/-- The token at the start of a text: a fixed lexeme, or as many ASCII digits as there are. -/
def leading? (s : List Char) : Option Token :=
  match fixed.find? fun t => t.lexeme.isPrefixOf s with
  | some t => some t
  | none =>
      match s.takeWhile Char.isDigit with
      | [] => none
      | digits => some (number digits)

end Token

/-- A token with the place of its lexeme, counted in UTF-8 bytes. -/
structure Span where
  token : Token
  start : Nat
  stop : Nat
deriving DecidableEq

/-- The length of a text in UTF-8 bytes. -/
def byteLength : List Char → Nat
  | [] => 0
  | c :: rest => c.utf8Size + byteLength rest

def Span.scan (offset : Nat) : List Char → List Span
  | [] => []
  | c :: rest =>
      match Token.leading? (c :: rest) with
      | some t =>
          let stop := offset + byteLength t.lexeme
          ⟨t, offset, stop⟩ :: Span.scan stop (rest.drop (t.lexeme.length - 1))
      | none => Span.scan (offset + c.utf8Size) rest
termination_by s => s.length
decreasing_by
  · simp only [List.length_drop, List.length_cons]; omega
  · simp only [List.length_cons]; omega

def Token.scan (s : List Char) : List Token := (Span.scan 0 s).map Span.token

end StageChain
