import StageChain.Json

/-! Reading JSON text strictly: no comments, no trailing commas, no leading zeros. -/
namespace StageChain.Json

def isBlank (c : Char) : Bool := c == ' ' || c == '\t' || c == '\n' || c == '\x0d'

def skipBlanks (s : List Char) : List Char := s.dropWhile isBlank

/-! ## Strings -/

/-- A part of a string literal: a character, or the UTF-16 unit that a `\u` escape names. -/
inductive Unit16
  | char (c : Char)
  | unit (n : Nat)

def unescape? : Char → Option Char
  | '"' => some '"'
  | '\\' => some '\\'
  | '/' => some '/'
  | 'b' => some '\x08'
  | 'f' => some '\x0c'
  | 'n' => some '\n'
  | 'r' => some '\x0d'
  | 't' => some '\t'
  | _ => none

def stringBody : List Char → Option (List Unit16 × List Char)
  | [] => none
  | '"' :: rest => some ([], rest)
  | '\\' :: 'u' :: a :: b :: c :: d :: rest => do
      let n ← Hexadecimal.number? [a, b, c, d]
      let (units, rest) ← stringBody rest
      return (.unit n :: units, rest)
  | '\\' :: c :: rest => do
      let c ← unescape? c
      let (units, rest) ← stringBody rest
      return (.char c :: units, rest)
  | c :: rest =>
      if c.toNat < 32 then none
      else (stringBody rest).map fun (units, rest) => (.char c :: units, rest)

/-- The text of a string literal. Surrogate halves have to come in pairs. -/
def textOf? : List Unit16 → Option (List Char)
  | [] => some []
  | .char c :: rest => (textOf? rest).map (c :: ·)
  | .unit high :: rest =>
      if high < 0xD800 ∨ 0xE000 ≤ high then (textOf? rest).map (Char.ofNat high :: ·)
      else if high < 0xDC00 then
        match rest with
        | .unit low :: rest =>
            if 0xDC00 ≤ low ∧ low < 0xE000 then
              (textOf? rest).map
                (Char.ofNat (0x10000 + (high - 0xD800) * 0x400 + (low - 0xDC00)) :: ·)
            else none
        | _ => none
      else none

/-- Reads a string literal. The text is missing where surrogate halves stand alone. -/
def stringLiteral : List Char → Option (Option String × List Char)
  | '"' :: rest => do
      let (units, rest) ← stringBody rest
      return ((textOf? units).map String.ofList, rest)
  | _ => none

/-! ## Numbers -/

def digits (s : List Char) : Option (List Char × List Char) :=
  let ds := s.takeWhile Char.isDigit
  if ds.isEmpty then none else some (ds, s.dropWhile Char.isDigit)

def fraction : List Char → Option (List Char × List Char)
  | '.' :: s => (digits s).map fun (ds, rest) => ('.' :: ds, rest)
  | s => some ([], s)

def exponent : List Char → Option (List Char × List Char)
  | c :: s =>
      if c = 'e' ∨ c = 'E' then
        match s with
        | '+' :: s => (digits s).map fun (ds, rest) => (c :: '+' :: ds, rest)
        | '-' :: s => (digits s).map fun (ds, rest) => (c :: '-' :: ds, rest)
        | s => (digits s).map fun (ds, rest) => (c :: ds, rest)
      else some ([], c :: s)
  | [] => some ([], [])

def unsignedNumeral (s : List Char) : Option (List Char × List Char × List Char) := do
  let (whole, rest) ← digits s
  guard (whole.head? != some '0' || whole.length == 1)
  let (frac, rest) ← fraction rest
  let (exp, rest) ← exponent rest
  return (whole, frac ++ exp, rest)

def numeral : List Char → Option (Json × List Char)
  | '-' :: s => do
      let (whole, tail, rest) ← unsignedNumeral s
      if tail.isEmpty && whole != ['0'] then
        return (.int (-(Nat.ofDigitChars 10 whole 0 : Nat)), rest)
      else return (.real ('-' :: whole ++ tail), rest)
  | s => do
      let (whole, tail, rest) ← unsignedNumeral s
      if tail.isEmpty then return (.int (Nat.ofDigitChars 10 whole 0 : Nat), rest)
      else return (.real (whole ++ tail), rest)

/-! ## Values -/

/-- Reads items with commas between them. An item has to take up some text. -/
def commaSeparated {α : Type} (item : List Char → Option (α × List Char)) (s : List Char) :
    Option (List α × List Char) :=
  match item s with
  | none => none
  | some (a, rest) =>
      match skipBlanks rest with
      | ',' :: rest =>
          if rest.length < s.length then
            (commaSeparated item rest).map fun (as, rest) => (a :: as, rest)
          else none
      | rest => some ([a], rest)
termination_by s.length

def member (value : List Char → Option (Json × List Char)) (s : List Char) :
    Option ((Option String × Json) × List Char) := do
  let (key, rest) ← stringLiteral (skipBlanks s)
  match skipBlanks rest with
  | ':' :: rest =>
      let (x, rest) ← value rest
      return ((key, x), rest)
  | _ => none

def ofMembers (members : List (Option String × Json)) : Json :=
  match members.mapM fun (key, x) => key.map fun k => (k, x) with
  | some fields => .object fields
  | none => .unpaired

def value : Nat → List Char → Option (Json × List Char)
  | room, s =>
      match skipBlanks s with
      | 'n' :: 'u' :: 'l' :: 'l' :: rest => some (.null, rest)
      | 't' :: 'r' :: 'u' :: 'e' :: rest => some (.bool true, rest)
      | 'f' :: 'a' :: 'l' :: 's' :: 'e' :: rest => some (.bool false, rest)
      | '"' :: rest => do
          let (text, rest) ← stringLiteral ('"' :: rest)
          return (text.elim .unpaired .string, rest)
      | '[' :: rest =>
          match room with
          | 0 => none
          | room + 1 =>
              match skipBlanks rest with
              | ']' :: rest => some (.array [], rest)
              | rest => do
                  let (xs, rest) ← commaSeparated (value room) rest
                  match rest with
                  | ']' :: rest => return (.array xs, rest)
                  | _ => none
      | '{' :: rest =>
          match room with
          | 0 => none
          | room + 1 =>
              match skipBlanks rest with
              | '}' :: rest => some (.object [], rest)
              | rest => do
                  let (xs, rest) ← commaSeparated (member (value room)) rest
                  match rest with
                  | '}' :: rest => return (ofMembers xs, rest)
                  | _ => none
      | s => numeral s

/-- Reads a whole text as one value. A text nests fewer levels than it has characters. -/
def parse (s : List Char) : Option Json :=
  match value s.length s with
  | some (x, rest) => if (skipBlanks rest).isEmpty then some x else none
  | none => none

end StageChain.Json
