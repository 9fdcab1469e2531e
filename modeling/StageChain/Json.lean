import StageChain.Datum

/-! JSON values, the data that they stand for, and their texts. -/
namespace StageChain

inductive Json
  | null
  | bool (value : Bool)
  /-- A numeral without fraction and exponent. -/
  | int (value : Int)
  /-- Any other numeral, minus zero included, as it was written. -/
  | real (literal : List Char)
  | string (text : String)
  | array (items : List Json)
  | object (fields : List (String × Json))
  /-- A string, or an object with a key, that holds one half of a surrogate pair. It is proper
  JSON and stands for no text. -/
  | unpaired

namespace Json

/-! ## Data -/

def ofScalar : Scalar → Json
  | .null => null
  | .bool b => bool b
  | .int n => int n
  | .real literal => real literal
  | .text s => string s

/-- A scalar as the key of an object. -/
def key? : Scalar → Option String
  | .null => none
  | s => some (String.ofList s.plain)

mutual

/-- Tables and variants become objects, variants with their name as the only key. -/
def ofDatum : Datum → Except WriteError Json
  | .scalar s => .ok (ofScalar s)
  | .sequence items => do return array (← ofItems items)
  | .table entries => do return object (← ofEntries entries)
  | .variant name content => do return object [(name, ← ofDatum content)]

def ofItems : List Datum → Except WriteError (List Json)
  | [] => .ok []
  | d :: rest => do return (← ofDatum d) :: (← ofItems rest)

def ofEntries : List (Scalar × Datum) → Except WriteError (List (String × Json))
  | [] => .ok []
  | (key, d) :: rest =>
      match key? key with
      | some name => do return (name, ← ofDatum d) :: (← ofEntries rest)
      | none => .error .keyNotText

end

mutual

def toDatum : Json → Datum
  | null => .scalar .null
  | bool b => .scalar (.bool b)
  | int n => .scalar (.int n)
  | real literal => .scalar (.real literal)
  | string s => .text s
  | array items => .sequence (itemsToData items)
  | object fields => .table (fieldsToData fields)
  | unpaired => .scalar .null

def itemsToData : List Json → List Datum
  | [] => []
  | x :: rest => x.toDatum :: itemsToData rest

def fieldsToData : List (String × Json) → List (Scalar × Datum)
  | [] => []
  | (name, x) :: rest => (.text name, x.toDatum) :: fieldsToData rest

end

/-! ## Texts

A layout has no line breaks at all, or lines that are indented by a number of spaces a level. Both
write a value in front of the text that follows it. -/

def escape (c : Char) : List Char :=
  if c = '"' then ['\\', '"']
  else if c = '\\' then ['\\', '\\']
  else if c = '\x08' then ['\\', 'b']
  else if c = '\t' then ['\\', 't']
  else if c = '\n' then ['\\', 'n']
  else if c = '\x0c' then ['\\', 'f']
  else if c = '\x0d' then ['\\', 'r']
  else if c.toNat < 32 then
    ['\\', 'u', '0', '0', Hexadecimal.digit (c.toNat / 16), Hexadecimal.digit (c.toNat % 16)]
  else [c]

def quote (s : String) : List Char := '"' :: s.toList.flatMap escape ++ ['"']

def scalar : Json → List Char
  | null => ['n', 'u', 'l', 'l']
  | bool true => ['t', 'r', 'u', 'e']
  | bool false => ['f', 'a', 'l', 's', 'e']
  | int n => Decimal.ofInt n
  | real literal => literal
  | string s => quote s
  | array _ => ['[', ']']
  | object _ => ['{', '}']
  | unpaired => ['"', '\\', 'u', 'd', '8', '0', '0', '"']

def newline : Option Nat → Nat → List Char
  | none, _ => []
  | some width, level => '\n' :: List.replicate (width * level) ' '

def colon : Option Nat → List Char
  | none => [':']
  | some _ => [':', ' ']

mutual

def writeOnto (indent : Option Nat) (level : Nat) : Json → List Char → List Char
  | array (x :: xs), k =>
      '[' :: newline indent (level + 1) ++ x.writeOnto indent (level + 1)
        (writeItems indent (level + 1) xs (newline indent level ++ ']' :: k))
  | object ((name, x) :: xs), k =>
      '{' :: newline indent (level + 1) ++ quote name ++ colon indent ++ x.writeOnto indent (level + 1)
        (writeFields indent (level + 1) xs (newline indent level ++ '}' :: k))
  | x, k => x.scalar ++ k

def writeItems (indent : Option Nat) (level : Nat) : List Json → List Char → List Char
  | [], k => k
  | x :: xs, k =>
      ',' :: newline indent level ++ x.writeOnto indent level (writeItems indent level xs k)

def writeFields (indent : Option Nat) (level : Nat) : List (String × Json) → List Char → List Char
  | [], k => k
  | (name, x) :: xs, k =>
      ',' :: newline indent level ++ quote name ++ colon indent ++ x.writeOnto indent level
        (writeFields indent level xs k)

end

def compact (x : Json) : List Char := x.writeOnto none 0 []

def pretty (x : Json) : List Char := x.writeOnto (some 2) 0 []

end Json
end StageChain
