import StageChain.Numeral

/-! What values hand to the writers of all formats, and its text in YAML. -/
namespace StageChain

inductive Scalar
  | null
  | bool (value : Bool)
  | int (value : Int)
  /-- Any other numeral, as it is written. -/
  | real (literal : List Char)
  | text (value : String)
deriving DecidableEq

inductive Datum
  | scalar (value : Scalar)
  | sequence (items : List Datum)
  | table (entries : List (Scalar × Datum))
  /-- A constructor and what it is applied to. One without arguments is its name, a text. -/
  | variant (name : String) (content : Datum)

inductive WriteError
  | keyNotText
  | nestedVariants
deriving DecidableEq

def WriteError.message : WriteError → String
  | keyNotText => "key must be a string"
  | nestedVariants => "serializing nested enums in YAML is not supported yet"

def Scalar.plain : Scalar → List Char
  | null => ['n', 'u', 'l', 'l']
  | bool true => ['t', 'r', 'u', 'e']
  | bool false => ['f', 'a', 'l', 's', 'e']
  | int n => Decimal.ofInt n
  | real literal => literal
  | text s => s.toList

namespace Datum

def text (s : String) : Datum := .scalar (.text s)

def record (fields : List (String × Datum)) : Datum :=
  .table (fields.map fun f => (.text f.1, f.2))

mutual

/-- Whether a variant, somewhere, is applied to nothing but another variant. -/
def nestsVariants : Datum → Bool
  | scalar _ => false
  | sequence items => itemsNestVariants items
  | table entries => entriesNestVariants entries
  | variant _ (variant _ _) => true
  | variant _ content => content.nestsVariants

def itemsNestVariants : List Datum → Bool
  | [] => false
  | d :: rest => d.nestsVariants || itemsNestVariants rest

def entriesNestVariants : List (Scalar × Datum) → Bool
  | [] => false
  | (_, d) :: rest => d.nestsVariants || entriesNestVariants rest

end

end Datum

/-! Scalars are written plain, which is right for numbers and words made of letters, the only ones
that a chain holds. A variant is a tag in front of its content. -/

namespace Yaml

def indent (level : Nat) : List Char := List.replicate (2 * level) ' '

mutual

/-- Writes what follows a key's colon or an item's dash, in front of the lines after it. -/
def blockOnto (level : Nat) : Datum → List Char → List Char
  | .scalar s, k => ' ' :: s.plain ++ '\n' :: k
  | .sequence [], k => ' ' :: '[' :: ']' :: '\n' :: k
  | .sequence (x :: xs), k => '\n' :: itemsOnto level (x :: xs) k
  | .table [], k => ' ' :: '{' :: '}' :: '\n' :: k
  | .table (x :: xs), k => '\n' :: entriesOnto level (x :: xs) k
  | .variant name x, k => ' ' :: '!' :: name.toList ++ blockOnto level x k

def itemsOnto (level : Nat) : List Datum → List Char → List Char
  | [], k => k
  | x :: xs, k => indent level ++ '-' :: blockOnto (level + 1) x (itemsOnto level xs k)

def entriesOnto (level : Nat) : List (Scalar × Datum) → List Char → List Char
  | [], k => k
  | (key, x) :: xs, k =>
      indent level ++ key.plain ++ ':' :: blockOnto (level + 1) x (entriesOnto level xs k)

end

/-- A whole document. Two tags do not go in front of one node. -/
def write (d : Datum) : Except WriteError (List Char) :=
  if d.nestsVariants then .error .nestedVariants else .ok (blockOnto 0 d []).tail

end Yaml
end StageChain
