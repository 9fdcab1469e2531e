import StageChain.Datetime
import StageChain.Double

/-! Trees of named values, as settings files hold them, and the paths that lead into them. Names
are compared in lower case. -/
namespace StageChain

inductive Setting
  /-- Named, and not given a value. -/
  | unset
  | bool (value : Bool)
  | int (value : Int)
  | float (value : Double)
  | text (value : String)
  | date (value : Datetime)
  | list (items : List Setting)
  | table (fields : List (String × Setting))

/-- A step from a value to a part of it. A negative index counts from the end of a list. -/
inductive Setting.Step
  | field (name : String)
  | item (index : Int)
deriving DecidableEq

namespace Setting

def lower (s : String) : String := String.ofList (s.toList.map Char.toLower)

def fields : Setting → List (String × Setting)
  | table fs => fs
  | _ => []

def items : Setting → List Setting
  | list xs => xs
  | _ => []

/-- The value of a field. One that is not there counts as an empty table. -/
def get (fs : List (String × Setting)) (name : String) : Setting :=
  (fs.lookup name).getD (table [])

def put (name : String) (x : Setting) : List (String × Setting) → List (String × Setting)
  | [] => [(name, x)]
  | (k, y) :: rest => if k = name then (k, x) :: rest else (k, y) :: put name x rest

mutual

/-- Lays the first value over the second. Tables are merged field by field, so that an empty one
changes nothing, and anything else replaces what was there. -/
def overlay : Setting → Setting → Setting
  | table fs, old => if fs.isEmpty then old else table (overlayFields fs old.fields)
  | new, _ => new

def overlayFields : List (String × Setting) → List (String × Setting) → List (String × Setting)
  | [], old => old
  | (k, x) :: rest, old => overlayFields rest (put (lower k) (overlay x (get old (lower k))) old)

end

/-- The list grows at its end, or at its front for an index below its start. -/
def makeRoom (xs : List Setting) (index : Int) : List Setting × Nat :=
  let place := if index < 0 then index + xs.length else index
  if place < 0 then (List.replicate place.natAbs unset ++ xs, 0)
  else (xs ++ List.replicate (place.toNat + 1 - xs.length) unset, place.toNat)

/-- Values on the way that have no such parts are replaced by ones that do. -/
def overlayAt (x : Setting) : List Step → Setting → Setting
  | [], old => overlay x old
  | .field k :: path, old =>
      table (put (lower k) (overlayAt x path (get old.fields (lower k))) old.fields)
  -- An item of a list is replaced as a whole.
  | [.item i], old =>
      let (xs, n) := makeRoom old.items i
      list (xs.set n x)
  | .item i :: path, old =>
      let (xs, n) := makeRoom old.items i
      list (xs.modify n (overlayAt x path))

/-! ## Paths -/

def isNameChar (c : Char) : Bool := c.isAlphanum || c == ' ' || c == '_' || c == '-'

def readIndex? (s : List Char) : Option Step :=
  let isGap := fun c => c == ' ' || c == '\t'
  match s.reverse with
  | ']' :: s =>
      let digits := ((s.dropWhile isGap).reverse).dropWhile isGap
      if digits.head? = some '+' then none
      else match Decimal.toInt? digits with
        | some n =>
            if Int64.minValue.toInt ≤ n ∧ n ≤ Int64.maxValue.toInt then some (.item n) else none
        | none => none
  | _ => none

def readSegment? (s : List Char) : Option (List Step) :=
  match s.splitOn '[' with
  | name :: indices =>
      if name.isEmpty || !name.all isNameChar then none
      else do return .field (String.ofList name) :: (← indices.mapM readIndex?)
  | [] => none

/-- Reads a path such as `output.format` or `a.b[2].c`. -/
def readPath? (s : String) : Option (List Step) := do
  return (← (s.toList.splitOn '.').mapM readSegment?).flatten

def toBool? : Setting → Option Bool
  | bool b => some b
  | int n => some (n != 0)
  | float x => some !x.isZero
  | text s =>
      if ["1", "true", "on", "yes"].contains (lower s) then some true
      else if ["0", "false", "off", "no"].contains (lower s) then some false
      else none
  | _ => none

def toText? : Setting → Option String
  | text s => some s
  | bool true => some "true"
  | bool false => some "false"
  | int n => some (String.ofList (Decimal.ofInt n))
  | float x => some (String.ofList x.render)
  | date d => some (String.ofList d.render)
  | _ => none

end Setting
end StageChain
