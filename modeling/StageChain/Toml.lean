import StageChain.Toml.Text

/-! Reading TOML: the tables of a document while it is read, its values and its statements. -/
namespace StageChain.Toml

/-- How a table came up: by a header of its own, on the way to another header, or by a key with
dots. A header may only complete the second kind, and a key with dots only the third. -/
inductive Origin
  | header
  | passing
  | dotted
deriving DecidableEq

inductive Node
  | value (x : Setting)
  | table (origin : Origin) (fields : List (String × Node))
  | rows (before : List (List (String × Node))) (last : List (String × Node))

abbrev Fields := List (String × Node)

namespace Fields

def put (k : String) (x : Node) : Fields → Fields
  | [] => [(k, x)]
  | (j, y) :: rest => if j = k then (j, x) :: rest else (j, y) :: put k x rest

def erase (k : String) (fs : Fields) : Fields := fs.filter fun f => f.1 != k

/-- Gives a key a value. Each key gets only one. -/
def assign (x : Setting) : List String → Fields → Option Fields
  | [], _ => none
  | [k], fs => if (fs.lookup k).isSome then none else some (put k (.value x) fs)
  | k :: path, fs =>
      match fs.lookup k with
      | none => (assign x path []).map fun sub => put k (.table .dotted sub) fs
      | some (.table .dotted sub) =>
          (assign x path sub).map fun sub => put k (.table .dotted sub) fs
      | some (.table .passing sub) =>
          if path.length = 1 then none
          else (assign x path sub).map fun sub => put k (.table .passing sub) fs
      | some (.rows before last) =>
          if path.length = 1 then none
          else (assign x path last).map fun last => put k (.rows before last) fs
      | some _ => none

def within (change : Fields → Option Fields) : List String → Fields → Option Fields
  | [], fs => change fs
  | k :: path, fs =>
      match fs.lookup k with
      | none => (within change path []).map fun sub => put k (.table .passing sub) fs
      | some (.value _) => none
      | some (.table origin sub) =>
          (within change path sub).map fun sub => put k (.table origin sub) fs
      | some (.rows before last) =>
          (within change path last).map fun last => put k (.rows before last) fs

/-- Opens the table of a header. It comes last in the table around it. -/
def openTable (path : List String) (fs : Fields) : Option Fields :=
  match path.getLast? with
  | none => none
  | some k =>
      within (fun fs =>
        match fs.lookup k with
        | none => some (put k (.table .header []) fs)
        | some (.table .passing sub) => some (put k (.table .header sub) (erase k fs))
        | some _ => none) path.dropLast fs

def openRow (path : List String) (fs : Fields) : Option Fields :=
  match path.getLast? with
  | none => none
  | some k =>
      within (fun fs =>
        match fs.lookup k with
        | none => some (put k (.rows [] []) fs)
        | some (.rows before last) => some (put k (.rows (before ++ [last]) []) fs)
        | some _ => none) path.dropLast fs

end Fields

mutual

def Node.toSetting : Node → Setting
  | .value x => x
  | .table _ fs => .table (fieldSettings fs)
  | .rows before last => .list (rowSettings before ++ [.table (fieldSettings last)])

def fieldSettings : List (String × Node) → List (String × Setting)
  | [] => []
  | (k, x) :: rest => (k, x.toSetting) :: fieldSettings rest

def rowSettings : List (List (String × Node)) → List Setting
  | [] => []
  | fs :: rest => .table (fieldSettings fs) :: rowSettings rest

end

/-! ## Values -/

/-- Reads the items of an array behind its opening bracket. A comma may follow the last one. -/
def arrayItems (value : List Char → Option (Setting × List Char)) (s : List Char) :
    Option (List Setting × List Char) :=
  match skipLines false s with
  | some (']' :: rest) => some ([], rest)
  | some s' =>
      match value s' with
      | none => none
      | some (x, rest) =>
          match skipLines false rest with
          | some (']' :: rest) => some ([x], rest)
          | some (',' :: rest) =>
              if rest.length < s.length then
                (arrayItems value rest).map fun (xs, rest) => (x :: xs, rest)
              else none
          | _ => none
  | none => none
termination_by s.length

def keyValue (value : List Char → Option (Setting × List Char)) (s : List Char) :
    Option ((List String × Setting) × List Char) := do
  let (path, rest) ← key s
  match rest with
  | '=' :: rest =>
      let (x, rest) ← value (skipGaps rest)
      return ((path, x), rest)
  | _ => none

def inlineFields (value : List Char → Option (Setting × List Char)) (fs : Fields)
    (s : List Char) : Option (Fields × List Char) :=
  match keyValue value s with
  | none => none
  | some ((path, x), rest) =>
      match fs.assign x path, skipGaps rest with
      | some fs, '}' :: rest => some (fs, rest)
      | some fs, ',' :: rest =>
          if rest.length < s.length then inlineFields value fs rest else none
      | _, _ => none
termination_by s.length

def value : Nat → List Char → Option (Setting × List Char)
  | room, s =>
      match s with
      | '"' :: _ | '\'' :: _ => (string? s).map fun (x, rest) => (.text x, rest)
      | '[' :: rest =>
          match room with
          | 0 => none
          | room + 1 => (arrayItems (value room) rest).map fun (xs, rest) => (.list xs, rest)
      | '{' :: rest =>
          match room with
          | 0 => none
          | room + 1 =>
              match skipGaps rest with
              | '}' :: rest => some (.table [], rest)
              | rest =>
                  (inlineFields (value room) [] rest).map fun (fs, rest) =>
                    (.table (fieldSettings fs), rest)
      | s =>
          match Datetime.parse s with
          | some (d, rest) => some (.date d, rest)
          | none => (word? (s.takeWhile isWordChar)).map fun x => (x, s.dropWhile isWordChar)

/-! ## Documents -/

structure Document where
  fields : Fields := []
  current : List String := []

def statement (d : Document) : List Char → Option (Document × List Char)
  | '[' :: '[' :: s => do
      let (path, rest) ← key s
      match rest with
      | ']' :: ']' :: rest => return (⟨← d.fields.openRow path, path⟩, ← lineEnd rest)
      | _ => none
  | '[' :: s => do
      let (path, rest) ← key s
      match rest with
      | ']' :: rest => return (⟨← d.fields.openTable path, path⟩, ← lineEnd rest)
      | _ => none
  | s => do
      let ((path, x), rest) ← keyValue (value (maxLevels - 1)) s
      let fields ← d.fields.within (Fields.assign x path) d.current
      return ({ d with fields }, ← lineEnd rest)

def statements (d : Document) (s : List Char) : Option Document :=
  match skipLines false s with
  | none => none
  | some [] => some d
  | some (c :: s') =>
      match statement d (c :: s') with
      | none => none
      | some (d, rest) => if rest.length < s.length then statements d rest else none
termination_by s.length

/-- A table whose first field has this name stands for the date that the field's text writes. -/
def dateField : String := "$__toml_private_datetime"

def standsFor? : List (String × Setting) → Option (Option Datetime)
  | (name, x) :: _ =>
      if name = dateField then
        match x with
        | .text s => some (Datetime.ofText? s.toList)
        | _ => some none
      else none
  | [] => none

mutual

/-- Puts dates in the place of the tables that stand for them. -/
def dated? : Setting → Option Setting
  | .table fs =>
      match standsFor? fs with
      | some d => d.map Setting.date
      | none => (datedFields? fs).map Setting.table
  | .list xs => (datedItems? xs).map Setting.list
  | x => some x

def datedFields? : List (String × Setting) → Option (List (String × Setting))
  | [] => some []
  | (name, x) :: rest =>
      match dated? x, datedFields? rest with
      | some x, some rest => some ((name, x) :: rest)
      | _, _ => none

def datedItems? : List Setting → Option (List Setting)
  | [] => some []
  | x :: rest =>
      match dated? x, datedItems? rest with
      | some x, some rest => some (x :: rest)
      | _, _ => none

end

/-- Reads a document, which is a table. A byte order mark in front of it does not count. -/
def parse (s : List Char) : Option (List (String × Setting)) :=
  let s := match s with
    | '\ufeff' :: s => s
    | s => s
  match (statements {} s).bind fun d => dated? (.table (fieldSettings d.fields)) with
  | some (.table fields) => some fields
  | _ => none

end StageChain.Toml
