import StageChain.Settings

/-! The command line: what the arguments ask for, and what comes of it. -/
namespace StageChain

structure Flags where
  format : Option String := none
  config : Option String := none
  noSimplify : Bool := false
deriving DecidableEq

inductive Command
  | version
  | listFormats
  | compile (source : String) (flags : Flags)
  | execute (path : String) (flags : Flags)
deriving DecidableEq

@[ext] structure Report where
  exit : Nat := 0
  stdout : String := ""
  stderr : String := ""
deriving DecidableEq

/-! ## Arguments -/

namespace Flags

structure Parsed where
  flags : Flags := {}
  operand : Option String := none

namespace Parsed

def setFormat (p : Parsed) (x : String) : Option Parsed :=
  if p.flags.format.isSome then none else some { p with flags := { p.flags with format := some x } }

def setConfig (p : Parsed) (x : String) : Option Parsed :=
  if p.flags.config.isSome then none else some { p with flags := { p.flags with config := some x } }

def setNoSimplify (p : Parsed) : Option Parsed :=
  if p.flags.noSimplify then none else some { p with flags := { p.flags with noSimplify := true } }

def setOperand (p : Parsed) (x : String) : Option Parsed :=
  if p.operand.isSome then none else some { p with operand := some x }

end Parsed

inductive Shape
  /-- Two hyphens: only operands follow. -/
  | separator
  | long (name : String) (value : Option String)
  | short (letter : Char) (rest : List Char)
  | operand (text : String)

def shape (arg : String) : Shape :=
  match arg.toList with
  | ['-', '-'] => .separator
  | '-' :: '-' :: s =>
      match s.span (· != '=') with
      | (name, _ :: value) => .long (String.ofList name) (some (String.ofList value))
      | (name, []) => .long (String.ofList name) none
  | '-' :: c :: rest => .short c rest
  | _ => .operand arg

/-- The value written in one argument with a short option. An equals sign in front of it does
not count. -/
def attached : List Char → Option String
  | [] => none
  | '=' :: s => some (String.ofList s)
  | s => some (String.ofList s)

def setter : Shape → Option ((Parsed → String → Option Parsed) × Option String)
  | .long "format" value => some (Parsed.setFormat, value)
  | .long "config" value => some (Parsed.setConfig, value)
  | .short 'f' rest => some (Parsed.setFormat, attached rest)
  | .short 'c' rest => some (Parsed.setConfig, attached rest)
  | _ => none

/-- Reads arguments in any order. Each option and the operand come once at most, and a value in
an argument of its own must not look like an option. -/
def parse (p : Parsed) : List String → Option Parsed
  | [] => some p
  | arg :: rest =>
      match setter (shape arg), shape arg with
      | some (set, some x), _ => (set p x).bind fun p => parse p rest
      | some (set, none), _ =>
          match rest with
          | x :: rest =>
              match shape x with
              | .operand x => (set p x).bind fun p => parse p rest
              | _ => none
          | [] => none
      | none, .long "no-simplify" none => p.setNoSimplify.bind fun p => parse p rest
      | none, .operand x => (p.setOperand x).bind fun p => parse p rest
      | none, .separator => rest.foldlM Parsed.setOperand p
      | none, _ => none

def ofArgs (args : List String) : Option (String × Flags) := do
  let p ← parse {} args
  return (← p.operand, p.flags)

end Flags

namespace Command

def ofArgs : List String → Option Command
  | "compile" :: args => (Flags.ofArgs args).map fun (source, flags) => compile source flags
  | "execute" :: args => (Flags.ofArgs args).map fun (path, flags) => execute path flags
  | "list-formats" :: args => if args = [] ∨ args = ["--"] then some listFormats else none
  | arg :: _ =>
      match Flags.shape arg with
      | .long "version" none => some version
      | .short 'V' _ => some version
      | _ => none
  | [] => none

/-! ## Runs -/

def localSettings : String := "chainfold.toml"

/-- A path with the ending `.toml` at its last name. Slashes and single dots behind that name are
left out. There is none for a path without names, or one that ends with a way up. -/
def withEnding? (path : String) : Option String :=
  match (path.toList.splitOn '/').reverse.dropWhile fun s => s == [] || s == ['.'] with
  | [] => none
  | name :: before =>
      if name = ['.', '.'] then none
      else some (String.ofList (List.intercalate ['/'] (name :: before).reverse) ++ ".toml")

/-- Reads a settings file. If it is not there, its name may lack the ending. -/
def readSettings (read : String → Except FileError ByteArray) (path : String) :
    Except FileError ByteArray :=
  match read path with
  | .ok bytes => .ok bytes
  | .error .denied => .error .denied
  | .error e =>
      match withEnding? path with
      | some path => read path
      | none => .error e

def layers (read : String → Except FileError ByteArray) (flags : Flags) : List Layer :=
  [.file false (readSettings read localSettings)]
    ++ (flags.config.map fun path => Layer.file true (readSettings read path)).toList
    ++ (if flags.noSimplify then [.override "compile.simplify" (.bool false)] else [])
    ++ (flags.format.map fun x => Layer.override "output.format" (.text x)).toList

def failed (kind message : String) : Report := ⟨1, "", kind ++ ": " ++ message ++ "\n"⟩

def compileReport (v : View) (o : Options) (source : String) : Report :=
  match v.render o source with
  | .ok text => ⟨0, text ++ "\n", ""⟩
  | .error e => failed "Processing error" e.message

def lineReport (path : String) : Nat × Except ViewError String → Report
  | (_, .ok text) => ⟨0, text ++ "\n", ""⟩
  | (n, .error e) =>
      ⟨1, "", path ++ ":" ++ String.ofList (Decimal.ofNat n) ++ ": " ++ e.message ++ "\n"⟩

def joinReports (reports : List Report) : Report where
  exit := if reports.any fun r => r.exit != 0 then 1 else 0
  stdout := String.join (reports.map Report.stdout)
  stderr := String.join (reports.map Report.stderr)

/-- Shows the lines of a file. Lines that fail do not stop the others. -/
def executeReport (v : View) (o : Options) (path : String)
    (content : Except FileError ByteArray) : Report :=
  match v.renderFile o content with
  | .ok lines => joinReports (lines.map (lineReport path))
  | .error e => failed "Processing error" e.message

def withView (read : String → Except FileError ByteArray) (flags : Flags)
    (go : View → Options → Report) : Report :=
  match Settings.load (layers read flags) with
  | .error e => failed "Configuration error" e.message
  | .ok settings =>
      match View.ofName settings.format with
      | .error e => failed "Format error" e.message
      | .ok v => go v settings.options

def run (read : String → Except FileError ByteArray) : Command → Report
  | version => ⟨0, "chainfold 0.1.0\n", ""⟩
  | listFormats =>
      ⟨0, "Available output formats:\n\n"
        ++ String.join (View.available.map fun v => "  " ++ v.name ++ "\n"), ""⟩
  | compile source flags => withView read flags fun v o => compileReport v o source
  | execute path flags => withView read flags fun v o => executeReport v o path (read path)

/-- The files that a command may ask for. -/
def paths : Command → List String
  | version | listFormats => []
  | compile _ flags => settingsPaths flags
  | execute path flags => path :: settingsPaths flags
where
  settingsPaths (flags : Flags) : List String :=
    (localSettings :: flags.config.toList).flatMap fun path => path :: (withEnding? path).toList

end Command
end StageChain
