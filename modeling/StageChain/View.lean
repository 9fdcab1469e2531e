import StageChain.Codec
import StageChain.Compile

/-! Views of a source: its tokens, its tree or its canonical pair, each in a choice of layouts. A
file is viewed line by line. -/
namespace StageChain

inductive Subject
  | tokens
  | tree
  | canonical
deriving DecidableEq

inductive Layout
  | simple
  | json
  | yaml
deriving DecidableEq

structure View where
  subject : Subject
  layout : Layout
deriving DecidableEq

inductive FileError
  | missing
  | directory
  | notDirectory
  | nameTooLong
  | denied
  | notUtf8
deriving DecidableEq

inductive ViewError
  | noHyphen (name : String)
  | unknownSubject (name : String)
  | unknownLayout (name : String)
  /-- A view's name that combines a subject with a layout it does not come in. -/
  | unavailable (name : String) (subject : Subject)
  /-- A view that was put together without a name, and is not available. -/
  | unsupported (view : View)
  | compile (error : CompileError)
  | serialization (error : WriteError)
  | file (error : FileError)
deriving DecidableEq

namespace Subject

def name : Subject → String
  | tokens => "token"
  | tree => "ast"
  | canonical => "canonical"

def ofName? : String → Option Subject
  | "token" => some tokens
  | "ast" => some tree
  | "canonical" => some canonical
  | _ => none

end Subject

namespace Layout

def name : Layout → String
  | simple => "simple"
  | json => "json"
  | yaml => "yaml"

def ofName? : String → Option Layout
  | "simple" => some simple
  | "json" => some json
  | "yaml" => some yaml
  | _ => none

end Layout

def FileError.message : FileError → String
  | missing => "No such file or directory (os error 2)"
  | directory => "Is a directory (os error 21)"
  | notDirectory => "Not a directory (os error 20)"
  | nameTooLong => "File name too long (os error 36)"
  | denied => "Permission denied (os error 13)"
  | notUtf8 => "stream did not contain valid UTF-8"

def View.name (v : View) : String := v.subject.name ++ "-" ++ v.layout.name

def ViewError.message : ViewError → String
  | noHyphen name => "Invalid format: " ++ name
  | unknownSubject name => "Invalid stage: " ++ name
  | unknownLayout name => "Invalid format type: " ++ name
  | unavailable name subject =>
      "Invalid format type: Format '" ++ name ++ "' not supported for " ++ subject.name ++ " stage"
  | unsupported view => "Invalid format type: " ++ view.name
  | compile error => error.message
  | serialization error => "Serialization error: " ++ error.message
  | file error => "IO error: " ++ error.message

namespace Lines

/-- The characters with the Unicode property White_Space. -/
def isSpace (c : Char) : Bool :=
  let n := c.toNat
  (9 ≤ n && n ≤ 13) || n == 0x20 || n == 0x85 || n == 0xA0 || n == 0x1680
    || (0x2000 ≤ n && n ≤ 0x200A) || n == 0x2028 || n == 0x2029 || n == 0x202F || n == 0x205F
    || n == 0x3000

def isBlank (line : List Char) : Bool := line.all isSpace

def dropReturn (line : List Char) : List Char :=
  if line.getLast? = some '\x0d' then line.dropLast else line

/-- The last line may lack its line feed, and is then kept as it is. -/
def splitFrom (line : List Char) : List Char → List (List Char)
  | [] => if line.isEmpty then [] else [line.reverse]
  | '\n' :: rest => dropReturn line.reverse :: splitFrom [] rest
  | c :: rest => splitFrom (c :: line) rest

def split (text : List Char) : List (List Char) := splitFrom [] text

def numbered (text : List Char) : List (Nat × List Char) :=
  ((split text).zipIdx 1).filterMap fun (line, n) => if isBlank line then none else some (n, line)

end Lines

namespace View

def available : List View :=
  [⟨.tokens, .simple⟩, ⟨.tokens, .json⟩, ⟨.tree, .simple⟩, ⟨.tree, .json⟩, ⟨.tree, .yaml⟩,
    ⟨.canonical, .simple⟩, ⟨.canonical, .json⟩]

/-- Reads a name such as `ast-json`. The subject ends at the first hyphen. -/
def ofName (name : String) : Except ViewError View :=
  match name.toList.span (· != '-') with
  | (subject, _ :: layout) =>
      match Subject.ofName? (String.ofList subject), Layout.ofName? (String.ofList layout) with
      | none, _ => .error (.unknownSubject (String.ofList subject))
      | some _, none => .error (.unknownLayout (String.ofList layout))
      | some s, some l =>
          if available.contains ⟨s, l⟩ then .ok ⟨s, l⟩ else .error (.unavailable name s)
  | (_, []) => .error (.noHyphen name)

def writeJson (d : Datum) : Except ViewError String :=
  match Json.ofDatum d with
  | .ok x => .ok (String.ofList x.pretty)
  | .error e => .error (.serialization e)

/-- A stage in a chain is a variant in a variant, so the data become a JSON value first. -/
def writeYaml (d : Datum) : Except ViewError String :=
  match Json.ofDatum d with
  | .ok x =>
      match Yaml.write x.toDatum with
      | .ok text => .ok (String.ofList text)
      | .error e => .error (.serialization e)
  | .error e => .error (.serialization e)

def renderTokens (tokens : List Token) : Layout → Except ViewError String
  | .simple => .ok (String.ofList ([' '].intercalate (tokens.map Token.lexeme)))
  | .json => writeJson (.sequence (tokens.map Token.toDatum))
  | .yaml => .error (.unsupported ⟨.tokens, .yaml⟩)

def renderTree (chain : Chain) : Layout → Except ViewError String
  | .simple => .ok (String.ofList chain.render)
  | .json => writeJson chain.toDatum
  | .yaml => writeYaml chain.toDatum

/-- Where a source does not compile, its simple canonical view is the message of the error. -/
def render (v : View) (o : Options) (source : String) : Except ViewError String :=
  match v with
  | ⟨.tokens, layout⟩ => renderTokens (Token.scan source.toList) layout
  | ⟨.tree, layout⟩ =>
      match Chain.parse source with
      | .ok chain => renderTree chain layout
      | .error e => .error (.compile e)
  | ⟨.canonical, .simple⟩ => .ok (StageChain.compile o source)
  | ⟨.canonical, .json⟩ =>
      match compile? o source with
      | .ok p => writeJson p.toDatum
      | .error e => .error (.compile e)
  | ⟨.canonical, .yaml⟩ => .error (.unsupported ⟨.canonical, .yaml⟩)

def renderLines (v : View) (o : Options) (text : String) : List (Nat × Except ViewError String) :=
  (Lines.numbered text.toList).map fun (n, line) => (n, v.render o (String.ofList line))

def renderFile (v : View) (o : Options) (content : Except FileError ByteArray) :
    Except ViewError (List (Nat × Except ViewError String)) :=
  match content with
  | .error e => .error (.file e)
  | .ok bytes =>
      match String.fromUTF8? bytes with
      | some text => .ok (v.renderLines o text)
      | none => .error (.file .notUtf8)

end View
end StageChain
