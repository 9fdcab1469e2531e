import StageChain.Compile
import StageChain.Toml
import StageChain.View

/-! The settings of a run, from the defaults, files and single overrides. -/
namespace StageChain

structure Settings where
  simplify : Bool
  format : String
  level : String
deriving DecidableEq

def Settings.options (s : Settings) : Options := ⟨s.simplify⟩

inductive SettingsError
  | wrongType
  /-- A section that is no table, or that lacks its value. -/
  | wrongShape
  | malformedFile
  | unreadableFile
  | malformedKey
deriving DecidableEq

def SettingsError.message : SettingsError → String
  | wrongType => "a value has the wrong type"
  | wrongShape => "a section is not a table with its value"
  | malformedFile => "a file is not valid TOML"
  | unreadableFile => "a file could not be read"
  | malformedKey => "a key is not a path"

/-- A source of settings. An optional file that cannot be read does not count. -/
inductive Layer
  | file (required : Bool) (content : Except FileError ByteArray)
  | override (key : String) (value : Setting)

namespace Settings

def defaults : Setting :=
  .table [("compile", .table [("simplify", .bool true)]),
    ("output", .table [("format", .text "canonical-simple")]),
    ("logging", .table [("level", .text "warn")])]

/-- Where an entry of a file belongs. Its name may be a path, and stands for itself if it is
none. -/
def entryPath (name : String) : List Setting.Step :=
  (Setting.readPath? name).getD [.field name]

def overlayAll (tree : Setting) : List (List Setting.Step × Setting) → Setting
  | [] => tree
  | (path, x) :: rest => overlayAll (Setting.overlayAt x path tree) rest

def place (entry : String × Setting) : List Setting.Step × Setting := (entryPath entry.1, entry.2)

def overlayFile (required : Bool) (content : Except FileError ByteArray) (tree : Setting) :
    Except SettingsError Setting :=
  match content.toOption.bind String.fromUTF8? with
  | none => if required then .error .unreadableFile else .ok tree
  | some text =>
      match Toml.parse text.toList with
      | some entries => .ok (overlayAll tree (entries.map place))
      | none => .error .malformedFile

def overlayFiles : List Layer → Setting → Except SettingsError Setting
  | [], tree => .ok tree
  | .file required content :: rest, tree => do overlayFiles rest (← overlayFile required content tree)
  | .override _ _ :: rest, tree => overlayFiles rest tree

/-- The overrides among the layers, with their keys read. Of those with one path only the last
counts. -/
def overrides : List Layer → Except SettingsError (List (List Setting.Step × Setting))
  | [] => .ok []
  | .file _ _ :: rest => overrides rest
  | .override key x :: rest =>
      match Setting.readPath? key with
      | some path => do
          let later ← overrides rest
          return if later.any fun o => o.1 == path then later else (path, x) :: later
      | none => .error .malformedKey

/-- The value in a section. A section may be a list, too, with its value in front. -/
def entry (tree : Setting) (sect name : String) : Except SettingsError Setting :=
  match Setting.get tree.fields sect with
  | .table fields =>
      match fields.lookup name with
      | some x => .ok x
      | none => .error .wrongShape
  | .list (x :: _) => .ok x
  | _ => .error .wrongShape

def typed {α : Type} (x : Option α) : Except SettingsError α :=
  match x with
  | some a => .ok a
  | none => .error .wrongType

def ofTree (tree : Setting) : Except SettingsError Settings := do
  let simplify ← typed (← entry tree "compile" "simplify").toBool?
  let format ← typed (← entry tree "output" "format").toText?
  let level ← typed (← entry tree "logging" "level").toText?
  return ⟨simplify, format, level⟩

/-- Settles the settings. Later files win over earlier ones, overrides over all files wherever
they stand, and later overrides over earlier ones. The keys of overrides are checked first. -/
def load (layers : List Layer) : Except SettingsError Settings := do
  let given ← overrides layers
  let tree ← overlayFiles layers defaults
  ofTree (overlayAll tree given)

end Settings
end StageChain
