import StageChain.Command
import StageChain.Proofs.Overlays

/-! Which layer a setting comes from. The last override of its key decides, then the last file that
defines it, then the defaults. How overrides and files are interleaved plays no part. Two things are
otherwise than they look: an empty table is no value, and the name of an entry is a path. -/
namespace StageChain

/-- The settings by name. -/
inductive Settings.Key
  | simplify
  | format
  | level
deriving DecidableEq

namespace Settings.Key

def sect : Key → String
  | simplify => "compile"
  | format => "output"
  | level => "logging"

def name : Key → String
  | simplify => "simplify"
  | format => "format"
  | level => "level"

/-- The key as an override spells it. -/
def path : Key → String
  | simplify => "compile.simplify"
  | format => "output.format"
  | level => "logging.level"

def steps (key : Key) : List Setting.Step := [.field key.sect, .field key.name]

theorem readPath?_path (key : Key) : Setting.readPath? key.path = some key.steps := by
  cases key <;> decide

theorem sect_injective {key key' : Key} (same : key.sect = key'.sect) : key = key' := by
  cases key <;> cases key' <;> revert same <;> decide

theorem steps_injective {key key' : Key} (same : key.steps = key'.steps) : key = key' :=
  sect_injective (Setting.Step.field.inj (List.cons.inj same).1)

theorem path_injective {key key' : Key} (same : key.path = key'.path) : key = key' := by
  have read := key.readPath?_path
  rw [same, key'.readPath?_path] at read
  exact (steps_injective (Option.some.inj read)).symm

theorem lower_sect (key : Key) : Setting.lower key.sect = key.sect := by
  cases key <;> decide

theorem lower_name (key : Key) : Setting.lower key.name = key.name := by
  cases key <;> decide

theorem named_nest_steps (key key' : Key) (x : Setting) :
    (x.nest key'.steps).named key.sect =
      if key' = key then [.table [(key.name, x)]] else [] := by
  rw [steps, Setting.nest, Setting.named_table_singleton, lower_sect]
  by_cases same : key' = key
  · subst same
    rw [if_pos rfl, if_pos rfl]
    rfl
  · rw [if_neg same, if_neg (mt sect_injective same)]

theorem written_nest_steps (key key' : Key) (x : Setting) :
    (x.nest key'.steps).written key.sect key.name = if key' = key then [x] else [] := by
  rw [Setting.written, named_nest_steps]
  by_cases same : key' = key
  · rw [if_pos same, if_pos same, List.flatMap_singleton, Setting.named_table_singleton, lower_name,
      if_pos rfl]
  · rw [if_neg same, if_neg same]
    rfl

end Settings.Key

namespace Layer

open Settings (Key)

/-- What a file holds. One that cannot be read holds nothing. -/
def entries : Layer → List (String × Setting)
  | file _ content =>
      ((content.toOption.bind String.fromUTF8?).bind fun text => Toml.parse text.toList).getD []
  | override _ _ => []

def override? (key : Key) : Layer → Option Setting
  | file _ _ => none
  | override k x => if k = key.path then some x else none

end Layer

namespace Settings

open Layer

theorem override?_path (key key' : Key) (x : Setting) :
    override? key (.override key'.path x) = if key' = key then some x else none := by
  rw [override?]
  by_cases same : key' = key
  · rw [if_pos same, if_pos (congrArg Key.path same)]
  · rw [if_neg same, if_neg (mt Key.path_injective same)]

/-- Overrides with their keys read, as they come from layers: the keys are those overridden, and
under each of them the last override is written. -/
structure Collects (layers : List Layer) (given : List (List Setting.Step × Setting)) : Prop where
  keys : ∀ v ∈ given, ∃ key : Key, v.1 = key.steps
  found : ∀ key : Key, (given.any fun o => o.1 == key.steps) =
    (lastSome? (override? key) layers).isSome
  last : ∀ key : Key,
    lastSome? Setting.gist? (given.flatMap fun v => (v.2.nest v.1).written key.sect key.name) =
      (lastSome? (override? key) layers).bind Setting.gist?

section

variable {layers layers' : List Layer} {given : List (List Setting.Step × Setting)} {key : Key}

theorem Collects.congr (h : Collects layers given)
    (same : ∀ key, lastSome? (override? key) layers' = lastSome? (override? key) layers) :
    Collects layers' given where
  keys := h.keys
  found key := by rw [same, h.found]
  last key := by rw [same, h.last]

theorem Collects.file (h : Collects layers given) (required : Bool)
    (content : Except FileError ByteArray) : Collects (.file required content :: layers) given := by
  apply h.congr
  intro key
  rw [lastSome?_cons, override?, Option.or_none]

/-- The last override of its key. -/
theorem Collects.override (h : Collects layers given)
    (last : (given.any fun o => o.1 == key.steps) = false) (x : Setting) :
    Collects (.override key.path x :: layers) ((key.steps, x) :: given) := by
  refine ⟨?_, ?_, ?_⟩
  · exact List.forall_mem_cons.mpr ⟨⟨key, rfl⟩, h.keys⟩
  · intro key'
    rw [List.any_cons, h.found, lastSome?_cons, override?_path]
    by_cases eq : key = key'
    · subst eq
      rw [if_pos rfl, beq_self_eq_true, Bool.true_or, Option.isSome_or, Option.isSome_some,
        Bool.or_true]
    · rw [if_neg eq, Option.or_none, beq_false_of_ne (mt Key.steps_injective eq), Bool.false_or]
  · intro key'
    rw [List.flatMap_cons, lastSome?_append, h.last, lastSome?_cons, override?_path,
      Key.written_nest_steps]
    by_cases eq : key = key'
    · subst eq
      rw [h.found, Option.isSome_eq_false_iff, Option.isNone_iff_eq_none] at last
      rw [if_pos rfl, if_pos rfl, lastSome?_singleton, last]
      rfl
    · rw [if_neg eq, if_neg eq, Option.or_none]
      exact Option.or_none

end

variable (read : String → Except FileError ByteArray) (flags : Flags)

end Settings
end StageChain
