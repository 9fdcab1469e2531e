import StageChain.Settings

/-! What laying values over a tree does to one key of it. The key keeps its value unless something is
written under it, and then it has what was written last. Other keys of the same section stay as they
are. This is said of single values: an empty table writes nothing, and lists and other tables are not
told apart. -/
namespace StageChain

section

variable {α β : Type} (f : α → Option β)

/-- The last result of a partial function along a list. -/
def lastSome? (l : List α) : Option β := l.reverse.findSome? f

@[simp] theorem lastSome?_nil : lastSome? f [] = none := rfl

theorem lastSome?_append (l l' : List α) :
    lastSome? f (l ++ l') = (lastSome? f l').or (lastSome? f l) := by
  rw [lastSome?, List.reverse_append, List.findSome?_append]
  rfl

theorem lastSome?_singleton (a : α) : lastSome? f [a] = f a := List.findSome?_singleton

theorem lastSome?_cons (a : α) (l : List α) :
    lastSome? f (a :: l) = (lastSome? f l).or (f a) := by
  rw [← lastSome?_singleton f a, ← lastSome?_append, List.singleton_append]

end

namespace Setting

/-- What the fields of one name hold. Names are compared in lower case, so there may be several. -/
def named (name : String) (x : Setting) : List Setting :=
  x.fields.filterMap fun f => if lower f.1 = name then some f.2 else none

/-- A value within the tables and lists that a path stands for. -/
def nest (x : Setting) : List Step → Setting
  | [] => x
  | .field k :: path => table [(k, x.nest path)]
  | .item _ :: path => list [x.nest path]

/-- What a value writes under a key of a section, first to last. -/
def written (sect name : String) (x : Setting) : List Setting :=
  (x.named sect).flatMap (named name)

/-- An empty table has nothing to give. -/
def given? : Setting → Option Setting
  | table [] => none
  | x => some x

/-- Lists and tables all look alike. -/
def outline : Setting → Setting
  | list _ | table _ => list []
  | x => x

def gist? (x : Setting) : Option Setting := x.given?.map outline

theorem named_table_cons (name k : String) (x : Setting) (fs : List (String × Setting)) :
    (table ((k, x) :: fs)).named name =
      if lower k = name then x :: (table fs).named name else (table fs).named name := by
  by_cases same : lower k = name
  · simp [named, fields, same]
  · simp [named, fields, same]

theorem named_table_singleton (name k : String) (x : Setting) :
    (table [(k, x)]).named name = if lower k = name then [x] else [] :=
  named_table_cons name k x []

/-! ## Overlays -/

end Setting
end StageChain
