import StageChain.View

/-! A working directory that holds files and nothing else. Of the directories around it only the
way up is known. -/
namespace StageChain

structure Directory where
  files : List (String × ByteArray)

namespace Directory

/-- The length of the longest name, in bytes. -/
def maxName : Nat := 255

/-- The length of the longest path, in bytes. -/
def maxPath : Nat := 4095

def steps (path : String) : List String := (path.toList.splitOn '/').map String.ofList

/-- Takes steps from a directory, from the working one if `here` holds. An empty step and a
single dot stay there. A step can only follow one that led to a directory. -/
def follow (d : Directory) (here : Bool) : List String → Except FileError ByteArray
  | [] => .error .directory
  | name :: rest =>
      if name = "" ∨ name = "." then d.follow here rest
      else if name = ".." then d.follow false rest
      else if maxName < name.utf8ByteSize then .error .nameTooLong
      else match if here then d.files.lookup name else none with
        | some bytes => if rest.isEmpty then .ok bytes else .error .notDirectory
        | none => .error .missing

def read (d : Directory) (path : String) : Except FileError ByteArray :=
  if path.isEmpty then .error .missing
  else if maxPath < path.utf8ByteSize then .error .nameTooLong
  else d.follow (!path.startsWith "/") (steps path)

end Directory
end StageChain
