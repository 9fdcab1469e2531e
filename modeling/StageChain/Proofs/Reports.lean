import StageChain.Command
import StageChain.Proofs.LineByLine
import StageChain.Proofs.Views

/-! The report on a file is put together from the reports on its lines. It shows what the lines show
by themselves, names each line that fails, and fails if there is one. -/
namespace StageChain

namespace Command

variable {v : View} {o : Options} {path source : String}

/-! ## The report on one line -/

section Lines

variable (v o path)

def alone (line : Nat × List Char) : Report := compileReport v o (String.ofList line.2)

def together (lines : List (Nat × List Char)) : Report :=
  joinReports (lines.map fun line => lineReport path (line.1, v.render o (String.ofList line.2)))

variable {v o} {line : Nat × List Char}

end Lines

/-! ## Commands -/

variable {read : String → Except FileError ByteArray} {flags : Flags} {settings : Settings}

end Command
end StageChain
