import StageChain.Directory
import StageChain.Main
import StageChain.Proofs.BlankFilter
import StageChain.Proofs.Growth
import StageChain.Proofs.Heights
import StageChain.Proofs.OffsetTowers
import StageChain.Proofs.ParserReuse
import StageChain.Proofs.Precedence
import StageChain.Proofs.Recompilation
import StageChain.Proofs.Reports
import StageChain.Proofs.Simplification
import StageChain.Proofs.Spacing
import StageChain.Proofs.Spans
