import Chakobsa.Lexer.Rendered
import Chakobsa.Lexer.Errors
import Chakobsa.Parser.DeclOrder
import Chakobsa.Parser.Extents
import Chakobsa.Parser.LoopHeaders
import Chakobsa.Parser.StaticSemantics
import Chakobsa.Ir.PhiResolution
import Chakobsa.Ir.PhiOrder
import Chakobsa.Ir.TypeSoundness
import Chakobsa.Codegen.Regions
import Chakobsa.Codegen.AllocSound
import Chakobsa.Codegen.Structural
import Chakobsa.Codegen.PhiCoverage
import Chakobsa.Parser.SsaConstruction
import Chakobsa.Codegen.BranchLowering
import Chakobsa.Codegen.StackDiscipline
import Chakobsa.Ir.CallChecks
import Chakobsa.Ir.UndefinedOperand
import Chakobsa.Codegen.BlockOrder
import Chakobsa.Codegen.Recompiled
import Chakobsa.Lib.Machine
import Chakobsa.Codegen.Activation
import Chakobsa.Codegen.Correctness
import Chakobsa.Codegen.OrderIrrelevant
import Chakobsa.Codegen.Points
import Chakobsa.Ir.Progress
import Chakobsa.Ir.Fuel
import Chakobsa.Parser.Evaluation
import Chakobsa.Parser.Histories
import Chakobsa.Parser.Resumption
import Chakobsa.Parser.HistorySteps
import Chakobsa.Parser.Preservation
import Chakobsa.Parser.Accepted
import Chakobsa.Cli.Runnable
import Chakobsa.Parser.Exhaustion
