import TextPipeline.Command.FileTree
import TextPipeline.Main
import TextPipeline.Proofs.Artifact.Application
import TextPipeline.Proofs.Artifact.Definitions
import TextPipeline.Proofs.Artifact.Obliviousness
import TextPipeline.Proofs.Artifact.Outlining
import TextPipeline.Proofs.Artifact.Success
import TextPipeline.Proofs.Builtin.Indentation
import TextPipeline.Proofs.Builtin.Refusal
import TextPipeline.Proofs.Builtin.Replacement
import TextPipeline.Proofs.Command.Session
import TextPipeline.Proofs.Procedure.Listing
import TextPipeline.Proofs.Procedure.Operations
import TextPipeline.Proofs.Procedure.Resolution
import TextPipeline.Proofs.Procedure.SingleAssignment
import TextPipeline.Proofs.Program.Calls
import TextPipeline.Proofs.Program.Looping
import TextPipeline.Proofs.Program.Nesting
import TextPipeline.Proofs.Program.Parser
import TextPipeline.Proofs.Program.Rejection
import TextPipeline.Proofs.Program.Reprint
import TextPipeline.Proofs.Program.Running
import TextPipeline.Proofs.Text.Margin
import TextPipeline.Proofs.Token.Image
import TextPipeline.Proofs.Token.Lexer
import TextPipeline.Proofs.Token.Lines
import TextPipeline.Proofs.Token.Writing
import TextPipeline.Proofs.Wasm.Exhaustion
import TextPipeline.Proofs.Wasm.Faults
import TextPipeline.Proofs.Wasm.Interning
import TextPipeline.Proofs.Wasm.WellFormed
