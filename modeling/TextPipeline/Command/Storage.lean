import TextPipeline.Wasm.Binary

/-!
The files that the command line works on, as the operations it needs, and what can go wrong
with them.
-/

namespace TextPipeline.Command

open Wasm (Bytes)

/-- Why an operation on files failed. -/
inductive FileFault
  | notFound | alreadyExists | notDirectory | isDirectory | nameTooLong
  | notText
  | other (message : String)
  deriving DecidableEq, Repr

def FileFault.message : FileFault → String
  | notFound => "No such file or directory (os error 2)"
  | alreadyExists => "File exists (os error 17)"
  | notDirectory => "Not a directory (os error 20)"
  | isDirectory => "Is a directory (os error 21)"
  | nameTooLong => "File name too long (os error 36)"
  | notText => "stream did not contain valid UTF-8"
  | other message => message

/-- Files and the standard input, in a monad. -/
structure Storage (m : Type → Type) where
  standardInput : m Bytes
  read : (path : String) → m (Except FileFault Bytes)
  makeDirectory : (path : String) → m (Except FileFault Unit)
  isDirectory : (path : String) → m Bool
  write : (path : String) → Bytes → m (Except FileFault Unit)

end TextPipeline.Command
