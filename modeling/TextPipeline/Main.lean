import TextPipeline.Command.Session

/-!
The command line on the files of the system.
-/

namespace TextPipeline.Command

/-- The fault behind an error of the system. Some calls report the negated error number. -/
def faultOf (e : IO.Error) : FileFault :=
  match e with
  | .noFileOrDirectory .. => .notFound
  | .alreadyExists .. => .alreadyExists
  | .inappropriateType _ number _ =>
    if number = 20 ∨ number = 0 - 20 then .notDirectory
    else if number = 21 ∨ number = 0 - 21 then .isDirectory
    else .other (toString e)
  | .invalidArgument _ number _ =>
    if number = 36 ∨ number = 0 - 36 then .nameTooLong else .other (toString e)
  | _ => .other (toString e)

/-- The result of an action, or its fault. -/
def attempt {α : Type} (action : IO α) : IO (Except FileFault α) := do
  try return .ok (← action)
  catch e => return .error (faultOf e)

/-- The files of the system. -/
def systemStorage : Storage IO where
  standardInput := do
    let bytes ← (← IO.getStdin).readBinToEnd
    return bytes.toList
  read path := attempt do
    let bytes ← IO.FS.readBinFile path
    return bytes.toList
  makeDirectory path := attempt (IO.FS.createDir path)
  isDirectory path := (System.mkFilePath [path]).isDir
  write path contents := attempt (IO.FS.writeBinFile path contents.toByteArray)

end TextPipeline.Command

open TextPipeline in
def main (arguments : List String) : IO UInt32 := do
  let report ← Command.respond Command.systemStorage arguments
  for line in report.log do
    IO.eprintln line
  IO.eprint report.error
  IO.print report.output
  return report.code.toUInt32
