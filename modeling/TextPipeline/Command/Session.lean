import TextPipeline.Command.Event
import TextPipeline.Command.Path
import TextPipeline.Command.Storage

/-!
A run of the command line: check the input, read the source, compile it, write the artifact
if an output is asked for, execute. The first failure ends the run.
-/

namespace TextPipeline.Command

open Wasm (Bytes)

/-- What ended a run. -/
inductive Failure
  | input (e : Error)
  | standardInput (f : FileFault)
  | source (path : String) (f : FileFault)
  | compilation (e : Error)
  | directory (path : String) (f : FileFault)
  | output (path : String) (f : FileFault)
  | execution (e : Error)
  deriving DecidableEq, Repr

def Failure.message : Failure → String
  | input e => "invalid input: " ++ e.message
  | standardInput f => "failed to read source from stdin: " ++ f.message
  | source path f => "failed to read source file " ++ path ++ ": " ++ f.message
  | compilation e => "compilation failed: " ++ e.message
  | directory path f =>
    "failed to create directory " ++ Text.quoted path ++ ": " ++ f.message
  | output path f => "failed to write output file " ++ path ++ ": " ++ f.message
  | execution e => "execution failed: " ++ e.message

section

variable {m : Type → Type} [Monad m] (storage : Storage m)

/-- The program text: a file, or the standard input for a single dash. -/
def readSource (path : String) : m (Except Failure String) := do
  if Path.isDash path then
    match decodeUtf8? (← storage.standardInput) with
    | some text => return .ok text
    | none => return .error (.standardInput .notText)
  else
    match ← storage.read path with
    | .error f => return .error (.source path f)
    | .ok bytes =>
      match decodeUtf8? bytes with
      | some text => return .ok text
      | none => return .error (.source path .notText)

/-- Makes a directory unless it is there. -/
def ensureDirectory (path : String) : m (Except FileFault Unit) := do
  match ← storage.makeDirectory path with
  | .ok () => return .ok ()
  | .error f => if ← storage.isDirectory path then return .ok () else return .error f

/-- Makes the first directory, and those after it, which lie above it, where they are
missing. -/
def ensureDirectories : List String → m (Except FileFault Unit)
  | [] => return .ok ()
  | path :: above => do
    match ← storage.makeDirectory path with
    | .ok () => return .ok ()
    | .error .notFound =>
      match ← ensureDirectories above with
      | .ok () => ensureDirectory storage path
      | .error f => return .error f
    | .error f => if ← storage.isDirectory path then return .ok () else return .error f

/-- Writes a file, in directories that are made as needed. -/
def writeOutput (path : String) (contents : Bytes) : m (Except Failure Unit) := do
  let directories := Path.directories path
  match ← ensureDirectories storage directories with
  | .error f => return .error (.directory (directories.headD "") f)
  | .ok () =>
    match ← storage.write path contents with
    | .error f => return .error (.output path f)
    | .ok () => return .ok ()

/-- What a run did: the events in order, and the result or what ended it. -/
structure Outcome where
  events : List Event
  result : Except Failure String

/-- What `--output` writes for an artifact compiled from this source. -/
def artifactBytes (o : Options) (source : String) (a : Artifact) : Except Error Bytes :=
  match o.emit with
  | .wasm => .ok a.wasm.encode
  | .listing => do return Wasm.utf8 (← listSource source o.entry)

/-- The events of making those bytes: a listing lowers the source again. -/
def artifactEvents (o : Options) (source : String) : List Event :=
  match o.emit with
  | .wasm => []
  | .listing => Event.ofLowering source o.entry

/-- The events and the result of executing an artifact, after these events. -/
def executed [Wasm.Engine] (o : Options) (a : Artifact) (events : List Event) : Outcome where
  events := events ++ Event.ofRunning a o.input
  result := (a.execute o.input).mapError .execution

/-- Writes the artifact if an output is asked for, and executes it. -/
def emitAndExecute [Wasm.Engine] (o : Options) (source : String) (a : Artifact)
    (events : List Event) : m Outcome := do
  match o.output with
  | none => return executed o a events
  | some path =>
    let events := events ++ artifactEvents o source
    match artifactBytes o source a with
    | .error e => return ⟨events, .error (.compilation e)⟩
    | .ok bytes =>
      match ← writeOutput storage path bytes with
      | .error f => return ⟨events, .error f⟩
      | .ok () => return executed o a events

/-- A run with these options. -/
def session [Wasm.Engine] (o : Options) : m Outcome := do
  match Text.ensurePlain o.input with
  | .error e => return ⟨[], .error (.input e)⟩
  | .ok () =>
    match ← readSource storage o.source with
    | .error f => return ⟨[], .error f⟩
    | .ok source =>
      let events := Event.ofCompiling source o.entry
      match Artifact.compile source o.entry with
      | .error e => return ⟨events, .error (.compilation e)⟩
      | .ok a =>
        let compiled := Event.compiled o.source a.wasm.encode.length a.builtins.length
        emitAndExecute storage o source a (events ++ [compiled])

end

/-! ### What the user sees -/

/-- The exit code, the standard output, the lines of the log and the error after them. -/
structure Report where
  code : UInt8
  output : String
  log : List String
  error : String
  deriving DecidableEq, Repr

def versionText : String := "nalgae 0.1.0\n"

def usageText : String := "Usage: nalgae [OPTIONS] <SOURCE> [INPUT]\n"

def helpText : String :=
  "Compile a nalgae program and run it on one input string\n\n" ++ usageText ++
  "\nArguments:\n" ++
  "  <SOURCE>  Source file (`-` reads the program from stdin)\n" ++
  "  [INPUT]   Input string handed to the program [default: ]\n" ++
  "\nOptions:\n" ++
  "      --emit <FORMAT>  Artifact written by --output [default: wasm] " ++
  "[possible values: wasm, ir]\n" ++
  "  -o, --output <PATH>  Also write the compiled artifact\n" ++
  "      --entry <NAME>   Name the entry procedure is exported under [default: run]\n" ++
  "  -v, --verbose...     More log output (-v debug, -vv trace)\n" ++
  "  -q, --quiet          Only log errors\n" ++
  "  -h, --help           Print help\n" ++
  "  -V, --version        Print version\n"

def Interruption.report : Interruption → Report
  | usage => ⟨2, "", [], "error: invalid arguments\n\n" ++ usageText⟩
  | version => ⟨0, versionText, [], ""⟩
  | help => ⟨0, helpText, [], ""⟩

/-- The outcome with the events that the options let through. -/
def Outcome.report (o : Options) (outcome : Outcome) : Report :=
  let log := (outcome.events.filter (·.level.rank ≤ o.level.rank)).map Event.line
  match outcome.result with
  | .ok text => ⟨0, text ++ "\n", log, ""⟩
  | .error f => ⟨1, "", log, "error: " ++ f.message ++ "\n"⟩

/-- The command line with these arguments. -/
def respond [Wasm.Engine] {m : Type → Type} [Monad m] (storage : Storage m)
    (arguments : List String) : m Report := do
  match Options.ofArguments arguments with
  | .error i => return i.report
  | .ok o => return (← session storage o).report o

end TextPipeline.Command
