import TextPipeline.Command.Options
import TextPipeline.Text.Terminal

/-!
What the stages report while they work, and how much of it is shown.
-/

namespace TextPipeline.Command

/-- How important an event is, the most important first. -/
inductive Level
  | error | warn | info | debug | trace
  deriving DecidableEq, Repr

namespace Level

def rank : Level → Nat
  | error => 0
  | warn => 1
  | info => 2
  | debug => 3
  | trace => 4

def name : Level → String
  | error => "ERROR"
  | warn => "WARN"
  | info => "INFO"
  | debug => "DEBUG"
  | trace => "TRACE"

end Level

/-- The least important events that are shown. -/
def Options.level (o : Options) : Level :=
  if o.quiet then .error
  else match o.verbose with
    | 0 => .warn
    | 1 => .debug
    | _ => .trace

inductive Event
  | lexed (tokens : Nat)
  | parsed (definitions : Nat)
  /-- A definition that no call can reach, because a builtin has its name. -/
  | shadowed (name : String) (line : Nat)
  | lowered (procedures bindings : Nat)
  | generated (size : Nat)
  | compiled (source : String) (size builtins : Nat)
  | executing (entry : String)
  | finished (texts : Nat)
  deriving DecidableEq, Repr

namespace Event

def level : Event → Level
  | shadowed .. => .warn
  | compiled .. => .info
  | _ => .debug

def message : Event → String
  | lexed _ => "lexed source"
  | parsed _ => "parsed program"
  | shadowed name _ => "function '" ++ name ++ "' is shadowed by the builtin of the same name"
  | lowered .. => "lowered program"
  | generated _ => "generated wasm module"
  | compiled source .. => "compiled " ++ source
  | executing _ => "executing wasm module"
  | finished _ => "execution finished"

/-- The named values after the message. -/
def fields : Event → List (String × String)
  | lexed tokens => [("count", toString tokens)]
  | parsed definitions => [("definitions", toString definitions)]
  | shadowed _ line => [("line", toString line)]
  | lowered procedures bindings =>
    [("procedures", toString procedures), ("bindings", toString bindings)]
  | generated size => [("size", toString size)]
  | compiled _ size builtins => [("bytes", toString size), ("builtins", toString builtins)]
  | executing entry => [("entry", entry)]
  | finished texts => [("strings", toString texts)]

/-- The event as a line of the log. The message is made safe for a terminal, and the values are
as they are. -/
def line (e : Event) : String :=
  let fields := e.fields.map fun (key, value) => key ++ "=" ++ value
  " ".intercalate (e.level.name :: Text.disarmed e.message :: fields)

/-- The definitions that builtins shadow, up to the first that is a repetition. -/
def ofDefinitions (definitions : List Definition) : List Event :=
  ((beforeRepeated Definition.name [] definitions).filter
    (Catalog.standard.contains ·.name)).map fun d => shadowed d.name d.line

def ofAssembly (a : Assembly) : Event :=
  lowered a.procedures.length (a.procedures.flatMap (·.bindings)).length

/-- The events of lowering a program text, up to the stage that fails. -/
def ofLowering (source entry : String) : List Event :=
  match Token.lex source with
  | .error _ => []
  | .ok tokens => lexed tokens.length ::
    match Program.ofTokens tokens with
    | .error _ => []
    | .ok p => parsed p.definitions.length :: ofDefinitions p.definitions ++
      match p.lower Catalog.standard entry with
      | .error _ => []
      | .ok a => [ofAssembly a]

/-- The events of compiling a program text, up to the stage that fails. -/
def ofCompiling (source entry : String) : List Event :=
  ofLowering source entry ++
    match Artifact.compile source entry with
    | .error _ => []
    | .ok a => [generated a.wasm.encode.length]

/-- The events of running an artifact, up to the stage that fails. -/
def ofRunning [Wasm.Engine] (a : Artifact) (input : String) : List Event :=
  match a.start input with
  | .error _ => []
  | .ok _ => executing a.entryPoint ::
    match a.finish input with
    | .error _ => []
    | .ok (_, host) => [finished host.texts.size]

end Event

end TextPipeline.Command
