import TextPipeline.Artifact

/-!
The arguments of the command line: a source, an optional input, and options, read from left
to right. An option that takes a value finds it attached or in the next argument, which then
must not look like an option. After `--` every argument is positional.
-/

namespace TextPipeline.Command

/-- What `--output` writes. -/
inductive Format
  | wasm | listing
  deriving DecidableEq, Repr

def Format.ofName? : String → Option Format
  | "wasm" => some wasm
  | "ir" => some listing
  | _ => none

structure Options where
  source : String
  input : String
  emit : Format
  output : Option String
  entry : String
  verbose : Nat
  quiet : Bool
  deriving DecidableEq, Repr

/-- Why there is nothing to run: the arguments are wrong, or ask for something else. -/
inductive Interruption
  | usage | version | help
  deriving DecidableEq, Repr

/-- The options that take a value. -/
inductive ValueOption
  | emit | output | entry
  deriving DecidableEq, Repr

/-- What the arguments so far have set. -/
structure Draft where
  source : Option String := none
  input : Option String := none
  emit : Option Format := none
  output : Option String := none
  entry : Option String := none
  verbose : Nat := 0
  quiet : Bool := false
  deriving DecidableEq, Repr

namespace Draft

/-- The first positional argument is the source, which is not empty, the second the input. -/
def addPositional (d : Draft) (value : String) : Except Interruption Draft :=
  match d.source, d.input with
  | none, _ => if value = "" then .error .usage else .ok { d with source := some value }
  | some _, none => .ok { d with input := some value }
  | some _, some _ => .error .usage

/-- Each option is set once; an output has a name. -/
def set (d : Draft) (value : String) : ValueOption → Except Interruption Draft
  | .emit =>
    match d.emit, Format.ofName? value with
    | none, some format => .ok { d with emit := some format }
    | _, _ => .error .usage
  | .output =>
    if d.output.isSome ∨ value = "" then .error .usage else .ok { d with output := some value }
  | .entry => if d.entry.isSome then .error .usage else .ok { d with entry := some value }

def setQuiet (d : Draft) : Except Interruption Draft :=
  if d.quiet then .error .usage else .ok { d with quiet := true }

def addVerbose (d : Draft) : Draft := { d with verbose := d.verbose + 1 }

/-- The letters of an argument with one dash, and the option that is left without a value. -/
def addLetters : List Char → Draft → Except Interruption (Draft × Option ValueOption)
  | [], d => .ok (d, none)
  | 'v' :: letters, d => addLetters letters d.addVerbose
  | 'q' :: letters, d => do addLetters letters (← d.setQuiet)
  | 'V' :: _, _ => .error .version
  | 'h' :: _, _ => .error .help
  | ['o'], d => .ok (d, some .output)
  | 'o' :: '=' :: value, d => return (← d.set (String.ofList value) .output, none)
  | 'o' :: value, d => return (← d.set (String.ofList value) .output, none)
  | _, _ => .error .usage

/-- An argument with two dashes, its value if one is attached, and the option that is left
without a value. -/
def addLong (d : Draft) (name : String) (value : Option String) :
    Except Interruption (Draft × Option ValueOption) :=
  match name, value with
  | "emit", some value => return (← d.set value .emit, none)
  | "output", some value => return (← d.set value .output, none)
  | "entry", some value => return (← d.set value .entry, none)
  | "emit", none => .ok (d, some .emit)
  | "output", none => .ok (d, some .output)
  | "entry", none => .ok (d, some .entry)
  | "verbose", none => .ok (d.addVerbose, none)
  | "quiet", none => return (← d.setQuiet, none)
  | "version", none => .error .version
  | "help", none => .error .help
  | _, _ => .error .usage

/-- The name before the first equals sign, and the value after it. -/
def splitLong (argument : List Char) : String × Option String :=
  let name := String.ofList (argument.takeWhile (· ≠ '='))
  match argument.dropWhile (· ≠ '=') with
  | _ :: value => (name, some (String.ofList value))
  | [] => (name, none)

/-- Reads arguments, the first of them as the value of `pending` if that is an option. -/
def read : (pending : Option ValueOption) → List String → Draft → Except Interruption Draft
  | none, [], d => .ok d
  | some _, [], _ => .error .usage
  | pending, argument :: arguments, d =>
    match argument.toList, pending with
    | ['-', '-'], none => arguments.foldlM addPositional d
    | '-' :: '-' :: long, none => do
      let (name, value) := splitLong long
      let (d, pending) ← d.addLong name value
      read pending arguments d
    | '-' :: letter :: letters, none => do
      let (d, pending) ← addLetters (letter :: letters) d
      read pending arguments d
    | '-' :: _ :: _, some _ => .error .usage
    | _, some option => do read none arguments (← d.set argument option)
    | _, none => do read none arguments (← d.addPositional argument)

end Draft

/-- The options of a command line. -/
def Options.ofArguments (arguments : List String) : Except Interruption Options := do
  let d ← Draft.read none arguments {}
  match d.source with
  | none => .error .usage
  | some source =>
    if d.quiet ∧ 0 < d.verbose then .error .usage
    else return {
      source
      input := d.input.getD ""
      emit := d.emit.getD .wasm
      output := d.output
      entry := d.entry.getD defaultEntry
      verbose := d.verbose
      quiet := d.quiet }

end TextPipeline.Command
