import TextPipeline.Builtin
import TextPipeline.Text.Quoted

/-!
What can go wrong, by cause, and how it is worded.

An `Error` names the stage that stopped and why. A `Diagnostic` is an error put into words:
it keeps the stage, the source line where there is one, and the message.
-/

namespace TextPipeline

/-- Why a program text does not split into tokens. -/
inductive LexicalFault
  | unexpected (c : Char)
  | notPlain
  | openLiteral
  | openBlock
  deriving DecidableEq, Repr

def LexicalFault.message : LexicalFault → String
  | unexpected c => "Unexpected character '" ++ c.toString ++ "'"
  | notPlain => "Non-ASCII character in string literal"
  | openLiteral => "Unterminated string literal"
  | openBlock => "Unterminated multi-line string literal"

/-- The token at which a program stops being grammatical. -/
inductive Place
  | token (lexeme : String)
  | theEnd
  deriving DecidableEq, Repr

def Place.shown : Place → String
  | token lexeme => "'" ++ lexeme ++ "'"
  | theEnd => "end"

/-- What the grammar asked for, or what it refused. -/
inductive GrammarFault
  | functionName | openParen | parameterName | closeParen | equals | closeBrace | endOfInput
  | expression
  | unexpected (lexeme : String)
  | parenthesised
  | tooDeep
  | noTokens
  deriving DecidableEq, Repr

def GrammarFault.message : GrammarFault → String
  | functionName => "Expected function name"
  | openParen => "Expected '('"
  | parameterName => "Expected parameter name"
  | closeParen => "Expected ')'"
  | equals => "Expected '='"
  | closeBrace => "Expected '\x7d'"
  | endOfInput => "Expected end of input"
  | expression => "Expected expression"
  | unexpected lexeme => "Unexpected token '" ++ lexeme ++ "'"
  | parenthesised => "Parenthesised expressions are not supported"
  | tooDeep => "Expression nested too deeply"
  | noTokens => "unexpected end of input"

/-- Why a tree has no meaning. -/
inductive ResolutionFault
  | alreadyDefined (name : String)
  | emptyPipeline
  | unknownFunction (name : String)
  | unknownIdentifier (name : String)
  | valueArguments (name : String) (expected : Nat)
  | oneArgument (name : String)
  | parameterCalled (name : String)
  | missingArguments (name : String) (arity : Nat)
  | stepArguments (name : String) (arity : Nat)
  | functionArguments (name : String)
  deriving DecidableEq, Repr

def ResolutionFault.message : ResolutionFault → String
  | alreadyDefined name => "Function '" ++ name ++ "' is already defined"
  | emptyPipeline => "Empty pipeline"
  | unknownFunction name => "Unknown function '" ++ name ++ "'"
  | unknownIdentifier name => "Unknown identifier '" ++ name ++ "' in value context"
  | valueArguments name expected =>
    "Builtin '" ++ name ++ "' expects " ++ toString expected ++ " arguments in value context"
  | oneArgument name => "Function '" ++ name ++ "' expects exactly one argument"
  | parameterCalled name => "Cannot call parameter '" ++ name ++ "' as a function"
  | missingArguments name arity =>
    "Builtin '" ++ name ++ "' requires " ++ toString arity ++ " argument(s)"
  | stepArguments name arity =>
    "Builtin '" ++ name ++ "' expects " ++ toString arity ++ " argument(s) in pipeline context"
  | functionArguments name =>
    "User function '" ++ name ++ "' does not accept additional arguments in pipeline"

/-- Why a name cannot be the entry point. -/
inductive EntryFault
  | empty | reserved | collides
  deriving DecidableEq, Repr

def EntryFault.message : EntryFault → String
  | empty => "name is empty"
  | reserved => "name is reserved for the exported memory"
  | collides => "name collides with a generated function"

/-- Why procedures have no module. -/
inductive GenerationFault
  | noDescriptor (builtin : Builtin)
  | emittedTwice (name : String)
  | notImported (builtin : Builtin)
  | emptyJoin
  | unknownProcedure (name : String)
  | literalsTooLarge
  | entryNotEmitted
  deriving DecidableEq, Repr

def GenerationFault.message : GenerationFault → String
  | noDescriptor builtin => "no descriptor for builtin " ++ builtin.label
  | emittedTwice name => "procedure '" ++ name ++ "' is emitted twice"
  | notImported builtin => "builtin " ++ builtin.label ++ " was not imported"
  | emptyJoin => "empty join"
  | unknownProcedure name => "unknown procedure '" ++ name ++ "'"
  | literalsTooLarge => "literal data exceeds the wasm address space"
  | entryNotEmitted => "entry procedure was not emitted"

/-- Why a module does not run to its end. -/
inductive ExecutionFault
  | invalidModule
  | notLinked (name : String)
  | unsupportedOperands (name : String) (count : Nat)
  | notInstantiated
  | noEntry (name : String)
  | callStackExhausted
  | operandCount (builtin : Builtin) (given : Nat)
  | unknownHandle (handle : Int)
  | memoryNotExported
  | literalLocation (offset length : Int)
  | literalOutOfBounds
  | literalNotText
  | tooManyTexts
  deriving DecidableEq, Repr

def ExecutionFault.message : ExecutionFault → String
  | invalidModule => "failed to compile wasm artifact:"
  | notLinked name => "failed to link host function '" ++ name ++ "':"
  | unsupportedOperands name count =>
    "builtin '" ++ name ++ "' takes " ++ toString count ++
      " operands, which the host does not support"
  | notInstantiated => "failed to instantiate module:"
  | noEntry name => "entry point '" ++ name ++ "' missing or has wrong type:"
  | callStackExhausted => "call stack exhausted"
  | operandCount builtin given =>
    "builtin " ++ builtin.label ++ " received " ++ toString given ++ " operand(s)"
  | unknownHandle handle => "unknown string handle " ++ toString handle
  | memoryNotExported => "module does not export its memory"
  | literalLocation offset length =>
    "invalid literal location " ++ toString offset ++ "+" ++ toString length
  | literalOutOfBounds => "failed to read literal: out of bounds memory access"
  | literalNotText => "literal data is not valid text"
  | tooManyTexts => "too many live strings"

/-- An error by the stage that raised it. -/
inductive Error
  | lexical (line : Nat) (fault : LexicalFault)
  | grammar (line : Nat) (place : Place) (fault : GrammarFault)
  | resolution (line : Nat) (fault : ResolutionFault)
  | violation (character : Char)
  | entryPoint (name : String) (fault : EntryFault)
  | generation (fault : GenerationFault)
  | execution (fault : ExecutionFault)
  deriving DecidableEq, Repr

/-- An error in words. -/
inductive Diagnostic
  | lexical (line : Nat) (message : String)
  | grammar (line : Nat) (message : String)
  | resolution (line : Nat) (message : String)
  | violation (character : Char)
  | entryPoint (name reason : String)
  | generation (message : String)
  | execution (message : String)
  deriving DecidableEq, Repr

namespace Diagnostic

/-- The source line, for the stages that read the program text. -/
def line? : Diagnostic → Option Nat
  | lexical line _ | grammar line _ | resolution line _ => some line
  | _ => none

/-- The whole text shown to the user. -/
def text : Diagnostic → String
  | lexical line message | grammar line message | resolution line message =>
    "[line " ++ toString line ++ "] " ++ message
  | violation c => "non-ASCII character detected: " ++ Text.quotedChar c
  | entryPoint name reason => "invalid entry point '" ++ name ++ "': " ++ reason
  | generation message => "code generation failed: " ++ message
  | execution message => "execution failed: " ++ message

end Diagnostic

def Error.diagnostic : Error → Diagnostic
  | lexical line fault => .lexical line fault.message
  | grammar line place fault =>
    .grammar line ("Error at " ++ place.shown ++ ": " ++ fault.message)
  | resolution line fault => .resolution line fault.message
  | violation c => .violation c
  | entryPoint name fault => .entryPoint name fault.message
  | generation fault => .generation fault.message
  | execution fault => .execution fault.message

def Error.message (e : Error) : String := e.diagnostic.text

end TextPipeline
