import TextPipeline.Program
import TextPipeline.Program.Cursor
import TextPipeline.Token.Lexer

/-!
From tokens to programs.

A name takes as arguments the names, literals and groups that follow it without a break: an
argument may not start on a later line than the name. Groups and arguments lie one level
below the term they belong to, and there are `maxNesting` levels.

Terms recurse on the number of levels left. Lists of terms are read in rounds, each of which
passes a token, so that the number of tokens ahead bounds the rounds.
-/

namespace TextPipeline

namespace Parser

/-- A reader of terms one level down, for the lists inside a term. -/
abbrev TermReader := Cursor → Except Error (Term × Cursor)

/-- The number of levels on which a term may stand. -/
def maxNesting : Nat := 256

/-- The steps after the first term: each follows a `|`. -/
def steps (term : TermReader) : (rounds : Nat) → Cursor → Except Error (List Term × Cursor)
  | 0, c => .ok ([], c)
  | rounds + 1, c =>
    if c.sees .pipe then do
      let (t, c) ← term c.advance
      let (ts, c) ← steps term rounds c
      return (t :: ts, c)
    else .ok ([], c)

def expression (term : TermReader) (c : Cursor) : Except Error (Expression × Cursor) := do
  let (first, c) ← term c
  let (rest, c) ← steps term c.ahead.length c
  return (.pipeline (first :: rest) first.line, c)

/-- The members of a group after the first: each follows a `;`. -/
def furtherMembers (term : TermReader) :
    (rounds : Nat) → Cursor → Except Error (List Expression × Cursor)
  | 0, c => .ok ([], c)
  | rounds + 1, c =>
    if c.sees .semicolon then do
      let (e, c) ← expression term c.advance
      let (es, c) ← furtherMembers term rounds c
      return (e :: es, c)
    else .ok ([], c)

/-- The members of a group, up to its closing brace. -/
def members (term : TermReader) (c : Cursor) : Except Error (List Expression × Cursor) :=
  if c.sees .closeBrace then .ok ([], c)
  else do
    let (e, c) ← expression term c
    let (es, c) ← furtherMembers term c.ahead.length c
    return (e :: es, c)

/-- The token ahead starts an argument of a name on this line. -/
def startsArgument (line : Nat) (c : Cursor) : Bool :=
  match c.ahead with
  | t :: _ =>
    t.line ≤ line && (t.kind = .ident || t.kind = .literal || t.kind = .openBrace)
  | [] => false

def arguments (term : TermReader) (line : Nat) :
    (rounds : Nat) → Cursor → Except Error (List Term × Cursor)
  | 0, c => .ok ([], c)
  | rounds + 1, c =>
    if startsArgument line c then do
      let (t, c) ← term c
      let (ts, c) ← arguments term line rounds c
      return (t :: ts, c)
    else .ok ([], c)

/-- A name without arguments stands for itself. -/
def nameOrCall (name : String) (line : Nat) : List Term → Term
  | [] => .identifier name line
  | args => .call name args line

/-- A term with this many levels left, its own included. -/
def term : (levels : Nat) → Cursor → Except Error (Term × Cursor)
  | 0, c => do
    let t ← c.peek
    .error (t.fault .tooDeep)
  | levels + 1, c => do
    let t ← c.peek
    match t.kind with
    | .openBrace =>
      let (es, c) ← members (term levels) c.advance
      let (_, c) ← c.expect .closeBrace .closeBrace
      return (.group es t.line, c)
    | .ident =>
      let c := c.advance
      let (args, c) ← arguments (term levels) t.line c.ahead.length c
      return (nameOrCall t.lexeme t.line args, c)
    | .literal => return (.literal t.lexeme t.line, c.advance)
    | .openParen => .error (t.fault .parenthesised)
    | .theEnd => .error (t.fault .expression)
    | _ => .error (t.fault (.unexpected t.lexeme))

/-- A definition after its `def`. -/
def definition (c : Cursor) : Except Error (Definition × Cursor) := do
  let (name, c) ← c.expect .ident .functionName
  let (_, c) ← c.expect .openParen .openParen
  let (parameter, c) ← c.expect .ident .parameterName
  let (_, c) ← c.expect .closeParen .closeParen
  let (equals, c) ← c.expect .equals .equals
  let (body, c) ← expression (term maxNesting) c
  return (⟨name.lexeme, parameter.lexeme, body, equals.line⟩, c)

def definitions : (rounds : Nat) → Cursor → Except Error (List Definition × Cursor)
  | 0, c => .ok ([], c)
  | rounds + 1, c =>
    if c.sees .define then do
      let (d, c) ← definition c.advance
      let (ds, c) ← definitions rounds c
      return (d :: ds, c)
    else .ok ([], c)

end Parser

namespace Program

/-- The program that these tokens spell. -/
def ofTokens (tokens : List Token) : Except Error Program := do
  let c := Cursor.ofTokens tokens
  let (ds, c) ← Parser.definitions c.ahead.length c
  let (e, c) ← Parser.expression (Parser.term Parser.maxNesting) c
  let _ ← c.expect .theEnd .endOfInput
  return ⟨ds, e⟩

/-- The program that this text spells. -/
def parse (source : String) : Except Error Program := do
  ofTokens (← Token.lex source)

end Program

end TextPipeline
