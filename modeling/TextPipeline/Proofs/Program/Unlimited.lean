import TextPipeline.Proofs.Program.Parser

/-!
A parser without a limit on nesting, which writes down where it starts a term and at which depth.
Other than `Parser.term`, it goes down a level whenever it has to; each level passes a token, so
that the number of tokens ahead bounds the levels. Where it would need more than it is given, it is
`pending` and not in error.
-/

namespace TextPipeline

/-- A term that a parser starts to read: its depth, the token it starts with, and the tokens after
that one. -/
structure Start where
  depth : Nat
  token : Token
  rest : List Token
  deriving DecidableEq

structure Traced (α : Type) where
  starts : List Start
  outcome : Outcome α

namespace Traced

variable {α β : Type}

/-- An error ends a computation, and nothing is started after it. -/
def bind (x : Traced α) (f : α → Traced β) : Traced β :=
  match x.outcome with
  | .done (.ok a) => ⟨x.starts ++ (f a).starts, (f a).outcome⟩
  | .done (.error e) => ⟨x.starts, .done (.error e)⟩
  | .pending => ⟨x.starts, .pending⟩

instance : Monad Traced where
  pure a := ⟨[], .done (.ok a)⟩
  bind := bind

/-- A computation that starts no term. -/
def ofExcept (x : Except Error α) : Traced α := ⟨[], .done x⟩

def start (depth : Nat) (t : Token) (rest : List Token) : Traced Unit :=
  ⟨[⟨depth, t, rest⟩], .done (.ok ())⟩

def pending : Traced α := ⟨[], .pending⟩

/-- The outcome if the first term at the given depth is an error. -/
def cut (limit : Nat) (x : Traced α) : Outcome α :=
  match x.starts.find? (·.depth = limit) with
  | none => x.outcome
  | some s => .done (.error (s.token.fault .tooDeep))

end Traced

namespace Parser.Unlimited

open Traced (ofExcept start pending)

abbrev TermReader := Cursor → Traced (Term × Cursor)

def steps (term : TermReader) : (rounds : Nat) → Cursor → Traced (List Term × Cursor)
  | 0, c => pure ([], c)
  | rounds + 1, c =>
    if c.sees .pipe then do
      let (t, c) ← term c.advance
      let (ts, c) ← steps term rounds c
      return (t :: ts, c)
    else pure ([], c)

def expression (term : TermReader) (c : Cursor) : Traced (Expression × Cursor) := do
  let (first, c) ← term c
  let (rest, c) ← steps term c.ahead.length c
  return (.pipeline (first :: rest) first.line, c)

def furtherMembers (term : TermReader) :
    (rounds : Nat) → Cursor → Traced (List Expression × Cursor)
  | 0, c => pure ([], c)
  | rounds + 1, c =>
    if c.sees .semicolon then do
      let (e, c) ← expression term c.advance
      let (es, c) ← furtherMembers term rounds c
      return (e :: es, c)
    else pure ([], c)

def members (term : TermReader) (c : Cursor) : Traced (List Expression × Cursor) :=
  if c.sees .closeBrace then pure ([], c)
  else do
    let (e, c) ← expression term c
    let (es, c) ← furtherMembers term c.ahead.length c
    return (e :: es, c)

def arguments (term : TermReader) (line : Nat) :
    (rounds : Nat) → Cursor → Traced (List Term × Cursor)
  | 0, c => pure ([], c)
  | rounds + 1, c =>
    if startsArgument line c then do
      let (t, c) ← term c
      let (ts, c) ← arguments term line rounds c
      return (t :: ts, c)
    else pure ([], c)

/-- A term at this depth, with a bound on the levels from it on. -/
def term : (levels depth : Nat) → Cursor → Traced (Term × Cursor)
  | 0, _, _ => pending
  | levels + 1, depth, c => do
    let t ← ofExcept c.peek
    start depth t c.ahead.tail
    match t.kind with
    | .openBrace =>
      let (es, c) ← members (term levels (depth + 1)) c.advance
      let (_, c) ← ofExcept (c.expect .closeBrace .closeBrace)
      return (.group es t.line, c)
    | .ident =>
      let c := c.advance
      let (args, c) ← arguments (term levels (depth + 1)) t.line c.ahead.length c
      return (nameOrCall t.lexeme t.line args, c)
    | .literal => return (.literal t.lexeme t.line, c.advance)
    | .openParen => ofExcept (.error (t.fault .parenthesised))
    | .theEnd => ofExcept (.error (t.fault .expression))
    | _ => ofExcept (.error (t.fault (.unexpected t.lexeme)))

def definition (levels : Nat) (c : Cursor) : Traced (Definition × Cursor) := do
  let (name, c) ← ofExcept (c.expect .ident .functionName)
  let (_, c) ← ofExcept (c.expect .openParen .openParen)
  let (parameter, c) ← ofExcept (c.expect .ident .parameterName)
  let (_, c) ← ofExcept (c.expect .closeParen .closeParen)
  let (equals, c) ← ofExcept (c.expect .equals .equals)
  let (body, c) ← expression (term levels 0) c
  return (⟨name.lexeme, parameter.lexeme, body, equals.line⟩, c)

def definitions (levels : Nat) : (rounds : Nat) → Cursor → Traced (List Definition × Cursor)
  | 0, c => pure ([], c)
  | rounds + 1, c =>
    if c.sees .define then do
      let (d, c) ← definition levels c.advance
      let (ds, c) ← definitions levels rounds c
      return (d :: ds, c)
    else pure ([], c)

/-- The program that these tokens spell, and the terms started on the way to it. -/
def ofTokens (levels : Nat) (tokens : List Token) : Traced Program := do
  let c := Cursor.ofTokens tokens
  let (ds, c) ← definitions levels c.ahead.length c
  let (e, c) ← expression (term levels 0) c
  let _ ← ofExcept (c.expect .theEnd .endOfInput)
  return ⟨ds, e⟩

end Parser.Unlimited

end TextPipeline
