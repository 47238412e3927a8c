import TextPipeline.Error
import TextPipeline.Token

/-!
A place in a list of tokens. Where the tokens have run out, the last one is seen again; a
token that has to be there to be matched is looked for among those ahead only.
-/

namespace TextPipeline

structure Cursor where
  /-- The tokens not yet passed. -/
  ahead : List Token
  /-- The last token of the whole list. -/
  last : Option Token
  deriving DecidableEq, Repr

/-- The error at a token. -/
def Token.fault (t : Token) (fault : GrammarFault) : Error :=
  .grammar t.line (if t.kind = .theEnd then .theEnd else .token t.lexeme) fault

namespace Cursor

def ofTokens (tokens : List Token) : Cursor := ⟨tokens, tokens.getLast?⟩

/-- The token seen here. Only an empty list has none. -/
def peek (c : Cursor) : Except Error Token :=
  match c.ahead, c.last with
  | t :: _, _ => .ok t
  | [], some t => .ok t
  | [], none => .error (.grammar 1 .theEnd .noTokens)

/-- Passes one token. -/
def advance (c : Cursor) : Cursor := { c with ahead := c.ahead.tail }

/-- A token of this kind is ahead. -/
def sees (c : Cursor) (kind : TokenKind) : Bool :=
  match c.ahead with
  | t :: _ => t.kind = kind
  | [] => false

/-- Passes a token of the given kind, or reports what was wanted instead. The end is never
passed. -/
def expect (c : Cursor) (kind : TokenKind) (wanted : GrammarFault) :
    Except Error (Token × Cursor) := do
  let t ← c.peek
  if t.kind ≠ kind then .error (t.fault wanted)
  else if kind = .theEnd then .ok (t, c)
  else .ok (t, c.advance)

end Cursor

end TextPipeline
