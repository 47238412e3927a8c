/-!
Tokens: what is left of a program text once blanks and comments are gone.
-/

namespace TextPipeline

inductive TokenKind
  | ident | literal | define
  | openParen | closeParen | equals | openBrace | closeBrace | pipe | semicolon
  | theEnd
  deriving DecidableEq, Repr

/-- A token with the line on which it starts. The lexeme of a literal is its content, without
the quotes. -/
structure Token where
  kind : TokenKind
  lexeme : String
  line : Nat
  deriving DecidableEq, Repr

/-- The tokens that are a single character. -/
def TokenKind.ofMark? : Char → Option TokenKind
  | '(' => some openParen
  | ')' => some closeParen
  | '=' => some equals
  | '\x7b' => some openBrace
  | '\x7d' => some closeBrace
  | '|' => some pipe
  | ';' => some semicolon
  | _ => none

end TextPipeline
