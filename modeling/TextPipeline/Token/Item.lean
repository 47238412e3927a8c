import TextPipeline.Error
import TextPipeline.Text.Policy
import TextPipeline.Token

/-!
The items of a program text. Read from left to right, a text falls into blanks, comments,
marks, words and literals; an item knows the characters it was read from, so that nothing
is lost (`text_append_of_next`).

A literal in single or double quotes stays on one line. Three double quotes open a block,
which may span lines and ends at the next three double quotes; one or two of them inside it
are content. Nothing is escaped.
-/

namespace TextPipeline

inductive Item
  | blank (c : Char)
  | comment (body : List Char)
  | mark (kind : TokenKind) (c : Char)
  | word (chars : List Char)
  | literal (quote : Char) (body : List Char)
  | block (body : List Char)
  deriving DecidableEq, Repr

namespace Item

/-- The characters the item was read from. -/
def text : Item → List Char
  | blank c => [c]
  | comment body => '#' :: body
  | mark _ c => [c]
  | word chars => chars
  | literal quote body => quote :: body ++ [quote]
  | block body => ['"', '"', '"'] ++ body ++ ['"', '"', '"']

/-- The token of an item that starts on this line; blanks and comments have none. -/
def token? (line : Nat) : Item → Option Token
  | blank _ | comment _ => none
  | mark kind c => some ⟨kind, String.ofList [c], line⟩
  | word chars =>
    let lexeme := String.ofList chars
    some ⟨if lexeme = "def" then .define else .ident, lexeme, line⟩
  | literal _ body | block body => some ⟨.literal, String.ofList body, line⟩

def isBlank (c : Char) : Bool := c = ' ' || c = '\t' || c = '\r' || c = '\n'

def startsWord (c : Char) : Bool := c.isAlpha || c = '_'

def continuesWord (c : Char) : Bool := c.isAlphanum || c = '_'

/-- The content of a one-line literal. -/
def inLiteral (quote c : Char) : Bool := c ≠ quote && c ≠ '\n' && Text.isPlain c

/-- Reading stopped inside an item: why, and on which line. -/
structure Stop where
  fault : LexicalFault
  line : Nat
  deriving DecidableEq, Repr

/-- The line after this character has been passed. -/
def passed (c : Char) (line : Nat) : Nat := if c = '\n' then line + 1 else line

/-- The literal after its opening quote, the line, and what follows it. -/
def nextLiteral (line : Nat) (quote : Char) (s : List Char) :
    Except Stop (Item × Nat × List Char) :=
  let body := s.takeWhile (inLiteral quote)
  match s.dropWhile (inLiteral quote) with
  | [] => .error ⟨.openLiteral, line⟩
  | c :: rest =>
    if c = quote then .ok (literal quote body, line, rest)
    else if c = '\n' then .error ⟨.openLiteral, line⟩
    else .error ⟨.notPlain, line⟩

/-- The content of a block, the line on which it ends, and what follows its closing quotes. -/
def blockBody (line : Nat) : List Char → Except Stop (List Char × Nat × List Char)
  | [] => .error ⟨.openBlock, line⟩
  | '"' :: '"' :: '"' :: rest => .ok ([], line, rest)
  | c :: s =>
    if Text.isPlain c then
      match blockBody (passed c line) s with
      | .ok (body, after, rest) => .ok (c :: body, after, rest)
      | .error stop => .error stop
    else .error ⟨.notPlain, line⟩

/-- The block after its opening quotes, the line on which it ends, and what follows it. -/
def nextBlock (line : Nat) (s : List Char) : Except Stop (Item × Nat × List Char) :=
  match blockBody line s with
  | .ok (body, after, rest) => .ok (block body, after, rest)
  | .error stop => .error stop

/-- The literal or block that starts with this quote. -/
def nextQuoted (line : Nat) (quote : Char) (s : List Char) :
    Except Stop (Item × Nat × List Char) :=
  match quote, s with
  | '"', '"' :: '"' :: rest => nextBlock line rest
  | _, _ => nextLiteral line quote s

/-- The item at the front of `c :: s`, the line after it, and what follows it. The line is counted
where a line feed is passed: in a blank and inside a block. -/
def next (line : Nat) (c : Char) (s : List Char) : Except Stop (Item × Nat × List Char) :=
  if isBlank c then .ok (blank c, passed c line, s)
  else if c = '#' then
    .ok (comment (s.takeWhile (· ≠ '\n')), line, s.dropWhile (· ≠ '\n'))
  else if c = '"' || c = '\'' then nextQuoted line c s
  else if startsWord c then
    .ok (word (c :: s.takeWhile continuesWord), line, s.dropWhile continuesWord)
  else
    match TokenKind.ofMark? c with
    | some kind => .ok (mark kind c, line, s)
    | none => .error ⟨.unexpected c, line⟩

/-! ### Nothing is lost -/

section Lossless

variable {line after : Nat} {s rest : List Char} {item : Item}

theorem text_append_of_nextLiteral {quote : Char}
    (h : nextLiteral line quote s = .ok (item, after, rest)) : item.text ++ rest = quote :: s := by
  have hs := List.takeWhile_append_dropWhile (p := inLiteral quote) (l := s)
  simp only [nextLiteral] at h
  split at h
  · cases h
  · rename_i c tail hd
    rw [hd] at hs
    split at h
    · rename_i hc
      cases h
      simpa [text, ← hc] using hs
    · split at h <;> cases h

theorem append_of_blockBody {body : List Char} (h : blockBody line s = .ok (body, after, rest)) :
    body ++ ['"', '"', '"'] ++ rest = s := by
  fun_induction blockBody line s generalizing body rest with
  | case1 => cases h
  | case2 tail => cases h; rfl
  | case3 line c s _ _ b _ r hb ih => cases h; simpa using ih hb
  | case4 => cases h
  | case5 => cases h

theorem text_append_of_nextBlock
    (h : nextBlock line s = .ok (item, after, rest)) :
    item.text ++ rest = '"' :: '"' :: '"' :: s := by
  simp only [nextBlock] at h
  split at h
  · rename_i body tail hb
    cases h
    simpa [text] using append_of_blockBody hb
  · cases h

theorem text_append_of_nextQuoted {quote : Char}
    (h : nextQuoted line quote s = .ok (item, after, rest)) : item.text ++ rest = quote :: s := by
  unfold nextQuoted at h
  split at h
  · exact text_append_of_nextBlock h
  · exact text_append_of_nextLiteral h

/-- The item and what follows it are the text it was read from. -/
theorem text_append_of_next {c : Char}
    (h : next line c s = .ok (item, after, rest)) : item.text ++ rest = c :: s := by
  unfold next at h
  split at h
  · cases h; rfl
  split at h
  · rename_i hc
    cases h
    simp [text, hc]
  split at h
  · exact text_append_of_nextQuoted h
  split at h
  · cases h
    simp [text]
  split at h
  · cases h; rfl
  · cases h

theorem text_ne_nil_of_next {c : Char}
    (h : next line c s = .ok (item, after, rest)) : item.text ≠ [] := by
  unfold next at h
  split at h
  · cases h; simp [text]
  split at h
  · cases h; simp [text]
  split at h
  · unfold nextQuoted at h
    split at h
    · simp only [nextBlock] at h
      split at h <;> cases h
      simp [text]
    · simp only [nextLiteral] at h
      split at h
      · cases h
      · split at h
        · cases h; simp [text]
        · split at h <;> cases h
  split at h
  · cases h; simp [text]
  split at h
  · cases h; simp [text]
  · cases h

/-- What follows an item is shorter than the text it was read from. -/
theorem length_lt_of_next {c : Char}
    (h : next line c s = .ok (item, after, rest)) : rest.length < (c :: s).length := by
  have hpos := List.length_pos_iff.mpr (text_ne_nil_of_next h)
  have hlen := congrArg List.length (text_append_of_next h)
  rw [List.length_append] at hlen
  omega

end Lossless

end Item

end TextPipeline
