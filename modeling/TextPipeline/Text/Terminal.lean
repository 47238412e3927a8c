import TextPipeline.Text.Quoted

/-!
Texts for a terminal, without quotes. A control that a terminal may take as a command is shown
as an escape, so a text from outside cannot recolour or erase what is on the screen. Every
other character stands for itself, line feeds and tabs among them.
-/

namespace TextPipeline.Text

/-- The bell, the backspace, the form feed, the escape and the delete character. -/
def terminalControls : List Char := ['\x07', '\x08', '\x0c', '\x1b', '\x7f']

/-- A control of seven bits has two hexadecimal digits, one of eight bits its code point. -/
def disarm (c : Char) : List Char :=
  if c ∈ terminalControls then
    ['\\', 'x', Nat.digitChar (c.toNat / 16), Nat.digitChar (c.toNat % 16)]
  else if 0x80 ≤ c.toNat ∧ c.toNat ≤ 0x9f then codePoint c
  else [c]

/-- A text without the controls that a terminal obeys. -/
def disarmed (s : String) : String := String.ofList (s.toList.flatMap disarm)

end TextPipeline.Text
