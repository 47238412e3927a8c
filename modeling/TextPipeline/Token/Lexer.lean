import TextPipeline.Token.Item

/-!
From a program text to its tokens, item by item. A token is on the line that was reached when its
first character was read; an error is on the line that was reached when reading stopped.
-/

namespace TextPipeline.Token

/-- The tokens of a text that starts on this line, and the token for its end. -/
def scan (line : Nat) : List Char → Except Error (List Token)
  | [] => .ok [⟨.theEnd, "", line⟩]
  | c :: s =>
    match _h : Item.next line c s with
    | .error stop => .error (.lexical stop.line stop.fault)
    | .ok (item, after, rest) =>
      match item.token? line with
      | none => scan after rest
      | some t =>
        match scan after rest with
        | .ok ts => .ok (t :: ts)
        | .error e => .error e
termination_by s => s.length
decreasing_by all_goals exact Item.length_lt_of_next _h

/-- The tokens of a program. -/
def lex (source : String) : Except Error (List Token) := scan 1 source.toList

end TextPipeline.Token
