/-!
The character policy: which characters a text may hold while a program runs.

A text is plain when it consists of tabs, line feeds, carriage returns and the printable
ASCII characters. Everything that enters or leaves an edit is held to this.
-/

namespace TextPipeline.Text

/-- Tab, line feed, carriage return, and the characters from the space to the tilde. -/
def isPlain (c : Char) : Bool :=
  c = '\t' || c = '\n' || c = '\r' || (' ' ≤ c && c ≤ '~')

/-- The first character that the policy refuses. -/
def firstViolation (s : String) : Option Char := s.toList.find? fun c => !isPlain c

/-- Every character of the text is allowed. -/
def Plain (s : String) : Prop := ∀ c ∈ s.toList, isPlain c

theorem firstViolation_eq_none_iff (s : String) : firstViolation s = none ↔ Plain s := by
  simp [firstViolation, Plain]

instance (s : String) : Decidable (Plain s) :=
  decidable_of_iff _ (firstViolation_eq_none_iff s)

end TextPipeline.Text
