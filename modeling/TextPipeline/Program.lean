/-!
Programs as trees: definitions of functions of one text, and the pipeline that is run.

Every node keeps the line of the token it starts with; a definition that of its equals sign.
-/

namespace TextPipeline

mutual

/-- One stage of a pipeline, or an argument. -/
inductive Term
  | identifier (name : String) (line : Nat)
  | literal (value : String) (line : Nat)
  | call (target : String) (arguments : List Term) (line : Nat)
  | group (members : List Expression) (line : Nat)

/-- A pipeline: its first term is a value, and every later one works on the value so far. -/
inductive Expression
  | pipeline (terms : List Term) (line : Nat)

end

def Term.line : Term → Nat
  | identifier _ line | literal _ line | call _ _ line | group _ line => line

def Expression.terms : Expression → List Term
  | pipeline terms _ => terms

def Expression.line : Expression → Nat
  | pipeline _ line => line

structure Definition where
  name : String
  parameter : String
  body : Expression
  line : Nat

structure Program where
  definitions : List Definition
  expression : Expression

end TextPipeline
