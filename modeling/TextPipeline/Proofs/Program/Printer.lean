import TextPipeline.Program
import TextPipeline.Proofs.Token.Writing

/-!
Writing programs out. Every definition takes a line and so does the expression after them; the only
other line feeds are those inside of literals, which stand in quotes that can hold them
(`Quotation.Holds`). The printer has a double that makes items instead of text
(`Program.flatMap_items`).
-/

namespace TextPipeline

/-! ### Text -/

variable (quotes : String → Quotation)

mutual

def Term.print : Term → String
  | .identifier name _ => name
  | .literal text _ => (quotes text).around text
  | .call target arguments _ => target ++ printArguments arguments
  | .group members _ => "\x7b " ++ printMembers members ++ " \x7d"

def printArguments : List Term → String
  | [] => ""
  | t :: ts => " " ++ t.print ++ printArguments ts

def Expression.print : Expression → String
  | .pipeline terms _ => printPipeline terms

def printPipeline : List Term → String
  | [] => ""
  | t :: ts => t.print ++ printSteps ts

def printSteps : List Term → String
  | [] => ""
  | t :: ts => " | " ++ t.print ++ printSteps ts

def printMembers : List Expression → String
  | [] => ""
  | e :: es => e.print ++ printFurther es

def printFurther : List Expression → String
  | [] => ""
  | e :: es => "; " ++ e.print ++ printFurther es

end

def Definition.print (d : Definition) : String :=
  "def " ++ d.name ++ "(" ++ d.parameter ++ ") = " ++ d.body.print quotes ++ "\n"

def Program.print (p : Program) : String :=
  String.join (p.definitions.map (·.print quotes)) ++ p.expression.print quotes

/-! ### Items -/

mutual

def Term.items : Term → List Item
  | .identifier name _ => [.word name.toList]
  | .literal text _ => [(quotes text).item text.toList]
  | .call target arguments _ => .word target.toList :: argumentItems arguments
  | .group members _ => .mark .openBrace '\x7b' :: .blank ' ' ::
      (memberItems members ++ [.blank ' ', .mark .closeBrace '\x7d'])

def argumentItems : List Term → List Item
  | [] => []
  | t :: ts => .blank ' ' :: (t.items ++ argumentItems ts)

def Expression.items : Expression → List Item
  | .pipeline terms _ => pipelineItems terms

def pipelineItems : List Term → List Item
  | [] => []
  | t :: ts => t.items ++ stepItems ts

def stepItems : List Term → List Item
  | [] => []
  | t :: ts => .blank ' ' :: .mark .pipe '|' :: .blank ' ' :: (t.items ++ stepItems ts)

def memberItems : List Expression → List Item
  | [] => []
  | e :: es => e.items ++ furtherItems es

def furtherItems : List Expression → List Item
  | [] => []
  | e :: es => .mark .semicolon ';' :: .blank ' ' :: (e.items ++ furtherItems es)

end

def Definition.items (d : Definition) : List Item :=
  [.word "def".toList, .blank ' ', .word d.name.toList, .mark .openParen '(',
    .word d.parameter.toList, .mark .closeParen ')', .blank ' ', .mark .equals '=', .blank ' '] ++
    (d.body.items quotes ++ [.blank '\n'])

def Program.items (p : Program) : List Item :=
  p.definitions.flatMap (·.items quotes) ++ p.expression.items quotes

mutual

lemma Term.flatMap_items : ∀ t : Term, (t.items quotes).flatMap Item.text = (t.print quotes).toList
  | .identifier name _ => by simp [Term.items, Term.print, Item.text]
  | .literal text _ => by simp [Term.items, Term.print, Quotation.text_item]
  | .call target arguments _ => by
    simp [Term.items, Term.print, Item.text, flatMap_argumentItems arguments]
  | .group members _ => by
    simp [Term.items, Term.print, Item.text, flatMap_memberItems members]

lemma flatMap_argumentItems : ∀ ts : List Term,
    (argumentItems quotes ts).flatMap Item.text = (printArguments quotes ts).toList
  | [] => rfl
  | t :: ts => by
    simp [argumentItems, printArguments, Item.text, t.flatMap_items, flatMap_argumentItems ts]

lemma Expression.flatMap_items : ∀ e : Expression,
    (e.items quotes).flatMap Item.text = (e.print quotes).toList
  | .pipeline terms _ => by
    simp [Expression.items, Expression.print, flatMap_pipelineItems terms]

lemma flatMap_pipelineItems : ∀ ts : List Term,
    (pipelineItems quotes ts).flatMap Item.text = (printPipeline quotes ts).toList
  | [] => rfl
  | t :: ts => by simp [pipelineItems, printPipeline, t.flatMap_items, flatMap_stepItems ts]

lemma flatMap_stepItems : ∀ ts : List Term,
    (stepItems quotes ts).flatMap Item.text = (printSteps quotes ts).toList
  | [] => rfl
  | t :: ts => by simp [stepItems, printSteps, Item.text, t.flatMap_items, flatMap_stepItems ts]

lemma flatMap_memberItems : ∀ es : List Expression,
    (memberItems quotes es).flatMap Item.text = (printMembers quotes es).toList
  | [] => rfl
  | e :: es => by simp [memberItems, printMembers, e.flatMap_items, flatMap_furtherItems es]

lemma flatMap_furtherItems : ∀ es : List Expression,
    (furtherItems quotes es).flatMap Item.text = (printFurther quotes es).toList
  | [] => rfl
  | e :: es => by
    simp [furtherItems, printFurther, Item.text, e.flatMap_items, flatMap_furtherItems es]

end

lemma Definition.flatMap_items (d : Definition) :
    (d.items quotes).flatMap Item.text = (d.print quotes).toList := by
  simp [Definition.items, Definition.print, Item.text, Expression.flatMap_items]

lemma Program.flatMap_items (p : Program) :
    (p.items quotes).flatMap Item.text = (p.print quotes).toList := by
  simp [Program.items, Program.print, List.flatMap_assoc, Definition.flatMap_items,
    Expression.flatMap_items, List.flatMap_map]

end TextPipeline
