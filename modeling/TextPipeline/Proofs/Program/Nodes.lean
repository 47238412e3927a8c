import TextPipeline.Proofs.Program.Grammar

/-!
The nodes of a program: its terms, each with its depth, and its pipelines. Where tokens spell a
program, each of its nodes is spelled by tokens among them (`Spells.spelledIn`).
-/

namespace TextPipeline

open Grammar

inductive Node
  | term (depth : Nat) (t : Term)
  | pipeline (depth : Nat) (e : Expression)

mutual

/-- The nodes of a term at this depth. Arguments and the members of groups are a level deeper. -/
def Term.nodes (depth : Nat) : Term → List Node
  | .identifier name line => [.term depth (.identifier name line)]
  | .literal text line => [.term depth (.literal text line)]
  | .call target arguments line =>
    .term depth (.call target arguments line) :: nodesOfTerms (depth + 1) arguments
  | .group members line => .term depth (.group members line) :: nodesOfMembers (depth + 1) members

def nodesOfTerms (depth : Nat) : List Term → List Node
  | [] => []
  | t :: ts => t.nodes depth ++ nodesOfTerms depth ts

def Expression.nodes (depth : Nat) : Expression → List Node
  | .pipeline terms line => .pipeline depth (.pipeline terms line) :: nodesOfTerms depth terms

def nodesOfMembers (depth : Nat) : List Expression → List Node
  | [] => []
  | e :: es => e.nodes depth ++ nodesOfMembers depth es

end

/-- The nodes of a program, those of its definitions first. -/
def Program.nodes (p : Program) : List Node :=
  p.definitions.flatMap (·.body.nodes 0) ++ p.expression.nodes 0

/-- A literal or a group, which has an end of its own. -/
def Term.IsEnclosed : Term → Prop
  | .literal _ _ | .group _ _ => True
  | .identifier _ _ | .call _ _ _ => False

namespace Grammar

/-- Some of the last of these tokens spell the node. -/
def SpelledIn (ts : List Token) : Node → Prop
  | .term depth t => ∃ start rest, Passes ts start ∧ TermAt depth start t rest
  | .pipeline depth e => ∃ start rest, Passes ts start ∧ ExpressionAt depth start e rest

section SpelledIn

variable {ts rest : List Token} {n : Node}

lemma SpelledIn.of_passes (h : SpelledIn rest n) (hp : Passes ts rest) : SpelledIn ts n := by
  cases n with
  | term | pipeline =>
    obtain ⟨start, after, hstart, hspelled⟩ := h
    exact ⟨start, after, hp.trans hstart, hspelled⟩

lemma SpelledIn.cons {t : Token} (h : SpelledIn ts n) (ht : t.kind ≠ .theEnd) :
    SpelledIn (t :: ts) n := h.of_passes (.head ts ht)

lemma TermAt.spelledIn {depth : Nat} {t : Term} (h : TermAt depth ts t rest) :
    SpelledIn ts (.term depth t) := ⟨ts, rest, .refl ts, h⟩

end SpelledIn

mutual

lemma termAt_spelledIn : ∀ {depth : Nat} {ts rest : List Token} {t : Term},
    TermAt depth ts t rest → ∀ n ∈ t.nodes depth, SpelledIn ts n
  | _, _, _, _, .literal hdepth hkind, n, hn => by
    rw [Term.nodes, List.mem_singleton] at hn
    exact hn ▸ (TermAt.literal hdepth hkind).spelledIn
  | _, _, _, _, .group hdepth hkind hmembers hclosing, n, hn => by
    rw [Term.nodes] at hn
    rcases List.mem_cons.mp hn with rfl | hn
    · -- the group itself
      exact (TermAt.group hdepth hkind hmembers hclosing).spelledIn
    · -- a node inside
      exact (membersAt_spelledIn hmembers n hn).cons (by simp [hkind])
  | _, _, _, _, .identifier hdepth hkind hmax, n, hn => by
    rw [Term.nodes, List.mem_singleton] at hn
    exact hn ▸ (TermAt.identifier hdepth hkind hmax).spelledIn
  | _, _, _, _, .call hdepth hkind hargs hmax, n, hn => by
    rw [Term.nodes] at hn
    rcases List.mem_cons.mp hn with rfl | hn
    · -- the call itself
      exact (TermAt.call hdepth hkind hargs hmax).spelledIn
    · exact (argumentsAt_spelledIn hargs n hn).cons (by simp [hkind])

lemma argumentsAt_spelledIn : ∀ {depth line : Nat} {ts rest : List Token} {args : List Term},
    ArgumentsAt depth line ts args rest → ∀ n ∈ nodesOfTerms depth args, SpelledIn ts n
  | _, _, _, _, _, .nil, n, hn => by
    rw [nodesOfTerms] at hn
    cases hn
  | _, _, _, _, _, .cons _ harg hargs, n, hn => by
    rw [nodesOfTerms] at hn
    rcases List.mem_append.mp hn with hn | hn
    · exact termAt_spelledIn harg n hn
    · exact (argumentsAt_spelledIn hargs n hn).of_passes harg.passes

lemma expressionAt_spelledIn : ∀ {depth : Nat} {ts rest : List Token} {e : Expression},
    ExpressionAt depth ts e rest → ∀ n ∈ e.nodes depth, SpelledIn ts n
  | _, _, _, _, .pipeline hfirst hmore, n, hn => by
    rw [Expression.nodes, nodesOfTerms] at hn
    rcases List.mem_cons.mp hn with rfl | hn
    · exact ⟨_, _, .refl _, .pipeline hfirst hmore⟩
    rcases List.mem_append.mp hn with hn | hn
    · exact termAt_spelledIn hfirst n hn
    · exact (stepsAt_spelledIn hmore n hn).of_passes hfirst.passes

lemma stepsAt_spelledIn : ∀ {depth : Nat} {ts rest : List Token} {more : List Term},
    StepsAt depth ts more rest → ∀ n ∈ nodesOfTerms depth more, SpelledIn ts n
  | _, _, _, _, .nil, n, hn => by
    rw [nodesOfTerms] at hn
    cases hn
  | _, _, _, _, .cons hpipe hterm hmore, n, hn => by
    rw [nodesOfTerms] at hn
    refine SpelledIn.cons ?_ (by simp [hpipe])
    rcases List.mem_append.mp hn with hn | hn
    · exact termAt_spelledIn hterm n hn
    · exact (stepsAt_spelledIn hmore n hn).of_passes hterm.passes

lemma membersAt_spelledIn : ∀ {depth : Nat} {ts rest : List Token} {es : List Expression},
    MembersAt depth ts es rest → ∀ n ∈ nodesOfMembers depth es, SpelledIn ts n
  | _, _, _, _, .none, n, hn => by
    rw [nodesOfMembers] at hn
    cases hn
  | _, _, _, _, .some he hes, n, hn => by
    rw [nodesOfMembers] at hn
    rcases List.mem_append.mp hn with hn | hn
    · exact expressionAt_spelledIn he n hn
    · exact (furtherAt_spelledIn hes n hn).of_passes (expressionAt_passes he)

lemma furtherAt_spelledIn : ∀ {depth : Nat} {ts rest : List Token} {es : List Expression},
    FurtherAt depth ts es rest → ∀ n ∈ nodesOfMembers depth es, SpelledIn ts n
  | _, _, _, _, .nil, n, hn => by
    rw [nodesOfMembers] at hn
    cases hn
  | _, _, _, _, .cons hsemicolon he hes, n, hn => by
    rw [nodesOfMembers] at hn
    refine SpelledIn.cons ?_ (by simp [hsemicolon])
    rcases List.mem_append.mp hn with hn | hn
    · exact expressionAt_spelledIn he n hn
    · exact (furtherAt_spelledIn hes n hn).of_passes (expressionAt_passes he)

end

lemma definitionAt_spelledIn {ts rest : List Token} {d : Definition} (h : DefinitionAt ts d rest) :
    ∀ n ∈ d.body.nodes 0, SpelledIn ts n := by
  obtain ⟨hdefine, hname, hopening, hparameter, hclosing, hequals, hbody⟩ := h
  intro n hn
  refine SpelledIn.cons ?_ (by simp [hdefine])
  refine SpelledIn.cons ?_ (by simp [hname])
  refine SpelledIn.cons ?_ (by simp [hopening])
  refine SpelledIn.cons ?_ (by simp [hparameter])
  refine SpelledIn.cons ?_ (by simp [hclosing])
  refine SpelledIn.cons ?_ (by simp [hequals])
  exact expressionAt_spelledIn hbody n hn

lemma definitionsAt_spelledIn {ts rest : List Token} {ds : List Definition}
    (h : DefinitionsAt ts ds rest) : ∀ d ∈ ds, ∀ n ∈ d.body.nodes 0, SpelledIn ts n := by
  induction h with
  | nil => exact fun _ hd => nomatch hd
  | cons hd _ ih =>
    intro d hmem n hn
    rcases List.mem_cons.mp hmem with rfl | hmem
    · exact definitionAt_spelledIn hd n hn
    · exact (ih d hmem n hn).of_passes (definitionAt_passes hd)

lemma Spells.spelledIn {ts : List Token} {p : Program} (h : Spells ts p) :
    ∀ n ∈ p.nodes, SpelledIn ts n := by
  obtain ⟨rest, theEnd, hds, -, he, -⟩ := h
  intro n hn
  rcases List.mem_append.mp hn with hn | hn
  · obtain ⟨d, hd, hn⟩ := List.mem_flatMap.mp hn
    exact definitionsAt_spelledIn hds d hd n hn
  · exact (expressionAt_spelledIn he n hn).of_passes (definitionsAt_passes hds)

lemma Spells.depth_le {ts : List Token} {p : Program} (h : Spells ts p) {depth : Nat} {t : Term}
    (ht : .term depth t ∈ p.nodes) : depth ≤ maxDepth := by
  obtain ⟨start, rest, -, hterm⟩ := h.spelledIn _ ht
  exact hterm.depth_le

end Grammar

end TextPipeline
