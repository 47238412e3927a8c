import TextPipeline.Proofs.Program.Nodes
import TextPipeline.Proofs.Program.Parser
import TextPipeline.Proofs.Token.Lexer

/-!
The literals of a program. Each of them is the content of a quoted item of the program text, and so
it is plain (`plain_of_mem_literals`).
-/

namespace TextPipeline

open Grammar

mutual

/-- The literals of a term, in order. -/
def Term.literals : Term → List String
  | .identifier _ _ => []
  | .literal text _ => [text]
  | .call _ arguments _ => literalsOfTerms arguments
  | .group members _ => literalsOfMembers members

def literalsOfTerms : List Term → List String
  | [] => []
  | t :: ts => t.literals ++ literalsOfTerms ts

def Expression.literals : Expression → List String
  | .pipeline terms _ => literalsOfTerms terms

def literalsOfMembers : List Expression → List String
  | [] => []
  | e :: es => e.literals ++ literalsOfMembers es

end

/-- The literals of a program, those of its definitions first. -/
def Program.literals (p : Program) : List String :=
  p.definitions.flatMap (·.body.literals) ++ p.expression.literals

/-! ### Literals come from tokens -/

mutual

lemma Term.exists_mem_nodes {text : String} (depth : Nat) : ∀ t : Term, text ∈ t.literals →
    ∃ d line, .term d (.literal text line) ∈ t.nodes depth
  | .identifier _ _, h => by
    rw [Term.literals] at h
    cases h
  | .literal _ line, h => by
    rw [Term.literals, List.mem_singleton] at h
    exact ⟨depth, line, by rw [Term.nodes, h]; exact List.mem_cons_self⟩
  | .call _ arguments _, h => by
    rw [Term.literals] at h
    obtain ⟨d, line, hn⟩ := exists_mem_nodesOfTerms (depth + 1) arguments h
    exact ⟨d, line, by rw [Term.nodes]; exact List.mem_cons_of_mem _ hn⟩
  | .group members _, h => by
    rw [Term.literals] at h
    obtain ⟨d, line, hn⟩ := exists_mem_nodesOfMembers (depth + 1) members h
    exact ⟨d, line, by rw [Term.nodes]; exact List.mem_cons_of_mem _ hn⟩

lemma exists_mem_nodesOfTerms {text : String} (depth : Nat) : ∀ ts : List Term,
    text ∈ literalsOfTerms ts → ∃ d line, .term d (.literal text line) ∈ nodesOfTerms depth ts
  | [], h => by
    rw [literalsOfTerms] at h
    cases h
  | t :: ts, h => by
    rw [literalsOfTerms] at h
    rw [nodesOfTerms]
    rcases List.mem_append.mp h with h | h
    · obtain ⟨d, line, hn⟩ := t.exists_mem_nodes depth h
      exact ⟨d, line, List.mem_append_left _ hn⟩
    · obtain ⟨d, line, hn⟩ := exists_mem_nodesOfTerms depth ts h
      exact ⟨d, line, List.mem_append_right _ hn⟩

lemma Expression.exists_mem_nodes {text : String} (depth : Nat) : ∀ e : Expression,
    text ∈ e.literals → ∃ d line, .term d (.literal text line) ∈ e.nodes depth
  | .pipeline terms _, h => by
    rw [Expression.literals] at h
    obtain ⟨d, line, hn⟩ := exists_mem_nodesOfTerms depth terms h
    exact ⟨d, line, by rw [Expression.nodes]; exact List.mem_cons_of_mem _ hn⟩

lemma exists_mem_nodesOfMembers {text : String} (depth : Nat) : ∀ es : List Expression,
    text ∈ literalsOfMembers es → ∃ d line, .term d (.literal text line) ∈ nodesOfMembers depth es
  | [], h => by
    rw [literalsOfMembers] at h
    cases h
  | e :: es, h => by
    rw [literalsOfMembers] at h
    rw [nodesOfMembers]
    rcases List.mem_append.mp h with h | h
    · obtain ⟨d, line, hn⟩ := e.exists_mem_nodes depth h
      exact ⟨d, line, List.mem_append_left _ hn⟩
    · obtain ⟨d, line, hn⟩ := exists_mem_nodesOfMembers depth es h
      exact ⟨d, line, List.mem_append_right _ hn⟩

end

lemma Program.exists_mem_nodes {p : Program} {text : String} (h : text ∈ p.literals) :
    ∃ d line, .term d (.literal text line) ∈ p.nodes := by
  rcases List.mem_append.mp h with h | h
  · obtain ⟨definition, hd, h⟩ := List.mem_flatMap.mp h
    obtain ⟨d, line, hn⟩ := definition.body.exists_mem_nodes 0 h
    exact ⟨d, line, List.mem_append_left _ (List.mem_flatMap.mpr ⟨definition, hd, hn⟩)⟩
  · obtain ⟨d, line, hn⟩ := p.expression.exists_mem_nodes 0 h
    exact ⟨d, line, List.mem_append_right _ hn⟩

namespace Grammar

/-- The text is the content of a literal among the tokens. -/
def Quotes (ts : List Token) (text : String) : Prop :=
  ∃ t ∈ ts, t.kind = .literal ∧ t.lexeme = text

lemma SpelledIn.quotes {ts : List Token} {depth line : Nat} {text : String}
    (h : SpelledIn ts (.term depth (.literal text line))) : Quotes ts text := by
  obtain ⟨start, rest, ⟨passed, -, rfl⟩, hterm⟩ := h
  cases hterm with
  | literal _ hkind => exact ⟨_, List.mem_append_right _ List.mem_cons_self, hkind, rfl⟩

lemma TermAt.quotes {depth : Nat} {ts rest : List Token} {t : Term} (h : TermAt depth ts t rest) :
    ∀ text ∈ t.literals, Quotes ts text := by
  intro text htext
  obtain ⟨d, line, hn⟩ := t.exists_mem_nodes depth htext
  exact (termAt_spelledIn h _ hn).quotes

lemma Spells.quotes {ts : List Token} {p : Program} (h : Spells ts p) :
    ∀ text ∈ p.literals, Quotes ts text := by
  intro text htext
  obtain ⟨d, line, hn⟩ := Program.exists_mem_nodes htext
  exact (h.spelledIn _ hn).quotes

end Grammar

/-! ### Tokens come from items -/

namespace Item

lemma ended_tokens {items : List Item} (h : AllFit items) (line : Nat) :
    Parser.Ended (tokens line items) := by
  induction items generalizing line with
  | nil => exact .last rfl
  | cons item items ih =>
    obtain ⟨hfits, hall⟩ := h
    rw [tokens]
    cases hm : item.meaning? with
    | none => exact ih hall _
    | some meaning => exact .cons (meaning?_of_fits hfits hm).1 (ih hall _)

end Item

lemma Token.ended_of_lex {source : String} {ts : List Token} (h : Token.lex source = .ok ts) :
    Parser.Ended ts ∧ ∀ t ∈ ts, t.kind ≠ .theEnd → ∃ item rest lexeme, Item.Fits item rest ∧
      item.meaning? = some (t.kind, lexeme) ∧ t.lexeme = String.ofList lexeme := by
  obtain ⟨items, hitems⟩ := Token.split_of_scan h
  cases h.symm.trans (Token.scan_of_split hitems 1)
  exact ⟨Item.ended_tokens hitems.2 1, fun t => Item.exists_of_mem_tokens hitems.2⟩

lemma Program.plain_of_mem_literals {source : String} {p : Program}
    (h : Program.parse source = .ok p) : ∀ text ∈ p.literals, Text.Plain text := by
  obtain ⟨ts, hlex, hp⟩ := ok_of_bind h
  obtain ⟨hended, hitems⟩ := Token.ended_of_lex hlex
  intro text htext
  obtain ⟨t, ht, hkind, rfl⟩ := (Parser.spells_of_ofTokens hended hp).quotes text htext
  obtain ⟨item, rest, lexeme, hfits, hm, hlexeme⟩ := hitems t ht (by simp [hkind])
  exact hlexeme ▸ (Item.meaning?_of_fits hfits hm).2 hkind

end TextPipeline
