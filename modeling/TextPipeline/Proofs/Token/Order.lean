import Mathlib.Data.List.Count
import TextPipeline.Proofs.Token.Lexer

/-!
The lines of tokens. A token does not start before the line on which the one before it ends
(`Token.ordered_of_lex`).
-/

namespace TextPipeline

open Text

/-- The second token does not start on a line before the end of the first. -/
def Token.Before (t u : Token) : Prop := t.line + lineFeeds t.lexeme.toList ≤ u.line

lemma Token.Before.line_le {t u : Token} (h : t.Before u) : t.line ≤ u.line :=
  Nat.le_of_add_right_le h

namespace Item

lemma lineFeeds_le_of_meaning? {item : Item} {kind : TokenKind} {lexeme : List Char}
    (h : item.meaning? = some (kind, lexeme)) : lineFeeds lexeme ≤ lineFeeds item.text := by
  cases item with
  | blank _ | comment _ => cases h
  | mark _ _ => cases h; exact Nat.le_refl _
  | word _ => cases h; exact Nat.le_refl _
  | literal quote body =>
    cases h
    rw [text, ← List.singleton_append, List.append_assoc, lineFeeds_append, lineFeeds_append]
    omega
  | block body =>
    cases h
    rw [text, lineFeeds_append, lineFeeds_append]
    omega

lemma tokens_ordered (line : Nat) (items : List Item) :
    (tokens line items).Pairwise Token.Before ∧ ∀ t ∈ tokens line items, line ≤ t.line := by
  induction items generalizing line with
  | nil => simp [tokens]
  | cons item items ih =>
    obtain ⟨hpairs, hlines⟩ := ih (line + lineFeeds item.text)
    have hlater (t : Token) (ht : t ∈ tokens (line + lineFeeds item.text) items) :
        line ≤ t.line := Nat.le_of_add_right_le (hlines t ht)
    rw [tokens]
    cases hm : item.meaning? with
    | none => exact ⟨hpairs, hlater⟩
    | some meaning =>
      obtain ⟨kind, lexeme⟩ := meaning
      refine ⟨List.pairwise_cons.mpr ⟨fun t ht => ?_, hpairs⟩, ?_⟩
      · -- the lines of a token come before those of the next
        have hfeeds := lineFeeds_le_of_meaning? hm
        have hline := hlines t ht
        simp only [Token.Before, String.toList_ofList]
        omega
      · exact List.forall_mem_cons.mpr ⟨Nat.le_refl _, hlater⟩

end Item

lemma Token.ordered_of_lex {source : String} {ts : List Token} (h : Token.lex source = .ok ts) :
    ts.Pairwise Token.Before := by
  obtain ⟨items, hitems⟩ := Token.split_of_scan h
  cases h.symm.trans (Token.scan_of_split hitems 1)
  exact (Item.tokens_ordered 1 items).1

end TextPipeline
