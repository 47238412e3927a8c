import Mathlib.Data.List.Infix
import TextPipeline.Token.Item

/-!
How items are spelled. Whether an item can stand somewhere depends on the text after it: a
comment and a word go as far as they can, and two double quotes before a third one are no
literal but open a block (`Fits`).
-/

namespace TextPipeline

/-- The number of line feeds. -/
def Text.lineFeeds (s : List Char) : Nat := s.count '\n'

lemma Text.lineFeeds_append (s t : List Char) : lineFeeds (s ++ t) = lineFeeds s + lineFeeds t :=
  List.count_append

lemma Text.lineFeeds_eq_zero {s : List Char} : lineFeeds s = 0 ↔ '\n' ∉ s := List.count_eq_zero

/-- A letter or an underscore. -/
def IsLetter (c : Char) : Prop := ('a' ≤ c ∧ c ≤ 'z') ∨ ('A' ≤ c ∧ c ≤ 'Z') ∨ c = '_'

instance : DecidablePred IsLetter := fun c =>
  inferInstanceAs (Decidable (('a' ≤ c ∧ c ≤ 'z') ∨ ('A' ≤ c ∧ c ≤ 'Z') ∨ c = '_'))

/-- What a word may go on with. -/
def IsWordChar (c : Char) : Prop := IsLetter c ∨ ('0' ≤ c ∧ c ≤ '9')

instance : DecidablePred IsWordChar := fun c =>
  inferInstanceAs (Decidable (IsLetter c ∨ ('0' ≤ c ∧ c ≤ '9')))

/-- Three double quotes, which open and close a block. -/
def blockQuotes : List Char := ['"', '"', '"']

/-- The marks and the kinds of their tokens. -/
def markKinds : List (Char × TokenKind) :=
  [('(', .openParen), (')', .closeParen), ('=', .equals), ('\x7b', .openBrace),
    ('\x7d', .closeBrace), ('|', .pipe), (';', .semicolon)]

namespace Item

/-- The item can stand in front of this text. -/
def Fits : Item → List Char → Prop
  | blank c, _ => c ∈ [' ', '\t', '\r', '\n']
  | comment body, rest => (∀ c ∈ body, c ≠ '\n') ∧ ∀ c ∈ rest.head?, c = '\n'
  | mark kind c, _ => (c, kind) ∈ markKinds
  | word chars, rest => (∃ first more, chars = first :: more ∧ IsLetter first) ∧
      (∀ c ∈ chars, IsWordChar c) ∧ ∀ c ∈ rest.head?, ¬ IsWordChar c
  | literal quote body, rest => (quote = '"' ∨ quote = '\'') ∧
      (∀ c ∈ body, c ≠ quote ∧ c ≠ '\n' ∧ Text.isPlain c) ∧
      ¬ blockQuotes <+: quote :: body ++ quote :: rest
  | block body, _ => (∀ c ∈ body, Text.isPlain c) ∧
      ∀ k, blockQuotes <+: (body ++ blockQuotes).drop k → body.length ≤ k

/-- The items fit, each in front of the text of those after it. -/
def AllFit : List Item → Prop
  | [] => True
  | item :: items => item.Fits (items.flatMap text) ∧ AllFit items

/-- The text consists of these items. -/
def Split (s : List Char) (items : List Item) : Prop := items.flatMap text = s ∧ AllFit items

/-- The kind and the lexeme of the token of an item. -/
def meaning? : Item → Option (TokenKind × List Char)
  | blank _ | comment _ => none
  | mark kind c => some (kind, [c])
  | word chars => some (if chars = ['d', 'e', 'f'] then .define else .ident, chars)
  | literal _ body | block body => some (.literal, body)

/-- The tokens of items of which the first starts on this line, and the end. -/
def tokens (line : Nat) : List Item → List Token
  | [] => [⟨.theEnd, "", line⟩]
  | item :: items =>
    (item.meaning?.map fun (kind, lexeme) => ⟨kind, String.ofList lexeme, line⟩).toList ++
      tokens (line + Text.lineFeeds item.text) items

/-! ### Characters -/

/-- No item starts with this character. -/
def StartsNone (c : Char) : Prop :=
  c ∉ [' ', '\t', '\r', '\n'] ∧ c ≠ '#' ∧ c ≠ '"' ∧ c ≠ '\'' ∧ ¬ IsLetter c ∧
    ∀ kind, (c, kind) ∉ markKinds

lemma isBlank_iff {c : Char} : isBlank c = true ↔ c ∈ [' ', '\t', '\r', '\n'] := by
  simp [isBlank, or_assoc]

lemma between_iff {c first last : Char} :
    (decide (first.val ≤ c.val) && decide (c.val ≤ last.val)) = true ↔ first ≤ c ∧ c ≤ last := by
  rw [Bool.and_eq_true, decide_eq_true_eq, decide_eq_true_eq]
  rfl

lemma isUpper_iff {c : Char} : c.isUpper = true ↔ 'A' ≤ c ∧ c ≤ 'Z' := decide_eq_true_iff

lemma isLower_iff {c : Char} : c.isLower = true ↔ 'a' ≤ c ∧ c ≤ 'z' := between_iff

lemma isDigit_iff {c : Char} : c.isDigit = true ↔ '0' ≤ c ∧ c ≤ '9' := between_iff

lemma startsWord_iff {c : Char} : startsWord c = true ↔ IsLetter c := by
  change ((c.isUpper || c.isLower) || decide (c = '_')) = true ↔ _
  rw [Bool.or_eq_true, Bool.or_eq_true, isUpper_iff, isLower_iff, decide_eq_true_eq, IsLetter]
  tauto

lemma continuesWord_iff {c : Char} : continuesWord c = true ↔ IsWordChar c := by
  change ((c.isAlpha || c.isDigit) || decide (c = '_')) = true ↔ _
  have hletter : IsLetter c ↔ c.isAlpha = true ∨ c = '_' := by
    rw [← startsWord_iff, startsWord, Bool.or_eq_true, decide_eq_true_eq]
  rw [Bool.or_eq_true, Bool.or_eq_true, isDigit_iff, decide_eq_true_eq, IsWordChar, hletter]
  tauto

lemma inLiteral_iff {quote c : Char} :
    inLiteral quote c = true ↔ c ≠ quote ∧ c ≠ '\n' ∧ Text.isPlain c := by
  simp [inLiteral, and_assoc]

lemma ofMark?_iff {c : Char} {kind : TokenKind} :
    TokenKind.ofMark? c = some kind ↔ (c, kind) ∈ markKinds := by
  unfold TokenKind.ofMark?
  split <;> simp_all [markKinds, eq_comm]

lemma startsNone_iff {c : Char} : StartsNone c ↔ ¬ isBlank c ∧ c ≠ '#' ∧
    ¬ (c = '"' || c = '\'') ∧ ¬ startsWord c ∧ TokenKind.ofMark? c = none := by
  have hmark : TokenKind.ofMark? c = none ↔ ∀ kind, (c, kind) ∉ markKinds := by
    simp only [Option.eq_none_iff_forall_ne_some, ne_eq, ofMark?_iff]
  rw [isBlank_iff, startsWord_iff, hmark, StartsNone]
  simp only [Bool.or_eq_true, decide_eq_true_eq, not_or, and_assoc, ne_eq]

lemma next_of_startsNone (line : Nat) {c : Char} (h : StartsNone c) (s : List Char) :
    next line c s = .error ⟨.unexpected c, line⟩ := by
  obtain ⟨hblank, hcomment, hquote, hword, hmark⟩ := startsNone_iff.mp h
  rw [next, if_neg hblank, if_neg hcomment, if_neg hquote, if_neg hword, hmark]

/-! ### Items -/

lemma text_ne_nil {item : Item} {rest : List Char} (h : item.Fits rest) : item.text ≠ [] := by
  cases item with
  | word chars =>
    obtain ⟨⟨first, more, rfl, -⟩, -⟩ := h
    exact List.cons_ne_nil _ _
  | _ => exact List.cons_ne_nil _ _

lemma meaning?_of_fits {item : Item} {rest lexeme : List Char} {kind : TokenKind}
    (h : item.Fits rest) (hm : item.meaning? = some (kind, lexeme)) :
    kind ≠ .theEnd ∧ (kind = .literal → Text.Plain (String.ofList lexeme)) := by
  cases item with
  | blank c => cases hm
  | comment body => cases hm
  | mark mark c =>
    cases hm
    have hkinds : ∀ k ∈ markKinds.map Prod.snd, k ≠ .theEnd ∧ k ≠ .literal := by decide
    obtain ⟨hne, hliteral⟩ := hkinds kind (List.mem_map_of_mem h)
    exact ⟨hne, fun heq => absurd heq hliteral⟩
  | word chars =>
    simp only [meaning?, Option.some.injEq, Prod.mk.injEq] at hm
    obtain ⟨rfl, -⟩ := hm
    split <;> simp
  | literal quote body =>
    cases hm
    refine ⟨by decide, fun _ c hc => ?_⟩
    rw [String.toList_ofList] at hc
    exact (h.2.1 c hc).2.2
  | block body =>
    cases hm
    refine ⟨by decide, fun _ c hc => ?_⟩
    rw [String.toList_ofList] at hc
    exact h.1 c hc

lemma exists_of_mem_tokens {items : List Item} (h : AllFit items) {line : Nat} {t : Token}
    (ht : t ∈ tokens line items) (hend : t.kind ≠ .theEnd) :
    ∃ item rest lexeme, Fits item rest ∧ item.meaning? = some (t.kind, lexeme) ∧
      t.lexeme = String.ofList lexeme := by
  induction items generalizing line with
  | nil =>
    cases List.mem_singleton.mp ht
    exact absurd rfl hend
  | cons item items ih =>
    obtain ⟨hfits, hall⟩ := h
    rw [tokens] at ht
    cases hm : item.meaning? with
    | none =>
      rw [hm] at ht
      exact ih hall ht
    | some meaning =>
      rw [hm] at ht
      rcases List.mem_cons.mp ht with rfl | ht
      · exact ⟨item, _, meaning.2, hfits, hm, rfl⟩
      · exact ih hall ht

end Item

end TextPipeline
