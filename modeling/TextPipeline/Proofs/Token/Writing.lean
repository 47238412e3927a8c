import TextPipeline.Proofs.Token.Spelling

/-!
Writing tokens out. A name is written as a word, and a literal in quotes that can hold it
(`Quotation.Holds`); before a text that separates them from what follows, these items fit. The
tokens of a text can be written in this way (`Item.isName_of_fits`, `Item.holds_of_fits`).
-/

namespace TextPipeline

open Text (lineFeeds lineFeeds_eq_zero Plain)

/-! ### Words -/

def IsWord (text : String) : Prop :=
  (∃ first more, text.toList = first :: more ∧ IsLetter first) ∧ ∀ c ∈ text.toList, IsWordChar c

/-- A word other than `def`. -/
def IsName (text : String) : Prop := IsWord text ∧ text ≠ "def"

lemma Item.isName_of_fits {item : Item} {rest lexeme : List Char}
    (h : item.Fits rest) (hm : item.meaning? = some (.ident, lexeme)) :
    IsName (String.ofList lexeme) := by
  cases item with
  | blank _ | comment _ | literal _ _ | block _ => cases hm
  | mark kind c =>
    cases hm
    have hkinds : TokenKind.ident ∉ markKinds.map Prod.snd := by decide
    exact absurd (List.mem_map_of_mem h) hkinds
  | word chars =>
    simp only [meaning?, Option.some.injEq, Prod.mk.injEq] at hm
    obtain ⟨hkind, rfl⟩ := hm
    rw [IsName, IsWord, String.toList_ofList]
    refine ⟨⟨h.1, h.2.1⟩, fun hdef => ?_⟩
    have hdef : chars = ['d', 'e', 'f'] := by simpa using congrArg String.toList hdef
    simp [hdef] at hkind

/-! ### Quotes -/

inductive Quotation
  | single | double | block
  deriving DecidableEq

namespace Quotation

def around : Quotation → String → String
  | single, text => "'" ++ text ++ "'"
  | double, text => "\"" ++ text ++ "\""
  | block, text => "\"\"\"" ++ text ++ "\"\"\""

/-- The text can stand in these quotes. A block ends at the first three double quotes, which have to
be those after the text. -/
def Holds : Quotation → String → Prop
  | single, text => '\'' ∉ text.toList ∧ '\n' ∉ text.toList
  | double, text => '"' ∉ text.toList ∧ '\n' ∉ text.toList
  | block, text => ¬ blockQuotes <:+: text.toList ++ ['"', '"']

instance : ∀ (q : Quotation) (text : String), Decidable (q.Holds text)
  | single, text => inferInstanceAs (Decidable ('\'' ∉ text.toList ∧ '\n' ∉ text.toList))
  | double, text => inferInstanceAs (Decidable ('"' ∉ text.toList ∧ '\n' ∉ text.toList))
  | block, text => inferInstanceAs (Decidable (¬ blockQuotes <:+: text.toList ++ ['"', '"']))

/-- The first quotes that can hold the text, if any can. -/
def fitting (text : String) : Quotation :=
  if single.Holds text then single else if double.Holds text then double else block

lemma fitting_holds {q : Quotation} {text : String} (h : q.Holds text) :
    (fitting text).Holds text := by
  unfold fitting
  split
  · assumption
  · split
    · assumption
    · cases q <;> first | contradiction | assumption

def item : Quotation → List Char → Item
  | single, body => .literal '\'' body
  | double, body => .literal '"' body
  | block, body => .block body

lemma meaning?_item (q : Quotation) (body : List Char) :
    (q.item body).meaning? = some (.literal, body) := by
  cases q <;> rfl

lemma text_item (q : Quotation) (text : String) :
    (q.item text.toList).text = (q.around text).toList := by
  cases q <;> simp [item, around, Item.text]

lemma lineFeeds_item (q : Quotation) (body : List Char) :
    lineFeeds (q.item body).text = lineFeeds body := by
  cases q <;> simp [item, Item.text, lineFeeds]

end Quotation

namespace Item

variable {item : Item} {rest lexeme : List Char}

lemma not_infix_of_fits {body : List Char} (h : (block body).Fits rest) :
    ¬ blockQuotes <:+: body ++ ['"', '"'] := by
  rintro ⟨s, t, hst⟩
  have hlength := congrArg List.length hst
  simp only [blockQuotes, List.length_append, List.length_cons, List.length_nil] at hlength
  have hdrop : (body ++ blockQuotes).drop s.length = blockQuotes ++ (t ++ ['"']) := by
    have hbody : body ++ blockQuotes = s ++ (blockQuotes ++ (t ++ ['"'])) := by
      calc body ++ blockQuotes = body ++ ['"', '"'] ++ ['"'] := by simp [blockQuotes]
        _ = s ++ (blockQuotes ++ (t ++ ['"'])) := by rw [← hst]; simp
    rw [hbody, List.drop_left]
  have hle := h.2 s.length (hdrop ▸ List.prefix_append _ _)
  omega

lemma holds_of_fits (h : item.Fits rest) (hm : item.meaning? = some (.literal, lexeme)) :
    ∃ q : Quotation, q.Holds (String.ofList lexeme) := by
  cases item with
  | blank _ | comment _ => cases hm
  | mark kind c =>
    cases hm
    have hkinds : TokenKind.literal ∉ markKinds.map Prod.snd := by decide
    exact absurd (List.mem_map_of_mem h) hkinds
  | word chars =>
    simp only [meaning?, Option.some.injEq, Prod.mk.injEq] at hm
    obtain ⟨hkind, -⟩ := hm
    split at hkind <;> cases hkind
  | literal quote body =>
    cases hm
    obtain ⟨hquote, hbody, -⟩ := h
    have hne : quote ∉ lexeme ∧ '\n' ∉ lexeme :=
      ⟨fun hc => (hbody _ hc).1 rfl, fun hc => (hbody _ hc).2.1 rfl⟩
    rw [← String.toList_ofList (l := lexeme)] at hne
    rcases hquote with rfl | rfl
    · exact ⟨.double, hne⟩
    · exact ⟨.single, hne⟩
  | block body =>
    cases hm
    refine ⟨.block, ?_⟩
    rw [Quotation.Holds, String.toList_ofList]
    exact not_infix_of_fits h

end Item

/-! ### Items that fit -/

/-- The text does not go on with a word or with double quotes. -/
def Separates (s : List Char) : Prop := ∀ c ∈ s.head?, ¬ IsWordChar c ∧ c ≠ '"'

lemma separates_cons {c : Char} (hword : ¬ IsWordChar c) (hquote : c ≠ '"') (s : List Char) :
    Separates (c :: s) := by
  rintro d ⟨⟩
  exact ⟨hword, hquote⟩

lemma fits_space (after : List Item) : Item.Fits (.blank ' ') (after.flatMap Item.text) := by
  simp [Item.Fits]

lemma fits_mark {kind : TokenKind} {c : Char} (h : (c, kind) ∈ markKinds) (s : List Char) :
    Item.Fits (.mark kind c) s := h

lemma fits_word {text : String} (h : IsWord text) {s : List Char} (hs : Separates s) :
    Item.Fits (.word text.toList) s :=
  ⟨h.1, h.2, fun c hc => (hs c hc).1⟩

lemma isWord_define : IsWord "def" := by
  have hchars : "def".toList = ['d', 'e', 'f'] := by simp
  refine ⟨⟨'d', ['e', 'f'], hchars, by decide⟩, ?_⟩
  simp only [hchars, List.mem_cons, List.not_mem_nil, or_false, forall_eq_or_imp, forall_eq]
  decide

lemma Quotation.length_le_of_prefix {body : List Char} {k : Nat}
    (h : ¬ blockQuotes <:+: body ++ ['"', '"'])
    (hk : blockQuotes <+: (body ++ blockQuotes).drop k) : body.length ≤ k := by
  by_contra hlt
  refine h ?_
  have hle : k ≤ (body ++ ['"', '"']).length := by simp; omega
  have hdrop : (body ++ blockQuotes).drop k = (body ++ ['"', '"']).drop k ++ ['"'] := by
    rw [← List.drop_append_of_le_length hle, List.append_assoc]
    rfl
  rw [hdrop] at hk
  have hprefix : blockQuotes <+: (body ++ ['"', '"']).drop k :=
    List.prefix_of_prefix_length_le hk (List.prefix_append _ _) (by simp [blockQuotes]; omega)
  exact hprefix.isInfix.trans (List.drop_suffix k _).isInfix

lemma Quotation.fits_item {q : Quotation} {text : String} (hplain : Plain text)
    (hholds : q.Holds text) {s : List Char} (hs : Separates s) :
    (q.item text.toList).Fits s := by
  cases q with
  | single =>
    refine ⟨.inr rfl, fun c hc => ⟨?_, ?_, hplain c hc⟩, by simp [blockQuotes]⟩
    · rintro rfl
      exact hholds.1 hc
    · rintro rfl
      exact hholds.2 hc
  | double =>
    refine ⟨.inl rfl, fun c hc => ⟨?_, ?_, hplain c hc⟩, ?_⟩
    · rintro rfl
      exact hholds.1 hc
    · rintro rfl
      exact hholds.2 hc
    · -- The third double quote would be one of the text or the one after it.
      rintro ⟨t, ht⟩
      cases hbody : text.toList with
      | nil =>
        rw [hbody] at ht
        have ht : '"' :: t = s := by simpa [blockQuotes] using ht
        exact (hs '"' (ht ▸ rfl)).2 rfl
      | cons c body =>
        rw [hbody] at ht
        obtain ⟨rfl, -⟩ : '"' = c ∧ _ := by simpa [blockQuotes] using ht
        exact hholds.1 (hbody ▸ List.mem_cons_self)
  | block => exact ⟨hplain, fun k hk => length_le_of_prefix hholds hk⟩

/-! ### Tokens of items -/

namespace Item

variable (line : Nat) (items : List Item)

lemma tokens_space : tokens line (.blank ' ' :: items) = tokens line items := rfl

lemma tokens_mark (kind : TokenKind) {c : Char} (h : c ≠ '\n') :
    tokens line (.mark kind c :: items) = ⟨kind, String.ofList [c], line⟩ :: tokens line items := by
  simp [tokens, meaning?, text, lineFeeds, h]

lemma tokens_word {name : String} (h : IsName name) :
    tokens line (.word name.toList :: items) = ⟨.ident, name, line⟩ :: tokens line items := by
  obtain ⟨⟨-, hchars⟩, hdef⟩ := h
  have hfeeds : lineFeeds name.toList = 0 :=
    lineFeeds_eq_zero.mpr fun h => absurd (hchars _ h) (by decide)
  have hdef : name.toList ≠ ['d', 'e', 'f'] := fun h => hdef (String.toList_injective h)
  simp [tokens, meaning?, text, hfeeds, hdef]

lemma tokens_define :
    tokens line (.word "def".toList :: items) = ⟨.define, "def", line⟩ :: tokens line items := by
  simp [tokens, meaning?, text, lineFeeds]

lemma tokens_quoted (q : Quotation) (text : String) :
    tokens line (q.item text.toList :: items) =
      ⟨.literal, text, line⟩ :: tokens (line + lineFeeds text.toList) items := by
  simp [tokens, q.meaning?_item, q.lineFeeds_item]

end Item

end TextPipeline
