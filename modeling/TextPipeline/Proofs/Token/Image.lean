import Mathlib.Data.List.Chain
import TextPipeline.Proofs.Token.Lines
import TextPipeline.Proofs.Token.Writing

/-!
Which lists of tokens a text can have (`exists_lex_iff`). Every token has to be spelled as its kind
asks for, the end comes last, and no token starts before the line on which the one before it ends.
For each such list there is a text: the tokens on their lines, with a space after each of them.
-/

namespace TextPipeline

open Text Item

/-- A literal can have this content: in single quotes, in double quotes, or in a block. -/
def Enclosable (s : List Char) : Prop :=
  ('\n' ∉ s ∧ '\'' ∉ s) ∨ ('\n' ∉ s ∧ '"' ∉ s) ∨ (¬ blockQuotes <:+: s ∧ s.getLast? ≠ some '"')

/-- The lexeme is one that tokens of this kind have. -/
def Token.Spelled (t : Token) : Prop :=
  match t.kind with
  | .theEnd => t.lexeme = ""
  | .define => t.lexeme = "def"
  | .ident => IsName t.lexeme
  | .literal => Plain t.lexeme ∧ Enclosable t.lexeme.toList
  | kind => ∃ c, (c, kind) ∈ markKinds ∧ t.lexeme = String.ofList [c]

structure Token.Readable (ts : List Token) : Prop where
  ended : ∃ before last, ts = before ++ [last] ∧ last.kind = .theEnd ∧
    ∀ t ∈ before, t.kind ≠ .theEnd
  spelled : ∀ t ∈ ts, t.Spelled
  first : ∀ t ∈ ts.head?, 1 ≤ t.line
  lines : ts.IsChain fun t u => t.line + lineFeeds t.lexeme.toList ≤ u.line

/-! ### Quotes -/

lemma Quotation.block_holds_iff {text : String} : Quotation.block.Holds text ↔
    ¬ blockQuotes <:+: text.toList ∧ text.toList.getLast? ≠ some '"' := by
  rw [Holds]
  generalize text.toList = body
  constructor
  · refine fun h => ⟨fun hinside => ?_, fun hlast => ?_⟩
    · exact h (hinside.trans (List.prefix_append _ _).isInfix)
    obtain ⟨front, rfl⟩ := List.getLast?_eq_some_iff.mp hlast
    exact h ⟨front, [], by simp [blockQuotes]⟩
  · rintro ⟨hinside, hlast⟩ h
    -- seen from behind, the two quotes come first
    have hreverse : blockQuotes <:+: '"' :: '"' :: body.reverse := by
      have hquotes := List.reverse_infix.mpr h
      simpa [blockQuotes] using hquotes
    have hhead : body.reverse.head? ≠ some '"' := by rwa [List.head?_reverse]
    rcases List.infix_cons_iff.mp hreverse with hfirst | hrest
    · have hquote : ['"'] <+: body.reverse := by simpa [blockQuotes] using hfirst
      obtain ⟨t, ht⟩ := hquote
      exact hhead (ht ▸ rfl)
    · rcases List.infix_cons_iff.mp hrest with hsecond | hbody
      · have hquote : ['"', '"'] <+: body.reverse := by simpa [blockQuotes] using hsecond
        obtain ⟨t, ht⟩ := hquote
        exact hhead (ht ▸ rfl)
      · refine hinside (List.reverse_infix.mp ?_)
        simpa [blockQuotes] using hbody

lemma enclosable_iff {text : String} :
    Enclosable text.toList ↔ ∃ q : Quotation, q.Holds text := by
  unfold Enclosable
  rw [← Quotation.block_holds_iff]
  constructor
  · rintro (⟨hfeed, hquote⟩ | ⟨hfeed, hquote⟩ | hblock)
    · exact ⟨.single, hquote, hfeed⟩
    · exact ⟨.double, hquote, hfeed⟩
    · exact ⟨.block, hblock⟩
  · rintro ⟨q, hq⟩
    cases q with
    | single => exact .inl hq.symm
    | double => exact .inr (.inl hq.symm)
    | block => exact .inr (.inr hq)

/-! ### Tokens of a text -/

lemma Token.spelled_mark {c : Char} {kind : TokenKind} (h : (c, kind) ∈ markKinds) (line : Nat) :
    (⟨kind, String.ofList [c], line⟩ : Token).Spelled := by
  have hmark := h
  simp only [markKinds, List.mem_cons, Prod.mk.injEq, List.not_mem_nil, or_false] at h
  rcases h with ⟨rfl, rfl⟩ | ⟨rfl, rfl⟩ | ⟨rfl, rfl⟩ | ⟨rfl, rfl⟩ | ⟨rfl, rfl⟩ | ⟨rfl, rfl⟩ |
    ⟨rfl, rfl⟩ <;> exact ⟨_, hmark, rfl⟩

lemma Token.spelled_of_fits {item : Item} {rest lexeme : List Char} {kind : TokenKind}
    (h : item.Fits rest) (hm : item.meaning? = some (kind, lexeme)) (line : Nat) :
    (⟨kind, String.ofList lexeme, line⟩ : Token).Spelled := by
  have hliteral (hkind : kind = .literal) :
      Plain (String.ofList lexeme) ∧ Enclosable (String.ofList lexeme).toList := by
    subst hkind
    exact ⟨(meaning?_of_fits h hm).2 rfl, enclosable_iff.mpr (holds_of_fits h hm)⟩
  cases item with
  | blank _ | comment _ => cases hm
  | mark _ c =>
    cases hm
    exact spelled_mark h line
  | word chars =>
    by_cases hdef : chars = ['d', 'e', 'f']
    · -- the word that starts a definition
      rw [meaning?, if_pos hdef] at hm
      cases hm
      exact congrArg String.ofList hdef
    · have hname : (word chars).meaning? = some (.ident, chars) := by rw [meaning?, if_neg hdef]
      cases hm.symm.trans hname
      exact isName_of_fits h hname
  | literal _ _ | block _ =>
    cases hm
    exact hliteral rfl

lemma exists_fits_of_mem {items : List Item} (h : AllFit items) {item : Item}
    (hmem : item ∈ items) : ∃ rest, item.Fits rest := by
  induction items with
  | nil => cases hmem
  | cons first items ih =>
    obtain ⟨hfits, hall⟩ := h
    rcases List.mem_cons.mp hmem with rfl | hmem
    · exact ⟨_, hfits⟩
    · exact ih hall hmem

lemma Token.readable_tokens {items : List Item} (h : AllFit items) :
    Token.Readable (tokens 1 items) := by
  obtain ⟨hpairs, hfirst⟩ := tokens_ordered 1 items
  have hlines : (tokens 1 items).IsChain Token.Before := hpairs.isChain
  have hsource (t : Token) (ht : t ∈ items.zipIdx.filterMap fun x =>
      x.1.tokenOn? (1 + lineFeeds ((items.take x.2).flatMap text))) :
      t.kind ≠ .theEnd ∧ t.Spelled := by
    obtain ⟨⟨item, i⟩, hmem, htoken⟩ := List.mem_filterMap.mp ht
    obtain ⟨⟨kind, lexeme⟩, hm, rfl⟩ := Option.map_eq_some_iff.mp htoken
    obtain ⟨rest, hfits⟩ := exists_fits_of_mem h (List.fst_mem_of_mem_zipIdx hmem)
    exact ⟨(meaning?_of_fits hfits hm).1, spelled_of_fits hfits hm _⟩
  rw [tokens_eq_filterMap] at hlines hfirst ⊢
  refine ⟨⟨_, _, rfl, rfl, fun t ht => (hsource t ht).1⟩, fun t ht => ?_,
    fun t ht => hfirst t (List.mem_of_head? ht), hlines⟩
  rcases List.mem_append.mp ht with ht | ht
  · exact (hsource t ht).2
  · cases List.mem_singleton.mp ht
    rfl

/-! ### A text for tokens -/

/-- The item as which a token is written. -/
def Token.item (t : Token) : Item :=
  match t.kind with
  | .ident | .define => .word t.lexeme.toList
  | .literal => (Quotation.fitting t.lexeme).item t.lexeme.toList
  | kind => .mark kind (t.lexeme.toList.headD ' ')

lemma Token.Spelled.writes {t : Token} (h : t.Spelled) (hend : t.kind ≠ .theEnd) (s : List Char) :
    t.item.Fits (' ' :: s) ∧ t.item.meaning? = some (t.kind, t.lexeme.toList) ∧
      lineFeeds t.item.text = lineFeeds t.lexeme.toList := by
  have hspace : Separates (' ' :: s) := separates_cons (by decide) (by decide) s
  obtain ⟨kind, lexeme, line⟩ := t
  cases kind with
  | theEnd => exact absurd rfl hend
  | ident =>
    obtain ⟨hword, hdef⟩ : IsName lexeme := h
    refine ⟨fits_word hword hspace, ?_, rfl⟩
    have hchars : lexeme.toList ≠ ['d', 'e', 'f'] := fun heq => hdef (String.toList_inj.mp heq)
    simp only [item, meaning?, if_neg hchars]
  | define =>
    obtain rfl : lexeme = "def" := h
    exact ⟨fits_word isWord_define hspace, by simp [item, meaning?], rfl⟩
  | literal =>
    obtain ⟨hplain, hquotes⟩ : Plain lexeme ∧ Enclosable lexeme.toList := h
    obtain ⟨q, hq⟩ := enclosable_iff.mp hquotes
    exact ⟨Quotation.fits_item hplain (Quotation.fitting_holds hq) hspace,
      Quotation.meaning?_item _ _, Quotation.lineFeeds_item _ _⟩
  | openParen | closeParen | equals | openBrace | closeBrace | pipe | semicolon =>
    obtain ⟨c, hc, rfl⟩ : ∃ c, (c, _) ∈ markKinds ∧ lexeme = String.ofList [c] := h
    simp only [item, String.toList_ofList, List.headD_cons]
    exact ⟨hc, rfl, rfl⟩

/-- Items with these tokens: line feeds up to the line of a token, and a space after it. -/
def Token.layout (line : Nat) : List Token → List Item
  | [] => []
  | t :: ts => List.replicate (t.line - line) (.blank '\n') ++
      if t.kind = .theEnd then []
      else t.item :: .blank ' ' :: layout (t.line + lineFeeds t.lexeme.toList) ts

lemma allFit_lineFeeds (n : Nat) {items : List Item} (h : AllFit items) :
    AllFit (List.replicate n (.blank '\n') ++ items) := by
  induction n with
  | zero => exact h
  | succ n ih => exact ⟨by simp [Fits], ih⟩

lemma tokens_lineFeeds (line n : Nat) (items : List Item) :
    tokens line (List.replicate n (.blank '\n') ++ items) = tokens (line + n) items := by
  induction n generalizing line with
  | zero => rfl
  | succ n ih =>
    have hrest := ih (line + 1)
    rw [Nat.add_assoc, Nat.add_comm 1] at hrest
    exact hrest

lemma Token.layout_reads {line : Nat} {ts : List Token} {last : Token}
    (hend : last.kind = .theEnd) (hts : ∀ t ∈ ts, t.kind ≠ .theEnd)
    (hspelled : ∀ t ∈ ts ++ [last], t.Spelled) (hfirst : ∀ t ∈ (ts ++ [last]).head?, line ≤ t.line)
    (hlines : (ts ++ [last]).IsChain fun t u => t.line + lineFeeds t.lexeme.toList ≤ u.line) :
    AllFit (layout line (ts ++ [last])) ∧
      tokens line (layout line (ts ++ [last])) = ts ++ [last] := by
  induction ts generalizing line with
  | nil =>
    obtain ⟨kind, lexeme, lastLine⟩ := last
    obtain rfl : kind = .theEnd := hend
    obtain rfl : lexeme = "" := hspelled _ List.mem_cons_self
    have hline : line ≤ lastLine := hfirst _ rfl
    rw [List.nil_append, layout, if_pos rfl, tokens_lineFeeds, Nat.add_sub_cancel' hline]
    exact ⟨allFit_lineFeeds _ trivial, rfl⟩
  | cons t ts ih =>
    obtain ⟨ht, hts⟩ := List.forall_mem_cons.mp hts
    obtain ⟨htspelled, hspelled⟩ := List.forall_mem_cons.mp hspelled
    have hline : line ≤ t.line := hfirst t rfl
    obtain ⟨hnext, hlines⟩ := List.isChain_cons.mp hlines
    obtain ⟨hfit, htokens⟩ := ih hts hspelled hnext hlines
    obtain ⟨hfits, hmeaning, hfeeds⟩ := htspelled.writes ht
      ((layout (t.line + lineFeeds t.lexeme.toList) (ts ++ [last])).flatMap text)
    rw [List.cons_append, layout, if_neg ht, tokens_lineFeeds, Nat.add_sub_cancel' hline]
    refine ⟨allFit_lineFeeds _ ⟨hfits, by simp [Fits], hfit⟩, ?_⟩
    rw [tokens, hmeaning, hfeeds, tokens_space, htokens]
    simp

/-- **The image of the lexer.** A list of tokens is that of some text exactly if it ends with its
only end, every token is spelled as its kind asks for, the first line is at least one, and no token
starts on a line before that on which the token before it ends. -/
theorem Token.exists_lex_iff (ts : List Token) :
    (∃ source, Token.lex source = .ok ts) ↔ Token.Readable ts := by
  constructor
  · rintro ⟨source, h⟩
    obtain ⟨items, hitems⟩ := split_of_scan h
    cases h.symm.trans (scan_of_split hitems 1)
    exact readable_tokens hitems.2
  · rintro ⟨⟨before, last, rfl, hlast, hbefore⟩, hspelled, hfirst, hlines⟩
    obtain ⟨hfit, htokens⟩ := layout_reads hlast hbefore hspelled hfirst hlines
    refine ⟨String.ofList ((layout 1 (before ++ [last])).flatMap text), ?_⟩
    have hsplit : Split (String.ofList ((layout 1 (before ++ [last])).flatMap text)).toList
        (layout 1 (before ++ [last])) := ⟨String.toList_ofList.symm, hfit⟩
    exact (scan_of_split hsplit 1).trans (congrArg Except.ok htokens)

end TextPipeline
