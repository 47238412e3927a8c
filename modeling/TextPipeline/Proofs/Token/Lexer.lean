import Mathlib.Data.List.TakeWhile
import TextPipeline.Proofs.Token.Bytes

/-!
The lexer accepts the texts that consist of items and nothing else, and a text consists of items
in one way only (`lex_ok_iff_split`). All of it rests on reading one item: the item read is the
one that fits (`next_ok_iff`).
-/

namespace TextPipeline

open Text (lineFeeds)

namespace Item

section Span

variable {p : Char → Bool} {body rest : List Char}

lemma span_append (hbody : ∀ c ∈ body, p c) (hrest : ∀ c ∈ rest.head?, ¬ p c) :
    (body ++ rest).takeWhile p = body ∧ (body ++ rest).dropWhile p = rest := by
  rw [List.takeWhile_append_of_pos hbody, List.dropWhile_append_of_pos hbody]
  cases rest with
  | nil => simp
  | cons c rest => simp [hrest c rfl]

lemma head?_dropWhile {s : List Char} : ∀ c ∈ (s.dropWhile p).head?, ¬ p c := by
  intro c hc hp
  have h := List.head?_dropWhile_not p s
  rw [hc] at h
  simp [hp] at h

end Span

/-! ### Line feeds -/

lemma passed_add (c : Char) (line : Nat) (s : List Char) :
    passed c line + lineFeeds s = line + lineFeeds (c :: s) := by
  by_cases h : c = '\n' <;> simp [passed, lineFeeds, h]
  omega

lemma lineFeeds_text {item : Item} {rest : List Char} : item.Fits rest →
    lineFeeds item.text = match item with
      | blank c => lineFeeds [c]
      | block body => lineFeeds body
      | _ => 0 := by
  intro h
  cases item with
  | blank _ => rfl
  | comment body => simpa [text, Text.lineFeeds_eq_zero] using fun hc => h.1 _ hc rfl
  | mark kind c =>
    simp only [Fits, markKinds, List.mem_cons, Prod.mk.injEq, List.not_mem_nil, or_false] at h
    rcases h with ⟨rfl, -⟩ | ⟨rfl, -⟩ | ⟨rfl, -⟩ | ⟨rfl, -⟩ | ⟨rfl, -⟩ | ⟨rfl, -⟩ | ⟨rfl, -⟩ <;> rfl
  | word chars =>
    exact Text.lineFeeds_eq_zero.mpr fun hc => absurd (h.2.1 _ hc) (by decide)
  | literal quote body =>
    obtain ⟨hquote, hbody, -⟩ := h
    have hne : '\n' ≠ quote := by rcases hquote with rfl | rfl <;> decide
    simpa [text, Text.lineFeeds_eq_zero, hne] using fun hc => (hbody _ hc).2.1 rfl
  | block body => simp [text, lineFeeds]

/-! ### Literals -/

section Quoted

variable {line after : Nat} {quote : Char} {s body rest : List Char} {item : Item}

lemma fits_of_nextLiteral (hquote : quote = '"' ∨ quote = '\'')
    (hopen : ¬ blockQuotes <+: quote :: s)
    (h : nextLiteral line quote s = .ok (item, after, rest)) : item.Fits rest := by
  have htext := text_append_of_nextLiteral h
  simp only [nextLiteral] at h
  split at h
  · cases h
  · split at h
    · cases h
      refine ⟨hquote, fun c hc => inLiteral_iff.mp (List.mem_takeWhile_imp hc), ?_⟩
      rw [← htext] at hopen
      simpa [text] using hopen
    · split at h <;> cases h

lemma nextLiteral_of_fits (h : (literal quote body).Fits rest) :
    nextLiteral line quote (body ++ quote :: rest) = .ok (literal quote body, line, rest) := by
  obtain ⟨-, hbody, -⟩ := h
  have hend : ∀ c ∈ (quote :: rest).head?, ¬ inLiteral quote c := by
    rintro c ⟨⟩
    simp [inLiteral]
  obtain ⟨htake, hdrop⟩ := span_append (fun c hc => inLiteral_iff.mpr (hbody c hc)) hend
  simp only [nextLiteral, htake, hdrop, if_pos]

/-! ### Blocks -/

lemma fits_of_blockBody (h : blockBody line s = .ok (body, after, rest)) :
    (block body).Fits rest := by
  fun_induction blockBody line s generalizing body rest with
  | case1 => cases h
  | case2 tail =>
    cases h
    exact ⟨by simp, fun k _ => Nat.zero_le k⟩
  | case3 line c s hopen hplain b _ r hb ih =>
    cases h
    obtain ⟨hbody, hfirst⟩ := ih hb
    refine ⟨by simpa [hplain] using hbody, ?_⟩
    rintro (_ | k) ⟨t, ht⟩
    · -- the block would have ended before this character
      obtain ⟨hc, hs⟩ := List.cons.inj ht
      have hs : s = '"' :: '"' :: (t ++ r) := by
        rw [← append_of_blockBody hb, ← List.cons_append, ← List.cons_append]
        exact congrArg (· ++ r) hs.symm
      exact (hopen (t ++ r) hc.symm hs).elim
    · exact Nat.succ_le_succ (hfirst k ⟨t, ht⟩)
  | case4 => cases h
  | case5 => cases h

lemma blockBody_of_fits (h : (block body).Fits rest) :
    blockBody line (body ++ blockQuotes ++ rest) = .ok (body, line + lineFeeds body, rest) := by
  induction body generalizing line with
  | nil => rfl
  | cons c body ih =>
    obtain ⟨hbody, hfirst⟩ := h
    have hopen (t : List Char) (hc : c = '"') (ht : body ++ blockQuotes ++ rest = '"' :: '"' :: t) :
        False := by
      have hp : blockQuotes <+: c :: body ++ blockQuotes ++ rest :=
        ⟨t, by rw [hc, List.cons_append, List.cons_append, ht]; rfl⟩
      have hfront := List.prefix_of_prefix_length_le hp (List.prefix_append _ rest)
        (by simp [blockQuotes])
      exact Nat.not_succ_le_zero _ (hfirst 0 hfront)
    have hrest : (block body).Fits rest :=
      ⟨fun c hc => hbody c (List.mem_cons_of_mem _ hc),
        fun k hk => Nat.le_of_succ_le_succ (hfirst (k + 1) hk)⟩
    rw [List.cons_append, List.cons_append, blockBody, if_pos (hbody c List.mem_cons_self),
      ih hrest, passed_add]
    exact hopen

lemma nextQuoted_of_not_open (h : ¬ blockQuotes <+: quote :: s) :
    nextQuoted line quote s = nextLiteral line quote s := by
  unfold nextQuoted
  split
  · exact absurd ⟨_, rfl⟩ h
  · rfl

lemma fits_of_nextQuoted (hquote : quote = '"' ∨ quote = '\'')
    (h : nextQuoted line quote s = .ok (item, after, rest)) : item.Fits rest := by
  by_cases hopen : blockQuotes <+: quote :: s
  · -- a block
    obtain ⟨t, ht⟩ := hopen
    obtain ⟨rfl, rfl⟩ := List.cons.inj ht
    change nextBlock line t = _ at h
    unfold nextBlock at h
    split at h
    · rename_i hbody
      cases h
      exact fits_of_blockBody hbody
    · cases h
  · -- a literal on one line
    rw [nextQuoted_of_not_open hopen] at h
    exact fits_of_nextLiteral hquote hopen h

lemma next_quote (hquote : quote = '"' ∨ quote = '\'') :
    next line quote s = nextQuoted line quote s := by
  rcases hquote with rfl | rfl <;> rfl

end Quoted

/-! ### One item -/

section Next

variable {line after : Nat} {c : Char} {s rest : List Char} {item : Item}

lemma fits_of_next (h : next line c s = .ok (item, after, rest)) : item.Fits rest := by
  unfold next at h
  split at h
  · rename_i hblank
    cases h
    exact isBlank_iff.mp hblank
  split at h
  · -- a comment goes as far as the line does
    cases h
    refine ⟨fun c hc => ?_, fun c hc => ?_⟩
    · simpa using List.mem_takeWhile_imp hc
    · simpa using head?_dropWhile c hc
  split at h
  · rename_i hquote
    exact fits_of_nextQuoted (by simpa using hquote) h
  split at h
  · -- a word goes as far as it can
    rename_i hstarts
    cases h
    refine ⟨⟨c, _, rfl, startsWord_iff.mp hstarts⟩, ?_, fun c hc => ?_⟩
    · rintro d (_ | ⟨_, hd⟩)
      · exact .inl (startsWord_iff.mp hstarts)
      · exact continuesWord_iff.mp (List.mem_takeWhile_imp hd)
    · exact fun hword => head?_dropWhile c hc (continuesWord_iff.mpr hword)
  split at h
  · rename_i hmark
    cases h
    exact ofMark?_iff.mp hmark
  · cases h

lemma next_letter (h : IsLetter c) (s : List Char) : next line c s =
    .ok (word (c :: s.takeWhile continuesWord), line, s.dropWhile continuesWord) := by
  have hne {d : Char} (hd : ¬ IsLetter d) : c ≠ d := fun hc => hd (hc ▸ h)
  have hblank : ¬ isBlank c := by
    rw [isBlank_iff]
    simp [hne (d := ' ') (by decide), hne (d := '\t') (by decide), hne (d := '\r') (by decide),
      hne (d := '\n') (by decide)]
  have hquote : ¬ (c = '"' || c = '\'') := by
    simp [hne (d := '"') (by decide), hne (d := '\'') (by decide)]
  unfold next
  rw [if_neg hblank, if_neg (hne (by decide)), if_neg hquote, if_pos (startsWord_iff.mpr h)]

lemma next_of_fits (line : Nat) (h : item.Fits rest) (htext : item.text ++ rest = c :: s) :
    next line c s = .ok (item, line + lineFeeds item.text, rest) := by
  have hfeeds := lineFeeds_text h
  cases item with
  | blank d =>
    cases htext
    rw [next, if_pos (isBlank_iff.mpr h), text, ← passed_add]
    rfl
  | comment body =>
    obtain ⟨rfl, rfl⟩ : '#' = c ∧ body ++ rest = s := List.cons.inj htext
    obtain ⟨hbody, hrest⟩ := h
    have hspan : (body ++ rest).takeWhile (· ≠ '\n') = body ∧
        (body ++ rest).dropWhile (· ≠ '\n') = rest :=
      span_append (by simpa using hbody) (by simpa using hrest)
    change Except.ok _ = Except.ok _
    rw [hspan.1, hspan.2, hfeeds, Nat.add_zero]
  | mark kind d =>
    cases htext
    simp only [Fits, markKinds, List.mem_cons, Prod.mk.injEq, List.not_mem_nil, or_false] at h
    rcases h with ⟨rfl, rfl⟩ | ⟨rfl, rfl⟩ | ⟨rfl, rfl⟩ | ⟨rfl, rfl⟩ | ⟨rfl, rfl⟩ | ⟨rfl, rfl⟩ |
      ⟨rfl, rfl⟩ <;> rfl
  | word chars =>
    obtain ⟨⟨first, more, rfl, hfirst⟩, hchars, hrest⟩ := h
    obtain ⟨rfl, rfl⟩ : first = c ∧ more ++ rest = s := List.cons.inj htext
    have hspan : (more ++ rest).takeWhile continuesWord = more ∧
        (more ++ rest).dropWhile continuesWord = rest := span_append
      (fun c hc => continuesWord_iff.mpr (hchars c (List.mem_cons_of_mem _ hc)))
      (fun c hc hword => hrest c hc (continuesWord_iff.mp hword))
    rw [next_letter hfirst, hspan.1, hspan.2, hfeeds, Nat.add_zero]
  | literal quote body =>
    obtain ⟨rfl, rfl⟩ : quote = c ∧ body ++ [quote] ++ rest = s := List.cons.inj htext
    have hquote := h.1
    have hopen := h.2.2
    rw [List.append_assoc, List.singleton_append, next_quote hquote, hfeeds, Nat.add_zero]
    exact (nextQuoted_of_not_open hopen).trans (nextLiteral_of_fits h)
  | block body =>
    have htext : '"' :: '"' :: '"' :: (body ++ blockQuotes ++ rest) = c :: s := by
      simpa [text, blockQuotes] using htext
    cases htext
    change nextBlock _ _ = _
    unfold nextBlock
    rw [blockBody_of_fits h, hfeeds]

/-- The item read is the one that fits, and the line goes up by its line feeds. -/
lemma next_ok_iff : next line c s = .ok (item, after, rest) ↔
    item.text ++ rest = c :: s ∧ item.Fits rest ∧ after = line + lineFeeds item.text := by
  constructor
  · intro h
    have hread := next_of_fits line (fits_of_next h) (text_append_of_next h)
    cases h.symm.trans hread
    exact ⟨text_append_of_next h, fits_of_next h, rfl⟩
  · rintro ⟨htext, hfits, rfl⟩
    exact next_of_fits line hfits htext

end Next

/-! ### All items -/

lemma token?_eq (line : Nat) (item : Item) : item.token? line =
    item.meaning?.map fun (kind, lexeme) => ⟨kind, String.ofList lexeme, line⟩ := by
  cases item with
  | word chars =>
    have hdef : String.ofList chars = "def" ↔ chars = ['d', 'e', 'f'] :=
      ⟨fun h => by simpa using congrArg String.toList h, fun h => h ▸ rfl⟩
    simp only [token?, meaning?, hdef, Option.map_some]
  | _ => rfl

lemma split_cons_iff (line : Nat) {c : Char} {s : List Char} {item : Item} {items : List Item} :
    Split (c :: s) (item :: items) ↔ ∃ rest,
      next line c s = .ok (item, line + lineFeeds item.text, rest) ∧ Split rest items := by
  constructor
  · rintro ⟨htext, hfits, hall⟩
    exact ⟨_, next_of_fits line hfits htext, rfl, hall⟩
  · rintro ⟨rest, hnext, rfl, hall⟩
    obtain ⟨htext, hfits, -⟩ := next_ok_iff.mp hnext
    exact ⟨htext, hfits, hall⟩

lemma split_nil_iff {items : List Item} : Split [] items ↔ items = [] := by
  cases items with
  | nil => exact ⟨fun _ => rfl, fun _ => ⟨rfl, trivial⟩⟩
  | cons item items =>
    refine ⟨fun ⟨htext, hfits, _⟩ => ?_, nofun⟩
    exact absurd (List.append_eq_nil_iff.mp htext).1 (text_ne_nil hfits)

lemma Split.unique {s : List Char} {items others : List Item} (h : Split s items)
    (h' : Split s others) : items = others := by
  induction items generalizing s others with
  | nil =>
    obtain ⟨rfl, -⟩ := h
    exact (split_nil_iff.mp h').symm
  | cons item items ih =>
    cases s with
    | nil => exact absurd (split_nil_iff.mp h) (List.cons_ne_nil _ _)
    | cons c s =>
      obtain ⟨rest, hnext, hrest⟩ := (split_cons_iff 1).mp h
      cases others with
      | nil => cases h'.1
      | cons other others =>
        obtain ⟨rest', hnext', hrest'⟩ := (split_cons_iff 1).mp h'
        cases hnext.symm.trans hnext'
        rw [ih hrest hrest']

end Item

namespace Token

open Item Text

lemma scan_of_next {line after : Nat} {c : Char} {s rest : List Char} {item : Item}
    (h : next line c s = .ok (item, after, rest)) :
    scan line (c :: s) = (scan after rest).map ((item.token? line).toList ++ ·) := by
  rw [scan]
  split
  · rename_i hnext
    cases h.symm.trans hnext
  · rename_i hnext
    cases h.symm.trans hnext
    cases item.token? line <;> cases scan after rest <;> rfl

lemma scan_of_split {s : List Char} {items : List Item} (h : Split s items) (line : Nat) :
    scan line s = .ok (tokens line items) := by
  induction items generalizing s line with
  | nil =>
    obtain ⟨rfl, -⟩ := h
    rw [List.flatMap_nil, scan]
    rfl
  | cons item items ih =>
    cases s with
    | nil => exact absurd (split_nil_iff.mp h) (List.cons_ne_nil _ _)
    | cons c s =>
      obtain ⟨rest, hnext, hrest⟩ := (split_cons_iff line).mp h
      rw [scan_of_next hnext, ih hrest, token?_eq]
      rfl

lemma split_of_scan {s : List Char} {line : Nat} {ts : List Token} (h : scan line s = .ok ts) :
    ∃ items, Split s items := by
  fun_induction scan line s generalizing ts with
  | case1 => exact ⟨[], split_nil_iff.mpr rfl⟩
  | case2 => cases h
  | case3 line c s item after rest hnext htoken ih =>
    obtain ⟨items, hitems⟩ := ih h
    obtain ⟨-, -, rfl⟩ := next_ok_iff.mp hnext
    exact ⟨item :: items, (split_cons_iff line).mpr ⟨rest, hnext, hitems⟩⟩
  | case4 line c s item after rest hnext t htoken ts' hscan ih =>
    obtain ⟨items, hitems⟩ := ih hscan
    obtain ⟨-, -, rfl⟩ := next_ok_iff.mp hnext
    exact ⟨item :: items, (split_cons_iff line).mpr ⟨rest, hnext, hitems⟩⟩
  | case5 => cases h

/-- The lexer returns the tokens of the items of which a text consists, and nothing for a text that
does not consist of items; no text consists of items in two ways. It comes to the same when it walks
the bytes of the text, where it always stands between characters when it reads one. -/
theorem lex_ok_iff_split (source : String) :
    (∀ ts, lex source = .ok ts ↔ ∃ items, Split source.toList items ∧ ts = tokens 1 items) ∧
      (∀ items others, Split source.toList items → Split source.toList others →
        items = others) ∧
      lexBytes (Wasm.utf8 source) = (lex source).mapError .failed := by
  refine ⟨fun ts => ⟨fun h => ?_, ?_⟩, fun _ _ => Split.unique, lexBytes_utf8 source⟩
  · obtain ⟨items, hitems⟩ := split_of_scan h
    refine ⟨items, hitems, ?_⟩
    cases (scan_of_split hitems 1).symm.trans h
    rfl
  · rintro ⟨items, hitems, rfl⟩
    exact scan_of_split hitems 1

end Token

end TextPipeline
