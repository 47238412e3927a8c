import TextPipeline.Proofs.Token.Order

/-!
Line numbers. A text that does not consist of items has a place at which reading stops (`Stuck`).
The line of a token, and the line of an error, is one more than the number of line feeds before the
place it belongs to (`lex_lines_exact`).
-/

namespace TextPipeline

open Text

namespace Item

/-! ### Where reading stops -/

/-- The quote opens a literal that goes on with these characters. -/
def InLiteral (quote : Char) (body : List Char) : Prop :=
  (quote = '"' ∨ quote = '\'') ∧ ∀ c ∈ body, c ≠ quote ∧ c ≠ '\n' ∧ isPlain c

/-- A literal that is open cannot go on with this text. -/
inductive BreaksLiteral : List Char → LexicalFault → Prop
  | notPlain {c rest} : ¬ isPlain c → BreaksLiteral (c :: rest) .notPlain
  | lineFeed {rest} : BreaksLiteral ('\n' :: rest) .openLiteral
  | theEnd : BreaksLiteral [] .openLiteral

/-- A block goes on with these characters and is not closed among them. -/
def InBlock (body : List Char) : Prop := (∀ c ∈ body, isPlain c) ∧ ¬ blockQuotes <:+: body

inductive BreaksBlock : List Char → LexicalFault → Prop
  | notPlain {c rest} : ¬ isPlain c → BreaksBlock (c :: rest) .notPlain
  | theEnd : BreaksBlock [] .openBlock

/-- There is no item here, because reading stops after the characters that it opened with: at the
first character of the rest, or at the end of the text. -/
inductive Stuck : (opened rest : List Char) → LexicalFault → Prop
  | unexpected {c rest} : StartsNone c → Stuck [] (c :: rest) (.unexpected c)
  | literal {quote body rest fault} : InLiteral quote body → BreaksLiteral rest fault →
      Stuck (quote :: body) rest fault
  | block {body rest fault} : InBlock body → BreaksBlock rest fault →
      Stuck (blockQuotes ++ body) rest fault

lemma inBlock_nil : InBlock [] := ⟨by simp, by simp [blockQuotes]⟩

section Quoted

variable {line : Nat} {quote : Char} {s body rest : List Char} {fault : LexicalFault} {stop : Stop}

lemma stuck_of_nextLiteral (hquote : quote = '"' ∨ quote = '\'')
    (h : nextLiteral line quote s = .error stop) :
    ∃ opened rest, opened ++ rest = quote :: s ∧ Stuck opened rest stop.fault := by
  have hs := List.takeWhile_append_dropWhile (p := inLiteral quote) (l := s)
  have hin : InLiteral quote (s.takeWhile (inLiteral quote)) :=
    ⟨hquote, fun c hc => inLiteral_iff.mp (List.mem_takeWhile_imp hc)⟩
  have hhead := head?_dropWhile (p := inLiteral quote) (s := s)
  unfold nextLiteral at h
  generalize s.dropWhile (inLiteral quote) = tail at hs hhead h
  refine ⟨quote :: s.takeWhile (inLiteral quote), tail, congrArg (quote :: ·) hs, ?_⟩
  cases tail with
  | nil =>
    cases h
    exact .literal hin .theEnd
  | cons c tail =>
    dsimp only at h
    split at h
    · cases h
    · rename_i hc
      split at h
      · rename_i hfeed
        cases h
        exact .literal hin (hfeed ▸ .lineFeed)
      · rename_i hfeed
        cases h
        -- neither a line feed nor the closing quote, and still no content
        have hplain : ¬ isPlain c := fun hplain =>
          hhead c rfl (inLiteral_iff.mpr ⟨hc, hfeed, hplain⟩)
        exact .literal hin (.notPlain hplain)

lemma isPlain_quote (hquote : quote = '"' ∨ quote = '\'') : isPlain quote := by
  rcases hquote with rfl | rfl <;> decide

lemma head?_of_breaksLiteral (hquote : quote = '"' ∨ quote = '\'') (h : BreaksLiteral rest fault) :
    ∀ c ∈ rest.head?, c ≠ quote ∧ ¬ inLiteral quote c := by
  cases h with
  | notPlain hplain =>
    rintro c ⟨⟩
    refine ⟨?_, fun hin => hplain (inLiteral_iff.mp hin).2.2⟩
    rintro rfl
    exact hplain (isPlain_quote hquote)
  | lineFeed =>
    rintro c ⟨⟩
    exact ⟨by rcases hquote with rfl | rfl <;> decide, by simp [inLiteral]⟩
  | theEnd => simp

lemma nextLiteral_of_breaks (hin : InLiteral quote body) (h : BreaksLiteral rest fault) :
    nextLiteral line quote (body ++ rest) = .error ⟨fault, line⟩ := by
  obtain ⟨hquote, hbody⟩ := hin
  have hhead := head?_of_breaksLiteral hquote h
  obtain ⟨htake, hdrop⟩ := span_append (fun c hc => inLiteral_iff.mpr (hbody c hc))
    fun c hc => (hhead c hc).2
  simp only [nextLiteral, htake, hdrop]
  cases h with
  | @notPlain c _ hplain =>
    have hfeed : c ≠ '\n' := by
      rintro rfl
      exact hplain (by decide)
    simp only [if_neg (hhead c rfl).1, if_neg hfeed]
  | lineFeed => simp only [if_neg (hhead '\n' rfl).1, if_true]
  | theEnd => rfl

lemma lineFeeds_of_inLiteral (h : InLiteral quote body) : lineFeeds (quote :: body) = 0 := by
  obtain ⟨hquote, hbody⟩ := h
  have hne : '\n' ≠ quote := by rcases hquote with rfl | rfl <;> decide
  exact lineFeeds_eq_zero.mpr
      (List.not_mem_cons_of_ne_of_not_mem hne fun hc => (hbody _ hc).2.1 rfl)

lemma not_open_of_breaks (hin : InLiteral quote body) (h : BreaksLiteral rest fault) :
    ¬ blockQuotes <+: quote :: (body ++ rest) := by
  rintro ⟨t, ht⟩
  obtain ⟨rfl, hnext⟩ := List.cons.inj ht
  cases body with
  | nil =>
    have hhead : '"' ∈ rest.head? := by
      rw [← List.nil_append rest, ← hnext]
      rfl
    exact (head?_of_breaksLiteral hin.1 h '"' hhead).1 rfl
  | cons c body =>
    obtain ⟨hc, -⟩ := List.cons.inj hnext
    exact (hin.2 c List.mem_cons_self).1 hc.symm

lemma head?_of_breaksBlock (h : BreaksBlock rest fault) : '"' ∉ rest.head? := by
  cases h with
  | notPlain hplain =>
    rintro ⟨⟩
    exact hplain (by decide)
  | theEnd => simp

lemma breaks_of_blockBody (h : blockBody line s = .error stop) :
    ∃ body rest, body ++ rest = s ∧ InBlock body ∧ BreaksBlock rest stop.fault := by
  fun_induction blockBody line s with
  | case1 =>
    cases h
    exact ⟨[], [], rfl, inBlock_nil, .theEnd⟩
  | case2 => cases h
  | case3 => cases h
  | case4 line c s hopen hplain inner hinner ih =>
    cases h
    obtain ⟨body, rest, rfl, ⟨hall, hclosed⟩, hbreaks⟩ := ih hinner
    refine ⟨c :: body, rest, rfl, ⟨List.forall_mem_cons.mpr ⟨hplain, hall⟩, fun hinside => ?_⟩,
      hbreaks⟩
    rcases List.infix_cons_iff.mp hinside with ⟨t, ht⟩ | hinside
    · -- the block would have been closed before this character
      obtain ⟨hc, hread⟩ := List.cons.inj ht
      refine hopen (t ++ rest) hc.symm ?_
      rw [← hread]
      rfl
    · exact hclosed hinside
  | case5 line c s hopen hplain =>
    cases h
    exact ⟨[], c :: s, rfl, inBlock_nil, .notPlain hplain⟩

lemma blockBody_of_breaks (hin : InBlock body) (h : BreaksBlock rest fault) :
    blockBody line (body ++ rest) = .error ⟨fault, line + lineFeeds body⟩ := by
  induction body generalizing line with
  | nil =>
    cases h with
    | theEnd => rfl
    | @notPlain c rest hplain =>
      rw [List.nil_append, blockBody, if_neg hplain]
      · rfl
      rintro t rfl -
      exact hplain (by decide)
  | cons c body ih =>
    obtain ⟨hall, hclosed⟩ := hin
    obtain ⟨hplain, hall⟩ := List.forall_mem_cons.mp hall
    have hinside : ¬ blockQuotes <:+: body := fun hinside =>
      hclosed (List.infix_cons_iff.mpr (.inr hinside))
    have hopen (t : List Char) (hc : c = '"') (ht : body ++ rest = '"' :: '"' :: t) : False := by
      -- the second or the third quote would be the first character of the rest
      have hhead := head?_of_breaksBlock h
      rcases body with _ | ⟨second, _ | ⟨third, body⟩⟩
      · have ht : rest = '"' :: '"' :: t := ht
        exact hhead (ht ▸ rfl)
      · have ht : rest = '"' :: t := (List.cons.inj ht).2
        exact hhead (ht ▸ rfl)
      · obtain ⟨rfl, rfl, -⟩ : second = '"' ∧ third = '"' ∧ body ++ rest = t := by simpa using ht
        subst hc
        exact hclosed ⟨[], body, rfl⟩
    rw [List.cons_append, blockBody, if_pos hplain, ih ⟨hall, hinside⟩, passed_add]
    exact hopen

end Quoted

lemma stuck_of_next {line : Nat} {c : Char} {s : List Char} {stop : Stop}
    (h : next line c s = .error stop) :
    ∃ opened rest, opened ++ rest = c :: s ∧ Stuck opened rest stop.fault := by
  unfold next at h
  split at h
  · cases h
  rename_i hblank
  split at h
  · cases h
  rename_i hcomment
  split at h
  · rename_i hquote
    have hquote : c = '"' ∨ c = '\'' := by simpa using hquote
    unfold nextQuoted at h
    split at h
    · -- a block
      unfold nextBlock at h
      split at h
      · cases h
      · rename_i hbody
        cases h
        obtain ⟨body, rest, rfl, hin, hbreaks⟩ := breaks_of_blockBody hbody
        exact ⟨blockQuotes ++ body, rest, rfl, .block hin hbreaks⟩
    · exact stuck_of_nextLiteral hquote h
  rename_i hquote
  split at h
  · cases h
  rename_i hword
  split at h
  · cases h
  · -- no item starts with the character
    rename_i hmark
    cases h
    have hnone := startsNone_iff.mpr ⟨hblank, hcomment, hquote, hword, hmark⟩
    exact ⟨[], c :: s, rfl, .unexpected hnone⟩

lemma next_of_stuck (line : Nat) {c : Char} {s opened rest : List Char} {fault : LexicalFault}
    (h : Stuck opened rest fault) (htext : opened ++ rest = c :: s) :
    next line c s = .error ⟨fault, line + lineFeeds opened⟩ := by
  cases h with
  | unexpected hnone =>
    cases htext
    exact next_of_startsNone line hnone s
  | literal hin hbreaks =>
    cases htext
    rw [lineFeeds_of_inLiteral hin, Nat.add_zero, next_quote hin.1,
      ← nextLiteral_of_breaks hin hbreaks]
    exact nextQuoted_of_not_open (not_open_of_breaks hin hbreaks)
  | @block body _ _ hin hbreaks =>
    have htext : '"' :: '"' :: '"' :: (body ++ rest) = c :: s := htext
    cases htext
    change nextBlock _ _ = _
    unfold nextBlock
    rw [blockBody_of_breaks hin hbreaks, lineFeeds_append]
    simp [blockQuotes, lineFeeds]

/-! ### Items up to there -/

/-- The items fit, each in front of the text of those after it and of the rest. -/
def AllFitBefore (rest : List Char) : List Item → Prop
  | [] => True
  | item :: items => item.Fits (items.flatMap text ++ rest) ∧ AllFitBefore rest items

/-- The token of an item that starts on this line. -/
def tokenOn? (line : Nat) (item : Item) : Option Token :=
  item.meaning?.map fun (kind, lexeme) => ⟨kind, String.ofList lexeme, line⟩

lemma tokens_eq_filterMap (line : Nat) (items : List Item) : tokens line items =
    items.zipIdx.filterMap (fun x =>
      x.1.tokenOn? (line + lineFeeds ((items.take x.2).flatMap text))) ++
    [⟨.theEnd, "", line + lineFeeds (items.flatMap text)⟩] := by
  induction items generalizing line with
  | nil => rfl
  | cons item items ih =>
    have hfeeds (later : List Item) : line + lineFeeds ((item :: later).flatMap text) =
        line + lineFeeds item.text + lineFeeds (later.flatMap text) := by
      rw [List.flatMap_cons, lineFeeds_append, Nat.add_assoc]
    have htail : (items.zipIdx 1).filterMap (fun x =>
          x.1.tokenOn? (line + lineFeeds (((item :: items).take x.2).flatMap text))) =
        items.zipIdx.filterMap (fun x => x.1.tokenOn?
          (line + lineFeeds item.text + lineFeeds ((items.take x.2).flatMap text))) := by
      rw [List.zipIdx_succ, List.filterMap_map]
      refine List.filterMap_congr fun x _ => ?_
      simp only [Function.comp_apply, List.take_succ_cons, hfeeds]
    rw [tokens, ih, hfeeds, List.zipIdx_cons, List.filterMap_cons, htail]
    cases hm : item.meaning? with
    | none => simp [tokenOn?, hm]
    | some meaning => simp [tokenOn?, hm, lineFeeds]

end Item

namespace Token

open Item

/-! ### Lines of errors -/

lemma scan_of_stuck {line : Nat} {s : List Char} {items : List Item} {opened rest : List Char}
    {fault : LexicalFault} (htext : items.flatMap text ++ opened ++ rest = s)
    (hfit : AllFitBefore (opened ++ rest) items) (hstuck : Stuck opened rest fault) :
    scan line s = .error (.lexical (line + lineFeeds (items.flatMap text ++ opened)) fault) := by
  induction items generalizing line s with
  | nil =>
    rw [List.flatMap_nil, List.nil_append] at htext
    rw [List.flatMap_nil, List.nil_append]
    cases s with
    -- something stopped reading, so the text is not at its end
    | nil =>
      obtain ⟨rfl, rfl⟩ := List.append_eq_nil_iff.mp htext
      cases hstuck
    | cons c s =>
      have hnext := next_of_stuck line hstuck htext
      rw [scan]
      split
      · rename_i hstop
        cases hnext.symm.trans hstop
        rfl
      · rename_i hok
        cases hnext.symm.trans hok
  | cons item items ih =>
    obtain ⟨hfits, hfit⟩ := hfit
    have htext : item.text ++ (items.flatMap text ++ opened ++ rest) = s := by
      simpa using htext
    cases s with
    | nil => exact absurd (List.append_eq_nil_iff.mp htext).1 (text_ne_nil hfits)
    | cons c s =>
      rw [← List.append_assoc] at hfits
      rw [scan_of_next (next_of_fits _ hfits htext), ih rfl hfit]
      simp [lineFeeds, Except.map, Nat.add_assoc]

lemma stuck_of_scan {line : Nat} {s : List Char} {e : Error} (h : scan line s = .error e) :
    ∃ items opened rest fault, items.flatMap text ++ opened ++ rest = s ∧
      AllFitBefore (opened ++ rest) items ∧ Stuck opened rest fault ∧
      e = .lexical (line + lineFeeds (items.flatMap text ++ opened)) fault := by
  -- one more item before those that were read
  have hmore {line after : Nat} {c : Char} {s rest : List Char} {item : Item}
      (hnext : next line c s = .ok (item, after, rest)) (ih : ∃ items opened rest' fault,
        items.flatMap text ++ opened ++ rest' = rest ∧ AllFitBefore (opened ++ rest') items ∧
        Stuck opened rest' fault ∧
        e = .lexical (after + lineFeeds (items.flatMap text ++ opened)) fault) :
      ∃ items opened rest' fault, items.flatMap text ++ opened ++ rest' = c :: s ∧
        AllFitBefore (opened ++ rest') items ∧ Stuck opened rest' fault ∧
        e = .lexical (line + lineFeeds (items.flatMap text ++ opened)) fault := by
    obtain ⟨items, opened, rest', fault, rfl, hfit, hstuck, rfl⟩ := ih
    obtain ⟨htext, hfits, rfl⟩ := next_ok_iff.mp hnext
    rw [List.append_assoc] at hfits
    refine ⟨item :: items, opened, rest', fault, ?_, ⟨hfits, hfit⟩, hstuck, ?_⟩
    · simpa using htext
    · simp [lineFeeds, Nat.add_assoc]
  fun_induction scan line s with
  | case1 => cases h
  | case2 line c s stop hnext =>
    cases h
    obtain ⟨opened, rest, htext, hstuck⟩ := stuck_of_next hnext
    refine ⟨[], opened, rest, stop.fault, htext, trivial, hstuck, ?_⟩
    have hline := next_of_stuck line hstuck htext
    exact congrArg (Error.lexical · stop.fault)
      (congrArg Stop.line (Except.error.inj (hnext.symm.trans hline)))
  | case3 line c s item after rest hnext _ ih => exact hmore hnext (ih h)
  | case4 => cases h
  | case5 line c s item after rest hnext t _ e' hscan ih =>
    cases h
    exact hmore hnext (ih hscan)

/-- **Line numbers are exact.** A text has tokens if it consists of items; the token of an item is
on the line that is one more than the number of line feeds before the item, and the end is on the
line that is one more than the number of all line feeds. So lines never decrease. A text has no
tokens if after some items there is a place where no item can be read; the error is on the line that
is one more than the number of line feeds before the character that stops the reading, or before the
end of the text. -/
theorem lex_lines_exact (source : String) :
    (∀ ts, lex source = .ok ts ↔ ∃ items, Split source.toList items ∧
      ts = items.zipIdx.filterMap (fun (item, i) =>
          item.tokenOn? (1 + lineFeeds ((items.take i).flatMap text))) ++
        [⟨.theEnd, "", 1 + lineFeeds source.toList⟩]) ∧
    (∀ ts, lex source = .ok ts → ts.Pairwise (·.line ≤ ·.line)) ∧
    ∀ e, lex source = .error e ↔ ∃ items opened rest fault,
      items.flatMap text ++ opened ++ rest = source.toList ∧
      AllFitBefore (opened ++ rest) items ∧ Stuck opened rest fault ∧
      e = .lexical (1 + lineFeeds (items.flatMap text ++ opened)) fault := by
  have hlines {items : List Item} (hitems : Split source.toList items) :
      lex source = .ok (items.zipIdx.filterMap (fun (item, i) =>
          item.tokenOn? (1 + lineFeeds ((items.take i).flatMap text))) ++
        [⟨.theEnd, "", 1 + lineFeeds source.toList⟩]) := by
    rw [← hitems.1]
    exact (scan_of_split hitems 1).trans (congrArg Except.ok (tokens_eq_filterMap 1 items))
  refine ⟨fun ts => ⟨fun h => ?_, ?_⟩, fun ts h => (ordered_of_lex h).imp Before.line_le,
    fun e => ⟨stuck_of_scan, ?_⟩⟩
  · obtain ⟨items, hitems⟩ := split_of_scan h
    exact ⟨items, hitems, Except.ok.inj (h.symm.trans (hlines hitems))⟩
  · rintro ⟨items, hitems, rfl⟩
    exact hlines hitems
  · rintro ⟨items, opened, rest, fault, htext, hfit, hstuck, rfl⟩
    exact scan_of_stuck htext hfit hstuck

/-- A comment, and a block of two lines with a step after it. -/
def blockSource : String := "# one\n\"\"\"two\nthree\"\"\" | upper\n"

/-- Tokens on lines that the block and the comment set off, and the error of a block that is open
after a line feed. -/
theorem blockSource_lines :
    (∃ ts, lex blockSource = .ok ts ∧ ts.map (·.line) = [2, 3, 3, 4] ∧
      ts.Pairwise (·.line ≤ ·.line)) ∧
    lex "'a'\n\"\"\"b\nc" = .error (.lexical 3 .openBlock) := by
  have hlex : lex blockSource = .ok [⟨.literal, "two\nthree", 2⟩, ⟨.pipe, "|", 3⟩,
      ⟨.ident, "upper", 3⟩, ⟨.theEnd, "", 4⟩] := by decide +kernel
  refine ⟨⟨_, hlex, rfl, (lex_lines_exact blockSource).2.1 _ hlex⟩, ?_⟩
  refine ((lex_lines_exact _).2.2 _).mpr ⟨[.literal '\'' ['a'], .blank '\n'],
    blockQuotes ++ ['b', '\n', 'c'], [], .openBlock, by decide +kernel, ?_, ?_, by decide⟩
  · have hbody : ∀ c ∈ ['a'], c ≠ '\'' ∧ c ≠ '\n' ∧ isPlain c :=
      List.forall_mem_singleton.mpr (by decide)
    exact ⟨⟨.inr rfl, hbody, by decide⟩, by simp [Fits], trivial⟩
  · have hbody : ∀ c ∈ ['b', '\n', 'c'], isPlain c := by
      simp only [List.mem_cons, List.not_mem_nil, or_false, forall_eq_or_imp, forall_eq]
      decide
    exact .block ⟨hbody, by decide⟩ .theEnd

end Token

end TextPipeline
