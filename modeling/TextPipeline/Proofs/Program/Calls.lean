import TextPipeline.Proofs.Program.Literals
import TextPipeline.Proofs.Token.Stretches

/-!
Calls and their layout. The lines of tokens never decrease, so an argument starts on the line of its
call and not before it. A name takes all arguments that it can: one among the arguments of another
name takes those after it, and a line break ends the arguments of both.
-/

namespace TextPipeline

open Text Grammar Item

/-! ### Arguments as tokens -/

namespace Grammar

section Arguments

variable {depth line : Nat} {ts rest : List Token} {t : Term} {args : List Term}

lemma mem_of_passes {u : Token} (h : Passes ts rest) (hu : u ∈ rest) : u ∈ ts := by
  obtain ⟨passed, -, rfl⟩ := h
  exact List.mem_append_right passed hu

lemma TermAt.line_of_startsArgument (h : TermAt depth ts t rest) (hts : ∀ u ∈ ts, line ≤ u.line)
    (hstarts : StartsArgument line ts) : t.line = line := by
  obtain ⟨first, tail, rfl, hline, -⟩ := h.head
  exact hline.trans (Nat.le_antisymm hstarts.1 (hts first List.mem_cons_self))

lemma TermAt.isEnclosed (h : TermAt depth ts t rest) (hstarts : StartsArgument t.line rest) :
    t.IsEnclosed := by
  cases h with
  | literal | group => trivial
  | identifier _ _ hmax => exact absurd hstarts hmax
  | call _ _ _ hmax => exact absurd hstarts hmax

lemma ArgumentsAt.eq_of_nil (h : ArgumentsAt depth line ts [] rest) : ts = rest := by
  cases h
  rfl

lemma ArgumentsAt.of_cons (h : ArgumentsAt depth line ts (t :: args) rest) :
    ∃ mid, StartsArgument line ts ∧ TermAt depth ts t mid ∧
      ArgumentsAt depth line mid args rest := by
  cases h with
  | cons hstarts harg hargs => exact ⟨_, hstarts, harg, hargs⟩

lemma ArgumentsAt.shape (h : ArgumentsAt depth line ts args rest) (hts : ∀ u ∈ ts, line ≤ u.line) :
    (∀ arg ∈ args, arg.line = line) ∧ ∀ arg ∈ args.dropLast, arg.IsEnclosed := by
  induction args generalizing ts with
  | nil => exact ⟨fun _ harg => (nomatch harg), fun _ harg => (nomatch harg)⟩
  | cons arg args ih =>
    obtain ⟨mid, hstarts, harg, hargs⟩ := h.of_cons
    have hline := harg.line_of_startsArgument hts hstarts
    obtain ⟨hlines, henclosed⟩ := ih hargs fun u hu => hts u (mem_of_passes harg.passes hu)
    refine ⟨List.forall_mem_cons.mpr ⟨hline, hlines⟩, ?_⟩
    cases args with
    | nil => exact fun _ harg => nomatch harg
    | cons next args =>
      obtain ⟨_, hnext, -⟩ := hargs.of_cons
      rw [← hline] at hnext
      exact List.forall_mem_cons.mpr ⟨harg.isEnclosed hnext, henclosed⟩

end Arguments

end Grammar

/-! ### Arguments as text -/

/-- The term stands on the items `within`, between those before and those after. -/
def Spans (depth : Nat) (before within after : List Item) (t : Term) : Prop :=
  Framed within ∧ TermAt depth (tokens (lineAfter before) (within ++ after)) t
    (tokens (lineAfter (before ++ within)) after)

/-- Arguments one after the other, each with the items that it stands on. Between them are items
without tokens. -/
inductive LaidOut (depth : Nat) :
    (before inner after : List Item) → List (Term × List Item) → Prop
  | nil {before after} : LaidOut depth before [] after []
  | cons {before gap within inner after arg more} : (∀ i ∈ gap, i.meaning? = none) →
      Spans depth (before ++ gap) within (inner ++ after) arg →
      LaidOut depth (before ++ gap ++ within) inner after more →
      LaidOut depth before (gap ++ (within ++ inner)) after ((arg, within) :: more)

lemma exists_spans {depth : Nat} {before items : List Item} {t : Term} {rest : List Token}
    (h : TermAt depth (tokens (lineAfter before) items) t rest) :
    ∃ gap within after, items = gap ++ (within ++ after) ∧ (∀ i ∈ gap, i.meaning? = none) ∧
      Spans depth (before ++ gap) within after t ∧
      tokens (lineAfter (before ++ gap ++ within)) after = rest := by
  obtain ⟨passed, hkinds, hpassed⟩ := h.passes
  have hne : passed ≠ [] := by
    rintro rfl
    exact absurd h.length_lt (by rw [hpassed, List.nil_append]; exact Nat.lt_irrefl _)
  obtain ⟨gap, within, after, hitems, hgap, hframed, htokens, hafter⟩ :=
    exists_stretch hpassed hne hkinds
  refine ⟨gap, within, after, hitems, hgap, ⟨hframed, ?_⟩, hafter⟩
  rw [htokens, hafter, ← hpassed]
  exact h

lemma exists_inner {line line' : Nat} {gap within inner later after : List Item}
    (hitems : inner ++ after = gap ++ (within ++ later)) (hframed : Framed within)
    (hlength : (tokens line after).length ≤ (tokens line' later).length) :
    ∃ rest, inner = gap ++ (within ++ rest) ∧ later = rest ++ after := by
  rw [← List.append_assoc] at hitems
  rcases List.append_eq_append_iff.mp hitems with ⟨extra, hextra, rfl⟩ | ⟨rest, rfl, rfl⟩
  · obtain ⟨-, last, hlast, htoken⟩ := hframed
    rcases List.eq_nil_or_concat' extra with rfl | ⟨init, item, rfl⟩
    · rw [List.append_nil] at hextra
      exact ⟨[], by rw [← hextra, List.append_nil], by simp⟩
    · -- the stretch would end with a token of the last items
      have hitem : item = last := by
        have hend := congrArg List.getLast? hextra
        rw [List.getLast?_append, hlast] at hend
        simpa using hend.symm
      have hextra : ∃ i ∈ init ++ [item], i.meaning?.isSome := ⟨item, by simp, hitem ▸ htoken⟩
      exact absurd hlength (Nat.not_le.mpr (length_tokens_lt line line' hextra))
  · exact ⟨rest, List.append_assoc _ _ _, rfl⟩

lemma not_mem_of_startsArgument {line : Nat} {before within after : List Item}
    (hline : line ≤ lineAfter before)
    (h : StartsArgument line (tokens (lineAfter (before ++ within)) after)) :
    '\n' ∉ within.flatMap text := by
  have hlines := (tokens_ordered (lineAfter (before ++ within)) after).2
  rw [lineAfter_append] at h hlines
  cases htokens : tokens (lineAfter before + lineFeeds (within.flatMap text)) after with
  | nil =>
    rw [htokens] at h
    cases h
  | cons t ts =>
    rw [htokens] at h hlines
    have hafter := hlines t List.mem_cons_self
    have hbefore := h.1
    exact List.count_eq_zero.mp (show lineFeeds (within.flatMap text) = 0 by omega)

lemma exists_laidOut {depth line : Nat} {before inner after : List Item} {args : List Term}
    (h : ArgumentsAt depth line (tokens (lineAfter before) (inner ++ after)) args
      (tokens (lineAfter (before ++ inner)) after))
    (hline : line ≤ lineAfter before) (hinner : ∀ last ∈ inner.getLast?, last.meaning?.isSome) :
    ∃ pieces, pieces.map Prod.fst = args ∧ LaidOut depth before inner after pieces ∧
      ∀ piece ∈ pieces.dropLast, '\n' ∉ piece.2.flatMap text := by
  induction args generalizing before inner with
  | nil =>
    rcases List.eq_nil_or_concat' inner with rfl | ⟨init, last, rfl⟩
    · -- no items are left
      exact ⟨[], rfl, .nil, fun _ hpiece => (nomatch hpiece)⟩
    · -- items with a token are passed by their tokens
      have hlast : ∃ i ∈ init ++ [last], i.meaning?.isSome :=
        ⟨last, by simp, hinner last (by simp)⟩
      have hlength := congrArg List.length h.eq_of_nil
      exact absurd hlength (Nat.ne_of_gt (length_tokens_lt _ _ hlast))
  | cons arg args ih =>
    -- each argument takes a stretch of the items, and the next one starts on the line of the name
    obtain ⟨mid, hstarts, harg, hargs⟩ := h.of_cons
    obtain ⟨gap, within, later, hitems, hgap, hspans, rfl⟩ := exists_spans harg
    obtain ⟨inner, rfl, rfl⟩ := exists_inner hitems hspans.1 (argumentsAt_passes hargs).length_le
    have hassoc : before ++ (gap ++ (within ++ inner)) = before ++ gap ++ within ++ inner := by
      simp only [List.append_assoc]
    rw [hassoc] at hargs
    have hgapLine : line ≤ lineAfter (before ++ gap) := by
      rw [lineAfter_append]
      omega
    have hwithinLine : line ≤ lineAfter (before ++ gap ++ within) := by
      rw [lineAfter_append]
      omega
    have hlast (last : Item) (hlast : last ∈ inner.getLast?) : last.meaning?.isSome :=
      hinner last (by simp [List.getLast?_append, Option.mem_def.mp hlast])
    obtain ⟨pieces, rfl, hlaid, hfeeds⟩ := ih hargs hwithinLine hlast
    refine ⟨(arg, within) :: pieces, rfl, .cons hgap hspans hlaid, ?_⟩
    cases pieces with
    | nil => exact fun _ hpiece => nomatch hpiece
    | cons next pieces =>
      obtain ⟨_, hnext, -⟩ := hargs.of_cons
      exact List.forall_mem_cons.mpr ⟨not_mem_of_startsArgument hgapLine hnext, hfeeds⟩

lemma Spans.exists_laidOut_call {depth line : Nat} {before within after : List Item}
    {name : String} {args : List Term}
    (h : Spans depth before within after (.call name args line)) :
    ∃ head inner pieces, within = head :: inner ∧ pieces.map Prod.fst = args ∧
      LaidOut (depth + 1) (before ++ [head]) inner after pieces ∧
      ∀ piece ∈ pieces.dropLast, '\n' ∉ piece.2.flatMap text := by
  obtain ⟨⟨⟨head, hhead, htoken⟩, last, hlast, hlastToken⟩, hterm⟩ := h
  obtain ⟨inner, rfl⟩ : ∃ inner, within = head :: inner := List.head?_eq_some_iff.mp hhead
  obtain ⟨⟨kind, lexeme⟩, hm⟩ := Option.isSome_iff_exists.mp htoken
  rw [List.cons_append, tokens_of_meaning hm,
    List.append_cons before head inner] at hterm
  have hinner (item : Item) (hitem : item ∈ inner.getLast?) : item.meaning?.isSome := by
    rw [List.getLast?_cons, Option.mem_def.mp hitem] at hlast
    cases hlast
    exact hlastToken
  have hline : lineAfter before ≤ lineAfter (before ++ [head]) := by
    rw [lineAfter_append]
    omega
  cases hterm with
  | call _ _ hargs _ =>
    obtain ⟨pieces, hpieces⟩ := exists_laidOut hargs hline hinner
    exact ⟨head, inner, pieces, rfl, hpieces⟩

/-! ### Programs -/

namespace Grammar

lemma SpelledIn.call_shape {ts : List Token} {depth line : Nat} {name : String} {args : List Term}
    (h : SpelledIn ts (.term depth (.call name args line))) (hts : ts.Pairwise Token.Before) :
    args ≠ [] ∧ (∀ arg ∈ args, arg.line = line) ∧ ∀ arg ∈ args.dropLast, arg.IsEnclosed := by
  obtain ⟨start, rest, ⟨passed, -, rfl⟩, hterm⟩ := h
  have hstart := (List.pairwise_append.mp hts).2.1
  cases hterm with
  | call _ _ hargs _ =>
    have hlines := (List.pairwise_cons.mp hstart).1
    exact ⟨List.cons_ne_nil _ _, hargs.shape fun u hu => (hlines u hu).line_le⟩

lemma SpelledIn.exists_spans {items : List Item} {depth : Nat} {t : Term}
    (h : SpelledIn (tokens 1 items) (.term depth t)) :
    ∃ before within after, items = before ++ (within ++ after) ∧
      Spans depth before within after t := by
  obtain ⟨start, rest, ⟨passed, hkinds, hpassed⟩, hterm⟩ := h
  obtain ⟨front, back, rfl, rfl⟩ := @exists_items_of_suffix [] items _ _ hpassed hkinds
  obtain ⟨gap, within, after, rfl, -, hspans, -⟩ := TextPipeline.exists_spans hterm
  exact ⟨front ++ gap, within, after, (List.append_assoc _ _ _).symm, hspans⟩

lemma SpelledIn.pipeline_shape {ts : List Token} {depth : Nat} {e : Expression}
    (h : SpelledIn ts (.pipeline depth e)) :
    ∃ first more, e = .pipeline (first :: more) first.line := by
  obtain ⟨start, rest, -, hfirst, hmore⟩ := h
  obtain ⟨_, _, hts, hline, -⟩ := hfirst.head
  cases hts
  exact ⟨_, _, congrArg _ hline.symm⟩

end Grammar

/-- **The shape of calls.** In the tree of a program text every call has arguments, which start on
its line, and all but the last are literals or groups; every pipeline has a first term, on whose
line it is. The terms of the tree stand on stretches of the text. Wherever a call stands, its
arguments follow its name one after the other, and only the last may go over a line feed. -/
theorem Program.calls_shaped_of_parse {source : String} {p : Program}
    (h : Program.parse source = .ok p) :
    ∃ items, Split source.toList items ∧
      (∀ depth name args line, .term depth (.call name args line) ∈ p.nodes →
        args ≠ [] ∧ (∀ arg ∈ args, arg.line = line) ∧ ∀ arg ∈ args.dropLast, arg.IsEnclosed) ∧
      (∀ depth t, .term depth t ∈ p.nodes → ∃ before within after,
        items = before ++ (within ++ after) ∧ Spans depth before within after t) ∧
      (∀ depth before within after name args line, items = before ++ (within ++ after) →
        Spans depth before within after (.call name args line) →
        ∃ head inner pieces, within = head :: inner ∧ pieces.map Prod.fst = args ∧
          LaidOut (depth + 1) (before ++ [head]) inner after pieces ∧
          ∀ piece ∈ pieces.dropLast, '\n' ∉ piece.2.flatMap text) ∧
      ∀ depth e, .pipeline depth e ∈ p.nodes →
        ∃ first more, e = .pipeline (first :: more) first.line := by
  obtain ⟨ts, hlex, hp⟩ := ok_of_bind h
  have hspells := Parser.spells_of_ofTokens (Token.ended_of_lex hlex).1 hp
  have hordered := Token.ordered_of_lex hlex
  obtain ⟨items, hitems⟩ := Token.split_of_scan hlex
  cases hlex.symm.trans (Token.scan_of_split hitems 1)
  exact ⟨items, hitems,
    fun _ _ _ _ hnode => (hspells.spelledIn _ hnode).call_shape hordered,
    fun _ _ hnode => (hspells.spelledIn _ hnode).exists_spans,
    fun _ _ _ _ _ _ _ _ hspans => hspans.exists_laidOut_call,
    fun _ _ hnode => (hspells.spelledIn _ hnode).pipeline_shape⟩

/-- A call whose last argument is a call with a block of two lines, in a group of two lines. -/
def nestedSource : String := "pair \x7b 'a' |\n wrap '<' join \"\"\"b\nc\"\"\" \x7d"

def nestedTokens : List Token :=
  [⟨.ident, "pair", 1⟩, ⟨.openBrace, "\x7b", 1⟩, ⟨.literal, "a", 1⟩, ⟨.pipe, "|", 1⟩,
    ⟨.ident, "wrap", 2⟩, ⟨.literal, "<", 2⟩, ⟨.ident, "join", 2⟩, ⟨.literal, "b\nc", 2⟩,
    ⟨.closeBrace, "\x7d", 3⟩, ⟨.theEnd, "", 3⟩]

/-- The call in the group. -/
def nestedCall : Term := .call "wrap" [.literal "<" 2, .call "join" [.literal "b\nc" 2] 2] 2

def nestedProgram : Program :=
  ⟨[], .pipeline [.call "pair" [.group [.pipeline [.literal "a" 1, nestedCall] 1] 1] 1] 1⟩

/-- Of the two arguments of the call, only the second goes over a line feed. -/
theorem nestedCall_laid_out :
    Program.parse nestedSource = .ok nestedProgram ∧ .term 2 nestedCall ∈ nestedProgram.nodes ∧
    ∃ before head inner after first second, Split nestedSource.toList
        (before ++ (head :: inner ++ after)) ∧
      LaidOut 3 (before ++ [head]) inner after
        [(.literal "<" 2, first), (.call "join" [.literal "b\nc" 2] 2, second)] ∧
      '\n' ∉ first.flatMap text := by
  have hlex : Token.lex nestedSource = .ok nestedTokens := by decide +kernel
  have hparse : Program.parse nestedSource = .ok nestedProgram := (bind_of_ok hlex _).trans rfl
  have hnode : .term 2 nestedCall ∈ nestedProgram.nodes := by
    simp [nestedProgram, Program.nodes, Expression.nodes, Term.nodes, nodesOfTerms, nodesOfMembers,
      nestedCall]
  obtain ⟨items, hitems, -, hplaces, hlaid, -⟩ := Program.calls_shaped_of_parse hparse
  obtain ⟨before, within, after, rfl, hspans⟩ := hplaces 2 nestedCall hnode
  obtain ⟨head, inner, pieces, rfl, hpieces, hpieces', hfeeds⟩ :=
    hlaid 2 before within after _ _ _ rfl hspans
  obtain ⟨⟨_, first⟩, more, rfl, rfl, hmore⟩ := List.map_eq_cons_iff.mp hpieces
  obtain ⟨⟨_, second⟩, none, rfl, rfl, hnone⟩ := List.map_eq_cons_iff.mp hmore
  cases List.map_eq_nil_iff.mp hnone
  exact ⟨hparse, hnode, before, head, inner, after, first, second, hitems, hpieces',
    hfeeds _ List.mem_cons_self⟩

end TextPipeline
