import TextPipeline.Proofs.Program.Consumption
import TextPipeline.Proofs.Program.Printable

/-!
Programs survive printing. The trees that the parser returns are printable, because the lines on
which their tokens stood ended the arguments of every name; so the parser accepts the text that the
printer makes of them and returns the same program up to line numbers (`parse_print`).
-/

namespace TextPipeline

open Grammar Text

/-! ### Trees that were read -/

structure Sourced (ts : List Token) : Prop where
  named : ∀ t ∈ ts, t.kind = .ident → IsName t.lexeme
  ordered : ts.Pairwise Token.Before

namespace Sourced

variable {ts rest : List Token} {t : Token}

lemma tail (h : Sourced (t :: ts)) : Sourced ts :=
  ⟨fun t ht => h.named t (List.mem_cons_of_mem _ ht), (List.pairwise_cons.mp h.ordered).2⟩

lemma of_passes (h : Sourced ts) (hp : Passes ts rest) : Sourced rest := by
  obtain ⟨passed, -, rfl⟩ := hp
  exact ⟨fun t ht => h.named t (List.mem_append_right _ ht),
    (List.pairwise_append.mp h.ordered).2.1⟩

lemma line_le (h : Sourced (t :: ts)) : ∀ u ∈ ts, t.line ≤ u.line :=
  fun u hu => ((List.pairwise_cons.mp h.ordered).1 u hu).line_le

end Sourced

lemma inline_of_next {depth line : Nat} {ts mid : List Token} {arg : Term} (hts : Sourced ts)
    (hlines : ∀ t ∈ ts, line ≤ t.line) (harg : TermAt depth ts arg mid)
    (hnext : StartsArgument line mid) : arg.Inline := by
  constructor
  · cases harg with
    | literal _ _ | group _ _ _ _ => trivial
    | identifier _ _ hmax | call _ _ _ hmax =>
      exact absurd (hnext.mono (hlines _ List.mem_cons_self)) hmax
  · obtain ⟨consumed, rfl, -, hswap⟩ := termAt_consumes harg
    cases mid with
    | nil => cases hnext
    | cons u mid =>
      have hbefore (t : Token) (ht : t ∈ consumed) : t.Before u :=
        (List.pairwise_append.mp hts.ordered).2.2 t ht u List.mem_cons_self
      have harg := hswap u.line [] (fun t ht => (hbefore t ht).line_le) fun _ _ hs => hs.elim
      -- A literal starts on the line of the name at the earliest, where the next argument starts.
      refine feeds_eq_zero fun text htext => ?_
      obtain ⟨t, ht, -, rfl⟩ := harg.quotes text htext
      rw [List.append_nil] at ht
      have hfirst : line ≤ t.line := hlines t (List.mem_append_left _ ht)
      have hlast : t.line + lineFeeds t.lexeme.toList ≤ u.line := hbefore t ht
      have hu : u.line ≤ line := hnext.1
      omega

section Printable

variable {quotes : String → Quotation}

/-- The literals are plain and their quotes hold them. -/
def Quotable (quotes : String → Quotation) (texts : List String) : Prop :=
  ∀ text ∈ texts, Plain text ∧ (quotes text).Holds text

lemma Quotable.append {texts more : List String} (h : Quotable quotes (texts ++ more)) :
    Quotable quotes texts ∧ Quotable quotes more :=
  ⟨fun text ht => h text (List.mem_append_left _ ht),
    fun text ht => h text (List.mem_append_right _ ht)⟩

mutual

lemma termAt_printable : ∀ {depth : Nat} {ts rest : List Token} {t : Term},
    TermAt depth ts t rest → Sourced ts → Quotable quotes t.literals → t.Printable quotes depth
  | _, _, _, _, .literal hdepth _, _, hquotes => by
    rw [Term.literals] at hquotes
    obtain ⟨hplain, hholds⟩ := hquotes _ List.mem_cons_self
    exact .literal hdepth hplain hholds
  | _, _, _, _, .group hdepth _ hmembers _, hts, hquotes => by
    rw [Term.literals] at hquotes
    exact .group hdepth (membersAt_printable hmembers hts.tail hquotes)
  | _, _, _, _, .identifier hdepth hkind _, hts, _ =>
    .identifier hdepth (hts.named _ List.mem_cons_self hkind)
  | _, _, _, _, .call hdepth hkind hargs _, hts, hquotes => by
    rw [Term.literals] at hquotes
    obtain ⟨hprintable, hinline⟩ := argumentsAt_printable hargs hts.tail hts.line_le hquotes
    exact .call hdepth (hts.named _ List.mem_cons_self hkind) (List.cons_ne_nil _ _) hprintable
      hinline

lemma argumentsAt_printable : ∀ {depth line : Nat} {ts rest : List Token} {args : List Term},
    ArgumentsAt depth line ts args rest → Sourced ts → (∀ t ∈ ts, line ≤ t.line) →
    Quotable quotes (literalsOfTerms args) →
    (∀ t ∈ args, t.Printable quotes depth) ∧ ∀ t ∈ args.dropLast, t.Inline
  | _, _, _, _, _, .nil, _, _, _ => ⟨by simp, by simp⟩
  | _, line, _, _, _, .cons _ harg hargs, hts, hlines, hquotes => by
    rw [literalsOfTerms] at hquotes
    obtain ⟨hquotes, hquotes'⟩ := hquotes.append
    obtain ⟨passed, -, hpassed⟩ := harg.passes
    obtain ⟨hprintable, hinline⟩ := argumentsAt_printable hargs (hts.of_passes harg.passes)
      (fun t ht => hlines t (hpassed ▸ List.mem_append_right _ ht)) hquotes'
    refine ⟨List.forall_mem_cons.mpr ⟨termAt_printable harg hts hquotes, hprintable⟩, ?_⟩
    cases hargs with
    | nil => simp
    | cons hnext _ _ =>
      exact List.forall_mem_cons.mpr ⟨inline_of_next hts hlines harg hnext, hinline⟩

lemma expressionAt_printable : ∀ {depth : Nat} {ts rest : List Token} {e : Expression},
    ExpressionAt depth ts e rest → Sourced ts → Quotable quotes e.literals →
    e.Printable quotes depth
  | _, _, _, _, .pipeline hfirst hmore, hts, hquotes => by
    rw [Expression.literals, literalsOfTerms] at hquotes
    obtain ⟨hquotes, hquotes'⟩ := hquotes.append
    exact .pipeline (List.cons_ne_nil _ _) (List.forall_mem_cons.mpr
      ⟨termAt_printable hfirst hts hquotes,
        stepsAt_printable hmore (hts.of_passes hfirst.passes) hquotes'⟩)

lemma stepsAt_printable : ∀ {depth : Nat} {ts rest : List Token} {more : List Term},
    StepsAt depth ts more rest → Sourced ts → Quotable quotes (literalsOfTerms more) →
    ∀ t ∈ more, t.Printable quotes depth
  | _, _, _, _, .nil, _, _ => by simp
  | _, _, _, _, .cons _ hterm hmore, hts, hquotes => by
    rw [literalsOfTerms] at hquotes
    obtain ⟨hquotes, hquotes'⟩ := hquotes.append
    exact List.forall_mem_cons.mpr ⟨termAt_printable hterm hts.tail hquotes,
      stepsAt_printable hmore (hts.tail.of_passes hterm.passes) hquotes'⟩

lemma membersAt_printable : ∀ {depth : Nat} {ts rest : List Token} {es : List Expression},
    MembersAt depth ts es rest → Sourced ts → Quotable quotes (literalsOfMembers es) →
    ∀ e ∈ es, e.Printable quotes depth
  | _, _, _, _, .none, _, _ => by simp
  | _, _, _, _, .some he hes, hts, hquotes => by
    rw [literalsOfMembers] at hquotes
    obtain ⟨hquotes, hquotes'⟩ := hquotes.append
    exact List.forall_mem_cons.mpr ⟨expressionAt_printable he hts hquotes,
      furtherAt_printable hes (hts.of_passes (expressionAt_passes he)) hquotes'⟩

lemma furtherAt_printable : ∀ {depth : Nat} {ts rest : List Token} {es : List Expression},
    FurtherAt depth ts es rest → Sourced ts → Quotable quotes (literalsOfMembers es) →
    ∀ e ∈ es, e.Printable quotes depth
  | _, _, _, _, .nil, _, _ => by simp
  | _, _, _, _, .cons _ he hes, hts, hquotes => by
    rw [literalsOfMembers] at hquotes
    obtain ⟨hquotes, hquotes'⟩ := hquotes.append
    exact List.forall_mem_cons.mpr ⟨expressionAt_printable he hts.tail hquotes,
      furtherAt_printable hes (hts.tail.of_passes (expressionAt_passes he)) hquotes'⟩

end

lemma definitionAt_printable {ts rest : List Token} {d : Definition}
    (h : DefinitionAt ts d rest) (hts : Sourced ts) (hquotes : Quotable quotes d.body.literals) :
    d.Printable quotes := by
  obtain ⟨-, hname, -, hparameter, -, -, hbody⟩ := h
  refine ⟨hts.named _ (by simp) hname, hts.named _ (by simp) hparameter, ?_⟩
  exact expressionAt_printable hbody hts.tail.tail.tail.tail.tail.tail hquotes

lemma definitionsAt_printable {ts rest : List Token} {ds : List Definition}
    (h : DefinitionsAt ts ds rest) (hts : Sourced ts)
    (hquotes : Quotable quotes (ds.flatMap (·.body.literals))) :
    ∀ d ∈ ds, d.Printable quotes := by
  induction h with
  | nil => simp
  | cons hd _ ih =>
    rw [List.flatMap_cons] at hquotes
    obtain ⟨hquotes, hquotes'⟩ := hquotes.append
    exact List.forall_mem_cons.mpr ⟨definitionAt_printable hd hts hquotes,
      ih (hts.of_passes (definitionAt_passes hd)) hquotes'⟩

lemma Grammar.Spells.printable {ts : List Token} {p : Program} (h : Spells ts p) (hts : Sourced ts)
    (hquotes : Quotable quotes p.literals) : p.Printable quotes := by
  obtain ⟨mid, theEnd, hds, -, he, -⟩ := h
  obtain ⟨hquotes, hquotes'⟩ := hquotes.append
  exact ⟨definitionsAt_printable hds hts hquotes,
    expressionAt_printable he (hts.of_passes (definitionsAt_passes hds)) hquotes'⟩

end Printable

lemma Token.sourced_of_lex {source : String} {ts : List Token} (h : Token.lex source = .ok ts) :
    Sourced ts := by
  refine ⟨fun t ht hkind => ?_, Token.ordered_of_lex h⟩
  obtain ⟨item, rest, lexeme, hfits, hm, hlexeme⟩ :=
    (Token.ended_of_lex h).2 t ht (by simp [hkind])
  exact hlexeme ▸ Item.isName_of_fits hfits (hkind ▸ hm)

lemma Program.fitting_holds_of_mem_literals {source : String} {p : Program}
    (h : Program.parse source = .ok p) :
    ∀ text ∈ p.literals, (Quotation.fitting text).Holds text := by
  obtain ⟨ts, hlex, hp⟩ := ok_of_bind h
  obtain ⟨hended, hitems⟩ := Token.ended_of_lex hlex
  intro text htext
  obtain ⟨t, ht, hkind, rfl⟩ := (Parser.spells_of_ofTokens hended hp).quotes text htext
  obtain ⟨item, rest, lexeme, hfits, hm, hlexeme⟩ := hitems t ht (by simp [hkind])
  obtain ⟨q, hq⟩ := Item.holds_of_fits hfits (hkind ▸ hm)
  exact Quotation.fitting_holds (hlexeme ▸ hq)

/-- A program that was read can be printed, and with any quotes that hold its literals the printed
text is read as the same program up to line numbers. -/
theorem Program.parse_print_of_parse {source : String} {p : Program}
    (h : Program.parse source = .ok p) :
    (∀ text ∈ p.literals, (Quotation.fitting text).Holds text) ∧
      ∀ quotes : String → Quotation, (∀ text ∈ p.literals, (quotes text).Holds text) →
        ∃ q, Program.parse (p.print quotes) = .ok q ∧ q.erase = p.erase := by
  refine ⟨Program.fitting_holds_of_mem_literals h, fun quotes hquotes => ?_⟩
  obtain ⟨ts, hlex, hp⟩ := ok_of_bind h
  have hspells := Parser.spells_of_ofTokens (Token.ended_of_lex hlex).1 hp
  have hprintable : p.Printable quotes := hspells.printable (Token.sourced_of_lex hlex)
    fun text htext => ⟨Program.plain_of_mem_literals h text htext, hquotes text htext⟩
  exact hprintable.parse_print

/-- A program with a comment and more lines than it needs. Its last literal needs a block. -/
def scatteredSource : String :=
  "def f(x) = replace 'a' \"it's\" # twice\nf \x7b upper;\n  trim\n\x7d | append " ++
    "\"\"\"say \"hi\"\n's\"\"\"\n"

def scatteredTokens : List Token :=
  [⟨.define, "def", 1⟩, ⟨.ident, "f", 1⟩, ⟨.openParen, "(", 1⟩, ⟨.ident, "x", 1⟩,
    ⟨.closeParen, ")", 1⟩, ⟨.equals, "=", 1⟩, ⟨.ident, "replace", 1⟩, ⟨.literal, "a", 1⟩,
    ⟨.literal, "it's", 1⟩, ⟨.ident, "f", 2⟩, ⟨.openBrace, "\x7b", 2⟩, ⟨.ident, "upper", 2⟩,
    ⟨.semicolon, ";", 2⟩, ⟨.ident, "trim", 3⟩, ⟨.closeBrace, "\x7d", 4⟩, ⟨.pipe, "|", 4⟩,
    ⟨.ident, "append", 4⟩, ⟨.literal, "say \"hi\"\n's", 4⟩, ⟨.theEnd, "", 6⟩]

def scatteredProgram : Program :=
  ⟨[⟨"f", "x", .pipeline [.call "replace" [.literal "a" 1, .literal "it's" 1] 1] 1, 1⟩],
    .pipeline [.call "f" [.group [.pipeline [.identifier "upper" 2] 2,
      .pipeline [.identifier "trim" 3] 3] 2] 2, .call "append" [.literal "say \"hi\"\n's" 4] 4] 2⟩

theorem scatteredProgram_parse_print :
    Program.parse scatteredSource = .ok scatteredProgram ∧
      scatteredProgram.print Quotation.fitting = "def f(x) = replace 'a' \"it's\"\n" ++
        "f \x7b upper; trim \x7d | append \"\"\"say \"hi\"\n's\"\"\"" ∧
      ∃ q, Program.parse (scatteredProgram.print Quotation.fitting) = .ok q ∧
        q.erase = scatteredProgram.erase := by
  have hlex : Token.lex scatteredSource = .ok scatteredTokens := by decide +kernel
  have hparse : Program.parse scatteredSource = .ok scatteredProgram :=
    (bind_of_ok hlex _).trans rfl
  obtain ⟨hholds, hprint⟩ := Program.parse_print_of_parse hparse
  exact ⟨hparse, by decide +kernel, hprint Quotation.fitting hholds⟩

end TextPipeline
