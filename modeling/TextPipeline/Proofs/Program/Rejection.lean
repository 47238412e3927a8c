import TextPipeline.Proofs.Program.Literals
import TextPipeline.Proofs.Program.Stopping
import TextPipeline.Proofs.Token.Order

/-!
Where the parser rejects a program. An error names the first token that cannot stand where it does:
the tokens before it can still be completed to a program, and whatever follows it, the program is
rejected at this token (`rejected_at_first_misplaced`).
-/

namespace TextPipeline.Parser

open Grammar

/-! ### Definitions -/

lemma Stops.expect {α : Type} {kind : TokenKind} {wanted : GrammarFault} {ts : List Token}
    {last : Option Token} {e : Error} {next : Token × Cursor → Except Error (α × Cursor)}
    {spells : List Token → α → List Token → Prop} (hkind : kind ≠ .theEnd) (hts : Ended ts)
    (h : (⟨ts, last⟩ : Cursor).expect kind wanted >>= next = .error e)
    (hnil : ∀ {t : Token}, t.kind = kind → Completable (fun ts => spells (t :: ts)) [])
    (hnext : ∀ {t rest}, t.kind = kind → Ended rest → next (t, ⟨rest, last⟩) = .error e →
      Stops (fun _ c => next (t, c)) (fun ts => spells (t :: ts)) rest e) :
    Stops (fun _ c => c.expect kind wanted >>= next) spells ts e := by
  obtain hr | ⟨⟨t, _⟩, hr, h⟩ := error_of_bind h
  · -- the token itself is missing
    obtain ⟨t, rest, rfl, hne, rfl⟩ := expect_error hts hr
    exact .first fun _ _ _ => bind_of_error (expect_of_kind_ne hne) _
  · -- the token is there, and the fault comes after it
    obtain ⟨rest, rfl, ht, rfl, hrest⟩ := expect_ok hts hkind hr
    refine (hnext ht hrest h).cons (hnil ht) id (fun _ _ h => h) fun _ hr => ?_
    exact (bind_of_ok (expect_of_kind ht hkind) _).trans (hr _ (Nat.le_refl _))

/-- A definition after its `def`, on one line. -/
def definitionTokens (line : Nat) : List Token :=
  [⟨.ident, "f", line⟩, ⟨.openParen, "(", line⟩, ⟨.ident, "x", line⟩, ⟨.closeParen, ")", line⟩,
    ⟨.equals, "=", line⟩, literalToken line]

lemma line_of_mem_drop {line n : Nat} :
    ∀ t ∈ (definitionTokens line).drop n, t.line = line := by
  intro t ht
  have hall : ∀ t ∈ definitionTokens line, t.line = line := by
    simp [definitionTokens, literalToken]
  exact hall t (List.mem_of_mem_drop ht)

lemma completable_definition {define : Token} (hdefine : define.kind = .define) :
    Completable (fun ts => DefinitionAt (define :: ts)) [] :=
  fun line _ => ⟨(definitionTokens line).drop 0, _, line_of_mem_drop, fun _ _ =>
    .mk hdefine rfl rfl rfl rfl rfl (.pipeline (.literal (by decide) rfl) .nil)⟩

lemma definition_stops {define : Token} {ts : List Token} {last : Option Token} {e : Error}
    (hdefine : define.kind = .define) (hts : Ended ts)
    (h : definition ⟨ts, last⟩ = .error e) :
    Stops (fun _ => definition) (fun ts => DefinitionAt (define :: ts)) ts e := by
  have hbody (line : Nat) (after : List Token) :
      ExpressionAt 0 (literalToken line :: after) (.pipeline [.literal "" line] line) after :=
    .pipeline (.literal (by decide) rfl) .nil
  refine .expect (by decide) hts h (fun hname line _ => ⟨(definitionTokens line).drop 1, _,
    line_of_mem_drop, fun _ _ => .mk hdefine hname rfl rfl rfl rfl (hbody line _)⟩) ?_
  intro name ts hname hts h
  refine .expect (by decide) hts h (fun hopening line _ => ⟨(definitionTokens line).drop 2, _,
    line_of_mem_drop, fun _ _ => .mk hdefine hname hopening rfl rfl rfl (hbody line _)⟩) ?_
  intro opening ts hopening hts h
  refine .expect (by decide) hts h (fun hparameter line _ => ⟨(definitionTokens line).drop 3, _,
    line_of_mem_drop, fun _ _ =>
      .mk hdefine hname hopening hparameter rfl rfl (hbody line _)⟩) ?_
  intro parameter ts hparameter hts h
  refine .expect (by decide) hts h (fun hclosing line _ => ⟨(definitionTokens line).drop 4, _,
    line_of_mem_drop, fun _ _ =>
      .mk hdefine hname hopening hparameter hclosing rfl (hbody line _)⟩) ?_
  intro closing ts hclosing hts h
  refine .expect (by decide) hts h (fun hequals line _ => ⟨(definitionTokens line).drop 5, _,
    line_of_mem_drop, fun _ _ =>
      .mk hdefine hname hopening hparameter hclosing hequals (hbody line _)⟩) ?_
  intro equals ts hequals hts h
  obtain hr | ⟨_, -, ⟨⟩⟩ := error_of_bind h
  refine (topExpression_stops hts hr).map (⟨name.lexeme, parameter.lexeme, ·, equals.line⟩) ?_ ?_
  · exact fun _ hbody => .mk hdefine hname hopening hparameter hclosing hequals hbody
  · exact fun _ _ hr => bind_of_error (hr _ (Nat.le_refl _)) _

lemma definitions_stops {rounds : Nat} {ts : List Token} {last : Option Token} {e : Error}
    (hts : Ended ts) (h : definitions rounds ⟨ts, last⟩ = .error e) :
    Stops definitions DefinitionsAt ts e := by
  induction rounds generalizing ts with
  | zero => cases h
  | succ rounds ih =>
    rw [definitions] at h
    split at h
    · rename_i hsees
      obtain ⟨define, tail, rfl, hdefine⟩ := exists_of_sees hsees
      have htail := hts.tail (by simp [hdefine])
      obtain hr | ⟨⟨d, _⟩, hr, h⟩ := error_of_bind h
      · -- this definition is at fault
        refine (definition_stops hdefine htail hr).cons (completable_definition hdefine) ([·])
          (fun _ _ hd => .cons hd .nil) ?_
        intro ts last rounds hrounds hr
        cases rounds with
        | zero => cases hrounds
        | succ rounds =>
          rw [definitions, if_pos (sees_of_kind hdefine)]
          exact bind_of_error (hr _ (Nat.le_refl _)) _
      · -- the fault lies in a definition further on
        obtain hr' | ⟨_, -, ⟨⟩⟩ := error_of_bind h
        obtain ⟨mid, rfl, hd, hmid, hpipe⟩ := definition_sound hdefine htail hr
        refine (ih hmid hr').append (definitionAt_consumes hd) (fun _ => .nil) (d :: ·) .cons ?_
        intro ts mid' last rounds hd hhead hrounds hr
        obtain ⟨define, tail, rfl, hkind, hlength⟩ := hd.head
        rw [kindAhead, ← hhead] at hpipe
        cases rounds with
        | zero => cases hrounds
        | succ rounds =>
          rw [List.length_cons] at hrounds
          rw [definitions, if_pos (sees_of_kind hkind)]
          exact (bind_of_ok (definition_complete hd hpipe) _).trans
            (bind_of_error (hr _ (by omega)) _)
    · cases h

lemma definitions_maximal {rounds : Nat} {ts rest : List Token} {last : Option Token}
    {ds : List Definition} (hts : Ended ts) (hrounds : ts.length ≤ rounds)
    (h : definitions rounds ⟨ts, last⟩ = .ok (ds, ⟨rest, last⟩)) :
    kindAhead rest ≠ some .define ∧ (ds ≠ [] → kindAhead rest ≠ some .pipe) := by
  induction rounds generalizing ts ds with
  | zero =>
    cases List.length_eq_zero_iff.mp (Nat.le_zero.mp hrounds)
    cases hts
  | succ rounds ih =>
    rw [definitions] at h
    split at h
    · rename_i hsees
      obtain ⟨define, tail, rfl, hdefine⟩ := exists_of_sees hsees
      obtain ⟨⟨d, _⟩, hr₁, h⟩ := ok_of_bind h
      obtain ⟨⟨ds', _⟩, hr₂, h⟩ := ok_of_bind h
      cases h
      obtain ⟨mid, rfl, hd, hmid, hpipe⟩ :=
        definition_sound hdefine (hts.tail (by simp [hdefine])) hr₁
      obtain ⟨_, _, hcons, -, hlength⟩ := hd.head
      cases hcons
      rw [List.length_cons] at hrounds
      obtain ⟨hrest, hpipes⟩ := ih hmid (by omega) hr₂
      refine ⟨hrest, fun _ => ?_⟩
      -- The last definition is either this one or one of those after it.
      cases ds' with
      | nil =>
        obtain ⟨_, hc, hds, -⟩ := definitions_sound hmid hr₂
        cases hc
        cases hds
        exact hpipe
      | cons d' ds' => exact hpipes (List.cons_ne_nil _ _)
    · rename_i hsees
      cases h
      exact ⟨not_kindAhead_of_sees hsees, fun hne => absurd rfl hne⟩

/-! ### Programs -/

def endToken (line : Nat) : Token := ⟨.theEnd, "", line⟩

/-- The parser stops at a token, for a fault of it and whatever comes after it. What was read before
is completed to a program by some tokens on any later line and on the one after that. -/
def ProgramStops (tokens : List Token) (e : Error) : Prop :=
  ∃ before t rest fault, tokens = before ++ t :: rest ∧ e = t.fault fault ∧
    (∀ line, (∀ t ∈ before, t.line ≤ line) → ∃ now later p, (∀ t ∈ now, t.line = line) ∧
      (∀ t ∈ later, t.line = line + 1) ∧
      Spells (before ++ (now ++ (later ++ [endToken (line + 1)]))) p) ∧
    ∀ rest', Program.ofTokens (before ++ t :: rest') = .error e

lemma not_startsArgument_later {line : Nat} {t : Token} (h : t.line = line + 1)
    (ts : List Token) : ¬ StartsArgument line (t :: ts) := fun hs => by
  have := hs.1
  omega

lemma Stops.in_definitions {tokens : List Token} {e : Error}
    (h : Stops definitions DefinitionsAt tokens e) : ProgramStops tokens e := by
  obtain ⟨before, t, rest, fault, rfl, he, hviable, hstuck⟩ := h
  have hbefore : Completable DefinitionsAt before := by
    by_cases hne : before = []
    · exact hne ▸ fun _ _ => ⟨[], [], by simp, fun _ _ => .nil⟩
    · exact hviable hne
  refine ⟨before, t, rest, fault, rfl, he, fun line hlines => ?_, fun rest' => ?_⟩
  · -- an expression on the next line completes the program
    obtain ⟨more, ds, hmore⟩ := hbefore line hlines
    let literal := literalToken (line + 1)
    refine ⟨more, [literal], ⟨ds, .pipeline [.literal "" (line + 1)] (line + 1)⟩, hmore.lines,
      by simp [literal, literalToken], _, endToken (line + 1),
      hmore.spells _ (not_startsArgument_later rfl _), ?_, ?_, rfl⟩
    · simp [literal, literalToken]
    · exact .pipeline (.literal (by decide) rfl) .nil
  · exact bind_of_error (hstuck rest' _ _ (Nat.le_refl _)) _

lemma not_startsArgument_of_later {line : Nat} {ts : List Token} (h : ∀ t ∈ ts, t.line = line + 1) :
    ¬ StartsArgument line ts := by
  cases ts with
  | nil => exact id
  | cons t ts => exact not_startsArgument_later (h t List.mem_cons_self) ts

lemma Stops.in_expression {tokens mid : List Token} {ds : List Definition} {e : Error}
    (h : Stops (fun _ => expression (term maxNesting)) (ExpressionAt 0) mid e)
    (hds : DefinitionsAt tokens ds mid) (hdefine : kindAhead mid ≠ some .define)
    (hpipe : ds ≠ [] → kindAhead mid ≠ some .pipe) : ProgramStops tokens e := by
  obtain ⟨consumed, rfl, -, hswap⟩ := definitionsAt_consumes hds
  obtain ⟨before, t, rest, fault, rfl, he, hviable, hstuck⟩ := h
  have hbefore : Completable (ExpressionAt 0) before := by
    by_cases hne : before = []
    · exact hne ▸ completable_expression (by decide)
    · exact hviable hne
  refine ⟨consumed ++ before, t, rest, fault, by simp, he, fun line hlines => ?_, fun rest' => ?_⟩
  · -- On the line after, no token is an argument in the last definition.
    obtain ⟨more, main, hmore⟩ := hbefore (line + 1) fun t ht =>
      Nat.le_succ_of_le (hlines t (List.mem_append_right _ ht))
    have hmain := hmore.spells [endToken (line + 1)]
      (by simp [StartsArgument, StartsTerm, endToken])
    have hlater : ∀ t ∈ more ++ [endToken (line + 1)], t.line = line + 1 := by
      simpa [or_imp, forall_and, endToken] using hmore.lines
    have hallows :
        Allows line (before ++ t :: rest) (before ++ (more ++ [endToken (line + 1)])) := by
      by_cases hne : before = []
      · subst hne
        exact allows_of_not_starts (not_startsArgument_of_later hlater)
      · exact allows_append line hne _ _
    have hdefinitions := hswap line _ (fun t ht => hlines t (List.mem_append_left _ ht)) hallows
    refine ⟨[], more, ⟨ds, main⟩, by simp, hmore.lines, _, endToken (line + 1), ?_,
      hmain.kindAhead_ne (by decide), hmain, rfl⟩
    simpa using hdefinitions
  · obtain ⟨line, hlines⟩ := exists_line consumed
    have hhead := head?_append_cons before t rest rest'
    rw [kindAhead, ← hhead] at hdefine hpipe
    rw [List.append_assoc]
    have hrun (last : Option Token) : definitions _ ⟨_, last⟩ = .ok (ds, ⟨_, last⟩) :=
      definitions_complete (hswap line _ hlines (allows_of_head? hhead)) hpipe hdefine
        (Nat.le_refl _)
    exact (bind_of_ok (hrun _) _).trans (bind_of_error (hstuck rest' _ _ (Nat.le_refl _)) _)

/-- Definitions and the expression after them. -/
def MainAt (ds : List Definition) (main : Expression) (ts rest : List Token) : Prop :=
  ∃ mid, DefinitionsAt ts ds mid ∧ ExpressionAt 0 mid main rest

lemma programStops_before_end {tokens mid : List Token} {ds : List Definition}
    {main : Expression} {t : Token} {rest : List Token} (hds : DefinitionsAt tokens ds mid)
    (hmain : ExpressionAt 0 mid main (t :: rest)) (hpipe : t.kind ≠ .pipe)
    (ht : t.kind ≠ .theEnd) : ProgramStops tokens (t.fault .endOfInput) := by
  have hmainAt : Consumes (MainAt ds main) tokens (t :: rest) :=
    (definitionsAt_consumes hds).append (expressionAt_consumes hmain)
      fun hds hmain => ⟨_, hds, hmain⟩
  obtain ⟨consumed, rfl, -, hswap⟩ := hmainAt
  refine ⟨consumed, t, rest, .endOfInput, rfl, rfl, fun line hlines => ?_, fun rest' => ?_⟩
  · -- the end in place of the token completes the program
    have hend : ¬ StartsArgument line [endToken (line + 1)] := not_startsArgument_later rfl []
    obtain ⟨mid, hds, hmain⟩ := hswap line _ hlines (allows_of_not_starts hend)
    exact ⟨[], [], ⟨ds, main⟩, by simp, by simp, mid, endToken (line + 1), hds,
      hmain.kindAhead_ne (by decide), hmain, rfl⟩
  · -- with the token there, the expression ends before it and no end is found
    obtain ⟨line, hlines⟩ := exists_line consumed
    obtain ⟨mid, hds, hmain⟩ := hswap line (t :: rest') hlines
      (allows_append line (List.cons_ne_nil t []) _ _)
    have hdefinitions (last : Option Token) : definitions _ ⟨_, last⟩ = .ok (ds, ⟨_, last⟩) :=
      definitions_complete hds (fun _ => hmain.kindAhead_ne (by decide))
        (hmain.kindAhead_ne (by decide)) (Nat.le_refl _)
    have hexpression (last : Option Token) :
        expression (term maxNesting) ⟨_, last⟩ = .ok (main, ⟨_, last⟩) :=
      expression_complete (term_complete (Nat.zero_add _)) hmain (by simpa using hpipe)
    exact (bind_of_ok (hdefinitions _) _).trans <| (bind_of_ok (hexpression _) _).trans
      (bind_of_error (expect_of_kind_ne ht) _)

lemma programStops_of_ofTokens {tokens : List Token} {e : Error} (htokens : Ended tokens)
    (h : Program.ofTokens tokens = .error e) : ProgramStops tokens e := by
  obtain hr | ⟨⟨ds, _⟩, hr₁, h⟩ := error_of_bind h
  · exact (definitions_stops htokens hr).in_definitions
  obtain ⟨mid, rfl, hds, hmid⟩ := definitions_sound htokens hr₁
  obtain ⟨hdefine, hpipe⟩ := definitions_maximal htokens (Nat.le_refl _) hr₁
  obtain hr | ⟨⟨main, _⟩, hr₂, h⟩ := error_of_bind h
  · exact (topExpression_stops hmid hr).in_expression hds hdefine hpipe
  have hsound : Sound (term maxNesting) 0 := term_sound (Nat.zero_add _)
  obtain ⟨rest, rfl, hmain⟩ := expression_sound hsound hmid hr₂
  have hmax := expression_maximal hsound hmid hr₂
  obtain hr | ⟨_, -, ⟨⟩⟩ := error_of_bind h
  obtain ⟨t, rest, rfl, ht, rfl⟩ := expect_error (hmid.of_passes (expressionAt_passes hmain)) hr
  exact programStops_before_end hds hmain (by simpa using hmax) ht

/-! ### The first token that cannot stand where it does -/

/-- Some further tokens and an end, with no line before an earlier one, make a program of these. -/
def Extendable (ts : List Token) : Prop :=
  ∃ more theEnd p, theEnd.kind = .theEnd ∧
    (ts ++ (more ++ [theEnd])).Pairwise (·.line ≤ ·.line) ∧
    Program.ofTokens (ts ++ (more ++ [theEnd])) = .ok p

lemma ordered_completion {before now later : List Token} {line : Nat}
    (hbefore : before.Pairwise (·.line ≤ ·.line)) (hline : ∀ t ∈ before, t.line ≤ line)
    (hnow : ∀ t ∈ now, t.line = line) (hlater : ∀ t ∈ later, t.line = line + 1) :
    (before ++ (now ++ (later ++ [endToken (line + 1)]))).Pairwise (·.line ≤ ·.line) := by
  have hend : ∀ t ∈ later ++ [endToken (line + 1)], t.line = line + 1 := by
    simpa [or_imp, forall_and, endToken] using hlater
  have hsame {ts : List Token} {l : Nat} (h : ∀ t ∈ ts, t.line = l) :
      ts.Pairwise (·.line ≤ ·.line) :=
    List.pairwise_of_forall_mem_list fun t ht u hu => by rw [h t ht, h u hu]
  have hafter : ∀ t ∈ now ++ (later ++ [endToken (line + 1)]), line ≤ t.line := by
    intro t ht
    rcases List.mem_append.mp ht with ht | ht
    · exact (hnow t ht).ge
    · have := hend t ht
      omega
  refine List.pairwise_append.mpr ⟨hbefore, List.pairwise_append.mpr ⟨hsame hnow, hsame hend, ?_⟩,
    fun t ht u hu => (hline t ht).trans (hafter u hu)⟩
  intro t ht u hu
  rw [hnow t ht, hend u hu]
  exact Nat.le_succ line

/-- A text whose tokens are no program is rejected at the first of them that cannot stand where it
does: the tokens before it begin some program, and with it they begin none. What is shown of the
error are the line of this token and the token itself, and whatever follows it, the error is the
same. -/
theorem rejected_at_first_misplaced {source : String} {tokens : List Token} {e : Error}
    (hlex : Token.lex source = .ok tokens) (hparse : Program.parse source = .error e) :
    ∃ i t fault, tokens[i]? = some t ∧
      e = .grammar t.line (if t.kind = .theEnd then .theEnd else .token t.lexeme) fault ∧
      e.diagnostic = .grammar t.line
        ("Error at " ++ (if t.kind = .theEnd then "end" else "'" ++ t.lexeme ++ "'") ++ ": " ++
          fault.message) ∧
      Extendable (tokens.take i) ∧ ¬ Extendable (tokens.take (i + 1)) ∧
      ∀ more, Program.ofTokens (tokens.take (i + 1) ++ more) = .error e := by
  have hordered := (Token.ordered_of_lex hlex).imp Token.Before.line_le
  have hended := (Token.ended_of_lex hlex).1
  have hrejects : Program.ofTokens tokens = .error e := (bind_of_ok hlex _).symm.trans hparse
  obtain ⟨before, t, rest, fault, rfl, he, hviable, hstuck⟩ :=
    programStops_of_ofTokens hended hrejects
  have hthrough (more : List Token) :
      Program.ofTokens ((before ++ t :: rest).take (before.length + 1) ++ more) = .error e := by
    rw [List.take_length_add_append, List.append_assoc]
    exact hstuck more
  refine ⟨before.length, t, fault, by simp, he, he ▸ diagnostic_fault t fault, ?_, ?_, hthrough⟩
  · -- up to the token, the program can be completed
    obtain ⟨hbefore, -, hlater⟩ := List.pairwise_append.mp hordered
    have hline (u : Token) (hu : u ∈ before) : u.line ≤ t.line := hlater u hu t List.mem_cons_self
    obtain ⟨now, later, p, hnow, hlater, hp⟩ := hviable t.line hline
    refine ⟨now ++ later, endToken (t.line + 1), p, rfl, ?_, ?_⟩
    · rw [List.take_left, List.append_assoc]
      exact ordered_completion hbefore hline hnow hlater
    · rw [List.take_left, List.append_assoc]
      exact ofTokens_of_spells hp
  · -- with the token, it cannot
    rintro ⟨more, theEnd, p, -, -, hp⟩
    cases hp.symm.trans (hthrough (more ++ [theEnd]))

/-- The `(` stands where the second member of the group should start. -/
def misplacedSource : String := "def f(x) = trim x\nf \x7b upper; ( \x7d"

def misplacedTokens : List Token :=
  [⟨.define, "def", 1⟩, ⟨.ident, "f", 1⟩, ⟨.openParen, "(", 1⟩, ⟨.ident, "x", 1⟩,
    ⟨.closeParen, ")", 1⟩, ⟨.equals, "=", 1⟩, ⟨.ident, "trim", 1⟩, ⟨.ident, "x", 1⟩,
    ⟨.ident, "f", 2⟩, ⟨.openBrace, "\x7b", 2⟩, ⟨.ident, "upper", 2⟩, ⟨.semicolon, ";", 2⟩,
    ⟨.openParen, "(", 2⟩, ⟨.closeBrace, "\x7d", 2⟩, ⟨.theEnd, "", 2⟩]

theorem misplacedSource_rejected :
    Token.lex misplacedSource = .ok misplacedTokens ∧
    Program.parse misplacedSource = .error (.grammar 2 (.token "(") .parenthesised) ∧
    ∃ i t fault, misplacedTokens[i]? = some t ∧ Error.grammar 2 (.token "(") .parenthesised =
        .grammar t.line (if t.kind = .theEnd then .theEnd else .token t.lexeme) fault ∧
      Extendable (misplacedTokens.take i) ∧ ¬ Extendable (misplacedTokens.take (i + 1)) := by
  have hlex : Token.lex misplacedSource = .ok misplacedTokens := by decide +kernel
  have hparse : Program.parse misplacedSource =
      .error (.grammar 2 (.token "(") .parenthesised) := (bind_of_ok hlex _).trans rfl
  obtain ⟨i, t, fault, ht, he, -, hbefore, hthrough, -⟩ :=
    rejected_at_first_misplaced hlex hparse
  exact ⟨hlex, hparse, i, t, fault, ht, he, hbefore, hthrough⟩

end TextPipeline.Parser
