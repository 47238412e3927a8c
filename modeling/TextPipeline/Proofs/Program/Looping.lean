import TextPipeline.Proofs.Program.Reading

/-!
The parser as plain recursion: its loops go on as long as there is another round, and its terms
count how deep they are. Nothing about its form makes it end. A group that the last token opens is
opened again and again, since that token is seen wherever the tokens have run out, and only the
limit on nesting is in the way. To say that it ends, it is given a number of calls that may be
nested, a further round of a loop being one, and it is `pending` where it needs more. A number that
grows with that of the tokens is always enough (`enough_ofTokens`), and the result is then that of
`Program.ofTokens`, which is an error if there is no end among the tokens
(`ofTokens_total_up_to_end`).
-/

namespace TextPipeline.Parser

namespace Looping

open Outcome (done pending)

mutual

def term : (depth calls : Nat) → Cursor → Outcome (Term × Cursor)
  | _, 0, _ => pending
  | depth, calls + 1, c => do
    let t ← done c.peek
    if maxNesting ≤ depth then done (.error (t.fault .tooDeep))
    else match t.kind with
      | .openBrace =>
        let (es, c) ← members (depth + 1) calls c.advance
        let (_, c) ← done (c.expect .closeBrace .closeBrace)
        return (.group es t.line, c)
      | .ident =>
        let (args, c) ← arguments (depth + 1) t.line calls c.advance
        return (nameOrCall t.lexeme t.line args, c)
      | .literal => return (.literal t.lexeme t.line, c.advance)
      | .openParen => done (.error (t.fault .parenthesised))
      | .theEnd => done (.error (t.fault .expression))
      | _ => done (.error (t.fault (.unexpected t.lexeme)))
termination_by structural _ calls _ => calls

def arguments : (depth line calls : Nat) → Cursor → Outcome (List Term × Cursor)
  | _, _, 0, _ => pending
  | depth, line, calls + 1, c =>
    if startsArgument line c then do
      let (t, c) ← term depth calls c
      let (ts, c) ← arguments depth line calls c
      return (t :: ts, c)
    else return ([], c)
termination_by structural _ _ calls _ => calls

def steps : (depth calls : Nat) → Cursor → Outcome (List Term × Cursor)
  | _, 0, _ => pending
  | depth, calls + 1, c =>
    if c.sees .pipe then do
      let (t, c) ← term depth calls c.advance
      let (ts, c) ← steps depth calls c
      return (t :: ts, c)
    else return ([], c)
termination_by structural _ calls _ => calls

def expression : (depth calls : Nat) → Cursor → Outcome (Expression × Cursor)
  | _, 0, _ => pending
  | depth, calls + 1, c => do
    let (first, c) ← term depth calls c
    let (rest, c) ← steps depth calls c
    return (.pipeline (first :: rest) first.line, c)
termination_by structural _ calls _ => calls

def members : (depth calls : Nat) → Cursor → Outcome (List Expression × Cursor)
  | _, 0, _ => pending
  | depth, calls + 1, c =>
    if c.sees .closeBrace then return ([], c)
    else do
      let (e, c) ← expression depth calls c
      let (es, c) ← furtherMembers depth calls c
      return (e :: es, c)
termination_by structural _ calls _ => calls

def furtherMembers : (depth calls : Nat) → Cursor → Outcome (List Expression × Cursor)
  | _, 0, _ => pending
  | depth, calls + 1, c =>
    if c.sees .semicolon then do
      let (e, c) ← expression depth calls c.advance
      let (es, c) ← furtherMembers depth calls c
      return (e :: es, c)
    else return ([], c)
termination_by structural _ calls _ => calls

end

def definition : (calls : Nat) → Cursor → Outcome (Definition × Cursor)
  | 0, _ => pending
  | calls + 1, c => do
    let (name, c) ← done (c.expect .ident .functionName)
    let (_, c) ← done (c.expect .openParen .openParen)
    let (parameter, c) ← done (c.expect .ident .parameterName)
    let (_, c) ← done (c.expect .closeParen .closeParen)
    let (equals, c) ← done (c.expect .equals .equals)
    let (body, c) ← expression 0 calls c
    return (⟨name.lexeme, parameter.lexeme, body, equals.line⟩, c)

def definitions : (calls : Nat) → Cursor → Outcome (List Definition × Cursor)
  | 0, _ => pending
  | calls + 1, c =>
    if c.sees .define then do
      let (d, c) ← definition calls c.advance
      let (ds, c) ← definitions calls c
      return (d :: ds, c)
    else return ([], c)

def ofTokens (calls : Nat) (tokens : List Token) : Outcome Program := do
  let (ds, c) ← definitions calls (Cursor.ofTokens tokens)
  let (e, c) ← expression 0 calls c
  let _ ← done (c.expect .theEnd .endOfInput)
  return ⟨ds, e⟩

/-! ### Enough calls -/

/-- With this many calls, the recursion comes to what the reader returns wherever there are at most
`n` tokens ahead. -/
def Enough {α : Type} (n calls : Nat) (run : (calls : Nat) → Cursor → Outcome (α × Cursor))
    (read : Reader α) : Prop :=
  ∀ more c, calls ≤ more → c.ahead.length ≤ n → run more c = done (read c)

section Enough

variable {α β : Type} {n calls : Nat} {run : Nat → Cursor → Outcome (α × Cursor)} {read : Reader α}

lemma bind_of_done {m : Outcome α} {x : Except Error α} {k : α → Outcome β}
    {f : α → Except Error β} (hm : m = done x) (h : ∀ a, x = .ok a → k a = done (f a)) :
    m >>= k = done (x >>= f) := by
  rw [hm]
  cases x with
  | error e => rfl
  | ok a => exact h a rfl

lemma enough_done (read : Reader α) : Enough n calls (fun _ c => done (read c)) read :=
  fun _ _ _ _ => rfl

lemma Enough.mono {calls' : Nat} (h : Enough n calls run read) (hle : calls ≤ calls') :
    Enough n calls' run read :=
  fun more c hmore hc => h more c (Nat.le_trans hle hmore) hc

lemma Enough.advance (h : Enough n calls run read) :
    Enough n calls (fun more c => run more c.advance) fun c => read c.advance := by
  intro more c hmore hc
  exact h more c.advance hmore (Nat.le_trans (List.tail_suffix c.ahead).length_le hc)

lemma Enough.andThen {runNext : α → Nat → Cursor → Outcome (β × Cursor)} {next : α → Reader β}
    (h : Enough n calls run read) (hproper : ∀ c, ProperAt read c)
    (hnext : ∀ a, Enough n calls (runNext a) (next a)) :
    Enough n calls (fun more c => run more c >>= fun r => runNext r.1 more r.2)
      (andThen read next) := by
  intro more c hmore hc
  refine bind_of_done (h more c hmore hc) fun r hr => hnext r.1 more r.2 hmore ?_
  have hsuffix := ((hproper c).safe.passes r.1 r.2 hr).2
  exact Nat.le_trans hsuffix.length_le hc

lemma Enough.ite {run' : Nat → Cursor → Outcome (α × Cursor)} {read' : Reader α}
    (h : Enough n calls run read) (h' : Enough n calls run' read') (kind : TokenKind) :
    Enough n calls (fun more c => if c.sees kind then run more c else run' more c)
      fun c => if c.sees kind then read c else read' c := by
  intro more c hmore hc
  by_cases hsees : c.sees kind = true
  · simpa only [if_pos hsees] using h more c hmore hc
  · simpa only [if_neg hsees] using h' more c hmore hc

lemma Enough.call {f : Nat → Cursor → Outcome (α × Cursor)} (h : Enough n calls run read)
    (hf : ∀ more c, f (more + 1) c = run more c) : Enough n (calls + 1) f read := by
  intro more c hmore hc
  cases more with
  | zero => omega
  | succ more => exact (hf more c).trans (h more c (by omega) hc)

section Rounds

variable {starts : Token → Bool} (hread : Progressive starts read) (hrun : Enough n calls run read)
  {f : Nat → Cursor → Outcome (List α × Cursor)}
  (hf : ∀ more c, f (more + 1) c = if c.ahead.head?.any starts then
    run more c >>= fun r => f more r.2 >>= fun s => pure (r.1 :: s.1, s.2) else pure ([], c))
include hread hrun hf

lemma enough_loop {bound more : Nat} {c : Cursor} (hbound : bound ≤ n)
    (hmore : calls + bound < more) (hc : c.ahead.length ≤ bound) :
    f more c = done (loop starts read bound c) := by
  -- on the bound for the tokens ahead: a round takes one call and at least one token
  induction bound generalizing more c with
  | zero =>
    obtain ⟨ts, last⟩ := c
    cases List.length_eq_zero_iff.mp (Nat.le_zero.mp hc)
    cases more with
    | zero => omega
    | succ more => exact hf more _
  | succ bound ih =>
    cases more with
    | zero => omega
    | succ more =>
      obtain ⟨_ | ⟨t, ts⟩, last⟩ := c
      · exact hf more _
      by_cases ht : starts t = true
      · rw [loop_of_starts ht]
        refine (hf more ⟨t :: ts, last⟩).trans ((if_pos ht).trans ?_)
        refine bind_of_done (hrun more _ (by omega) (by omega)) fun r hr => ?_
        have hlength := (hread.suffix t ts last r.1 r.2 ht hr).length_le
        rw [List.length_cons] at hc
        exact bind_of_done (ih (by omega) (by omega) (by omega)) fun _ _ => rfl
      · rw [loop_of_not_starts ht]
        exact (hf more ⟨t :: ts, last⟩).trans (if_neg ht)

lemma enough_rounds : Enough n (calls + n + 1) f (rounds starts read) := by
  intro more c hmore hc
  exact enough_loop hread hrun hf hc (by omega) (Nat.le_refl _)

end Rounds

end Enough

section Term

variable {n calls depth : Nat} {read : TermReader} (hproper : ProperTerm read)
  (hread : Enough n calls (term depth) read)
include hproper hread

lemma enough_steps : Enough n (calls + n + 1) (steps depth)
    (rounds (·.kind = .pipe) fun c => read c.advance) := by
  have hrounds := progressive_after hproper.proper .pipe (by decide)
  refine enough_rounds hrounds hread.advance fun more c => ?_
  rw [steps, sees_eq]

lemma enough_expression :
    Enough n (calls + n + 2) (expression depth) (Parser.expression read) := by
  have hsteps := progressive_after hproper.proper .pipe (by decide)
  rw [expression_eq]
  exact Enough.call ((hread.mono (by omega)).andThen hproper.proper fun first =>
    (enough_steps hproper hread).andThen (properAt_rounds hsteps) fun rest => enough_done _)
    fun _ _ => rfl

lemma enough_furtherMembers : Enough n (calls + 2 * n + 3) (furtherMembers depth)
    (rounds (·.kind = .semicolon) fun c => Parser.expression read c.advance) := by
  have hrounds := progressive_after (properAt_expression hproper) .semicolon (by decide)
  refine (enough_rounds hrounds (enough_expression hproper hread).advance fun more c => ?_).mono
    (by omega)
  rw [furtherMembers, sees_eq]

lemma enough_members : Enough n (calls + 2 * n + 4) (members depth) (Parser.members read) := by
  have hproper' := properAt_expression hproper
  have hrounds := progressive_after hproper' .semicolon (by decide)
  have hexpression := (enough_expression hproper hread).mono (show _ ≤ calls + 2 * n + 3 by omega)
  rw [funext (members_eq read)]
  exact Enough.call ((enough_done _).ite (hexpression.andThen hproper' fun e =>
    (enough_furtherMembers hproper hread).andThen (properAt_rounds hrounds) fun es =>
      enough_done _) .closeBrace) fun _ _ => rfl

lemma enough_arguments (line : Nat) : Enough n (calls + n + 1) (arguments depth line)
    (rounds (argumentStarts line) read) := by
  refine enough_rounds (hproper.progressive _) hread fun more c => ?_
  rw [arguments, startsArgument_eq]

end Term

/-- The calls for a term that has so many levels, where there are `n` tokens. -/
def termCalls (n levels : Nat) : Nat := levels * (2 * n + 5) + 1

lemma termCalls_succ (n levels : Nat) :
    termCalls n (levels + 1) = termCalls n levels + 2 * n + 4 + 1 := by
  unfold termCalls
  rw [Nat.succ_mul]
  omega

lemma enough_term {n levels depth : Nat} (h : depth + levels = maxNesting) :
    Enough n (termCalls n levels) (term depth) (Parser.term levels) := by
  induction levels generalizing depth with
  | zero =>
    -- the depth is the limit, and no further call is made
    intro more c hmore _
    cases more with
    | zero => cases hmore
    | succ more => exact bind_of_done rfl fun t _ => if_pos (by omega)
  | succ levels ih =>
    have hread : Enough n (termCalls n levels) (term (depth + 1)) (Parser.term levels) :=
      ih (by omega)
    have hmembers := enough_members (properTerm levels) hread
    rw [termCalls_succ, term_succ_eq]
    intro more c hmore hc
    cases more with
    | zero => omega
    | succ more =>
      rw [term]
      refine bind_of_done rfl fun t _ => ?_
      rw [if_neg (by omega)]
      have hc : c.advance.ahead.length ≤ n :=
        Nat.le_trans (List.tail_suffix c.ahead).length_le hc
      obtain ⟨kind, lexeme, line⟩ := t
      cases kind with
      | openBrace =>
        exact bind_of_done (hmembers more c.advance (by omega) hc) fun es _ =>
          bind_of_done rfl fun _ _ => rfl
      | ident =>
        have hargs := enough_arguments (properTerm levels) hread line
        exact bind_of_done (hargs more c.advance (by omega) hc) fun _ _ => rfl
      | _ => rfl

section Program

variable (n : Nat)

lemma enough_body : Enough n (termCalls n maxNesting + n + 2) (expression 0)
    (Parser.expression (Parser.term maxNesting)) :=
  enough_expression (properTerm _) (enough_term (Nat.zero_add _))

lemma enough_definition :
    Enough n (termCalls n maxNesting + n + 3) definition Parser.definition := by
  have hexpect (kind : TokenKind) (hkind : kind ≠ .theEnd) (wanted : GrammarFault) (c : Cursor) :
      ProperAt (fun c => c.expect kind wanted) c := properAt_expect hkind wanted
  rw [definition_eq]
  exact Enough.call ((enough_done _).andThen (hexpect .ident (by decide) _) fun name =>
    (enough_done _).andThen (hexpect .openParen (by decide) _) fun _ =>
    (enough_done _).andThen (hexpect .ident (by decide) _) fun parameter =>
    (enough_done _).andThen (hexpect .closeParen (by decide) _) fun _ =>
    (enough_done _).andThen (hexpect .equals (by decide) _) fun equals =>
    (enough_body n).andThen (properAt_expression (properTerm _)) fun body => enough_done _)
    fun _ _ => rfl

lemma enough_definitions : Enough n (termCalls n maxNesting + 2 * n + 4) definitions
    (rounds (·.kind = .define) fun c => Parser.definition c.advance) := by
  have hrounds := progressive_after properAt_definition .define (by decide)
  refine (enough_rounds hrounds (enough_definition n).advance fun more c => ?_).mono (by omega)
  rw [definitions, sees_eq]

end Program

lemma enough_ofTokens {calls : Nat} {ts : List Token}
    (h : (maxNesting + 1) * (2 * ts.length + 5) ≤ calls) :
    ofTokens calls ts = done (Program.ofTokens ts) := by
  have hcalls : termCalls ts.length maxNesting + 2 * ts.length + 4 ≤ calls := by
    rw [Nat.succ_mul] at h
    unfold termCalls
    omega
  have hdefinitions := enough_definitions ts.length calls (Cursor.ofTokens ts) (by omega)
    (Nat.le_refl _)
  have hrounds := progressive_after properAt_definition .define (by decide)
  simp only [Program.ofTokens, definitions_eq_loop]
  refine bind_of_done hdefinitions fun ds hds => ?_
  have hlength := ((properAt_rounds hrounds _).safe.passes ds.1 ds.2 hds).2.length_le
  have hbody := enough_body ts.length calls ds.2 (by omega) hlength
  exact bind_of_done hbody fun e _ => bind_of_done rfl fun _ _ => rfl

end Looping

/-- **The parser ends on every list of tokens.** As plain recursion it needs no more nested calls
than a number that depends on how many tokens there are, and with them it comes to the result of the
parser that counts rounds and levels. What follows the first end among the tokens has no part in the
result. Without an end it is an error of the grammar, however often the last token is seen again. -/
theorem ofTokens_total_up_to_end (ts : List Token) :
    (∀ calls, (maxNesting + 1) * (2 * ts.length + 5) ≤ calls →
        Looping.ofTokens calls ts = .done (Program.ofTokens ts)) ∧
      (∀ before theEnd after, ts = before ++ theEnd :: after → (∀ t ∈ before, t.kind ≠ .theEnd) →
        theEnd.kind = .theEnd → Program.ofTokens ts = Program.ofTokens (before ++ [theEnd])) ∧
      ((∀ t ∈ ts, t.kind ≠ .theEnd) →
        ∃ line place fault, Program.ofTokens ts = .error (.grammar line place fault)) := by
  refine ⟨fun calls h => Looping.enough_ofTokens h, ?_, fun hts => ?_⟩
  · -- nothing is read after the end
    rintro before theEnd after rfl - hend
    exact ofTokens_of_agreeToEnd (agreeToEnd_append hend before after [] _ _)
  · rcases hresult : Program.ofTokens ts with e | p
    · obtain ⟨line, place, fault, rfl⟩ := grammar_of_ofTokens hresult
      exact ⟨line, place, fault, rfl⟩
    · -- a program is read only up to an end
      obtain ⟨t, ht, hend⟩ := exists_theEnd_of_ofTokens hresult
      exact absurd hend (hts t ht)

/-- Two groups that the last token closes both, on lines in no order. -/
def closedTwice : List Token :=
  [⟨.openBrace, "\x7b", 3⟩, ⟨.openBrace, "\x7b", 1⟩, ⟨.ident, "a", 2⟩, ⟨.closeBrace, "\x7d", 1⟩]

theorem closedTwice_total_up_to_end :
    Looping.ofTokens 4000 closedTwice = .done (Program.ofTokens closedTwice) ∧
      (∃ line place fault, Program.ofTokens closedTwice = .error (.grammar line place fault)) ∧
      Program.ofTokens (closedTwice ++ ⟨.theEnd, "", 1⟩ :: closedTwice ++ [⟨.theEnd, "", 2⟩]) =
        Program.ofTokens (closedTwice ++ [⟨.theEnd, "", 1⟩]) := by
  have hts : ∀ t ∈ closedTwice, t.kind ≠ .theEnd := by decide
  obtain ⟨hends, -, herror⟩ := ofTokens_total_up_to_end closedTwice
  refine ⟨hends 4000 (by decide), herror hts, ?_⟩
  exact (ofTokens_total_up_to_end _).2.1 closedTwice _ _ (List.append_assoc _ _ _) hts rfl

example : Program.ofTokens closedTwice = .error (.grammar 1 (.token "\x7d") .endOfInput) := rfl

end TextPipeline.Parser
