import TextPipeline.Proofs.Program.Parser

/-!
Reading tokens of which nothing is known. The end may be missing, so that the last token is seen
again and again, or there may be tokens after it. A reader that is `ProperAt` a cursor goes forward
through the tokens, fails with errors of the grammar only, and does not depend on anything after an
end. The parser is put together from such readers (`properAt_program`), and its lists are read by
one loop with different rounds (`rounds`).
-/

namespace TextPipeline.Parser

/-- A reader of values, from a cursor on. -/
abbrev Reader (α : Type) := Cursor → Except Error (α × Cursor)

section Readers

variable {α β : Type}

/-- One reader after the other. -/
def andThen (read : Reader α) (next : α → Reader β) : Reader β :=
  fun c => read c >>= fun r => next r.1 r.2

/-- Looks at a token and reads on after it. -/
def afterToken (body : Token → Reader α) : Reader α :=
  fun c => c.peek >>= fun t => body t c.advance

/-- Rounds, as long as the token ahead is one to start with, and at most so many. -/
def loop (starts : Token → Bool) (round : Reader α) : (bound : Nat) → Reader (List α)
  | 0, c => .ok ([], c)
  | bound + 1, c =>
    if c.ahead.head?.any starts then
      andThen round (fun a => andThen (loop starts round bound) fun as c => .ok (a :: as, c)) c
    else .ok ([], c)

/-- All rounds. There are no more of them than tokens. -/
def rounds (starts : Token → Bool) (round : Reader α) : Reader (List α) :=
  fun c => loop starts round c.ahead.length c

end Readers

/-! ### Outcomes -/

section Outcomes

variable {α β : Type}

/-- What a reader may return at a cursor: a value and a cursor further on, or an error of the
grammar. -/
structure SafeAt (c : Cursor) (x : Except Error (α × Cursor)) : Prop where
  passes : ∀ a c', x = .ok (a, c') → c'.last = c.last ∧ c'.ahead <:+ c.ahead
  faults : ∀ e, x = .error e → ∃ line place fault, e = .grammar line place fault

lemma safeAt_ok (a : α) (c : Cursor) : SafeAt c (.ok (a, c)) where
  passes := by
    intro b c' h
    cases h
    exact ⟨rfl, List.suffix_rfl⟩
  faults := by
    intro e h
    cases h

lemma safeAt_fault (t : Token) (fault : GrammarFault) (c : Cursor) :
    SafeAt c (.error (t.fault fault) : Except Error (α × Cursor)) where
  passes := by
    intro a c' h
    cases h
  faults := by
    intro e h
    cases h
    exact ⟨_, _, _, rfl⟩

lemma SafeAt.andThen {c : Cursor} {read : Reader α} {next : α → Reader β}
    (h : SafeAt c (read c)) (hnext : ∀ a c', SafeAt c' (next a c')) :
    SafeAt c (andThen read next c) where
  passes := by
    intro b c₂ hb
    obtain ⟨⟨a, c₁⟩, ha, hb⟩ := ok_of_bind hb
    obtain ⟨hlast₁, hahead₁⟩ := h.passes a c₁ ha
    obtain ⟨hlast₂, hahead₂⟩ := (hnext a c₁).passes b c₂ hb
    exact ⟨hlast₂.trans hlast₁, hahead₂.trans hahead₁⟩
  faults := by
    intro e he
    -- one of the two readers is at fault
    rcases error_of_bind he with he | ⟨⟨a, c₁⟩, -, he⟩
    · exact h.faults e he
    · exact (hnext a c₁).faults e he

inductive AgreeToEnd : Cursor → Cursor → Prop
  | theEnd {t ts us last last'} : t.kind = .theEnd →
      AgreeToEnd ⟨t :: ts, last⟩ ⟨t :: us, last'⟩
  | cons {t ts us last last'} : AgreeToEnd ⟨ts, last⟩ ⟨us, last'⟩ →
      AgreeToEnd ⟨t :: ts, last⟩ ⟨t :: us, last'⟩

lemma agreeToEnd_append {theEnd : Token} (hend : theEnd.kind = .theEnd)
    (before after after' : List Token) (last last' : Option Token) :
    AgreeToEnd ⟨before ++ theEnd :: after, last⟩ ⟨before ++ theEnd :: after', last'⟩ := by
  induction before with
  | nil => exact .theEnd hend
  | cons t before ih => exact .cons ih

lemma AgreeToEnd.exists_cons {c d : Cursor} (h : AgreeToEnd c d) :
    ∃ t ts us last last', c = ⟨t :: ts, last⟩ ∧ d = ⟨t :: us, last'⟩ := by
  cases h <;> exact ⟨_, _, _, _, _, rfl, rfl⟩

lemma AgreeToEnd.tail {t : Token} {ts us : List Token} {last last' : Option Token}
    (h : AgreeToEnd ⟨t :: ts, last⟩ ⟨t :: us, last'⟩) (hne : t.kind ≠ .theEnd) :
    AgreeToEnd ⟨ts, last⟩ ⟨us, last'⟩ := by
  cases h with
  | theEnd hend => exact absurd hend hne
  | cons h => exact h

inductive Alike : Except Error (α × Cursor) → Except Error (α × Cursor) → Prop
  | error (e) : Alike (.error e) (.error e)
  | ok {a c d} : AgreeToEnd c d → Alike (.ok (a, c)) (.ok (a, d))

lemma Alike.andThen {read read' : Reader α} {next next' : α → Reader β} {c d : Cursor}
    (h : Alike (read c) (read' d))
    (hnext : ∀ a c' d', read c = .ok (a, c') → read' d = .ok (a, d') → AgreeToEnd c' d' →
      Alike (next a c') (next' a d')) :
    Alike (andThen read next c) (andThen read' next' d) := by
  unfold Parser.andThen
  generalize read c = x, read' d = y at h hnext
  cases h with
  | error e => exact .error e
  | ok h => exact hnext _ _ _ rfl rfl h

end Outcomes

/-! ### Proper readers -/

section Proper

variable {α β : Type} {c : Cursor}

/-- What the reader returns here is safe, and the same wherever the tokens are the same up to an
end. -/
structure ProperAt (read : Reader α) (c : Cursor) : Prop where
  safe : SafeAt c (read c)
  alike : ∀ d, AgreeToEnd c d → Alike (read c) (read d)

lemma properAt_ok (a : α) : ProperAt (fun c => .ok (a, c)) c :=
  ⟨safeAt_ok a c, fun _ h => .ok h⟩

lemma properAt_fault (t : Token) (fault : GrammarFault) :
    ProperAt (fun _ => .error (t.fault fault) : Reader α) c :=
  ⟨safeAt_fault t fault c, fun _ _ => .error _⟩

lemma ProperAt.andThen {read : Reader α} {next : α → Reader β} (h : ProperAt read c)
    (hnext : ∀ a c, ProperAt (next a) c) : ProperAt (andThen read next) c where
  safe := h.safe.andThen fun a c' => (hnext a c').safe
  alike := fun d hd => (h.alike d hd).andThen fun a c' d' _ _ hd' => (hnext a c').alike d' hd'

lemma ProperAt.advance {read : Reader α} {t : Token} {ts : List Token} {last : Option Token}
    (h : ProperAt read ⟨ts, last⟩) (hne : t.kind ≠ .theEnd) :
    ProperAt (fun c => read c.advance) ⟨t :: ts, last⟩ where
  safe := by
    refine ⟨fun a c' ha => ?_, h.safe.faults⟩
    obtain ⟨hlast, hahead⟩ := h.safe.passes a c' ha
    exact ⟨hlast, hahead.trans (List.suffix_cons t ts)⟩
  alike := by
    intro d hd
    obtain ⟨_, _, us, _, last', ⟨⟩, rfl⟩ := hd.exists_cons
    exact h.alike _ (hd.tail hne)

lemma fault_of_peek {e : Error} (h : c.peek = .error e) : e = .grammar 1 .theEnd .noTokens := by
  unfold Cursor.peek at h
  split at h <;> cases h
  rfl

lemma properAt_peek {body : Token → Reader α} (h : ∀ t, c.peek = .ok t → ProperAt (body t) c) :
    ProperAt (fun c => c.peek >>= fun t => body t c) c where
  safe := by
    refine ⟨fun a c' ha => ?_, fun e he => ?_⟩
    · obtain ⟨t, ht, ha⟩ := ok_of_bind ha
      exact (h t ht).safe.passes a c' ha
    · rcases error_of_bind he with he | ⟨t, ht, he⟩
      · exact ⟨_, _, _, fault_of_peek he⟩
      · exact (h t ht).safe.faults e he
  alike := by
    intro d hd
    obtain ⟨t, ts, us, last, last', rfl, rfl⟩ := hd.exists_cons
    exact (h t rfl).alike _ hd

lemma properAt_ite {read read' : Reader α} (h : ProperAt read c) (h' : ProperAt read' c)
    (kind : TokenKind) : ProperAt (fun c => if c.sees kind then read c else read' c) c where
  safe := by
    split
    · exact h.safe
    · exact h'.safe
  alike := by
    intro d hd
    -- both cursors are on the same token
    have hsees : c.sees kind = d.sees kind := by
      obtain ⟨t, ts, us, last, last', rfl, rfl⟩ := hd.exists_cons
      rfl
    simp only [← hsees]
    split
    · exact h.alike d hd
    · exact h'.alike d hd

section AfterToken

variable {body : Token → Reader α} (hbody : ∀ t c, ProperAt (body t) c)
include hbody

lemma properAt_afterToken
    (hend : ∀ t, t.kind = .theEnd → ∃ fault, body t = fun _ => .error (t.fault fault)) :
    ProperAt (afterToken body) c := by
  refine properAt_peek fun t ht => ?_
  by_cases hkind : t.kind = .theEnd
  · obtain ⟨fault, hfault⟩ := hend t hkind
    rw [hfault]
    exact properAt_fault t fault
  · obtain ⟨_ | ⟨first, ts⟩, last⟩ := c
    · -- no token is ahead, and so the cursor stays where it is
      exact ⟨(hbody t _).safe, fun d hd => by cases hd⟩
    · cases ht
      exact (hbody t _).advance hkind

lemma suffix_tail_of_afterToken {a : α} {c' : Cursor} (h : afterToken body c = .ok (a, c')) :
    c'.ahead <:+ c.ahead.tail := by
  obtain ⟨t, -, h⟩ := ok_of_bind h
  exact ((hbody t c.advance).safe.passes a c' h).2

end AfterToken

lemma properAt_expect {kind : TokenKind} (hkind : kind ≠ .theEnd) (wanted : GrammarFault) :
    ProperAt (fun c => c.expect kind wanted) c := by
  have hexpect : (fun c => c.expect kind wanted : Reader Token) =
      afterToken fun t c => if t.kind ≠ kind then .error (t.fault wanted) else .ok (t, c) := by
    simp only [Cursor.expect, if_neg hkind]
    rfl
  rw [hexpect]
  refine properAt_afterToken (fun t c => ?_) fun t ht => ⟨wanted, ?_⟩
  · split
    · exact properAt_fault t wanted
    · exact properAt_ok t
  · exact funext fun _ => if_pos (ht ▸ hkind.symm)

lemma properAt_expect_theEnd (wanted : GrammarFault) :
    ProperAt (fun c => c.expect .theEnd wanted) c := by
  refine properAt_peek fun t _ => ?_
  split
  · exact properAt_fault t wanted
  · exact properAt_ok t

end Proper

/-! ### Loops -/

section Loop

variable {α : Type}

structure Progressive (starts : Token → Bool) (round : Reader α) : Prop where
  proper : ∀ t ts last, starts t = true → ProperAt round ⟨t :: ts, last⟩
  suffix : ∀ t ts last a c, starts t = true → round ⟨t :: ts, last⟩ = .ok (a, c) → c.ahead <:+ ts

variable {starts : Token → Bool} {round : Reader α} {t : Token} {ts : List Token}
  {last : Option Token}

lemma loop_of_not_starts (ht : ¬ starts t = true) (n : Nat) :
    loop starts round n ⟨t :: ts, last⟩ = .ok ([], ⟨t :: ts, last⟩) := by
  cases n with
  | zero => rfl
  | succ n => exact if_neg ht

lemma loop_of_starts (ht : starts t = true) (n : Nat) :
    loop starts round (n + 1) ⟨t :: ts, last⟩ =
      andThen round (fun a => andThen (loop starts round n) fun as c => .ok (a :: as, c))
        ⟨t :: ts, last⟩ :=
  if_pos ht

variable (h : Progressive starts round)
include h

lemma loop_safeAt (n : Nat) (c : Cursor) : SafeAt c (loop starts round n c) := by
  induction n generalizing c with
  | zero => exact safeAt_ok [] c
  | succ n ih =>
    obtain ⟨_ | ⟨t, ts⟩, last⟩ := c
    · exact safeAt_ok [] _
    by_cases ht : starts t = true
    · rw [loop_of_starts ht]
      exact (h.proper t ts last ht).safe.andThen fun a c =>
        (ih c).andThen fun as c => safeAt_ok (a :: as) c
    · rw [loop_of_not_starts ht]
      exact safeAt_ok [] _

lemma loop_alike {n m : Nat} {c d : Cursor} (hcd : AgreeToEnd c d) (hn : c.ahead.length ≤ n)
    (hm : d.ahead.length ≤ m) : Alike (loop starts round n c) (loop starts round m d) := by
  -- both loops do the same rounds, and each of them passes a token on both sides
  induction n generalizing m c d with
  | zero =>
    obtain ⟨t, ts, us, last, last', rfl, rfl⟩ := hcd.exists_cons
    cases hn
  | succ n ih =>
    obtain ⟨t, ts, us, last, last', rfl, rfl⟩ := hcd.exists_cons
    by_cases ht : starts t = true
    · cases m with
      | zero => cases hm
      | succ m =>
        rw [loop_of_starts ht, loop_of_starts ht]
        refine ((h.proper t ts last ht).alike _ hcd).andThen fun a c d hc hd hcd => ?_
        have hc := (h.suffix _ _ _ _ _ ht hc).length_le
        have hd := (h.suffix _ _ _ _ _ ht hd).length_le
        rw [List.length_cons] at hn hm
        exact (ih hcd (by omega) (by omega)).andThen fun as c d _ _ hcd => .ok hcd
    · rw [loop_of_not_starts ht, loop_of_not_starts ht]
      exact .ok hcd

lemma properAt_rounds (c : Cursor) : ProperAt (rounds starts round) c :=
  ⟨loop_safeAt h _ c, fun _ hd => loop_alike h hd (Nat.le_refl _) (Nat.le_refl _)⟩

end Loop

/-! ### The parser -/

structure ProperTerm (read : TermReader) : Prop where
  proper : ∀ c, ProperAt read c
  suffix : ∀ c t c', read c = .ok (t, c') → c'.ahead <:+ c.ahead.tail

lemma sees_eq (c : Cursor) (kind : TokenKind) :
    c.sees kind = c.ahead.head?.any (·.kind = kind) := by
  obtain ⟨_ | ⟨t, ts⟩, last⟩ := c <;> rfl

/-- The token starts an argument of a name on this line. -/
def argumentStarts (line : Nat) (t : Token) : Bool :=
  t.line ≤ line && (t.kind = .ident || t.kind = .literal || t.kind = .openBrace)

lemma startsArgument_eq (line : Nat) (c : Cursor) :
    startsArgument line c = c.ahead.head?.any (argumentStarts line) := by
  obtain ⟨_ | ⟨t, ts⟩, last⟩ := c <;> rfl

section Equations

variable (read : TermReader)

lemma steps_eq_loop (n : Nat) (c : Cursor) :
    steps read n c = loop (·.kind = .pipe) (fun c => read c.advance) n c := by
  induction n generalizing c with
  | zero => rfl
  | succ n ih =>
    simp only [steps, loop, andThen, ih, sees_eq]
    rfl

lemma expression_eq : expression read =
    andThen read fun first =>
      andThen (rounds (·.kind = .pipe) fun c => read c.advance) fun rest c =>
        .ok (.pipeline (first :: rest) first.line, c) := by
  funext c
  simp only [expression, steps_eq_loop]
  rfl

lemma furtherMembers_eq_loop (n : Nat) (c : Cursor) :
    furtherMembers read n c =
      loop (·.kind = .semicolon) (fun c => expression read c.advance) n c := by
  induction n generalizing c with
  | zero => rfl
  | succ n ih =>
    simp only [furtherMembers, loop, andThen, ih, sees_eq]
    rfl

lemma arguments_eq_loop (line n : Nat) (c : Cursor) :
    arguments read line n c = loop (argumentStarts line) read n c := by
  induction n generalizing c with
  | zero => rfl
  | succ n ih =>
    simp only [arguments, loop, andThen, ih, startsArgument_eq]
    rfl

lemma members_eq (c : Cursor) : members read c =
    if c.sees .closeBrace then .ok ([], c)
    else andThen (expression read) (fun e =>
      andThen (rounds (·.kind = .semicolon) fun c => expression read c.advance) fun es c =>
        .ok (e :: es, c)) c := by
  simp only [members, furtherMembers_eq_loop]
  rfl

end Equations

/-- What a term consists of after its first token, with this many levels for it. -/
def termAfter (levels : Nat) (t : Token) : Reader Term :=
  match t.kind with
  | .openBrace =>
    andThen (members (term levels)) fun es =>
      andThen (fun c => c.expect .closeBrace .closeBrace) fun _ c => .ok (.group es t.line, c)
  | .ident =>
    andThen (rounds (argumentStarts t.line) (term levels)) fun args c =>
      .ok (nameOrCall t.lexeme t.line args, c)
  | .literal => fun c => .ok (.literal t.lexeme t.line, c)
  | .openParen => fun _ => .error (t.fault .parenthesised)
  | .theEnd => fun _ => .error (t.fault .expression)
  | _ => fun _ => .error (t.fault (.unexpected t.lexeme))

lemma term_succ_eq (levels : Nat) : term (levels + 1) = afterToken (termAfter levels) := by
  funext c
  refine bind_congr fun t => ?_
  obtain ⟨kind, lexeme, line⟩ := t
  simp only [termAfter, arguments_eq_loop]
  cases kind <;> rfl

lemma definition_eq : definition =
    andThen (fun c => c.expect .ident .functionName) fun name =>
    andThen (fun c => c.expect .openParen .openParen) fun _ =>
    andThen (fun c => c.expect .ident .parameterName) fun parameter =>
    andThen (fun c => c.expect .closeParen .closeParen) fun _ =>
    andThen (fun c => c.expect .equals .equals) fun equals =>
    andThen (expression (term maxNesting)) fun body c =>
      .ok (⟨name.lexeme, parameter.lexeme, body, equals.line⟩, c) := rfl

lemma definitions_eq_loop (n : Nat) (c : Cursor) :
    definitions n c = loop (·.kind = .define) (fun c => definition c.advance) n c := by
  induction n generalizing c with
  | zero => rfl
  | succ n ih =>
    simp only [definitions, loop, andThen, ih, sees_eq]
    rfl

/-- A program and the end after it. -/
def program : Reader Program :=
  andThen (rounds (·.kind = .define) fun c => definition c.advance) fun ds =>
  andThen (expression (term maxNesting)) fun e =>
  andThen (fun c => c.expect .theEnd .endOfInput) fun _ c => .ok (⟨ds, e⟩, c)

lemma ofTokens_eq (ts : List Token) :
    Program.ofTokens ts = Prod.fst <$> program (Cursor.ofTokens ts) := by
  simp only [Program.ofTokens, definitions_eq_loop, program, andThen, rounds, map_bind]
  rfl

/-! ### The parser is proper -/

lemma progressive_after {α : Type} {read : Reader α} (h : ∀ c, ProperAt read c)
    (kind : TokenKind) (hkind : kind ≠ .theEnd) :
    Progressive (·.kind = kind) fun c => read c.advance where
  proper := by
    intro t ts last ht
    have ht : t.kind = kind := of_decide_eq_true ht
    exact (h _).advance (ht ▸ hkind)
  suffix := by
    intro t ts last a c _ ha
    exact ((h _).safe.passes a c ha).2

lemma ProperTerm.progressive {read : TermReader} (h : ProperTerm read) (starts : Token → Bool) :
    Progressive starts read :=
  ⟨fun _ _ _ _ => h.proper _, fun _ _ _ _ _ _ ha => h.suffix _ _ _ ha⟩

section Term

variable {read : TermReader} (h : ProperTerm read)
include h

lemma properAt_expression (c : Cursor) : ProperAt (expression read) c := by
  rw [expression_eq]
  refine (h.proper c).andThen fun first c => ?_
  have hsteps := progressive_after h.proper .pipe (by decide)
  exact (properAt_rounds hsteps c).andThen fun rest c => properAt_ok _

lemma properAt_members (c : Cursor) : ProperAt (members read) c := by
  rw [funext (members_eq read)]
  refine properAt_ite (properAt_ok []) ((properAt_expression h c).andThen fun e c => ?_) .closeBrace
  have hfurther := progressive_after (properAt_expression h) .semicolon (by decide)
  exact (properAt_rounds hfurther c).andThen fun es c => properAt_ok _

end Term

lemma properAt_termAfter {levels : Nat} (h : ProperTerm (term levels)) (t : Token) (c : Cursor) :
    ProperAt (termAfter levels t) c := by
  unfold termAfter
  split
  · exact (properAt_members h c).andThen fun es c =>
      (properAt_expect (by decide) _).andThen fun _ c => properAt_ok _
  · exact (properAt_rounds (h.progressive _) c).andThen fun args c => properAt_ok _
  · exact properAt_ok _
  all_goals exact properAt_fault t _

lemma properTerm (levels : Nat) : ProperTerm (term levels) := by
  induction levels with
  | zero =>
    have hbody (t : Token) (c : Cursor) :
        ProperAt (fun _ => .error (t.fault .tooDeep) : Reader Term) c := properAt_fault t .tooDeep
    exact ⟨fun c => properAt_afterToken hbody fun t _ => ⟨.tooDeep, rfl⟩,
      fun c t c' hr => suffix_tail_of_afterToken hbody hr⟩
  | succ levels ih =>
    rw [term_succ_eq]
    have hbody := properAt_termAfter ih
    refine ⟨fun c => properAt_afterToken hbody fun t ht => ⟨.expression, ?_⟩,
      fun c t c' hr => suffix_tail_of_afterToken hbody hr⟩
    simp only [termAfter, ht]

lemma properAt_definition (c : Cursor) : ProperAt definition c := by
  rw [definition_eq]
  exact (properAt_expect (by decide) _).andThen fun name c =>
    (properAt_expect (by decide) _).andThen fun _ c =>
    (properAt_expect (by decide) _).andThen fun parameter c =>
    (properAt_expect (by decide) _).andThen fun _ c =>
    (properAt_expect (by decide) _).andThen fun equals c =>
    (properAt_expression (properTerm _) c).andThen fun body c => properAt_ok _

lemma properAt_program (c : Cursor) : ProperAt program c := by
  have hdefinitions := progressive_after properAt_definition .define (by decide)
  exact (properAt_rounds hdefinitions c).andThen fun ds c =>
    (properAt_expression (properTerm _) c).andThen fun e c =>
    (properAt_expect_theEnd _).andThen fun _ c => properAt_ok _

/-! ### The program of any tokens -/

section Tokens

variable {ts us : List Token}

lemma ofTokens_of_agreeToEnd (h : AgreeToEnd (Cursor.ofTokens ts) (Cursor.ofTokens us)) :
    Program.ofTokens ts = Program.ofTokens us := by
  have halike := (properAt_program (Cursor.ofTokens ts)).alike _ h
  rw [ofTokens_eq, ofTokens_eq]
  generalize program (Cursor.ofTokens ts) = x, program (Cursor.ofTokens us) = y at halike
  cases halike <;> rfl

lemma grammar_of_ofTokens {e : Error} (h : Program.ofTokens ts = .error e) :
    ∃ line place fault, e = .grammar line place fault := by
  have hfaults := (properAt_program (Cursor.ofTokens ts)).safe.faults
  rw [ofTokens_eq] at h
  generalize program (Cursor.ofTokens ts) = x at h hfaults
  cases x with
  | error e' =>
    cases h
    exact hfaults e rfl
  | ok r => cases h

lemma mem_of_peek {c : Cursor} {t : Token} (hlast : c.last = ts.getLast?) (hahead : c.ahead <:+ ts)
    (h : c.peek = .ok t) : t ∈ ts := by
  obtain ⟨_ | ⟨first, rest⟩, last⟩ := c
  · cases last with
    | none => cases h
    | some last =>
      cases h
      exact List.mem_of_getLast? hlast.symm
  · cases h
    exact hahead.subset List.mem_cons_self

lemma peek_of_program {c c' : Cursor} {p : Program} (h : program c = .ok (p, c')) :
    ∃ t, c'.peek = .ok t ∧ t.kind = .theEnd := by
  obtain ⟨⟨ds, c₁⟩, -, h⟩ := ok_of_bind h
  obtain ⟨⟨e, c₂⟩, -, h⟩ := ok_of_bind h
  obtain ⟨⟨found, c₃⟩, hexpect, h⟩ := ok_of_bind h
  cases h
  obtain ⟨t, ht, hexpect⟩ := ok_of_bind hexpect
  by_cases hkind : t.kind = .theEnd
  · rw [if_neg (not_not.mpr hkind), if_pos rfl] at hexpect
    cases hexpect
    exact ⟨found, ht, hkind⟩
  · rw [if_pos hkind] at hexpect
    cases hexpect

lemma exists_theEnd_of_ofTokens {p : Program} (h : Program.ofTokens ts = .ok p) :
    ∃ t ∈ ts, t.kind = .theEnd := by
  rw [ofTokens_eq] at h
  rcases hprogram : program (Cursor.ofTokens ts) with e | ⟨q, c⟩
  · rw [hprogram] at h
    cases h
  · obtain ⟨t, hpeek, hkind⟩ := peek_of_program hprogram
    obtain ⟨hlast, hahead⟩ := (properAt_program _).safe.passes q c hprogram
    exact ⟨t, mem_of_peek hlast hahead hpeek, hkind⟩

end Tokens

end TextPipeline.Parser
