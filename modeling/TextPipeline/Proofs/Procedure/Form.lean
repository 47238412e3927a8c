import TextPipeline.Procedure.Lowering
import TextPipeline.Proofs.Procedure.Meaning

/-!
What lowering emits.

First each form of a term is taken apart: if lowering succeeds on it, this is how. Then the
form of the code: the bindings assign consecutive temporaries, and each of them uses only what
was assigned before it.
-/

namespace TextPipeline.Lowering

/-! ### Taking lowering apart -/

section Inversion

variable {names : Names} {scope : Scope} {next line : Nat} {o current : Operand}
  {code : List Binding}

lemma resolve_ok {name : String} {callee : Callee} (h : names.resolve name line = .ok callee) :
    (∃ d, names.catalog.find? name = some d ∧ callee = .builtin d) ∨
      (names.catalog.find? name = none ∧ name ∈ names.functions ∧ callee = .function name) := by
  unfold Names.resolve at h
  split at h
  · rename_i d hd
    cases h
    exact .inl ⟨d, hd, rfl⟩
  · rename_i hd
    split at h
    · rename_i hmem
      cases h
      exact .inr ⟨hd, hmem, rfl⟩
    · cases h

lemma value_identifier_ok {name : String}
    (h : value names scope next (.identifier name line) = .ok (o, code)) :
    name = scope.parameter ∧ o = scope.current ∧ code = [] := by
  unfold value at h
  split at h
  · rename_i hname
    cases h
    exact ⟨hname, rfl, rfl⟩
  · cases h

lemma value_call_ok {target : String} {arguments : List Term}
    (h : value names scope next (.call target arguments line) = .ok (o, code)) :
    (∃ d operands before, names.catalog.find? target = some d ∧
        arguments.length = d.operandCount ∧
        values names scope next arguments = .ok (operands, before) ∧
        (o, code) = emit next before (.builtin d.builtin operands)) ∨
      (∃ operand before, names.catalog.find? target = none ∧ target ∈ names.functions ∧
        values names scope next arguments = .ok ([operand], before) ∧
        (o, code) = emit next before (.invoke (functionName target) operand)) := by
  unfold value at h
  obtain ⟨callee, hcallee, h⟩ := ok_of_bind h
  obtain ⟨d, hd, rfl⟩ | ⟨hd, hmem, rfl⟩ := resolve_ok hcallee
  · simp only at h
    split at h
    · -- the call has more or fewer arguments than the builtin takes
      cases h
    · rename_i hlen
      obtain ⟨⟨operands, before⟩, hvs, h⟩ := ok_of_bind h
      cases h
      exact .inl ⟨d, operands, before, hd, not_not.mp hlen, hvs, rfl⟩
  · -- a function takes one argument
    rcases arguments with _ | ⟨argument, _ | _⟩
    · cases h
    · obtain ⟨⟨operand, before⟩, hv, h⟩ := ok_of_bind h
      cases h
      refine .inr ⟨operand, before, hd, hmem, ?_, rfl⟩
      rw [values, hv]
      exact congrArg (fun code => Except.ok ([operand], code)) (List.append_nil before)
    · cases h

lemma value_group_ok {es : List Expression}
    (h : value names scope next (.group es line) = .ok (o, code)) :
    ∃ parts before, members names scope next es = .ok (parts, before) ∧
      (o, code) = emit next before (if parts.isEmpty then .literal "" else .join parts) := by
  unfold value at h
  obtain ⟨⟨parts, before⟩, hms, h⟩ := ok_of_bind h
  cases h
  exact ⟨parts, before, hms, rfl⟩

lemma step_identifier_ok {name : String}
    (h : step names scope next current (.identifier name line) = .ok (o, code)) :
    name ≠ scope.parameter ∧
      ((∃ d, names.catalog.find? name = some d ∧ d.arity = 0 ∧
          (o, code) = emit next [] (.builtin d.builtin [current])) ∨
        (names.catalog.find? name = none ∧ name ∈ names.functions ∧
          (o, code) = emit next [] (.invoke (functionName name) current))) := by
  unfold step at h
  split at h
  · cases h
  · rename_i hname
    refine ⟨hname, ?_⟩
    obtain ⟨callee, hcallee, h⟩ := ok_of_bind h
    obtain ⟨d, hd, rfl⟩ | ⟨hd, hmem, rfl⟩ := resolve_ok hcallee
    · -- a builtin that takes nothing but the value so far
      simp only at h
      split at h
      · rename_i harity
        cases h
        exact .inl ⟨d, hd, harity, rfl⟩
      · cases h
    · cases h
      exact .inr ⟨hd, hmem, rfl⟩

lemma step_call_ok {target : String} {arguments : List Term}
    (h : step names scope next current (.call target arguments line) = .ok (o, code)) :
    ∃ d operands before, names.catalog.find? target = some d ∧ arguments.length = d.arity ∧
      values names scope next arguments = .ok (operands, before) ∧
      (o, code) = emit next before (.builtin d.builtin (current :: operands)) := by
  unfold step at h
  obtain ⟨callee, hcallee, h⟩ := ok_of_bind h
  obtain ⟨d, hd, rfl⟩ | ⟨hd, hmem, rfl⟩ := resolve_ok hcallee
  · simp only at h
    split at h
    · cases h
    · rename_i hlen
      obtain ⟨⟨operands, before⟩, hvs, h⟩ := ok_of_bind h
      cases h
      exact ⟨d, operands, before, hd, not_not.mp hlen, hvs, rfl⟩
  · -- a function cannot be called with arguments as a step
    cases h

lemma step_group_ok {es : List Expression}
    (h : step names scope next current (.group es line) = .ok (o, code)) :
    ∃ parts before, members names { scope with current } next es = .ok (parts, before) ∧
      (o, code) = emit next before (if parts.isEmpty then .literal "" else .join parts) := by
  unfold step at h
  obtain ⟨⟨parts, before⟩, hms, h⟩ := ok_of_bind h
  cases h
  exact ⟨parts, before, hms, rfl⟩

lemma values_cons_ok {t : Term} {ts : List Term} {operands : List Operand}
    (h : values names scope next (t :: ts) = .ok (operands, code)) :
    ∃ operand before rest more, value names scope next t = .ok (operand, before) ∧
      values names scope (next + before.length) ts = .ok (rest, more) ∧
      operands = operand :: rest ∧ code = before ++ more := by
  unfold values at h
  obtain ⟨⟨operand, before⟩, hv, h⟩ := ok_of_bind h
  obtain ⟨⟨rest, more⟩, hvs, h⟩ := ok_of_bind h
  cases h
  exact ⟨operand, before, rest, more, hv, hvs, rfl, rfl⟩

lemma steps_cons_ok {t : Term} {ts : List Term}
    (h : steps names scope next current (t :: ts) = .ok (o, code)) :
    ∃ operand before more, step names scope next current t = .ok (operand, before) ∧
      steps names scope (next + before.length) operand ts = .ok (o, more) ∧
      code = before ++ more := by
  unfold steps at h
  obtain ⟨⟨operand, before⟩, hs, h⟩ := ok_of_bind h
  obtain ⟨⟨last, more⟩, hss, h⟩ := ok_of_bind h
  cases h
  exact ⟨operand, before, more, hs, hss, rfl⟩

lemma expression_cons_ok {t : Term} {ts : List Term}
    (h : expression names scope next (.pipeline (t :: ts) line) = .ok (o, code)) :
    ∃ operand before more, value names scope next t = .ok (operand, before) ∧
      steps names scope (next + before.length) operand ts = .ok (o, more) ∧
      code = before ++ more := by
  unfold expression at h
  obtain ⟨⟨operand, before⟩, hv, h⟩ := ok_of_bind h
  obtain ⟨⟨last, more⟩, hss, h⟩ := ok_of_bind h
  cases h
  exact ⟨operand, before, more, hv, hss, rfl⟩

lemma members_cons_ok {e : Expression} {es : List Expression} {parts : List Operand}
    (h : members names scope next (e :: es) = .ok (parts, code)) :
    ∃ part before rest more, expression names scope next e = .ok (part, before) ∧
      members names scope (next + before.length) es = .ok (rest, more) ∧
      parts = part :: rest ∧ code = before ++ more := by
  unfold members at h
  obtain ⟨⟨part, before⟩, he, h⟩ := ok_of_bind h
  obtain ⟨⟨rest, more⟩, hms, h⟩ := ok_of_bind h
  cases h
  exact ⟨part, before, rest, more, he, hms, rfl, rfl⟩

end Inversion

/-! ### Dense code -/

/-- The bindings assign the temporaries from `next` on, each from what is there before it. -/
def Dense (next : Nat) : List Binding → Prop
  | [] => True
  | b :: bs => b.temp = next ∧ (∀ o ∈ b.operation.operands, o.Below next) ∧ Dense (next + 1) bs

lemma Dense.append {next : Nat} {xs ys : List Binding} (hx : Dense next xs)
    (hy : Dense (next + xs.length) ys) : Dense next (xs ++ ys) := by
  induction xs generalizing next with
  | nil => simpa using hy
  | cons b bs ih =>
    obtain ⟨htemp, hops, hbs⟩ := hx
    refine ⟨htemp, hops, ih hbs ?_⟩
    rwa [List.length_cons, ← Nat.add_assoc, Nat.add_right_comm] at hy

lemma Dense.agreesBelow {call : Calls} {next : Nat} {code : List Binding} {f g : Frame}
    (hcode : Dense next code) (h : executed call code f = .done (.ok g)) :
    f.AgreesBelow next g := by
  induction code generalizing next f with
  | nil =>
    cases h
    exact .refl next g
  | cons b bs ih =>
    obtain ⟨rfl, -, hbs⟩ := hcode
    obtain ⟨_, -, hr⟩ | ⟨text, -, hrest⟩ := Outcome.bind_eq_done h
    · cases hr
    · exact (f.agreesBelow_set _ text).trans (ih hbs hrest) (Nat.le_succ _)

/-- Code that computes some operands: it is dense, and they are there after it. -/
def Emits (next : Nat) (os : List Operand) (code : List Binding) : Prop :=
  Dense next code ∧ ∀ o ∈ os, o.Below (next + code.length)

lemma Emits.nil {next : Nat} {os : List Operand} (h : ∀ o ∈ os, o.Below next) :
    Emits next os [] := ⟨trivial, h⟩

lemma Emits.append {next : Nat} {os qs : List Operand} {xs ys : List Binding}
    (hx : Emits next os xs) (hy : Emits (next + xs.length) qs ys) :
    Emits next (os ++ qs) (xs ++ ys) := by
  refine ⟨hx.1.append hy.1, fun o ho => ?_⟩
  rw [List.length_append, ← Nat.add_assoc]
  rcases List.mem_append.mp ho with h | h
  · exact (hx.2 o h).mono (Nat.le_add_right _ _)
  · exact hy.2 o h

lemma Emits.forget {next : Nat} {os : List Operand} {code : List Binding}
    (h : Emits next os code) : Emits next [] code := ⟨h.1, fun _ ho => nomatch ho⟩

lemma emits_of_emit {next : Nat} {o : Operand} {before code : List Binding} {op : Operation}
    (he : (o, code) = emit next before op) (h : Emits next op.operands before) :
    Emits next [o] code := by
  cases he
  refine ⟨h.1.append ⟨rfl, h.2, trivial⟩, ?_⟩
  simp [Operand.Below]

lemma operands_ite (parts : List Operand) :
    (if parts.isEmpty then Operation.literal "" else .join parts).operands = parts := by
  cases parts <;> rfl

variable {names : Names}

mutual

lemma value_emits : ∀ (scope : Scope) (next : Nat) (t : Term) {o : Operand} {code : List Binding},
    scope.current.Below next → value names scope next t = .ok (o, code) → Emits next [o] code
  | scope, next, .identifier name line, _, _, hcur, h => by
    obtain ⟨-, rfl, rfl⟩ := value_identifier_ok h
    exact .nil (by simpa using hcur)
  | scope, next, .literal text line, _, _, _, h => by
    rw [value] at h
    exact emits_of_emit (Except.ok.inj h).symm (.nil (by simp [Operation.operands]))
  | scope, next, .call target arguments line, _, _, hcur, h => by
    obtain ⟨d, os, before, -, -, hvs, he⟩ | ⟨o, before, -, -, hvs, he⟩ := value_call_ok h
    · exact emits_of_emit he (values_emits scope next arguments hcur hvs)
    · exact emits_of_emit he (values_emits scope next arguments hcur hvs)
  | scope, next, .group es line, _, _, hcur, h => by
    obtain ⟨parts, before, hms, he⟩ := value_group_ok h
    refine emits_of_emit he ?_
    rw [operands_ite]
    exact members_emits scope next es hcur hms

lemma step_emits : ∀ (scope : Scope) (next : Nat) (current : Operand) (t : Term) {o : Operand}
    {code : List Binding}, scope.current.Below next → current.Below next →
    step names scope next current t = .ok (o, code) → Emits next [o] code
  | scope, next, current, .identifier name line, _, _, _, hc, h => by
    obtain ⟨-, ⟨d, -, -, he⟩ | ⟨-, -, he⟩⟩ := step_identifier_ok h
    · exact emits_of_emit he (.nil (by simpa [Operation.operands] using hc))
    · exact emits_of_emit he (.nil (by simpa [Operation.operands] using hc))
  | scope, next, current, .literal text line, _, _, _, _, h => by
    rw [step] at h
    exact emits_of_emit (Except.ok.inj h).symm (.nil (by simp [Operation.operands]))
  | scope, next, current, .call target arguments line, _, _, hcur, hc, h => by
    obtain ⟨d, os, before, -, -, hvs, he⟩ := step_call_ok h
    have hvs := values_emits scope next arguments hcur hvs
    refine emits_of_emit he ⟨hvs.1, ?_⟩
    rintro o (_ | ⟨_, ho⟩)
    · -- the value so far stands before the code
      exact hc.mono (Nat.le_add_right _ _)
    · exact hvs.2 o ho
  | scope, next, current, .group es line, _, _, _, hc, h => by
    obtain ⟨parts, before, hms, he⟩ := step_group_ok h
    refine emits_of_emit he ?_
    rw [operands_ite]
    exact members_emits { scope with current } next es hc hms

lemma values_emits : ∀ (scope : Scope) (next : Nat) (ts : List Term) {os : List Operand}
    {code : List Binding}, scope.current.Below next →
    values names scope next ts = .ok (os, code) → Emits next os code
  | scope, next, [], _, _, _, h => by
    cases h
    exact .nil (by simp)
  | scope, next, t :: ts, _, _, hcur, h => by
    obtain ⟨o, before, rest, more, hv, hvs, rfl, rfl⟩ := values_cons_ok h
    exact (value_emits scope next t hcur hv).append
      (values_emits scope _ ts (hcur.mono (Nat.le_add_right _ _)) hvs)

lemma steps_emits : ∀ (scope : Scope) (next : Nat) (current : Operand) (ts : List Term)
    {o : Operand} {code : List Binding}, scope.current.Below next → current.Below next →
    steps names scope next current ts = .ok (o, code) → Emits next [o] code
  | scope, next, current, [], _, _, _, hc, h => by
    cases h
    exact .nil (by simpa using hc)
  | scope, next, current, t :: ts, o, _, hcur, hc, h => by
    obtain ⟨operand, before, more, hs, hss, rfl⟩ := steps_cons_ok h
    have hstep := step_emits scope next current t hcur hc hs
    have hrest := steps_emits scope _ operand ts (hcur.mono (Nat.le_add_right _ _))
      (hstep.2 operand (by simp)) hss
    exact hstep.forget.append hrest

lemma expression_emits : ∀ (scope : Scope) (next : Nat) (e : Expression) {o : Operand}
    {code : List Binding}, scope.current.Below next →
    expression names scope next e = .ok (o, code) → Emits next [o] code
  | scope, next, .pipeline [] line, _, _, _, h => by cases h
  | scope, next, .pipeline (t :: ts) line, o, _, hcur, h => by
    obtain ⟨operand, before, more, hv, hss, rfl⟩ := expression_cons_ok h
    have hvalue := value_emits scope next t hcur hv
    have hrest := steps_emits scope _ operand ts (hcur.mono (Nat.le_add_right _ _))
      (hvalue.2 operand (by simp)) hss
    exact hvalue.forget.append hrest

lemma members_emits : ∀ (scope : Scope) (next : Nat) (es : List Expression) {os : List Operand}
    {code : List Binding}, scope.current.Below next →
    members names scope next es = .ok (os, code) → Emits next os code
  | scope, next, [], _, _, _, h => by
    cases h
    exact .nil (by simp)
  | scope, next, e :: es, _, _, hcur, h => by
    obtain ⟨o, before, rest, more, he, hms, rfl, rfl⟩ := members_cons_ok h
    exact (expression_emits scope next e hcur he).append
      (members_emits scope _ es (hcur.mono (Nat.le_add_right _ _)) hms)

end

end TextPipeline.Lowering
