import TextPipeline.Proofs.Procedure.Shape

/-!
Which programs can be lowered. Every node of a program stands in a context, and there is a rule for
what may stand there. Lowering succeeds if no name is defined twice and every node keeps its rule;
otherwise it names the first definition that repeats a name, or else the first node, from the
outside in and from left to right, that breaks its rule (`lower_ok_or_first_refusal`).
-/

namespace TextPipeline

open Lowering

/-! ### The nodes of a program -/

inductive Context
  | value
  | step

/-- A node of a program. What a term may be depends on its context and on the name in scope. -/
inductive Site
  | pipeline (e : Expression)
  | term (context : Context) (scope : String) (t : Term)

def Site.line : Site → Nat
  | pipeline e => e.line
  | term _ _ t => t.line

mutual

/-- A term and all below it, every node before those below it. -/
def Term.sites (context : Context) (scope : String) : Term → List Site
  | .identifier name line => [.term context scope (.identifier name line)]
  | .literal text line => [.term context scope (.literal text line)]
  | .call target arguments line =>
    .term context scope (.call target arguments line) :: sitesOfTerms .value scope arguments
  | .group es line => .term context scope (.group es line) :: sitesOfMembers scope es

def sitesOfTerms (context : Context) (scope : String) : List Term → List Site
  | [] => []
  | t :: ts => t.sites context scope ++ sitesOfTerms context scope ts

/-- The first term of a pipeline is a value, the others are steps. -/
def Expression.sites (scope : String) : Expression → List Site
  | .pipeline [] line => [.pipeline (.pipeline [] line)]
  | .pipeline (t :: ts) line =>
    .pipeline (.pipeline (t :: ts) line) :: (t.sites .value scope ++ sitesOfTerms .step scope ts)

def sitesOfMembers (scope : String) : List Expression → List Site
  | [] => []
  | e :: es => e.sites scope ++ sitesOfMembers scope es

end

/-- The nodes of a program: those of its definitions in order, then those of the expression. -/
def Program.sites (p : Program) : List Site :=
  p.definitions.flatMap (fun d => d.body.sites d.parameter) ++ p.expression.sites inputName

/-- The names that the calls of a program can refer to. -/
def Program.names (catalog : Catalog) (p : Program) : Names :=
  ⟨catalog, p.definitions.map (·.name)⟩

/-! ### The rules -/

namespace Lowering.Names

/-- The name is that of a definition, and of no builtin. -/
def IsFunction (names : Names) (name : String) : Prop :=
  names.catalog.find? name = none ∧ name ∈ names.functions

instance (names : Names) (name : String) : Decidable (names.IsFunction name) :=
  inferInstanceAs (Decidable (_ ∧ _))

/-- Nothing has this name. -/
def IsUnknown (names : Names) (name : String) : Prop :=
  names.catalog.find? name = none ∧ name ∉ names.functions

end Lowering.Names

/-- The node keeps its rule. -/
def Site.Allowed (names : Names) : Site → Prop
  | pipeline e => e.terms ≠ []
  | term _ _ (.literal _ _) | term _ _ (.group _ _) => True
  | term .value scope (.identifier name _) => name = scope
  | term .step scope (.identifier name _) => name ≠ scope ∧
      ((∃ d, names.catalog.find? name = some d ∧ d.arity = 0) ∨ names.IsFunction name)
  | term .value _ (.call target arguments _) =>
      (∃ d, names.catalog.find? target = some d ∧ arguments.length = d.arity + 1) ∨
        (names.IsFunction target ∧ arguments.length = 1)
  | term .step _ (.call target arguments _) =>
      ∃ d, names.catalog.find? target = some d ∧ arguments.length = d.arity

inductive Site.Refused (names : Names) : Site → ResolutionFault → Prop
  | emptyPipeline {line} : Refused names (pipeline (.pipeline [] line)) .emptyPipeline
  | unknownIdentifier {scope name line} : name ≠ scope →
      Refused names (term .value scope (.identifier name line)) (.unknownIdentifier name)
  | parameterCalled {scope line} :
      Refused names (term .step scope (.identifier scope line)) (.parameterCalled scope)
  | unknownStep {scope name line} : name ≠ scope → names.IsUnknown name →
      Refused names (term .step scope (.identifier name line)) (.unknownFunction name)
  | missingArguments {scope name line d} : name ≠ scope → names.catalog.find? name = some d →
      d.arity ≠ 0 →
      Refused names (term .step scope (.identifier name line)) (.missingArguments name d.arity)
  | unknownCall {context scope target arguments line} : names.IsUnknown target →
      Refused names (term context scope (.call target arguments line)) (.unknownFunction target)
  | valueArguments {scope target arguments line d} : names.catalog.find? target = some d →
      arguments.length ≠ d.arity + 1 →
      Refused names (term .value scope (.call target arguments line))
        (.valueArguments target (d.arity + 1))
  | oneArgument {scope target arguments line} : names.IsFunction target →
      arguments.length ≠ 1 →
      Refused names (term .value scope (.call target arguments line)) (.oneArgument target)
  | stepArguments {scope target arguments line d} : names.catalog.find? target = some d →
      arguments.length ≠ d.arity →
      Refused names (term .step scope (.call target arguments line)) (.stepArguments target d.arity)
  | functionArguments {scope target arguments line} : names.IsFunction target →
      Refused names (term .step scope (.call target arguments line)) (.functionArguments target)

/-- The error is that of the first node of the list that breaks its rule. -/
def FirstRefused (names : Names) (sites : List Site) (e : Error) : Prop :=
  ∃ before s after fault, sites = before ++ s :: after ∧ (∀ x ∈ before, x.Allowed names) ∧
    s.Refused names fault ∧ e = .resolution s.line fault

/-- The error is that of the first definition with the name of one before it. -/
def FirstRepetition (ds : List Definition) (e : Error) : Prop :=
  ∃ before d after, ds = before ++ d :: after ∧ (before.map (·.name)).Nodup ∧
    d.name ∈ before.map (·.name) ∧ e = .resolution d.line (.alreadyDefined d.name)

lemma Site.Refused.not_allowed {names : Names} {s : Site} {fault : ResolutionFault}
    (h : s.Refused names fault) : ¬ s.Allowed names := by
  cases h with
  | emptyPipeline => exact fun h => h rfl
  | unknownIdentifier hne => exact hne
  | parameterCalled => exact fun h => h.1 rfl
  | unknownStep _ hunknown => grind [Site.Allowed, Names.IsUnknown, Names.IsFunction]
  | missingArguments _ hd harity => grind [Site.Allowed, Names.IsFunction]
  | @unknownCall context _ _ _ _ hunknown =>
    cases context <;> grind [Site.Allowed, Names.IsUnknown, Names.IsFunction]
  | valueArguments hd hlen => grind [Site.Allowed, Names.IsFunction]
  | oneArgument hfun hlen => grind [Site.Allowed, Names.IsFunction]
  | stepArguments hd hlen => grind [Site.Allowed]
  | functionArguments hfun => grind [Site.Allowed, Names.IsFunction]

lemma Site.Refused.unique {names : Names} {s : Site} {fault other : ResolutionFault}
    (h : s.Refused names fault) (h' : s.Refused names other) : fault = other := by
  cases h <;> cases h' <;> grind [Names.IsUnknown, Names.IsFunction]

lemma FirstRefused.not_allowed {names : Names} {sites : List Site} {e : Error}
    (h : FirstRefused names sites e) : ¬ ∀ s ∈ sites, s.Allowed names := by
  obtain ⟨before, s, after, fault, rfl, -, hs, -⟩ := h
  exact fun hall => hs.not_allowed (hall s (by simp))

lemma FirstRefused.unique {names : Names} {sites : List Site} {e other : Error}
    (h : FirstRefused names sites e) (h' : FirstRefused names sites other) : e = other := by
  obtain ⟨before, s, after, fault, rfl, hbefore, hs, rfl⟩ := h
  obtain ⟨before', s', after', fault', hsplit, hbefore', hs', rfl⟩ := h'
  obtain ⟨-, rfl, -⟩ :=
    append_cons_inj hbefore hbefore' hs.not_allowed hs'.not_allowed hsplit
  rw [hs.unique hs']

lemma FirstRepetition.not_nodup {ds : List Definition} {e : Error} (h : FirstRepetition ds e) :
    ¬ (ds.map (·.name)).Nodup := by
  obtain ⟨before, d, after, rfl, -, hmem, -⟩ := h
  rw [List.map_append, List.nodup_append]
  rintro ⟨-, -, hdisjoint⟩
  exact hdisjoint d.name hmem d.name (by simp) rfl

/-! ### Lowering keeps to the rules -/

namespace Lowering

variable {names : Names}

/-- A computation that succeeds if all these nodes keep their rules, and otherwise stops at the
first that does not. -/
inductive Checks (names : Names) {α : Type} (sites : List Site) : Except Error α → Prop
  | ok {a} : (∀ s ∈ sites, s.Allowed names) → Checks names sites (.ok a)
  | error {e} : FirstRefused names sites e → Checks names sites (.error e)

namespace Checks

variable {α β : Type} {xs ys : List Site} {x : Except Error α}

lemma bind {k : α → Except Error β} (hx : Checks names xs x) (hk : ∀ a, Checks names ys (k a)) :
    Checks names (xs ++ ys) (x >>= k) := by
  cases hx with
  | @ok a hxs =>
    change Checks names (xs ++ ys) (k a)
    generalize hy : k a = y
    cases hy ▸ hk a with
    | ok hys => exact .ok fun s hs => (List.mem_append.mp hs).elim (hxs s) (hys s)
    | error hys =>
      obtain ⟨before, s, after, fault, rfl, hbefore, hs, rfl⟩ := hys
      refine .error ⟨xs ++ before, s, after, fault, (List.append_assoc ..).symm, ?_, hs, rfl⟩
      exact fun s hs => (List.mem_append.mp hs).elim (hxs s) (hbefore s)
  | error hxs =>
    obtain ⟨before, s, after, fault, rfl, hbefore, hs, rfl⟩ := hxs
    exact .error ⟨before, s, after ++ ys, fault, by simp, hbefore, hs, rfl⟩

lemma bind_ok {k : α → Except Error β} (hx : Checks names xs x)
    (hk : ∀ a, ∃ b, k a = .ok b) : Checks names xs (x >>= k) := by
  have h : Checks names (xs ++ []) (x >>= k) := hx.bind fun a => by
    obtain ⟨b, hb⟩ := hk a
    exact hb ▸ .ok (by simp)
  simpa using h

lemma cons {s : Site} (hs : s.Allowed names) (hx : Checks names xs x) :
    Checks names (s :: xs) x := by
  have hfirst : Checks names [s] (.ok () : Except Error Unit) := .ok (by simpa using hs)
  exact hfirst.bind fun _ => hx

lemma refused {s : Site} {line : Nat} {fault : ResolutionFault} (hs : s.Refused names fault)
    (hline : line = s.line) :
    Checks names (s :: xs) (.error (.resolution line fault) : Except Error α) :=
  .error ⟨[], s, xs, fault, rfl, by simp, hs, by rw [hline]⟩

end Checks

lemma resolve_cases (names : Names) (name : String) (line : Nat) :
    (∃ d, names.catalog.find? name = some d ∧ names.resolve name line = .ok (.builtin d)) ∨
      (names.IsFunction name ∧ names.resolve name line = .ok (.function name)) ∨
      (names.IsUnknown name ∧
        names.resolve name line = .error (.resolution line (.unknownFunction name))) := by
  unfold Names.resolve
  cases hd : names.catalog.find? name with
  | some d => exact .inl ⟨d, rfl, rfl⟩
  | none =>
    by_cases hmem : name ∈ names.functions
    · exact .inr (.inl ⟨⟨hd, hmem⟩, if_pos hmem⟩)
    · exact .inr (.inr ⟨⟨hd, hmem⟩, if_neg hmem⟩)

-- Every case goes to the check of the node itself, and then to those of the nodes below it.
mutual

lemma value_checks : ∀ (scope : Scope) (next : Nat) (t : Term),
    Checks names (t.sites .value scope.parameter) (value names scope next t)
  | scope, next, .identifier name line => by
    rw [Term.sites, value]
    split
    · rename_i hname
      exact .cons hname (.ok (by simp))
    · rename_i hname
      exact .refused (.unknownIdentifier hname) rfl
  | scope, next, .literal text line => by
    rw [Term.sites, value]
    exact .cons trivial (.ok (by simp))
  | scope, next, .call target arguments line => by
    rw [Term.sites, value]
    obtain ⟨d, hd, hres⟩ | ⟨hfun, hres⟩ | ⟨hunknown, hres⟩ := resolve_cases names target line
    · -- a builtin
      rw [hres]
      change Checks names _ (if arguments.length ≠ d.operandCount then _ else _)
      split
      · rename_i hlen
        exact .refused (.valueArguments hd hlen) rfl
      · rename_i hlen
        refine .cons (.inl ⟨d, hd, not_not.mp hlen⟩) ?_
        exact (values_checks scope next arguments).bind_ok fun _ => ⟨_, rfl⟩
    · -- a function
      rw [hres]
      match arguments with
      | [] => exact .refused (.oneArgument hfun (by simp)) rfl
      | [argument] =>
        refine .cons (.inr ⟨hfun, rfl⟩) ?_
        rw [sitesOfTerms, sitesOfTerms, List.append_nil]
        exact (value_checks scope next argument).bind_ok fun _ => ⟨_, rfl⟩
      | _ :: _ :: _ => exact .refused (.oneArgument hfun (by simp)) rfl
    · -- neither
      rw [hres]
      exact .refused (.unknownCall hunknown) rfl
  | scope, next, .group es line => by
    rw [Term.sites, value]
    exact .cons trivial ((members_checks scope next es).bind_ok fun _ => ⟨_, rfl⟩)

lemma step_checks : ∀ (scope : Scope) (next : Nat) (current : Operand) (t : Term),
    Checks names (t.sites .step scope.parameter) (step names scope next current t)
  | scope, next, current, .identifier name line => by
    rw [Term.sites, step]
    split
    · rename_i hname
      subst hname
      exact .refused .parameterCalled rfl
    · rename_i hname
      obtain ⟨d, hd, hres⟩ | ⟨hfun, hres⟩ | ⟨hunknown, hres⟩ := resolve_cases names name line
      · -- a builtin, which may want arguments
        rw [hres]
        change Checks names _ (if d.arity = 0 then _ else _)
        split
        · rename_i harity
          exact .cons ⟨hname, .inl ⟨d, hd, harity⟩⟩ (.ok (by simp))
        · rename_i harity
          exact .refused (.missingArguments hname hd harity) rfl
      · -- a function
        rw [hres]
        exact .cons ⟨hname, .inr hfun⟩ (.ok (by simp))
      · -- neither
        rw [hres]
        exact .refused (.unknownStep hname hunknown) rfl
  | scope, next, current, .literal text line => by
    rw [Term.sites, step]
    exact .cons trivial (.ok (by simp))
  | scope, next, current, .call target arguments line => by
    rw [Term.sites, step]
    obtain ⟨d, hd, hres⟩ | ⟨hfun, hres⟩ | ⟨hunknown, hres⟩ := resolve_cases names target line
    · -- a builtin
      rw [hres]
      change Checks names _ (if arguments.length ≠ d.arity then _ else _)
      split
      · rename_i hlen
        exact .refused (.stepArguments hd hlen) rfl
      · rename_i hlen
        refine .cons ⟨d, hd, not_not.mp hlen⟩ ?_
        exact (values_checks scope next arguments).bind_ok fun _ => ⟨_, rfl⟩
    · -- a function, which takes no arguments as a step
      rw [hres]
      exact .refused (.functionArguments hfun) rfl
    · rw [hres]
      exact .refused (.unknownCall hunknown) rfl
  | scope, next, current, .group es line => by
    rw [Term.sites, step]
    exact .cons trivial
      ((members_checks { scope with current } next es).bind_ok fun _ => ⟨_, rfl⟩)

lemma values_checks : ∀ (scope : Scope) (next : Nat) (ts : List Term),
    Checks names (sitesOfTerms .value scope.parameter ts) (values names scope next ts)
  | scope, next, [] => .ok (by simp [sitesOfTerms])
  | scope, next, t :: ts => by
    rw [sitesOfTerms, values]
    refine (value_checks scope next t).bind fun ⟨_, code⟩ => ?_
    exact (values_checks scope (next + code.length) ts).bind_ok fun _ => ⟨_, rfl⟩

lemma steps_checks : ∀ (scope : Scope) (next : Nat) (current : Operand) (ts : List Term),
    Checks names (sitesOfTerms .step scope.parameter ts) (steps names scope next current ts)
  | scope, next, current, [] => .ok (by simp [sitesOfTerms])
  | scope, next, current, t :: ts => by
    rw [sitesOfTerms, steps]
    refine (step_checks scope next current t).bind fun ⟨operand, code⟩ => ?_
    exact (steps_checks scope (next + code.length) operand ts).bind_ok fun _ => ⟨_, rfl⟩

lemma expression_checks : ∀ (scope : Scope) (next : Nat) (e : Expression),
    Checks names (e.sites scope.parameter) (expression names scope next e)
  | scope, next, .pipeline [] line => by
    rw [Expression.sites, expression]
    exact .refused .emptyPipeline rfl
  | scope, next, .pipeline (t :: ts) line => by
    rw [Expression.sites, expression]
    refine .cons (List.cons_ne_nil t ts) ((value_checks scope next t).bind ?_)
    rintro ⟨operand, code⟩
    exact (steps_checks scope (next + code.length) operand ts).bind_ok fun _ => ⟨_, rfl⟩

lemma members_checks : ∀ (scope : Scope) (next : Nat) (es : List Expression),
    Checks names (sitesOfMembers scope.parameter es) (members names scope next es)
  | scope, next, [] => .ok (by simp [sitesOfMembers])
  | scope, next, e :: es => by
    rw [sitesOfMembers, members]
    refine (expression_checks scope next e).bind fun ⟨_, code⟩ => ?_
    exact (members_checks scope (next + code.length) es).bind_ok fun _ => ⟨_, rfl⟩

end

lemma procedure_checks (name parameter scopeName : String) (body : Expression) :
    Checks names (body.sites scopeName) (procedure names name parameter scopeName body) :=
  (expression_checks ⟨scopeName, .param⟩ 0 body).bind_ok fun _ => ⟨_, rfl⟩

lemma functions_check (ds : List Definition) :
    Checks names (ds.flatMap fun d => d.body.sites d.parameter) (ds.mapM (function names)) := by
  induction ds with
  | nil => exact .ok (by simp)
  | cons d ds ih =>
    rw [List.flatMap_cons, List.mapM_cons]
    exact (procedure_checks (functionName d.name) d.parameter d.parameter d.body).bind fun _ =>
      ih.bind_ok fun _ => ⟨_, rfl⟩

end Lowering

/-! ### Programs -/

namespace Program

variable (catalog : Catalog) (entry : String) {p : Program}

lemma lower_of_repetition {e : Error} (h : FirstRepetition p.definitions e) :
    p.lower catalog entry = .error e := by
  obtain ⟨before, d, after, hds, hnodup, hmem, rfl⟩ := h
  have hrep : firstRepeated Definition.name [] p.definitions = some d :=
    firstRepeated_eq_some.mpr ⟨before, after, hds, hnodup, by simp, by simpa using hmem⟩
  unfold lower
  rw [hrep]

/-- Where no name is defined twice, lowering checks the nodes of the program. -/
lemma lower_checks (h : (p.definitions.map (·.name)).Nodup) :
    Checks (p.names catalog) p.sites (p.lower catalog entry) := by
  have hrep : firstRepeated Definition.name [] p.definitions = none :=
    firstRepeated_eq_none.mpr ⟨h, fun _ _ => List.not_mem_nil⟩
  unfold lower
  rw [hrep]
  refine (functions_check p.definitions).bind fun _ => ?_
  exact (procedure_checks entry entryParameter inputName p.expression).bind_ok fun _ => ⟨_, rfl⟩

lemma exists_repetition (h : ¬ (p.definitions.map (·.name)).Nodup) :
    ∃ e, FirstRepetition p.definitions e := by
  cases hrep : firstRepeated Definition.name [] p.definitions with
  | none => exact absurd (firstRepeated_eq_none.mp hrep).1 h
  | some d =>
    obtain ⟨before, after, hds, hnodup, -, hmem⟩ := firstRepeated_eq_some.mp hrep
    exact ⟨_, before, d, after, hds, hnodup, by simpa using hmem, rfl⟩

/-- **Which programs can be lowered.** Lowering succeeds exactly if the names of the definitions
are distinct and every node keeps its rule. The only errors are that of the first repeated
definition and, where there is none, that of the first node that breaks its rule. -/
theorem lower_ok_or_first_refusal (catalog : Catalog) (entry : String) (p : Program) :
    ((∃ a, p.lower catalog entry = .ok a) ↔
      (p.definitions.map (·.name)).Nodup ∧ ∀ s ∈ p.sites, s.Allowed (p.names catalog)) ∧
    ∀ e, p.lower catalog entry = .error e ↔
      FirstRepetition p.definitions e ∨
        ((p.definitions.map (·.name)).Nodup ∧ FirstRefused (p.names catalog) p.sites e) := by
  by_cases hnodup : (p.definitions.map (·.name)).Nodup
  · -- no name is defined twice, and so the nodes decide
    have hrep (e : Error) : ¬ FirstRepetition p.definitions e := fun h => h.not_nodup hnodup
    simp only [hnodup, hrep, true_and, false_or]
    generalize hx : p.lower catalog entry = x
    cases hx ▸ lower_checks catalog entry hnodup with
    | @ok a hall =>
      refine ⟨⟨fun _ => hall, fun _ => ⟨a, rfl⟩⟩, fun e => ⟨nofun, fun he => ?_⟩⟩
      exact absurd hall he.not_allowed
    | @error e hfirst =>
      refine ⟨⟨nofun, fun hall => absurd hall hfirst.not_allowed⟩, fun other => ⟨?_, ?_⟩⟩
      · rintro ⟨⟩
        exact hfirst
      · exact fun hother => congrArg Except.error (hfirst.unique hother)
  · -- a name that is defined twice is found before any node
    obtain ⟨e, he⟩ := exists_repetition hnodup
    have hlower : p.lower catalog entry = .error e := lower_of_repetition catalog entry he
    simp only [hnodup, hlower, false_and, or_false]
    refine ⟨⟨nofun, False.elim⟩, fun other => ⟨?_, fun hother => ?_⟩⟩
    · rintro ⟨⟩
      exact he
    · exact hlower.symm.trans (lower_of_repetition catalog entry hother)

end Program

end TextPipeline
