import TextPipeline.Proofs.Procedure.Resolution

/-!
Lowering among more definitions. A name that a program resolves is resolved in the same way when
there are more definitions, because builtins come first and a name that is new was unknown before.
So a body is lowered to the same code (`expression_keeps`), and a program that has all the
definitions of another has all of its procedures (`exists_lower_of_subset`).
-/

namespace TextPipeline

/-- Whatever the first computation returns, the second returns too. -/
def Keeps {α : Type} (x y : Except Error α) : Prop := ∀ a, x = .ok a → y = .ok a

lemma Keeps.refl {α : Type} (x : Except Error α) : Keeps x x := fun _ h => h

lemma Keeps.bind {α β : Type} {x y : Except Error α} {k l : α → Except Error β} (hx : Keeps x y)
    (hk : ∀ a, Keeps (k a) (l a)) : Keeps (x >>= k) (y >>= l) := by
  intro b h
  obtain ⟨a, ha, h⟩ := ok_of_bind h
  rw [bind_of_ok (hx a ha)]
  exact hk a b h

namespace Lowering

structure Names.Within (names more : Names) : Prop where
  catalog : more.catalog = names.catalog
  functions : names.functions ⊆ more.functions

variable {names more : Names}

lemma resolve_keeps (hsub : names.Within more) (name : String) (line : Nat) :
    Keeps (names.resolve name line) (more.resolve name line) := by
  intro callee h
  unfold Names.resolve
  rw [hsub.catalog]
  obtain ⟨d, hd, rfl⟩ | ⟨hd, hmem, rfl⟩ := resolve_ok h
  · rw [hd]
  · rw [hd]
    exact if_pos (hsub.functions hmem)

mutual

lemma value_keeps (hsub : names.Within more) : ∀ (scope : Scope) (next : Nat) (t : Term),
    Keeps (value names scope next t) (value more scope next t)
  | scope, next, .identifier name line => by
    rw [value, value]
    exact .refl _
  | scope, next, .literal text line => by
    rw [value, value]
    exact .refl _
  | scope, next, .call target arguments line => by
    rw [value, value]
    refine (resolve_keeps hsub target line).bind fun callee => ?_
    cases callee with
    | builtin d =>
      by_cases hlen : arguments.length ≠ d.operandCount
      · -- the wrong number of arguments is an error on both sides
        simp only [if_pos hlen]
        exact .refl _
      · simp only [if_neg hlen]
        exact (values_keeps hsub scope next arguments).bind fun _ => .refl _
    | function name =>
      match arguments with
      | [] => exact .refl _
      | [argument] => exact (value_keeps hsub scope next argument).bind fun _ => .refl _
      | _ :: _ :: _ => exact .refl _
  | scope, next, .group es line => by
    rw [value, value]
    exact (members_keeps hsub scope next es).bind fun _ => .refl _

lemma step_keeps (hsub : names.Within more) :
    ∀ (scope : Scope) (next : Nat) (current : Operand) (t : Term),
    Keeps (step names scope next current t) (step more scope next current t)
  | scope, next, current, .identifier name line => by
    rw [step, step]
    by_cases hname : name = scope.parameter
    · simp only [if_pos hname]
      exact .refl _
    · simp only [if_neg hname]
      exact (resolve_keeps hsub name line).bind fun _ => .refl _
  | scope, next, current, .literal text line => by
    rw [step, step]
    exact .refl _
  | scope, next, current, .call target arguments line => by
    rw [step, step]
    refine (resolve_keeps hsub target line).bind fun callee => ?_
    cases callee with
    | builtin d =>
      by_cases hlen : arguments.length ≠ d.arity
      · simp only [if_pos hlen]
        exact .refl _
      · simp only [if_neg hlen]
        exact (values_keeps hsub scope next arguments).bind fun _ => .refl _
    | function name => exact .refl _
  | scope, next, current, .group es line => by
    rw [step, step]
    exact (members_keeps hsub { scope with current } next es).bind fun _ => .refl _

lemma values_keeps (hsub : names.Within more) : ∀ (scope : Scope) (next : Nat) (ts : List Term),
    Keeps (values names scope next ts) (values more scope next ts)
  | scope, next, [] => by
    rw [values, values]
    exact .refl _
  | scope, next, t :: ts => by
    rw [values, values]
    exact (value_keeps hsub scope next t).bind fun ⟨_, code⟩ =>
      (values_keeps hsub scope (next + code.length) ts).bind fun _ => .refl _

lemma steps_keeps (hsub : names.Within more) :
    ∀ (scope : Scope) (next : Nat) (current : Operand) (ts : List Term),
    Keeps (steps names scope next current ts) (steps more scope next current ts)
  | scope, next, current, [] => by
    rw [steps, steps]
    exact .refl _
  | scope, next, current, t :: ts => by
    rw [steps, steps]
    exact (step_keeps hsub scope next current t).bind fun ⟨operand, code⟩ =>
      (steps_keeps hsub scope (next + code.length) operand ts).bind fun _ => .refl _

lemma expression_keeps (hsub : names.Within more) : ∀ (scope : Scope) (next : Nat) (e : Expression),
    Keeps (expression names scope next e) (expression more scope next e)
  | scope, next, .pipeline [] line => by
    rw [expression, expression]
    exact .refl _
  | scope, next, .pipeline (t :: ts) line => by
    rw [expression, expression]
    exact (value_keeps hsub scope next t).bind fun ⟨operand, code⟩ =>
      (steps_keeps hsub scope (next + code.length) operand ts).bind fun _ => .refl _

lemma members_keeps (hsub : names.Within more) :
    ∀ (scope : Scope) (next : Nat) (es : List Expression),
    Keeps (members names scope next es) (members more scope next es)
  | scope, next, [] => by
    rw [members, members]
    exact .refl _
  | scope, next, e :: es => by
    rw [members, members]
    exact (expression_keeps hsub scope next e).bind fun ⟨_, code⟩ =>
      (members_keeps hsub scope (next + code.length) es).bind fun _ => .refl _

end

lemma procedure_keeps (hsub : names.Within more) (name parameter scopeName : String)
    (body : Expression) : Keeps (procedure names name parameter scopeName body)
      (procedure more name parameter scopeName body) :=
  (expression_keeps hsub ⟨scopeName, .param⟩ 0 body).bind fun _ => .refl _

lemma exists_mapM {α β : Type} {f : α → Except Error β} {xs : List α}
    (h : ∀ x ∈ xs, ∃ y, f x = .ok y) : ∃ ys, xs.mapM f = .ok ys := by
  induction xs with
  | nil => exact ⟨[], rfl⟩
  | cons x xs ih =>
    obtain ⟨⟨y, hy⟩, hxs⟩ := List.forall_mem_cons.mp h
    obtain ⟨ys, hys⟩ := ih hxs
    refine ⟨y :: ys, ?_⟩
    rw [List.mapM_cons, bind_of_ok hy, bind_of_ok hys]
    rfl

lemma name_of_procedure {names : Names} {name parameter scopeName : String} {body : Expression}
    {q : Procedure} (h : procedure names name parameter scopeName body = .ok q) :
    q.name = name := by
  obtain ⟨_, -, hq⟩ := ok_of_bind h
  cases hq
  rfl

lemma parameter_of_procedure {names : Names} {name parameter scopeName : String}
    {body : Expression} {q : Procedure}
    (h : procedure names name parameter scopeName body = .ok q) : q.parameter = parameter := by
  obtain ⟨_, -, hq⟩ := ok_of_bind h
  cases hq
  rfl

end Lowering

namespace Program

open Lowering

variable {catalog : Catalog} {p q : Program} {entry : String} {a : Assembly}

lemma lower_of_ok {functions : List Procedure} {f : Procedure}
    (hnodup : (p.definitions.map (·.name)).Nodup)
    (hfunctions : p.definitions.mapM (function (p.names catalog)) = .ok functions)
    (hentry : procedure (p.names catalog) entry entryParameter inputName p.expression = .ok f) :
    p.lower catalog entry = .ok ⟨functions, f⟩ := by
  have hrepeated : firstRepeated Definition.name [] p.definitions = none :=
    firstRepeated_eq_none.mpr ⟨hnodup, fun _ _ => List.not_mem_nil⟩
  unfold lower
  rw [hrepeated]
  exact (bind_of_ok hfunctions _).trans (bind_of_ok hentry _)

lemma exists_lower_of_subset (h : p.lower catalog entry = .ok a)
    (hexpression : q.expression = p.expression) (hnodup : (q.definitions.map (·.name)).Nodup)
    (hsub : p.definitions ⊆ q.definitions)
    (hnew : ∀ d ∈ q.definitions, d ∈ p.definitions ∨
      ∃ f, function (q.names catalog) d = .ok f) :
    ∃ b, q.lower catalog entry = .ok b ∧ b.entry = a.entry ∧ a.functions ⊆ b.functions := by
  obtain ⟨-, hfs, hentry⟩ := lower_ok h
  have hwithin : (p.names catalog).Within (q.names catalog) := ⟨rfl, List.map_subset _ hsub⟩
  have hkeeps (d : Definition) : Keeps (function (p.names catalog) d)
      (function (q.names catalog) d) := procedure_keeps hwithin _ _ _ _
  have hall : ∀ d ∈ q.definitions, ∃ f, function (q.names catalog) d = .ok f := by
    intro d hd
    rcases hnew d hd with hold | hf
    · -- an old definition is lowered as it was
      obtain ⟨f, -, hf⟩ := exists_of_forall₂ (forall₂_of_mapM hfs) hold
      exact ⟨f, hkeeps d f hf⟩
    · exact hf
  obtain ⟨functions, hlowered⟩ := exists_mapM hall
  refine ⟨⟨functions, a.entry⟩, ?_, rfl, fun f hf => ?_⟩
  · exact lower_of_ok hnodup hlowered (hexpression ▸ procedure_keeps hwithin _ _ _ _ _ hentry)
  · -- what an old definition is lowered to is found again
    obtain ⟨d, hd, hdf⟩ := exists_of_forall₂ (forall₂_of_mapM hfs).flip hf
    obtain ⟨g, hg, hdg⟩ := exists_of_forall₂ (forall₂_of_mapM hlowered) (hsub hd)
    cases (hkeeps d f hdf).symm.trans hdg
    exact hg

end Program

end TextPipeline
