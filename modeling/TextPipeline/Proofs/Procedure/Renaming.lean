import TextPipeline.Proofs.Procedure.Weakening

/-!
Other names for the same program. Definitions are renamed with the calls that refer to them, and
parameters with their uses. If definitions keep apart from each other and from the builtins, and no
call is taken for the parameter, the program is lowered to the same code as before, except that
procedures and the invocations of them go by the new names (`exists_lower_renamed`).
-/

namespace TextPipeline

open Lowering

/-! ### Renamed programs -/

/-- New names for definitions and for their parameters. -/
structure Renaming where
  definition : String → String
  /-- The parameter of the definition that had this name. -/
  parameter : String → String

mutual

/-- The term with other called names and another name in scope. -/
def Term.renamed (call : String → String) (parameter : String) (context : Context) : Term → Term
  | .identifier name line =>
    match context with
    | .value => .identifier parameter line
    | .step => .identifier (call name) line
  | .literal text line => .literal text line
  | .call target arguments line =>
    .call (call target) (renamedTerms call parameter .value arguments) line
  | .group es line => .group (renamedMembers call parameter es) line

def renamedTerms (call : String → String) (parameter : String) (context : Context) :
    List Term → List Term
  | [] => []
  | t :: ts => t.renamed call parameter context :: renamedTerms call parameter context ts

def Expression.renamed (call : String → String) (parameter : String) : Expression → Expression
  | .pipeline [] line => .pipeline [] line
  | .pipeline (t :: ts) line =>
    .pipeline (t.renamed call parameter .value :: renamedTerms call parameter .step ts) line

def renamedMembers (call : String → String) (parameter : String) :
    List Expression → List Expression
  | [] => []
  | e :: es => e.renamed call parameter :: renamedMembers call parameter es

end

/-- The new form of a called name: builtins come before definitions. -/
def Renaming.call (r : Renaming) (names : Names) (name : String) : String :=
  if names.IsFunction name then r.definition name else name

def Definition.renamed (r : Renaming) (names : Names) (d : Definition) : Definition where
  name := r.definition d.name
  parameter := r.parameter d.name
  body := d.body.renamed (r.call names) (r.parameter d.name)
  line := d.line

def Program.renamed (catalog : Catalog) (r : Renaming) (p : Program) : Program where
  definitions := p.definitions.map (Definition.renamed r (p.names catalog))
  expression := p.expression.renamed (r.call (p.names catalog)) inputName

/-- A name that is called as a step is not that of the parameter. -/
def Site.Unshadowed : Site → Prop
  | term .step scope (.identifier name _) => name ≠ scope
  | term .value _ _ | term .step _ _ | pipeline _ => True

instance : DecidablePred Site.Unshadowed
  | .term .step scope (.identifier name _) => inferInstanceAs (Decidable (name ≠ scope))
  | .term .step _ (.literal _ _) | .term .step _ (.call _ _ _) | .term .step _ (.group _ _)
  | .term .value _ _ | .pipeline _ => .isTrue trivial

/-- The renaming keeps apart what has to stay apart in the program. -/
structure Renaming.Respects (r : Renaming) (catalog : Catalog) (p : Program) : Prop where
  injective : ∀ d ∈ p.definitions, ∀ e ∈ p.definitions,
    r.definition d.name = r.definition e.name → d.name = e.name
  /-- A definition that can be called, since no builtin has its name, can be called by the new
  one. -/
  builtins : ∀ d ∈ p.definitions, ¬ catalog.contains d.name →
    ¬ catalog.contains (r.definition d.name)
  unshadowed : ∀ s ∈ (p.renamed catalog r).sites, s.Unshadowed

/-! ### Relinked code -/

/-- The new name of a procedure, which is the prefix and the new name of the definition. -/
def Renaming.procedureName (r : Renaming) (name : String) : String :=
  functionName (r.definition (String.ofList (name.toList.drop (functionName "").length)))

@[simp] lemma Renaming.procedureName_functionName (r : Renaming) (name : String) :
    r.procedureName (functionName name) = functionName (r.definition name) := by
  have hdrop : (functionName name).toList.drop (functionName "").length = name.toList := by
    change ("fn_" ++ name).toList.drop 3 = name.toList
    rw [String.toList_append]
    rfl
  rw [procedureName, hdrop, String.ofList_toList]

/-- The operation with procedures invoked by other names. -/
def Operation.relinked (σ : String → String) : Operation → Operation
  | invoke callee argument => invoke (σ callee) argument
  | op => op

def Binding.relinked (σ : String → String) (b : Binding) : Binding :=
  { b with operation := b.operation.relinked σ }

structure Procedure.SameBody (σ : String → String) (f g : Procedure) : Prop where
  bindings : g.bindings = f.bindings.map (Binding.relinked σ)
  result : g.result = f.result

/-- The assemblies are the same but for the names of procedures and parameters. -/
structure Assembly.Relinked (σ : String → String) (a b : Assembly) : Prop where
  functions : List.Forall₂ (fun f g => g.name = σ f.name ∧ f.SameBody σ g) a.functions b.functions
  entry : a.entry.SameBody σ b.entry

/-- The same procedure under other names. -/
def Procedure.relinked (σ : String → String) (name parameter : String) (p : Procedure) :
    Procedure :=
  { p with name, parameter, bindings := p.bindings.map (Binding.relinked σ) }

lemma Procedure.sameBody_relinked (σ : String → String) (name parameter : String)
    (p : Procedure) : p.SameBody σ (p.relinked σ name parameter) := ⟨rfl, rfl⟩

/-- Whatever the first computation returns, the second returns the image of it. -/
def Sends {α β : Type} (f : α → β) (x : Except Error α) (y : Except Error β) : Prop :=
  ∀ a, x = .ok a → y = .ok (f a)

namespace Sends

variable {α β γ δ : Type} {f : α → β} {g : γ → δ}

lemma ok (a : α) : Sends f (.ok a) (.ok (f a)) := by
  rintro _ ⟨⟩
  rfl

lemma error (e : Error) (y : Except Error β) : Sends f (.error e) y := nofun

lemma bind {x : Except Error α} {y : Except Error β} {k : α → Except Error γ}
    {l : β → Except Error δ} (hx : Sends f x y) (hk : ∀ a, Sends g (k a) (l (f a))) :
    Sends g (x >>= k) (y >>= l) := by
  intro c h
  obtain ⟨a, ha, h⟩ := ok_of_bind h
  rw [bind_of_ok (hx a ha)]
  exact hk a c h

end Sends

namespace Lowering

/-- What was computed, with its code relinked. -/
def relinked {α : Type} (σ : String → String) (x : α × List Binding) : α × List Binding :=
  (x.1, x.2.map (Binding.relinked σ))

lemma relinked_emit (σ : String → String) (next : Nat) (code : List Binding) (op : Operation) :
    relinked σ (emit next code op) =
      emit next (code.map (Binding.relinked σ)) (op.relinked σ) := by
  simp [relinked, emit, Binding.relinked]

lemma sends_emit {σ : String → String} {next : Nat} {code : List Binding} {op other : Operation}
    (h : op.relinked σ = other) : Sends (relinked σ) (.ok (emit next code op))
      (.ok (emit next (code.map (Binding.relinked σ)) other)) := by
  rw [← h, ← relinked_emit]
  exact .ok _

lemma sends_then {α β γ : Type} {σ : String → String} {x y : Except Error (α × List Binding)}
    {k l : α → Nat → Except Error (β × List Binding)} (combine : α → β → γ)
    (hx : Sends (relinked σ) x y) (hk : ∀ a n, Sends (relinked σ) (k a n) (l a n)) :
    Sends (relinked σ)
      (x >>= fun a => k a.1 a.2.length >>= fun b => .ok (combine a.1 b.1, a.2 ++ b.2))
      (y >>= fun a => l a.1 a.2.length >>= fun b => .ok (combine a.1 b.1, a.2 ++ b.2)) := by
  refine hx.bind fun a => ?_
  have hlength : (relinked σ a).2.length = a.2.length := List.length_map _
  rw [hlength]
  refine (hk a.1 a.2.length).bind fun b => ?_
  have happend : (relinked σ a).2 ++ (relinked σ b).2 = (a.2 ++ b.2).map (Binding.relinked σ) :=
    List.map_append.symm
  rw [happend]
  exact .ok (combine a.1 b.1, a.2 ++ b.2)

/-! ### Lowering a renamed program -/

/-- What a called name refers to, under its new name. -/
def Callee.renamed (r : Renaming) : Callee → Callee
  | builtin d => builtin d
  | function name => function (r.definition name)

structure Names.Renamed (r : Renaming) (names other : Names) : Prop where
  catalog : other.catalog = names.catalog
  functions : ∀ name, names.IsFunction name → other.IsFunction (r.definition name)

section Renamed

variable {r : Renaming} {names other : Names} {q : String}

lemma resolve_sends (hr : names.Renamed r other) (name : String) (line : Nat) :
    Sends (Callee.renamed r) (names.resolve name line)
      (other.resolve (r.call names name) line) := by
  intro callee h
  obtain ⟨d, hd, rfl⟩ | ⟨hd, hmem, rfl⟩ := resolve_ok h
  · have hcall : r.call names name = name := if_neg fun hfun => by simp [hfun.1] at hd
    rw [hcall, Names.resolve, hr.catalog, hd]
    rfl
  · have hcall : r.call names name = r.definition name := if_pos ⟨hd, hmem⟩
    obtain ⟨hd', hmem'⟩ := hr.functions name ⟨hd, hmem⟩
    rw [hcall, Names.resolve, hd']
    exact if_pos hmem'

lemma length_renamedTerms (call : String → String) (context : Context) (ts : List Term) :
    (renamedTerms call q context ts).length = ts.length := by
  induction ts with
  | nil => rfl
  | cons t ts ih => rw [renamedTerms, List.length_cons, ih, List.length_cons]

/-- All names that are called as steps at these nodes differ from the parameter. -/
def AllUnshadowed (sites : List Site) : Prop := ∀ s ∈ sites, s.Unshadowed

lemma allUnshadowed_append {xs ys : List Site} :
    AllUnshadowed (xs ++ ys) ↔ AllUnshadowed xs ∧ AllUnshadowed ys := List.forall_mem_append

lemma allUnshadowed_cons {s : Site} {sites : List Site} :
    AllUnshadowed (s :: sites) ↔ s.Unshadowed ∧ AllUnshadowed sites := List.forall_mem_cons

lemma relinked_stacking (parts : List Operand) :
    (if parts.isEmpty then Operation.literal "" else .join parts).relinked r.procedureName =
      if parts.isEmpty then .literal "" else .join parts := by
  cases parts <;> rfl

lemma relinked_invoke (name : String) (o : Operand) :
    (Operation.invoke (functionName name) o).relinked r.procedureName =
      .invoke (functionName (r.definition name)) o := by
  rw [Operation.relinked, Renaming.procedureName_functionName]

-- The new program is lowered in step with the old one. The only thing that could go wrong is that
-- a step has become the name of the parameter, which the sites exclude.
mutual

lemma value_sends (hr : names.Renamed r other) : ∀ (scope : Scope) (next : Nat) (t : Term),
    AllUnshadowed ((t.renamed (r.call names) q .value).sites .value q) →
    Sends (relinked r.procedureName) (value names scope next t)
      (value other ⟨q, scope.current⟩ next (t.renamed (r.call names) q .value))
  | scope, next, .identifier name line, _ => by
    rw [value, Term.renamed, value, if_pos rfl]
    split
    · exact .ok (scope.current, [])
    · exact .error _ _
  | scope, next, .literal text line, _ => by
    rw [value, Term.renamed, value]
    exact sends_emit rfl
  | scope, next, .call target arguments line, h => by
    rw [Term.renamed, Term.sites, allUnshadowed_cons] at h
    rw [value, Term.renamed, value]
    refine (resolve_sends hr target line).bind fun callee => ?_
    cases callee with
    | builtin d =>
      simp only [Callee.renamed, length_renamedTerms]
      split
      · -- the wrong number of arguments
        exact .error _ _
      · exact (values_sends hr scope next arguments h.2).bind fun _ => sends_emit rfl
    | function name =>
      match arguments, h with
      | [], _ => exact .error _ _
      | [argument], h =>
        have hargument := (allUnshadowed_append.mp h.2).1
        exact (value_sends hr scope next argument hargument).bind fun _ =>
          sends_emit (relinked_invoke name _)
      | _ :: _ :: _, _ => exact .error _ _
  | scope, next, .group es line, h => by
    rw [Term.renamed, Term.sites, allUnshadowed_cons] at h
    rw [value, Term.renamed, value]
    exact (members_sends hr scope next es h.2).bind fun _ => sends_emit (relinked_stacking _)

lemma step_sends (hr : names.Renamed r other) :
    ∀ (scope : Scope) (next : Nat) (current : Operand) (t : Term),
    AllUnshadowed ((t.renamed (r.call names) q .step).sites .step q) →
    Sends (relinked r.procedureName) (step names scope next current t)
      (step other ⟨q, scope.current⟩ next current (t.renamed (r.call names) q .step))
  | scope, next, current, .identifier name line, h => by
    have hname : r.call names name ≠ q := h _ List.mem_cons_self
    rw [step, Term.renamed, step, if_neg hname]
    split
    · -- the name is that of the parameter
      exact .error _ _
    · refine (resolve_sends hr name line).bind fun callee => ?_
      cases callee with
      | builtin d =>
        simp only [Callee.renamed]
        split
        · exact sends_emit rfl
        · exact .error _ _
      | function name => exact sends_emit (relinked_invoke name current)
  | scope, next, current, .literal text line, _ => by
    rw [step, Term.renamed, step]
    exact sends_emit rfl
  | scope, next, current, .call target arguments line, h => by
    rw [Term.renamed, Term.sites, allUnshadowed_cons] at h
    rw [step, Term.renamed, step]
    refine (resolve_sends hr target line).bind fun callee => ?_
    cases callee with
    | builtin d =>
      simp only [Callee.renamed, length_renamedTerms]
      split
      · exact .error _ _
      · exact (values_sends hr scope next arguments h.2).bind fun _ => sends_emit rfl
    | function name => exact .error _ _
  | scope, next, current, .group es line, h => by
    rw [Term.renamed, Term.sites, allUnshadowed_cons] at h
    rw [step, Term.renamed, step]
    exact (members_sends hr { scope with current } next es h.2).bind fun _ =>
      sends_emit (relinked_stacking _)

lemma values_sends (hr : names.Renamed r other) : ∀ (scope : Scope) (next : Nat) (ts : List Term),
    AllUnshadowed (sitesOfTerms .value q (renamedTerms (r.call names) q .value ts)) →
    Sends (relinked r.procedureName) (values names scope next ts)
      (values other ⟨q, scope.current⟩ next (renamedTerms (r.call names) q .value ts))
  | scope, next, [], _ => .ok ([], [])
  | scope, next, t :: ts, h => by
    rw [renamedTerms, sitesOfTerms, allUnshadowed_append] at h
    rw [values, renamedTerms, values]
    exact sends_then List.cons (value_sends hr scope next t h.1) fun _ length =>
      values_sends hr scope (next + length) ts h.2

lemma steps_sends (hr : names.Renamed r other) :
    ∀ (scope : Scope) (next : Nat) (current : Operand) (ts : List Term),
    AllUnshadowed (sitesOfTerms .step q (renamedTerms (r.call names) q .step ts)) →
    Sends (relinked r.procedureName) (steps names scope next current ts)
      (steps other ⟨q, scope.current⟩ next current (renamedTerms (r.call names) q .step ts))
  | scope, next, current, [], _ => .ok (current, [])
  | scope, next, current, t :: ts, h => by
    rw [renamedTerms, sitesOfTerms, allUnshadowed_append] at h
    rw [steps, renamedTerms, steps]
    exact sends_then (fun _ result => result) (step_sends hr scope next current t h.1)
      fun operand length => steps_sends hr scope (next + length) operand ts h.2

lemma expression_sends (hr : names.Renamed r other) :
    ∀ (scope : Scope) (next : Nat) (e : Expression),
    AllUnshadowed ((e.renamed (r.call names) q).sites q) →
    Sends (relinked r.procedureName) (expression names scope next e)
      (expression other ⟨q, scope.current⟩ next (e.renamed (r.call names) q))
  | scope, next, .pipeline [] line, _ => .error _ _
  | scope, next, .pipeline (t :: ts) line, h => by
    rw [Expression.renamed, Expression.sites, allUnshadowed_cons, allUnshadowed_append] at h
    rw [expression, Expression.renamed, expression]
    exact sends_then (fun _ result => result) (value_sends hr scope next t h.2.1)
      fun operand length => steps_sends hr scope (next + length) operand ts h.2.2

lemma members_sends (hr : names.Renamed r other) :
    ∀ (scope : Scope) (next : Nat) (es : List Expression),
    AllUnshadowed (sitesOfMembers q (renamedMembers (r.call names) q es)) →
    Sends (relinked r.procedureName) (members names scope next es)
      (members other ⟨q, scope.current⟩ next (renamedMembers (r.call names) q es))
  | scope, next, [], _ => .ok ([], [])
  | scope, next, e :: es, h => by
    rw [renamedMembers, sitesOfMembers, allUnshadowed_append] at h
    rw [members, renamedMembers, members]
    exact sends_then List.cons (expression_sends hr scope next e h.1) fun _ length =>
      members_sends hr scope (next + length) es h.2

end

lemma procedure_sends (hr : names.Renamed r other) (name parameter scopeName newName newParameter :
    String) (body : Expression) (h : AllUnshadowed ((body.renamed (r.call names) q).sites q)) :
    Sends (Procedure.relinked r.procedureName newName newParameter)
      (procedure names name parameter scopeName body)
      (procedure other newName newParameter q (body.renamed (r.call names) q)) :=
  (expression_sends hr ⟨scopeName, .param⟩ 0 body h).bind fun x =>
    .ok (Procedure.mk name parameter x.2 x.1)

lemma exists_function_renamed (hr : names.Renamed r other) {d : Definition} {f : Procedure}
    (h : AllUnshadowed ((d.renamed r names).body.sites (d.renamed r names).parameter))
    (hf : function names d = .ok f) :
    ∃ g, function other (d.renamed r names) = .ok g ∧ g.name = r.procedureName f.name ∧
      f.SameBody r.procedureName g := by
  refine ⟨_, procedure_sends hr _ _ _ _ _ d.body h f hf, ?_, f.sameBody_relinked _ _ _⟩
  rw [name_of_function hf, Renaming.procedureName_functionName]
  rfl

lemma exists_functions_renamed (hr : names.Renamed r other) {ds : List Definition}
    {fs : List Procedure} (h : AllUnshadowed ((ds.map (Definition.renamed r names)).flatMap
      fun d => d.body.sites d.parameter)) (hfs : ds.mapM (function names) = .ok fs) :
    ∃ gs, (ds.map (Definition.renamed r names)).mapM (function other) = .ok gs ∧
      List.Forall₂ (fun f g => g.name = r.procedureName f.name ∧ f.SameBody r.procedureName g)
        fs gs := by
  induction ds generalizing fs with
  | nil =>
    cases hfs
    exact ⟨[], rfl, .nil⟩
  | cons d ds ih =>
    rw [List.map_cons, List.flatMap_cons, allUnshadowed_append] at h
    rw [List.mapM_cons] at hfs
    obtain ⟨f, hf, hfs⟩ := ok_of_bind hfs
    obtain ⟨rest, hrest, hfs⟩ := ok_of_bind hfs
    cases hfs
    obtain ⟨g, hg, hfg⟩ := exists_function_renamed hr h.1 hf
    obtain ⟨gs, hgs, hrelinked⟩ := ih h.2 hrest
    refine ⟨g :: gs, ?_, .cons hfg hrelinked⟩
    rw [List.map_cons, List.mapM_cons, bind_of_ok hg, bind_of_ok hgs]
    rfl

end Renamed

end Lowering

namespace Program

variable {catalog : Catalog} {entry : String} {p : Program} {a : Assembly} {r : Renaming}

lemma names_renamed (catalog : Catalog) (r : Renaming) (p : Program) :
    (p.renamed catalog r).definitions.map (·.name) =
      (p.definitions.map (·.name)).map r.definition := by
  simp only [renamed, List.map_map]
  rfl

lemma renamed_names (hr : r.Respects catalog p) :
    (p.names catalog).Renamed r ((p.renamed catalog r).names catalog) := by
  refine ⟨rfl, fun name ⟨hbuiltin, hmem⟩ => ⟨?_, ?_⟩⟩
  · obtain ⟨d, hd, rfl⟩ := List.mem_map.mp hmem
    have hbuiltin : catalog.find? d.name = none := hbuiltin
    have hother := hr.builtins d hd (by simp [Catalog.contains, hbuiltin])
    exact Option.not_isSome_iff_eq_none.mp hother
  · change r.definition name ∈ (p.renamed catalog r).definitions.map (·.name)
    rw [names_renamed]
    exact List.mem_map_of_mem hmem

lemma exists_lower_renamed (h : p.lower catalog entry = .ok a) (hr : r.Respects catalog p) :
    ∃ b, (p.renamed catalog r).lower catalog entry = .ok b ∧ a.Relinked r.procedureName b := by
  obtain ⟨hrepeated, hfunctions, hentry⟩ := lower_ok h
  obtain ⟨hdefinitions, hexpression⟩ := allUnshadowed_append.mp hr.unshadowed
  have hnodup : ((p.renamed catalog r).definitions.map (·.name)).Nodup := by
    rw [names_renamed]
    refine (firstRepeated_eq_none.mp hrepeated).1.map_on fun name hname other hother heq => ?_
    obtain ⟨d, hd, rfl⟩ := List.mem_map.mp hname
    obtain ⟨e, he, rfl⟩ := List.mem_map.mp hother
    exact hr.injective d hd e he heq
  obtain ⟨functions, hlowered, hrelinked⟩ :=
    exists_functions_renamed (renamed_names hr) hdefinitions hfunctions
  have hprocedure := procedure_sends (renamed_names hr) entry entryParameter inputName entry
    entryParameter p.expression hexpression a.entry hentry
  exact ⟨_, lower_of_ok hnodup hlowered hprocedure, hrelinked, a.entry.sameBody_relinked _ _ _⟩

lemma lower_withEntry (h : p.lower catalog entry = .ok a) (name : String) :
    p.lower catalog name = .ok { a with entry := { a.entry with name } } := by
  obtain ⟨hrepeated, hfunctions, hentry⟩ := lower_ok h
  obtain ⟨⟨result, bindings⟩, hexpression, hprocedure⟩ := ok_of_bind hentry
  have hname : procedure (p.names catalog) name entryParameter inputName p.expression =
      .ok { a.entry with name } := by
    rw [← Except.ok.inj hprocedure]
    exact bind_of_ok hexpression _
  exact lower_of_ok (firstRepeated_eq_none.mp hrepeated).1 hfunctions hname

end Program

end TextPipeline
