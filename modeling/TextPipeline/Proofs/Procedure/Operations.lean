import TextPipeline.Proofs.Procedure.CallGraph
import TextPipeline.Proofs.Program.Positions

/-!
The operations of a procedure are those of the nodes of its body, each node having one or none
(`operations_of_procedure`). So the literals of an assembly and the calls between its procedures can
be read off the tree, and an expression that takes the place of another changes them by its own
nodes only.
-/

namespace TextPipeline

open Lowering

/-- An operation without its operands. -/
def Operation.kind : Operation → Operation
  | literal text => literal text
  | builtin b _ => builtin b []
  | invoke callee _ => invoke callee .param
  | join _ => join []

/-- The operation of a call, or of a step that is a name. -/
def Catalog.operation (catalog : Catalog) (name : String) : Operation :=
  match catalog.find? name with
  | some d => .builtin d.builtin []
  | none => .invoke (functionName name) .param

/-- The operation that a node adds to the code. -/
def Site.operation? (catalog : Catalog) : Site → Option Operation
  | pipeline _ | term .value _ (.identifier _ _) => none
  | term .step _ (.identifier name _) => some (catalog.operation name)
  | term _ _ (.literal text _) => some (.literal text)
  | term _ _ (.call target _ _) => some (catalog.operation target)
  | term _ _ (.group es _) => some (if es.isEmpty then .literal "" else .join [])

lemma Site.operation?_outline (catalog : Catalog) (s : Site) :
    s.outline.operation? catalog = s.operation? catalog := by
  cases s with
  | pipeline e => rfl
  | term context scope t =>
    cases t with
    | identifier name line | literal text line => rfl
    | call target arguments line => cases context <;> rfl
    | group es line => cases context <;> cases es <;> rfl

/-- The operations of these nodes. -/
def operationsOf (catalog : Catalog) (sites : List Site) : List Operation :=
  sites.filterMap (Site.operation? catalog)

lemma operationsOf_append (catalog : Catalog) (xs ys : List Site) :
    operationsOf catalog (xs ++ ys) = operationsOf catalog xs ++ operationsOf catalog ys :=
  List.filterMap_append

lemma operationsOf_outline (catalog : Catalog) (sites : List Site) :
    operationsOf catalog (sites.map Site.outline) = operationsOf catalog sites := by
  rw [operationsOf, List.filterMap_map]
  exact congrArg (List.filterMap · sites) (funext (Site.operation?_outline catalog))

/-- The operations of a procedure without their operands. -/
def Procedure.kinds (q : Procedure) : List Operation := q.bindings.map (·.operation.kind)

namespace Lowering

/-- The code has the operations of the nodes, perhaps in another order. -/
def Performs (catalog : Catalog) (sites : List Site) (code : List Binding) : Prop :=
  (code.map (·.operation.kind)).Perm (operationsOf catalog sites)

section Terms

variable {names : Names} {catalog : Catalog}

lemma performs_nil : Performs catalog [] [] := .refl []

lemma Performs.append {xs ys : List Site} {before after : List Binding}
    (hx : Performs catalog xs before) (hy : Performs catalog ys after) :
    Performs catalog (xs ++ ys) (before ++ after) := by
  rw [Performs, List.map_append, operationsOf_append]
  exact List.Perm.append hx hy

lemma Performs.cons_none {s : Site} {sites : List Site} {code : List Binding}
    (h : Performs catalog sites code) (hs : s.operation? catalog = none) :
    Performs catalog (s :: sites) code := by
  rw [Performs, operationsOf, List.filterMap_cons_none hs]
  exact h

lemma performs_of_emit {s : Site} {sites : List Site} {next : Nat} {o : Operand}
    {before code : List Binding} {op : Operation} (he : (o, code) = emit next before op)
    (h : Performs catalog sites before) (hs : s.operation? catalog = some op.kind) :
    Performs catalog (s :: sites) code := by
  cases he
  rw [Performs, operationsOf, List.filterMap_cons_some hs, List.map_append]
  exact (List.perm_append_singleton _ _).trans (h.cons _)

lemma operation_of_builtin {name : String} {d : Descriptor} (h : catalog.find? name = some d) :
    catalog.operation name = .builtin d.builtin [] := by rw [Catalog.operation, h]

lemma operation_of_function {name : String} (h : catalog.find? name = none) :
    catalog.operation name = .invoke (functionName name) .param := by rw [Catalog.operation, h]

lemma length_of_members {scope : Scope} {next : Nat} {es : List Expression}
    {parts : List Operand} {code : List Binding}
    (h : members names scope next es = .ok (parts, code)) : parts.length = es.length := by
  induction es generalizing next parts code with
  | nil =>
    cases h
    rfl
  | cons e es ih =>
    obtain ⟨o, before, rest, more, -, hrest, rfl, rfl⟩ := members_cons_ok h
    rw [List.length_cons, List.length_cons, ih hrest]

lemma kind_stacking {es : List Expression} {parts : List Operand}
    (h : parts.length = es.length) :
    (if parts.isEmpty then Operation.literal "" else .join parts).kind =
      if es.isEmpty then .literal "" else .join [] := by
  cases es <;> cases parts <;> first | rfl | cases h

mutual

lemma value_performs : ∀ (scope : Scope) (next : Nat) (t : Term) {o : Operand}
    {code : List Binding}, value names scope next t = .ok (o, code) →
    Performs names.catalog (t.sites .value scope.parameter) code
  | scope, next, .identifier name line, _, _, h => by
    obtain ⟨-, -, rfl⟩ := value_identifier_ok h
    exact performs_nil.cons_none rfl
  | scope, next, .literal text line, _, _, h => by
    rw [value] at h
    exact performs_of_emit (Except.ok.inj h).symm performs_nil rfl
  | scope, next, .call target arguments line, _, _, h => by
    rw [Term.sites]
    obtain ⟨d, os, before, hd, -, hvs, he⟩ | ⟨o, before, hd, -, hvs, he⟩ := value_call_ok h
    · -- a builtin
      exact performs_of_emit he (values_performs scope next arguments hvs)
        (congrArg some (operation_of_builtin hd))
    · -- a function
      exact performs_of_emit he (values_performs scope next arguments hvs)
        (congrArg some (operation_of_function hd))
  | scope, next, .group es line, _, _, h => by
    rw [Term.sites]
    obtain ⟨parts, before, hms, he⟩ := value_group_ok h
    exact performs_of_emit he (members_performs scope next es hms)
      (congrArg some (kind_stacking (length_of_members hms)).symm)

lemma step_performs : ∀ (scope : Scope) (next : Nat) (current : Operand) (t : Term)
    {o : Operand} {code : List Binding}, step names scope next current t = .ok (o, code) →
    Performs names.catalog (t.sites .step scope.parameter) code
  | scope, next, current, .identifier name line, _, _, h => by
    obtain ⟨-, ⟨d, hd, -, he⟩ | ⟨hd, -, he⟩⟩ := step_identifier_ok h
    · exact performs_of_emit he performs_nil (congrArg some (operation_of_builtin hd))
    · exact performs_of_emit he performs_nil (congrArg some (operation_of_function hd))
  | scope, next, current, .literal text line, _, _, h => by
    rw [step] at h
    exact performs_of_emit (Except.ok.inj h).symm performs_nil rfl
  | scope, next, current, .call target arguments line, _, _, h => by
    rw [Term.sites]
    obtain ⟨d, os, before, hd, -, hvs, he⟩ := step_call_ok h
    exact performs_of_emit he (values_performs scope next arguments hvs)
      (congrArg some (operation_of_builtin hd))
  | scope, next, current, .group es line, _, _, h => by
    rw [Term.sites]
    obtain ⟨parts, before, hms, he⟩ := step_group_ok h
    exact performs_of_emit he (members_performs { scope with current } next es hms)
      (congrArg some (kind_stacking (length_of_members hms)).symm)

lemma values_performs : ∀ (scope : Scope) (next : Nat) (ts : List Term) {os : List Operand}
    {code : List Binding}, values names scope next ts = .ok (os, code) →
    Performs names.catalog (sitesOfTerms .value scope.parameter ts) code
  | scope, next, [], _, _, h => by
    cases h
    exact performs_nil
  | scope, next, t :: ts, _, _, h => by
    obtain ⟨o, before, rest, more, hv, hvs, rfl, rfl⟩ := values_cons_ok h
    exact (value_performs scope next t hv).append (values_performs scope _ ts hvs)

lemma steps_performs : ∀ (scope : Scope) (next : Nat) (current : Operand) (ts : List Term)
    {o : Operand} {code : List Binding}, steps names scope next current ts = .ok (o, code) →
    Performs names.catalog (sitesOfTerms .step scope.parameter ts) code
  | scope, next, current, [], _, _, h => by
    cases h
    exact performs_nil
  | scope, next, current, t :: ts, _, _, h => by
    obtain ⟨operand, before, more, hs, hss, rfl⟩ := steps_cons_ok h
    exact (step_performs scope next current t hs).append (steps_performs scope _ operand ts hss)

lemma expression_performs : ∀ (scope : Scope) (next : Nat) (e : Expression) {o : Operand}
    {code : List Binding}, expression names scope next e = .ok (o, code) →
    Performs names.catalog (e.sites scope.parameter) code
  | scope, next, .pipeline [] line, _, _, h => by cases h
  | scope, next, .pipeline (t :: ts) line, _, _, h => by
    obtain ⟨operand, before, more, hv, hss, rfl⟩ := expression_cons_ok h
    rw [Expression.sites]
    exact ((value_performs scope next t hv).append
      (steps_performs scope _ operand ts hss)).cons_none rfl

lemma members_performs : ∀ (scope : Scope) (next : Nat) (es : List Expression)
    {os : List Operand} {code : List Binding}, members names scope next es = .ok (os, code) →
    Performs names.catalog (sitesOfMembers scope.parameter es) code
  | scope, next, [], _, _, h => by
    cases h
    exact performs_nil
  | scope, next, e :: es, _, _, h => by
    obtain ⟨o, before, rest, more, he, hms, rfl, rfl⟩ := members_cons_ok h
    exact (expression_performs scope next e he).append (members_performs scope _ es hms)

end

/-- **The operations of a procedure are those of the nodes of its body.** -/
lemma operations_of_procedure {name parameter scopeName : String} {body : Expression}
    {q : Procedure} (h : procedure names name parameter scopeName body = .ok q) :
    q.kinds.Perm (operationsOf names.catalog (body.sites scopeName)) := by
  obtain ⟨⟨o, code⟩, hbody, hq⟩ := ok_of_bind h
  cases hq
  exact expression_performs ⟨scopeName, .param⟩ 0 body hbody

end Terms

end Lowering

/-! ### Calls and literals -/

namespace Operation

lemma kind_eq_literal {op : Operation} {text : String} :
    op.kind = .literal text ↔ op = .literal text := by
  cases op <;> simp [kind]

lemma kind_eq_invoke {op : Operation} {callee : String} :
    op.kind = .invoke callee .param ↔ ∃ o, op = .invoke callee o := by
  cases op <;> simp [kind]

end Operation

namespace Assembly

variable {a : Assembly}

lemma mem_literals_iff_of_lower {p : Program} {entry text : String} {catalog : Catalog}
    (h : p.lower catalog entry = .ok a) :
    text ∈ a.literals ↔ .literal text ∈ operationsOf catalog p.sites := by
  obtain ⟨-, hfs, hentry⟩ := Program.lower_ok h
  have hfs := forall₂_of_mapM hfs
  have hliterals : text ∈ a.literals ↔ ∃ f ∈ a.procedures, .literal text ∈ f.kinds := by
    simp only [mem_literals, Procedure.kinds, List.mem_map, Operation.kind_eq_literal]
  rw [hliterals, Program.sites, operationsOf_append, List.mem_append, operationsOf,
    List.filterMap_flatMap, List.mem_flatMap]
  constructor
  · rintro ⟨f, hf, htext⟩
    rcases List.mem_append.mp hf with hf | hf
    · -- the procedure of a definition
      obtain ⟨d, hd, hfunction⟩ := exists_of_forall₂ hfs.flip hf
      exact .inl ⟨d, hd, (operations_of_procedure hfunction).mem_iff.mp htext⟩
    · -- the procedure of the entry
      rw [List.mem_singleton.mp hf] at htext
      exact .inr ((operations_of_procedure hentry).mem_iff.mp htext)
  · rintro (⟨d, hd, htext⟩ | htext)
    · obtain ⟨f, hf, hfunction⟩ := exists_of_forall₂ hfs hd
      exact ⟨f, List.mem_append_left _ hf, (operations_of_procedure hfunction).mem_iff.mpr htext⟩
    · exact ⟨a.entry, a.entry_mem, (operations_of_procedure hentry).mem_iff.mpr htext⟩

lemma invokes_iff_kinds {f g : Procedure} : a.Invokes f g ↔
    ∃ callee, .invoke callee .param ∈ f.kinds ∧ a.procedure? callee = some g := by
  simp only [Invokes, Procedure.kinds, List.mem_map, Operation.kind_eq_invoke]
  grind

end Assembly

/-! ### One expression for another -/

/-- The second procedure has the name of the first, and its operations, among which some may have
been exchanged for others. -/
structure Procedure.Exchanges (xs ys : List Operation) (f f' : Procedure) : Prop where
  name : f'.name = f.name
  kinds : f'.kinds.Perm f.kinds ∨
    ∃ rest, f.kinds.Perm (xs ++ rest) ∧ f'.kinds.Perm (ys ++ rest)

lemma Program.Position.exists_operations (x : Program.Position) (catalog : Catalog) :
    ∃ before after, ∀ e, operationsOf catalog (x.fill e).sites =
      before ++ operationsOf catalog (e.sites x.parameter) ++ after := by
  obtain ⟨before, after, hsites⟩ := x.surrounds
  refine ⟨operationsOf catalog before, operationsOf catalog after, fun e => ?_⟩
  rw [← operationsOf_outline, hsites, operationsOf_append, operationsOf_append,
    operationsOf_outline]

lemma Rewritten.exchanges {names : Names} {name parameter scope given : String}
    {e e' body body' : Expression} {f f' : Procedure}
    (h : Rewritten parameter e e' scope body body')
    (hf : procedure names name given scope body = .ok f)
    (hf' : procedure names name given scope body' = .ok f') :
    Procedure.Exchanges (operationsOf names.catalog (e.sites parameter))
      (operationsOf names.catalog (e'.sites parameter)) f f' := by
  refine ⟨(name_of_procedure hf').trans (name_of_procedure hf).symm, ?_⟩
  have hold := operations_of_procedure hf
  have hnew := operations_of_procedure hf'
  obtain rfl | ⟨before, after, hsites, hsites'⟩ := h.sites
  · exact .inl (hnew.trans hold.symm)
  · -- the operations around the expression come before its own
    have hpull (xs ys zs : List Operation) : (xs ++ ys ++ zs).Perm (ys ++ (xs ++ zs)) := by
      rw [← List.append_assoc]
      exact List.perm_append_comm.append_right zs
    refine .inr ⟨operationsOf names.catalog before ++ operationsOf names.catalog after, ?_, ?_⟩
    · rw [← operationsOf_outline, hsites, operationsOf_append, operationsOf_append,
        operationsOf_outline] at hold
      exact hold.trans (hpull _ _ _)
    · rw [← operationsOf_outline, hsites', operationsOf_append, operationsOf_append,
        operationsOf_outline] at hnew
      exact hnew.trans (hpull _ _ _)

/-- **The procedures of programs that differ in one expression.** -/
lemma Program.Rewrites.exchanges {parameter entry : String} {e e' : Expression} {p q : Program}
    {a b : Assembly} {catalog : Catalog} (h : p.Rewrites parameter e e' q)
    (ha : p.lower catalog entry = .ok a) (hb : q.lower catalog entry = .ok b) :
    List.Forall₂ (Procedure.Exchanges (operationsOf catalog (e.sites parameter))
      (operationsOf catalog (e'.sites parameter))) a.procedures b.procedures := by
  obtain ⟨-, hfs, hentry⟩ := Program.lower_ok ha
  obtain ⟨-, hfs', hentry'⟩ := Program.lower_ok hb
  have hnames := h.names catalog
  unfold Program.names at hnames
  rw [hnames] at hfs' hentry'
  refine List.rel_append ?_ (.cons (h.expression.exchanges hentry hentry') .nil)
  refine forall₂_square h.definitions (forall₂_of_mapM hfs) (forall₂_of_mapM hfs') ?_
  intro d d' f f' hd hf hf'
  unfold function at hf'
  rw [hd.sameName, hd.sameParameter] at hf'
  exact hd.body.exchanges hf hf'

end TextPipeline
