import TextPipeline.Proofs.Artifact.Definitions
import TextPipeline.Proofs.Procedure.Detours
import TextPipeline.Proofs.Program.Running
import TextPipeline.Proofs.Wasm.Exhaustion

/-!
Groups and functions. A group that is a step of a pipeline is a function written in place: it can be
given a name and defined apart, and the program comes to the same on every input, unless the
machine runs out of stack over the additional call (`outlined_agrees_inlined`).
-/

namespace TextPipeline

open Lowering Wasm Host

structure GroupStep where
  first : Term
  earlier : List Term
  members : List Expression
  groupLine : Nat
  later : List Term
  line : Nat

namespace GroupStep

variable (g : GroupStep)

/-- The pipeline as it is. -/
def inlined : Expression :=
  .pipeline (g.first :: (g.earlier ++ .group g.members g.groupLine :: g.later)) g.line

/-- The pipeline with a name in place of the group. -/
def outlined (name : String) (line : Nat) : Expression :=
  .pipeline (g.first :: (g.earlier ++ .identifier name line :: g.later)) g.line

/-- The group as a function. -/
def definition (name parameter : String) (line : Nat) : Definition :=
  ⟨name, parameter, .pipeline [.group g.members line] line, line⟩

/-! ### What may stand there -/

variable {g} {scope name : String} {line : Nat}

lemma sites_inlined : g.inlined.sites scope = .pipeline g.inlined ::
    (g.first.sites .value scope ++ (sitesOfTerms .step scope g.earlier ++
      (.term .step scope (.group g.members g.groupLine) :: (sitesOfMembers scope g.members ++
        sitesOfTerms .step scope g.later)))) := by
  rw [inlined, Expression.sites, sitesOfTerms_append, sitesOfTerms, Term.sites, List.cons_append]

lemma sites_outlined : (g.outlined name line).sites scope = .pipeline (g.outlined name line) ::
    (g.first.sites .value scope ++ (sitesOfTerms .step scope g.earlier ++
      (.term .step scope (.identifier name line) :: sitesOfTerms .step scope g.later))) := by
  rw [outlined, Expression.sites, sitesOfTerms_append, sitesOfTerms, Term.sites,
    List.singleton_append]

lemma sites_definition : (g.definition name scope line).body.sites scope =
    .pipeline (.pipeline [.group g.members line] line) ::
      .term .value scope (.group g.members line) :: sitesOfMembers scope g.members := by
  rw [definition, Expression.sites, Term.sites, sitesOfTerms, List.append_nil]

lemma allowed_outlined {names : Names} (h : ∀ s ∈ g.inlined.sites scope, s.Allowed names)
    (hscope : name ≠ scope) (hname : names.IsFunction name) :
    ∀ s ∈ (g.outlined name line).sites scope, s.Allowed names := by
  rw [sites_inlined] at h
  rw [sites_outlined]
  simp only [List.forall_mem_cons, List.forall_mem_append] at h ⊢
  obtain ⟨-, hfirst, hearlier, -, -, hlater⟩ := h
  exact ⟨List.cons_ne_nil _ _, hfirst, hearlier, ⟨hscope, .inr hname⟩, hlater⟩

lemma allowed_definition {names : Names} (h : ∀ s ∈ g.inlined.sites scope, s.Allowed names) :
    ∀ s ∈ (g.definition name scope line).body.sites scope, s.Allowed names := by
  rw [sites_inlined] at h
  rw [sites_definition]
  simp only [List.forall_mem_cons, List.forall_mem_append] at h ⊢
  exact ⟨List.cons_ne_nil _ _, trivial, h.2.2.2.2.1⟩

/-! ### Its operations -/

variable {catalog : Catalog}

lemma operations_definition :
    operationsOf catalog ((g.definition name scope line).body.sites scope) ⊆
      operationsOf catalog (g.inlined.sites scope) := by
  intro op hop
  obtain ⟨s, hs, hop⟩ := List.mem_filterMap.mp hop
  rw [sites_definition] at hs
  rw [sites_inlined, operationsOf, List.mem_filterMap]
  simp only [List.mem_cons] at hs
  rcases hs with rfl | rfl | hs
  · cases hop
  · exact ⟨.term .step scope (.group g.members g.groupLine), by simp, hop⟩
  · exact ⟨s, by simp [hs], hop⟩

lemma operations_outlined (hname : catalog.find? name = none) {op : Operation}
    (h : op ∈ operationsOf catalog ((g.outlined name line).sites scope)) :
    op ∈ operationsOf catalog (g.inlined.sites scope) ∨
      op = .invoke (functionName name) .param := by
  obtain ⟨s, hs, hop⟩ := List.mem_filterMap.mp h
  rw [sites_outlined] at hs
  rw [sites_inlined, operationsOf, List.mem_filterMap]
  simp only [List.mem_cons, List.mem_append] at hs
  rcases hs with rfl | hs | hs | rfl | hs
  · -- the pipeline itself has no operation
    cases hop
  · exact .inl ⟨s, by simp [hs], hop⟩
  · exact .inl ⟨s, by simp [hs], hop⟩
  · -- the step in place of the group invokes the new procedure
    exact .inr ((Option.some.inj hop).symm.trans (operation_of_function hname))
  · exact .inl ⟨s, by simp [hs], hop⟩

end GroupStep

/-! ### Runs with one more call -/

namespace Running

/-- The second run does as the first, or else ends because calls are nested too deep. -/
def Trails ⦃α : Type⦄ (x y : Run α) : Prop := ∀ host,
  y host = x host ∨ (y host).1 = .error (.execution .callStackExhausted)

lemma Trails.trans {α : Type} {x y z : Run α} (hxy : Trails x y) (hyz : Trails y z) :
    Trails x z := by
  intro host
  rcases hyz host with hz | hz
  · rw [hz]
    exact hxy host
  · exact .inr hz

lemma compatible_trails : Compatible Trails where
  refl x _ := .inl rfl
  bind {_ _ x y k l} hx hk host := by
    generalize hy : y host = r
    rcases r with ⟨e | a, later⟩
    · -- the other run fails
      rw [run_bind_error hy]
      rcases hx host with h | h
      · exact .inl (run_bind_error (h.symm.trans hy)).symm
      · rw [hy] at h
        cases h
        exact .inr rfl
    · -- the other run goes on, and this one is the same so far
      rw [run_bind_ok hy]
      rcases hx host with h | h
      · rw [run_bind_ok (h.symm.trans hy)]
        exact hk a later
      · rw [hy] at h
        cases h

lemma trails_throw {α : Type} (x : Run α) :
    Trails x (throw (.execution .callStackExhausted)) := fun _ => .inr rfl

lemma trails_call_succ (p : Program) (depth : Nat) (name : String) (handle : Int) :
    Trails (call p (depth + 1) name handle) (call p depth name handle) := by
  induction depth generalizing name handle with
  | zero => exact trails_throw _
  | succ depth ih =>
    rw [call, call]
    cases p.definition? name with
    | none => exact compatible_trails.refl _
    | some d => exact result_compatible compatible_trails ih _ _

variable {p q : Program} {g : GroupStep} {name parameter : String} {line depth : Nat}

lemma step_outlined (hname : Catalog.standard.find? name = none)
    (hq : q.definition? name = some (g.definition name parameter line))
    (hcalls : ∀ d ≤ depth, ∀ name h, Trails (call p d name h) (call q d name h))
    (current handle : Int) : Trails
      (step (call p depth) ⟨parameter, current⟩ handle (.group g.members g.groupLine))
      (step (call q depth) ⟨parameter, current⟩ handle (.identifier name line)) := by
  rw [step, step, hname]
  cases depth with
  | zero => exact trails_throw _
  | succ depth =>
    have hcalled : call q (depth + 1) name handle =
        members (call q depth) ⟨parameter, handle⟩ g.members >>= stack := by
      rw [call, hq]
      simp only [GroupStep.definition]
      rw [result_singleton, value]
    simp only [hcalled]
    refine compatible_trails.bind (members_compatible compatible_trails ?_ _ _)
      fun _ => compatible_trails.refl _
    exact fun callee h => (trails_call_succ p depth callee h).trans
      (hcalls depth (Nat.le_succ depth) callee h)

lemma result_outlined (hname : Catalog.standard.find? name = none)
    (hq : q.definition? name = some (g.definition name parameter line))
    (hcalls : ∀ d ≤ depth, ∀ name h, Trails (call p d name h) (call q d name h)) (handle : Int) :
    Trails (result (call p depth) ⟨parameter, handle⟩ g.inlined)
      (result (call q depth) ⟨parameter, handle⟩ (g.outlined name line)) := by
  have hdepth := hcalls depth le_rfl
  rw [GroupStep.inlined, GroupStep.outlined, result, result]
  refine compatible_trails.bind (value_compatible compatible_trails hdepth _ _) fun first => ?_
  exact steps_exchange compatible_trails hdepth _ first _ _
    (step_outlined hname hq hcalls handle)

end Running

/-! ### One more definition -/

namespace Program

/-- The program with one more definition, at this place among the others. -/
def insert (p : Program) (index : Nat) (d : Definition) : Program :=
  ⟨p.definitions.take index ++ d :: p.definitions.drop index, p.expression⟩

/-- The name can be that of a function of the program which is called where the parameter is in
scope. -/
structure Fresh (p : Program) (entry parameter name : String) : Prop where
  notBuiltin : Catalog.standard.find? name = none
  notDefined : name ∉ p.definitions.map (·.name)
  notParameter : name ≠ parameter
  notEntry : functionName name ≠ entry

variable {p q : Program} {parameter entry : String} {e e' : Expression} {d : Definition}
  {a b : Assembly} {index : Nat}

lemma insert_perm (p : Program) (index : Nat) (d : Definition) :
    (p.insert index d).definitions.Perm (d :: p.definitions) := by
  have h : (p.insert index d).definitions.Perm
      (d :: (p.definitions.take index ++ p.definitions.drop index)) := List.perm_middle
  rwa [List.take_append_drop] at h

lemma Rewrites.insert (h : p.Rewrites parameter e e' q) (index : Nat) (d : Definition) :
    (p.insert index d).Rewrites parameter e e' (q.insert index d) :=
  ⟨List.rel_append (List.forall₂_take index h.definitions)
    (.cons (.refl d) (List.forall₂_drop index h.definitions)), h.expression⟩

lemma sites_insert_perm (p : Program) (index : Nat) (d : Definition) :
    (p.insert index d).sites.Perm (d.body.sites d.parameter ++ p.sites) := by
  have h := (insert_perm p index d).flatMap_right fun d => d.body.sites d.parameter
  rw [List.flatMap_cons] at h
  rw [sites, sites, ← List.append_assoc]
  exact h.append_right _

lemma within_insert (p : Program) (index : Nat) (d : Definition) :
    (p.names Catalog.standard).Within ((p.insert index d).names Catalog.standard) :=
  ⟨rfl, fun _ hname => ((insert_perm p index d).map _).mem_iff.mpr (List.mem_cons_of_mem _ hname)⟩

lemma exists_lower_insert (h : p.lower Catalog.standard entry = .ok a)
    (hname : d.name ∉ p.definitions.map (·.name))
    (hd : ∀ s ∈ d.body.sites d.parameter, s.Allowed (p.names Catalog.standard)) :
    ∃ b, (p.insert index d).lower Catalog.standard entry = .ok b ∧ b.entry = a.entry ∧
      a.functions ⊆ b.functions := by
  have hperm := insert_perm p index d
  have hnodup := (firstRepeated_eq_none.mp (lower_ok h).1).1
  refine exists_lower_of_subset h rfl ?_ ?_ ?_
  · exact (hperm.map _).nodup_iff.mpr (List.nodup_cons.mpr ⟨hname, hnodup⟩)
  · exact fun x hx => hperm.mem_iff.mpr (List.mem_cons_of_mem _ hx)
  · intro x hx
    rcases List.mem_cons.mp (hperm.mem_iff.mp hx) with rfl | hx
    · -- the new definition
      exact .inr ((procedure_checks _ _ _ _).exists_ok_iff.mpr fun s hs =>
        (hd s hs).mono (within_insert p index x))
    · exact .inl hx

lemma entryFault?_insert (ha : p.lower Catalog.standard entry = .ok a)
    (hb : (p.insert index d).lower Catalog.standard entry = .ok b)
    (hd : functionName d.name ≠ entry) (hfault : a.entryFault? = none) :
    b.entryFault? = none := by
  obtain ⟨hempty, hmemory, hcollides⟩ := (entryFault?_iff_of_lower ha).mp hfault
  refine (entryFault?_iff_of_lower hb).mpr ⟨hempty, hmemory, ?_⟩
  rw [(((insert_perm p index d).map _).map _).mem_iff, List.map_cons, List.map_cons,
    List.mem_cons, not_or]
  exact ⟨hd.symm, hcollides⟩

end Program

namespace Assembly

variable {a b : Assembly}

lemma within_of_extends (hlinked : ∀ p ∈ a.procedures, ∀ x ∈ p.bindings, x.operation.Linked a)
    (hext : b.Extends a) {f : Procedure} {depth : Nat} (hf : f ∈ a.procedures)
    (h : a.Within f depth) : b.Within f depth := by
  induction depth using Nat.strong_induction_on generalizing f with
  | _ depth ih =>
    refine within_of_forall fun g hg => ?_
    obtain ⟨x, hx, callee, o, hop, hfound⟩ := hg
    have hcallee := hlinked f hf x hx
    rw [hop] at hcallee
    obtain ⟨g', hfound', hmem⟩ := exists_procedure? hcallee
    cases hfound.symm.trans (hext.procedures callee g' hfound')
    obtain ⟨less, rfl, hless⟩ := h.of_invokes ⟨x, hx, callee, o, hop, hfound'⟩
    exact ⟨less, rfl, ih less (Nat.lt_succ_self less) hmem hless⟩

/-- A run that trails another is reported as the other is, or as one that ran out of stack, and
then some chain of its calls is too long. -/
lemma reported_of_trails [Engine]
    (hlinked : ∀ p ∈ b.procedures, ∀ x ∈ p.bindings, x.operation.Linked b)
    (h : Running.Trails (a.entry.onHandles (a.onHandles (callDepth - 1)) inputHandle)
      (b.entry.onHandles (b.onHandles (callDepth - 1)) inputHandle)) (input : String) :
    b.reported input = a.reported input ∨ ¬ b.Within b.entry (callDepth - 1) ∧
      b.reported input = .error (.execution .callStackExhausted) := by
  rcases h (.start input) with hsame | hexhausted
  · left
    unfold reported
    rw [hsame]
  · refine .inr ⟨fun hwithin => ?_, reported_of_error hexhausted⟩
    exact spares_of_within hlinked b.entry_mem hwithin inputHandle (.start input) hexhausted

end Assembly

namespace GroupStep

/-- The program at this position with the group still in place, but also defined apart. -/
def defined (g : GroupStep) (x : Program.Position) (name : String) (index line : Nat) : Program :=
  (x.fill g.inlined).insert index (g.definition name x.parameter line)

/-- The program at this position with the group defined apart. -/
def apart (g : GroupStep) (x : Program.Position) (name : String) (index line : Nat) : Program :=
  (x.fill (g.outlined name line)).insert index (g.definition name x.parameter line)

section Programs

variable {g : GroupStep} {x : Program.Position} {name entry : String} {index line : Nat}
  {a between b : Assembly}

lemma rewrites_apart : (g.defined x name index line).Rewrites x.parameter g.inlined
    (g.outlined name line) (g.apart x name index line) :=
  (x.rewrites _ _).insert index _

lemma mem_defined : name ∈ (g.defined x name index line).definitions.map (·.name) :=
  ((Program.insert_perm _ _ _).map _).mem_iff.mpr List.mem_cons_self

lemma exists_lower_defined (h : (x.fill g.inlined).lower Catalog.standard entry = .ok a)
    (hfault : a.entryFault? = none) (hfresh : (x.fill g.inlined).Fresh entry x.parameter name)
    (index line : Nat) :
    ∃ between, (g.defined x name index line).lower Catalog.standard entry = .ok between ∧
      between.entryFault? = none ∧ between.Extends a := by
  obtain ⟨between, hbetween, hentry, hfunctions⟩ : ∃ between,
      (g.defined x name index line).lower Catalog.standard entry = .ok between ∧
        between.entry = a.entry ∧ a.functions ⊆ between.functions :=
    Program.exists_lower_insert h hfresh.notDefined (allowed_definition (x.allowed h))
  have hfault' := Program.entryFault?_insert h hbetween hfresh.notEntry hfault
  exact ⟨between, hbetween, hfault', Assembly.extends_of_subset hentry
    (Assembly.procedures_subset hentry hfunctions)
    (Program.distinct_of_lower hbetween (Assembly.entryFault?_eq_none.mp hfault').2.2)⟩

lemma exists_lower_apart (h : (x.fill g.inlined).lower Catalog.standard entry = .ok a)
    (hfresh : (x.fill g.inlined).Fresh entry x.parameter name)
    (hbetween : (g.defined x name index line).lower Catalog.standard entry = .ok between) :
    ∃ b, (g.apart x name index line).lower Catalog.standard entry = .ok b := by
  refine rewrites_apart.exists_lower hbetween (allowed_outlined (fun s hs => ?_)
    hfresh.notParameter ⟨hfresh.notBuiltin, mem_defined⟩)
  exact (x.allowed h s hs).mono (Program.within_insert _ _ _)

lemma exists_procedure_apart
    (hb : (g.apart x name index line).lower Catalog.standard entry = .ok b) :
    ∃ f, (g.apart x name index line).definition? name =
        some (g.definition name x.parameter line) ∧ b.procedure? (functionName name) = some f ∧
      function ((g.apart x name index line).names Catalog.standard)
        (g.definition name x.parameter line) = .ok f := by
  obtain ⟨hnorepeat, hfs, -⟩ := Program.lower_ok hb
  have hmem : g.definition name x.parameter line ∈ (g.apart x name index line).definitions :=
    (Program.insert_perm _ _ _).mem_iff.mpr List.mem_cons_self
  have hfound := find?_of_nodup (firstRepeated_eq_none.mp hnorepeat).1 hmem
  obtain ⟨d, f, hd, hf, hfunction⟩ :=
    exists_procedure_of_mem (forall₂_of_mapM hfs) (List.mem_map_of_mem hmem) b.entry
  cases hd.symm.trans hfound
  exact ⟨f, hfound, hf, hfunction⟩

lemma exists_detour (hname : Catalog.standard.find? name = none)
    (hbetween : (g.defined x name index line).lower Catalog.standard entry = .ok between)
    (hb : (g.apart x name index line).lower Catalog.standard entry = .ok b) :
    ∃ moved, between.Detour b (operationsOf Catalog.standard (g.inlined.sites x.parameter))
      (operationsOf Catalog.standard ((g.outlined name line).sites x.parameter))
      (functionName name) moved := by
  obtain ⟨f, -, hf, hfunction⟩ := exists_procedure_apart hb
  refine ⟨f, rewrites_apart.exchanges hbetween hb, hf, fun callee hcallee => ?_,
    fun callee hcallee => ?_⟩
  · refine (operations_outlined hname hcallee).imp_right fun h => ?_
    cases h
    rfl
  · exact operations_definition ((operations_of_procedure hfunction).mem_iff.mp hcallee)

lemma beside_entry {p q : Program} (ha : p.lower Catalog.standard entry = .ok a)
    (hfault : a.entryFault? = none) (hb : q.lower Catalog.standard entry = .ok b)
    (hfault' : b.entryFault? = none) : Assembly.Detour.Beside a b a.entry b.entry := by
  have hname : a.entry.name = entry := name_of_procedure (Program.lower_ok ha).2.2
  have hname' : b.entry.name = entry := name_of_procedure (Program.lower_ok hb).2.2
  have hfound := find?_of_nodup
    (Program.distinct_of_lower ha (Assembly.entryFault?_eq_none.mp hfault).2.2) a.entry_mem
  have hfound' := find?_of_nodup
    (Program.distinct_of_lower hb (Assembly.entryFault?_eq_none.mp hfault').2.2) b.entry_mem
  exact ⟨entry, hname ▸ hfound, hname' ▸ hfound'⟩

lemma trails_apart (hname : Catalog.standard.find? name = none)
    (hbetween : (g.defined x name index line).lower Catalog.standard entry = .ok between)
    (hb : (g.apart x name index line).lower Catalog.standard entry = .ok b) (depth : Nat)
    (handle : Int) : Running.Trails (between.entry.onHandles (between.onHandles depth) handle)
      (b.entry.onHandles (b.onHandles depth) handle) := by
  obtain ⟨f, hfound, -, -⟩ := exists_procedure_apart hb
  rw [Running.onHandles_of_lower hbetween, Running.onHandles_of_lower hb]
  exact Running.result_rewrites Running.compatible_trails rewrites_apart
    (fun _ hcalls handle => Running.result_outlined hname hfound hcalls handle) depth handle

lemma literals_apart (h : (x.fill g.inlined).lower Catalog.standard entry = .ok a)
    (hname : Catalog.standard.find? name = none)
    (hb : (g.apart x name index line).lower Catalog.standard entry = .ok b) :
    b.literals ⊆ a.literals := by
  intro text htext
  obtain ⟨before, after, hoperations⟩ := x.exists_operations Catalog.standard
  rw [Assembly.mem_literals_iff_of_lower hb, apart, operationsOf,
    ((Program.sites_insert_perm _ _ _).filterMap _).mem_iff, ← operationsOf, operationsOf_append,
    hoperations] at htext
  rw [Assembly.mem_literals_iff_of_lower h, hoperations]
  simp only [List.mem_append] at htext ⊢
  rcases htext with hgroup | (hbefore | houtlined) | hafter
  · exact .inl (.inr (operations_definition hgroup))
  · exact .inl (.inl hbefore)
  · rcases operations_outlined hname houtlined with hinlined | hinvoke
    · -- the operations that are left in place
      exact .inl (.inr hinlined)
    · cases hinvoke
  · exact .inr hafter

lemma entryFault?_apart
    (hbetween : (g.defined x name index line).lower Catalog.standard entry = .ok between)
    (hb : (g.apart x name index line).lower Catalog.standard entry = .ok b)
    (hfault : between.entryFault? = none) : b.entryFault? = none := by
  rw [Program.entryFault?_iff_of_lower hb, rewrites_apart.definitionNames,
    ← Program.entryFault?_iff_of_lower hbetween]
  exact hfault

lemma execute_apart [Engine] (h : (x.fill g.inlined).lower Catalog.standard entry = .ok a)
    (hname : Catalog.standard.find? name = none)
    (hbetween : (g.defined x name index line).lower Catalog.standard entry = .ok between)
    (hext : between.Extends a)
    (hb : (g.apart x name index line).lower Catalog.standard entry = .ok b)
    {artifact other : Artifact} (hartifact : Artifact.Runnable a artifact)
    (hother : Artifact.Runnable b other)
    (hadmits : Engine.admits other.wasm = Engine.admits artifact.wasm) (input : String) :
    other.execute input = artifact.execute input ∨
      ¬ b.Within b.entry (callDepth - 1) ∧
        other.execute input = .error (.execution .callStackExhausted) := by
  have hreported := Assembly.reported_of_extends (Program.linked_of_lower h) hext input
  rcases Artifact.execute_eq_or_reported hartifact hother hadmits input with hsame | ⟨hold, hnew⟩
  · exact .inl hsame
  · -- the engine runs both
    rw [hold, hnew, ← hreported]
    exact Assembly.reported_of_trails (Program.linked_of_lower hb)
      (trails_apart hname hbetween hb _ _) input

end Programs

/-- **A group is a function written in place.** Take a program that can be lowered, a pipeline with
a group among its steps anywhere in it, and a fresh name. With the name in place of the group, and
the group as the function of that name, which has the parameter in scope as its own, the program can
be lowered as well. Chains of calls grow by one at most. Both programs compile if the literals have
room, and if the engine takes the modules of both or of neither, they come to the same on every
input, except that the new one runs out of stack where a chain of its calls is longer than the
engine allows. -/
theorem outlined_agrees_inlined [Engine] (g : GroupStep) (x : Program.Position)
    {name entry : String} {a : Assembly}
    (h : (x.fill g.inlined).lower Catalog.standard entry = .ok a)
    (hfault : a.entryFault? = none) (hfresh : (x.fill g.inlined).Fresh entry x.parameter name)
    (index line : Nat) :
    ∃ b, ((x.fill (g.outlined name line)).insert index
        (g.definition name x.parameter line)).lower Catalog.standard entry = .ok b ∧
      b.entryFault? = none ∧
      (∀ depth, a.Within a.entry depth → b.Within b.entry (depth + 1)) ∧
      (a.literalBytes < 2 ^ 31 → ∃ artifact other, Artifact.ofAssembly a = .ok artifact ∧
        Artifact.ofAssembly b = .ok other ∧
        (Engine.admits other.wasm = Engine.admits artifact.wasm → ∀ input,
          other.execute input = artifact.execute input ∨
            ¬ b.Within b.entry (callDepth - 1) ∧
              other.execute input = .error (.execution .callStackExhausted))) := by
  have hname := hfresh.notBuiltin
  obtain ⟨between, hbetween, hfaultBetween, hext⟩ :=
    exists_lower_defined h hfault hfresh index line
  obtain ⟨b, hb⟩ := exists_lower_apart h hfresh hbetween
  have hfault' := entryFault?_apart hbetween hb hfaultBetween
  refine ⟨b, hb, hfault', fun depth hwithin => ?_, fun hbytes => ?_⟩
  · -- the group has become a detour, which costs one call
    obtain ⟨moved, hdetour⟩ := exists_detour hname hbetween hb
    refine hdetour.within_succ (beside_entry hbetween hfaultBetween hb hfault') ?_
    rw [hext.entry]
    exact Assembly.within_of_extends (Program.linked_of_lower h) hext a.entry_mem hwithin
  · -- no literal is new, so both programs have room for their literals
    have hbytes' := Nat.lt_of_le_of_lt (bytesOf_le_of_subset (literals_apart h hname hb)) hbytes
    obtain ⟨artifact, hartifact⟩ := Artifact.exists_runnable_of_lower h hfault hbytes
    obtain ⟨other, hother⟩ := Artifact.exists_runnable_of_lower hb hfault' hbytes'
    exact ⟨artifact, other, hartifact.made, hother.made,
      execute_apart h hname hbetween hext hb hartifact hother⟩

/-- `x | trim | { x; x | upper } | append '!'` -/
def doubled : GroupStep where
  first := .identifier "x" 1
  earlier := [.identifier "trim" 1]
  members := [.pipeline [.identifier "x" 1] 1,
    .pipeline [.identifier "x" 1, .identifier "upper" 1] 1]
  groupLine := 1
  later := [.call "append" [.literal "!" 1] 1]
  line := 1

/-- `def echo(x) = …` before `it | echo`. -/
def echoPlace : Program.Position :=
  .body [] "echo" "x" .here 1 [] (.pipeline [.identifier "it" 2, .identifier "echo" 2] 2)

def doubledAssembly : Assembly where
  functions := [{
    name := "fn_echo"
    parameter := "x"
    bindings := [⟨0, .builtin .trim [.param]⟩, ⟨1, .builtin .upper [.temp 0]⟩,
      ⟨2, .join [.temp 0, .temp 1]⟩, ⟨3, .literal "!"⟩, ⟨4, .builtin .append [.temp 2, .temp 3]⟩]
    result := .temp 4 }]
  entry := {
    name := "run"
    parameter := "input"
    bindings := [⟨0, .invoke "fn_echo" .param⟩]
    result := .temp 0 }

theorem doubled_agrees :
    (echoPlace.fill doubled.inlined).lower Catalog.standard "run" = .ok doubledAssembly ∧
    (echoPlace.fill doubled.inlined).Fresh "run" echoPlace.parameter "both" ∧
    ∃ b artifact other,
      ((echoPlace.fill (doubled.outlined "both" 1)).insert 1
        (doubled.definition "both" "x" 1)).lower Catalog.standard "run" = .ok b ∧
      Artifact.ofAssembly doubledAssembly = .ok artifact ∧ Artifact.ofAssembly b = .ok other ∧
      ∀ input, other.execute input = artifact.execute input := by
  have h : (echoPlace.fill doubled.inlined).lower Catalog.standard "run" = .ok doubledAssembly :=
    rfl
  have hfresh : (echoPlace.fill doubled.inlined).Fresh "run" echoPlace.parameter "both" :=
    ⟨by decide, by decide, by decide, by decide⟩
  have houtcome : doubledAssembly.outcome 1 "hi" = .done (.ok "hi\nHI!") := rfl
  have hbytes : doubledAssembly.literalBytes < 2 ^ 31 := by decide +kernel
  obtain ⟨b, hb, -, hchains, hcompiled⟩ :=
    outlined_agrees_inlined doubled echoPlace h rfl hfresh 1 1
  obtain ⟨artifact, other, hartifact, hother, hexecute⟩ := hcompiled hbytes
  obtain ⟨_, htaken, hadmits⟩ :=
    Artifact.exists_of_isTaken (x := Artifact.ofAssembly doubledAssembly) (by decide +kernel)
  cases hartifact.symm.trans htaken
  obtain ⟨_, htaken', hadmits'⟩ := Artifact.exists_of_isTaken
    (x := ((echoPlace.fill (doubled.outlined "both" 1)).insert 1 (doubled.definition "both"
      echoPlace.parameter 1)).lower Catalog.standard "run" >>= Artifact.ofAssembly)
    (by decide +kernel)
  rw [bind_of_ok hb] at htaken'
  cases hother.symm.trans htaken'
  refine ⟨h, hfresh, b, artifact, other, hb, hartifact, hother, fun input => ?_⟩
  have hshort : b.Within b.entry (callDepth - 1) := fun ps hps =>
    (hchains 1 (Assembly.within_of_outcome houtcome) ps hps).trans (by decide)
  exact (hexecute (hadmits'.trans hadmits.symm) input).resolve_right fun hlong => hlong.1 hshort

end GroupStep

end TextPipeline
