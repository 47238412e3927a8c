import TextPipeline.Proofs.Artifact.Definitions
import TextPipeline.Proofs.Procedure.Operations
import TextPipeline.Proofs.Program.Running

/-!
Steps and calls. A name that comes last in a pipeline can as well be called in value context, with
the pipeline before it as the first argument: the one can be lowered if and only if the other can,
and then nothing distinguishes them, neither the code they become nor the programs in which they
stand (`asStep_agrees_asCall`).
-/

namespace TextPipeline

open Lowering Wasm

/-- A name applied to what a pipeline comes to, and to further arguments. -/
structure Application where
  first : Term
  rest : List Term
  name : String
  arguments : List Term
  line : Nat
  nameLine : Nat

namespace Application

variable (s : Application)

/-- The pipeline to which the name is applied. -/
def subject : Expression := .pipeline (s.first :: s.rest) s.line

/-- The name as a step: a name alone if there are no further arguments. -/
def lastStep : Term :=
  match s.arguments with
  | [] => .identifier s.name s.nameLine
  | arguments => .call s.name arguments s.nameLine

/-- The pipeline with one more step. -/
def asStep : Expression := .pipeline (s.first :: (s.rest ++ [s.lastStep])) s.line

/-- A call with the pipeline as the only member of a group. -/
def asCall : Term := .call s.name (.group [s.subject] s.line :: s.arguments) s.nameLine

/-! ### What may stand there -/

variable {s} {names : Names} {scope : String}

lemma sites_lastStep : s.lastStep.sites .step scope =
    .term .step scope s.lastStep :: sitesOfTerms .value scope s.arguments := by
  unfold lastStep
  cases s.arguments <;> rfl

lemma sites_asStep : s.asStep.sites scope = .pipeline s.asStep ::
    (s.first.sites .value scope ++ (sitesOfTerms .step scope s.rest ++
      .term .step scope s.lastStep :: sitesOfTerms .value scope s.arguments)) := by
  rw [asStep, Expression.sites, sitesOfTerms_append, sitesOfTerms, sites_lastStep, sitesOfTerms,
    List.append_nil]

lemma sites_asCall : s.asCall.sites .value scope = .term .value scope s.asCall ::
    .term .value scope (.group [s.subject] s.line) :: .pipeline s.subject ::
      (s.first.sites .value scope ++ (sitesOfTerms .step scope s.rest ++
        sitesOfTerms .value scope s.arguments)) := by
  simp only [asCall, subject, Term.sites, sitesOfTerms, sitesOfMembers, Expression.sites,
    List.append_nil, List.cons_append, List.append_assoc]

lemma lastStep_allowed_iff (hname : s.name ≠ scope) :
    (Site.term .step scope s.lastStep).Allowed names ↔
      (Site.term .value scope s.asCall).Allowed names := by
  unfold lastStep asCall
  cases s.arguments with
  | nil => simp [Site.Allowed, hname]
  | cons argument arguments => simp [Site.Allowed]

lemma allowed_iff (hname : s.name ≠ scope) :
    (∀ x ∈ s.asStep.sites scope, x.Allowed names) ↔
      ∀ x ∈ s.asCall.sites .value scope, x.Allowed names := by
  rw [sites_asStep, sites_asCall]
  simp only [List.forall_mem_cons, List.forall_mem_append, lastStep_allowed_iff hname]
  simp only [Site.Allowed, asStep, subject, Expression.terms, ne_eq, reduceCtorEq,
    not_false_eq_true, true_and]
  tauto

lemma sites_singleton (t : Term) (line : Nat) : (Expression.pipeline [t] line).sites scope =
    .pipeline (.pipeline [t] line) :: t.sites .value scope := by
  rw [Expression.sites, sitesOfTerms, List.append_nil]

lemma allowed_singleton (t : Term) (line : Nat) :
    (∀ x ∈ (Expression.pipeline [t] line).sites scope, x.Allowed names) ↔
      ∀ x ∈ t.sites .value scope, x.Allowed names := by
  rw [sites_singleton]
  simp [Site.Allowed, Expression.terms]

lemma plain_or_builtin (h : ∀ x ∈ s.asStep.sites scope, x.Allowed names) :
    s.arguments = [] ∨ ∃ d, names.catalog.find? s.name = some d := by
  have hlast : (Site.term .step scope s.lastStep).Allowed names :=
    h _ (by simp [sites_asStep])
  unfold lastStep at hlast
  cases harguments : s.arguments with
  | nil => exact .inl rfl
  | cons argument arguments =>
    rw [harguments] at hlast
    obtain ⟨d, hd, -⟩ := hlast
    exact .inr ⟨d, hd⟩

end Application

/-! ### What it comes to -/

namespace Running

variable (calls : HandleCalls) (σ : Scope)

lemma result_asStep (s : Application) : result calls σ s.asStep =
    result calls σ s.subject >>= fun handle => step calls σ handle s.lastStep := by
  rw [Application.asStep, Application.subject, result, result, bind_assoc]
  refine bind_congr fun handle => ?_
  rw [steps_append]
  refine bind_congr fun handle => ?_
  rw [steps]
  exact (bind_congr fun handle => by rw [steps]).trans (bind_pure _)

/-- **Calls and steps run alike.** -/
lemma result_asStep_eq_value_asCall {s : Application}
    (h : s.arguments = [] ∨ ∃ d, Catalog.standard.find? s.name = some d) :
    result calls σ s.asStep = value calls σ s.asCall := by
  rw [result_asStep, Application.asCall, value, values, value_group_singleton]
  unfold Application.lastStep
  cases hd : Catalog.standard.find? s.name with
  | some d =>
    simp only [bind_assoc, pure_bind]
    refine bind_congr fun handle => ?_
    cases s.arguments with
    | nil => rw [step, hd, values, pure_bind]
    | cons argument arguments => rw [step, hd]
  | none =>
    have harguments : s.arguments = [] := by simpa [hd] using h
    simp only [harguments, bind_assoc, pure_bind, values, step, hd]

end Running

/-- Runs the code and returns the handle of its operand. -/
def Lowering.computed (calls : HandleCalls) (r : Operand × List Binding) (f : Handles) :
    Run Int := do
  let g ← executedOnHandles calls r.2 f
  return g r.1

lemma Lowering.computed_of_tracks {calls : HandleCalls} {f : Handles} {next : Nat}
    {r : Operand × List Binding} {y : Run Int}
    (h : Running.Tracks (Running.Holds f next r.1) (executedOnHandles calls r.2 f) y) :
    computed calls r f = y :=
  (h _ pure fun _ _ hg => congrArg pure hg.handle).trans (bind_pure y)

/-! ### Programs -/

namespace Program

variable {p q : Program} {parameter entry : String} {e e' : Expression} {a b : Assembly}

lemma Rewrites.reported [Engine] (h : p.Rewrites parameter e e' q)
    (ha : p.lower Catalog.standard entry = .ok a) (hb : q.lower Catalog.standard entry = .ok b)
    (he : ∀ calls handle, Running.result calls ⟨parameter, handle⟩ e =
      Running.result calls ⟨parameter, handle⟩ e') (input : String) :
    b.reported input = a.reported input := by
  have hresult := Running.result_rewrites Running.compatible_eq h (fun depth hcalls handle => by
    rw [funext₂ (hcalls depth le_rfl), he]) (callDepth - 1) Host.inputHandle
  unfold Assembly.reported
  rw [Running.onHandles_of_lower ha, Running.onHandles_of_lower hb, hresult]

lemma Rewrites.runsAs [Engine] (h : p.Rewrites parameter e e' q)
    (ha : p.lower Catalog.standard entry = .ok a) (hfault : a.entryFault? = none)
    (hb : q.lower Catalog.standard entry = .ok b)
    (he : ∀ calls handle, Running.result calls ⟨parameter, handle⟩ e =
      Running.result calls ⟨parameter, handle⟩ e') (hliterals : a.literals ⊆ b.literals) :
    q.RunsAs entry a := by
  have hfault' : b.entryFault? = none := by
    rw [entryFault?_iff_of_lower hb, h.definitionNames, ← entryFault?_iff_of_lower ha]
    exact hfault
  exact runsAs_of_reported ha hfault hb hfault' hliterals (h.reported ha hb he)

end Program

namespace Application

variable {s : Application}

lemma operations_asCall (catalog : Catalog) (scope : String) :
    operationsOf catalog (s.asStep.sites scope) ⊆
      operationsOf catalog ((Expression.pipeline [s.asCall] s.line).sites scope) := by
  intro op hop
  obtain ⟨x, hx, hop⟩ := List.mem_filterMap.mp hop
  rw [sites_asStep] at hx
  rw [sites_singleton, sites_asCall, operationsOf, List.mem_filterMap]
  simp only [List.mem_cons, List.mem_append] at hx
  rcases hx with rfl | hx | hx | rfl | hx
  · -- the pipeline itself has no operation
    cases hop
  · exact ⟨x, by simp [hx], hop⟩
  · exact ⟨x, by simp [hx], hop⟩
  · -- the last step has become the call
    refine ⟨.term .value scope s.asCall, by simp, ?_⟩
    unfold lastStep at hop
    cases harguments : s.arguments <;> rw [harguments] at hop <;> exact hop
  · exact ⟨x, by simp [hx], hop⟩

lemma computed_asStep_eq_asCall {functions : List String} {scope : Scope} {next : Nat}
    {r r' : Operand × List Binding} (hbelow : scope.current.Below next)
    (hr : expression ⟨Catalog.standard, functions⟩ scope next s.asStep = .ok r)
    (hr' : value ⟨Catalog.standard, functions⟩ scope next s.asCall = .ok r')
    (calls : HandleCalls) (f : Handles) : computed calls r f = computed calls r' f := by
  have hallowed := (expression_checks scope next s.asStep).exists_ok_iff.mp ⟨r, hr⟩
  have hsame : Running.SameCalls ⟨Catalog.standard, functions⟩ calls
      fun name => calls (functionName name) := ⟨rfl, fun _ _ => rfl⟩
  have hscope : Running.Mirrors f next scope ⟨scope.parameter, f scope.current⟩ :=
    ⟨rfl, rfl, hbelow⟩
  rw [computed_of_tracks (Running.expression_tracks hsame scope next _ hscope hr),
    computed_of_tracks (Running.value_tracks hsame scope next _ hscope hr')]
  exact Running.result_asStep_eq_value_asCall _ _ (plain_or_builtin hallowed)

section Programs

variable {x : Program.Position} {entry : String} {a : Assembly}

lemma exists_lower_asCall (hname : s.name ≠ x.parameter)
    (ha : (x.fill s.asStep).lower Catalog.standard entry = .ok a) :
    ∃ b, (x.fill (.pipeline [s.asCall] s.line)).lower Catalog.standard entry = .ok b :=
  (x.rewrites _ _).exists_lower ha
    ((allowed_singleton _ _).mpr ((allowed_iff hname).mp (x.allowed ha)))

lemma exists_lower_asStep (hname : s.name ≠ x.parameter)
    (ha : (x.fill (.pipeline [s.asCall] s.line)).lower Catalog.standard entry = .ok a) :
    ∃ b, (x.fill s.asStep).lower Catalog.standard entry = .ok b :=
  (x.rewrites _ _).exists_lower ha
    ((allowed_iff hname).mpr ((allowed_singleton _ _).mp (x.allowed ha)))

lemma runsAs_asCall [Engine] (hname : s.name ≠ x.parameter)
    (ha : (x.fill s.asStep).lower Catalog.standard entry = .ok a) (hfault : a.entryFault? = none) :
    (x.fill (.pipeline [s.asCall] s.line)).RunsAs entry a := by
  obtain ⟨b, hb⟩ := exists_lower_asCall hname ha
  refine (x.rewrites _ _).runsAs ha hfault hb (fun calls handle => ?_) fun text htext => ?_
  · rw [Running.result_singleton]
    exact Running.result_asStep_eq_value_asCall _ _ (plain_or_builtin (x.allowed ha))
  · obtain ⟨before, after, hoperations⟩ := x.exists_operations Catalog.standard
    rw [Assembly.mem_literals_iff_of_lower ha, hoperations] at htext
    rw [Assembly.mem_literals_iff_of_lower hb, hoperations]
    simp only [List.mem_append] at htext ⊢
    exact htext.imp_left (Or.imp_right fun h => operations_asCall _ _ h)

end Programs

/-- **A step is a call.** Take a name other than the one in scope. As the last step of a pipeline
it can be lowered exactly if it can be called with the pipeline, in a group, as its first argument.
The code of the two does the same with every host, whatever the handles before it and whatever the
functions that it invokes. And in any position of any program the one can take the place of the
other: the program can still be lowered, and comes to the same on every input, if the engine takes
the modules of both or of neither. -/
theorem asStep_agrees_asCall [Engine] (s : Application) {parameter : String}
    (hname : s.name ≠ parameter) :
    (∀ names current next,
      (∃ r, expression names ⟨parameter, current⟩ next s.asStep = .ok r) ↔
        ∃ r, value names ⟨parameter, current⟩ next s.asCall = .ok r) ∧
    (∀ functions current next r r', current.Below next →
      expression ⟨Catalog.standard, functions⟩ ⟨parameter, current⟩ next s.asStep = .ok r →
      value ⟨Catalog.standard, functions⟩ ⟨parameter, current⟩ next s.asCall = .ok r' →
      ∀ calls f, computed calls r f = computed calls r' f) ∧
    ∀ (x : Program.Position) (entry : String), x.parameter = parameter →
      ((∃ a, (x.fill s.asStep).lower Catalog.standard entry = .ok a) ↔
        ∃ b, (x.fill (.pipeline [s.asCall] s.line)).lower Catalog.standard entry = .ok b) ∧
      ∀ a, (x.fill s.asStep).lower Catalog.standard entry = .ok a → a.entryFault? = none →
        (x.fill (.pipeline [s.asCall] s.line)).RunsAs entry a := by
  refine ⟨fun names current next => ?_,
    fun _ _ _ _ _ hbelow hr hr' => computed_asStep_eq_asCall hbelow hr hr', fun x entry hx => ?_⟩
  · -- both are lowered if their nodes are allowed
    rw [(expression_checks ⟨parameter, current⟩ next s.asStep).exists_ok_iff,
      (value_checks ⟨parameter, current⟩ next s.asCall).exists_ok_iff]
    exact allowed_iff hname
  · subst hx
    exact ⟨⟨fun ⟨_, ha⟩ => exists_lower_asCall hname ha,
      fun ⟨_, hb⟩ => exists_lower_asStep hname hb⟩,
      fun _ ha hfault => runsAs_asCall hname ha hfault⟩

/-- `x | upper | append '!'`, which is also `append({ x | upper }, '!')`. -/
def exclaimed : Application where
  first := .identifier "x" 1
  rest := [.identifier "upper" 1]
  name := "append"
  arguments := [.literal "!" 1]
  line := 1
  nameLine := 1

/-- `def loud(x) = x | { …; x }` before `it | loud`. -/
def loudPlace : Program.Position :=
  .body [] "loud" "x" (.stage [.identifier "x" 1]
    (.member [] .here [.pipeline [.identifier "x" 1] 1] 1) [] 1) 1 []
    (.pipeline [.identifier "it" 2, .identifier "loud" 2] 2)

theorem exclaimed_agrees : exclaimed.name ≠ loudPlace.parameter ∧
    (∃ r, value ⟨Catalog.standard, []⟩ ⟨"x", .param⟩ 0 exclaimed.asCall = .ok r) ∧
    ∃ a, (loudPlace.fill exclaimed.asStep).lower Catalog.standard "run" = .ok a ∧
      (loudPlace.fill (.pipeline [exclaimed.asCall] 1)).RunsAs "run" a := by
  have hname : exclaimed.name ≠ loudPlace.parameter := by decide
  obtain ⟨hlowered, -, hplaced⟩ := exclaimed.asStep_agrees_asCall hname
  obtain ⟨a, ha, hfault⟩ : ∃ a, (loudPlace.fill exclaimed.asStep).lower Catalog.standard "run" =
      .ok a ∧ a.entryFault? = none := ⟨_, rfl, rfl⟩
  exact ⟨hname, (hlowered _ _ _).mp ⟨_, rfl⟩, a, ha, (hplaced loudPlace "run" rfl).2 a ha hfault⟩

end Application

end TextPipeline
