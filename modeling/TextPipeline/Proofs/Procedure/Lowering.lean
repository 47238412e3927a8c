import TextPipeline.Proofs.Procedure.Form
import TextPipeline.Proofs.Program.Meaning

/-!
Lowering keeps the meaning of a program: the assembly has the results that the tree has
(`yields_iff_of_lower`).

The code of a term is executed beside the evaluation of the term. As long as both go on, the
operand that lowering returned holds the text of the term.
-/

namespace TextPipeline

namespace Lowering

/-- Code ends as the evaluation beside it does, and where both have a value these belong
together. -/
inductive Matches {α : Type} (holds : Frame → α → Prop) : Outcome Frame → Outcome α → Prop
  | ok {g a} : holds g a → Matches holds (.done (.ok g)) (.done (.ok a))
  | error {e} : Matches holds (.done (.error e)) (.done (.error e))
  | pending : Matches holds .pending .pending

/-- The operand holds the text. -/
def Holds (o : Operand) (g : Frame) (text : String) : Prop := g.get o = text

def HoldsAll (os : List Operand) (g : Frame) (texts : List String) : Prop :=
  os.map g.get = texts

lemma Matches.bind {α β : Type} {P : Frame → α → Prop} {Q : Frame → β → Prop}
    {x : Outcome Frame} {y : Outcome α} {k : Frame → Outcome Frame} {l : α → Outcome β}
    (h : Matches P x y) (hk : ∀ g a, x = .done (.ok g) → P g a → Matches Q (k g) (l a)) :
    Matches Q (x >>= k) (y >>= l) := by
  cases h with
  | ok hP => exact hk _ _ rfl hP
  | error => exact .error
  | pending => exact .pending

lemma Matches.cons {o : Operand} {os : List Operand} {text : String} {x : Outcome Frame}
    {y : Outcome (List String)} (h : Matches (HoldsAll os) x y)
    (ho : ∀ g, x = .done (.ok g) → g.get o = text) :
    Matches (HoldsAll (o :: os)) x (y >>= fun texts => pure (text :: texts)) := by
  cases h with
  | ok hos => exact .ok (congrArg₂ List.cons (ho _ rfl) hos)
  | error => exact .error
  | pending => exact .pending

lemma Matches.bind_get {o : Operand} {x : Outcome Frame} {y : Outcome String}
    (h : Matches (Holds o) x y) : (x >>= fun g => pure (g.get o)) = y := by
  cases h with
  | ok hP =>
    cases hP
    rfl
  | error => rfl
  | pending => rfl

section Emission

variable {calls : Calls} {f : Frame} {next : Nat} {o : Operand} {before code : List Binding}
  {op : Operation}

lemma matches_emit {α : Type} {P : Frame → α → Prop} {y : Outcome α} {l : α → Outcome String}
    (he : (o, code) = emit next before op) (h : Matches P (executed calls before f) y)
    (hop : ∀ g a, executed calls before f = .done (.ok g) → P g a → op.outcome calls g = l a) :
    Matches (Holds o) (executed calls code f) (y >>= l) := by
  cases he
  rw [executed_append]
  refine h.bind fun g a hg hP => ?_
  rw [executed_cons, hop g a hg hP]
  rcases l a with (e | text) | _
  · exact .error
  · exact .ok (g.get_set_self _ text)
  · exact .pending

lemma matches_emit_nil (he : (o, code) = emit next [] op) :
    Matches (Holds o) (executed calls code f) (op.outcome calls f) := by
  have hstart : Matches (fun g (_ : Unit) => g = f) (executed calls [] f) (pure ()) := .ok rfl
  exact matches_emit he hstart (l := fun _ => op.outcome calls f) fun g _ _ hg => by rw [hg]

lemma outcome_stacking (parts : List Operand) (g : Frame) :
    (if parts.isEmpty then Operation.literal "" else .join parts).outcome calls g =
      pure (Text.stacked (parts.map g.get)) := by
  cases parts <;> rfl

end Emission

structure Reflects (f : Frame) (next : Nat) (scope : Scope) (σ : Meaning.Scope) : Prop where
  parameter : scope.parameter = σ.parameter
  current : f.get scope.current = σ.current
  below : scope.current.Below next

lemma Reflects.after {f g : Frame} {next : Nat} {scope : Scope} {σ : Meaning.Scope}
    {code : List Binding} {os : List Operand} {calls : Calls} (h : Reflects f next scope σ)
    (hcode : Emits next os code) (hg : executed calls code f = .done (.ok g)) :
    Reflects g (next + code.length) scope σ where
  parameter := h.parameter
  current := (hcode.1.agreesBelow hg _ h.below).trans h.current
  below := h.below.mono (Nat.le_add_right _ _)

structure SameCalls (names : Names) (calls fcalls : Calls) : Prop where
  catalog : names.catalog = Catalog.standard
  functions : ∀ name ∈ names.functions, ∀ text, calls (functionName name) text = fcalls name text

section Terms

variable {names : Names} {calls fcalls : Calls}

mutual

lemma value_matches (hs : SameCalls names calls fcalls) :
    ∀ (scope : Scope) (next : Nat) (t : Term) {f : Frame} {σ : Meaning.Scope}
    {o : Operand} {code : List Binding}, Reflects f next scope σ →
    value names scope next t = .ok (o, code) →
    Matches (Holds o) (executed calls code f) (Meaning.value fcalls σ t)
  | scope, next, .identifier name line, f, σ, _, _, hσ, h => by
    obtain ⟨rfl, rfl, rfl⟩ := value_identifier_ok h
    rw [Meaning.value, if_pos hσ.parameter]
    exact .ok hσ.current
  | scope, next, .literal text line, f, σ, _, _, hσ, h => by
    rw [value] at h
    exact matches_emit_nil (Except.ok.inj h).symm
  | scope, next, .call target arguments line, f, σ, _, _, hσ, h => by
    rw [Meaning.value]
    obtain ⟨d, os, before, hd, -, hvs, he⟩ | ⟨operand, before, hd, hmem, hvs, he⟩ :=
      value_call_ok h
    · -- a builtin, on the texts of its operands
      rw [hs.catalog] at hd
      rw [hd]
      refine matches_emit he (values_matches hs scope next arguments hσ hvs) fun g texts _ hg => ?_
      rw [← hg]
      rfl
    · -- a function, on the text of its only operand
      rw [hs.catalog] at hd
      rw [hd]
      refine matches_emit he (values_matches hs scope next arguments hσ hvs) fun g texts _ hg => ?_
      rw [← hg]
      exact hs.functions target hmem _
  | scope, next, .group es line, f, σ, _, _, hσ, h => by
    rw [Meaning.value]
    obtain ⟨parts, before, hms, he⟩ := value_group_ok h
    refine matches_emit he (members_matches hs scope next es hσ hms) fun g texts _ hg => ?_
    rw [outcome_stacking, hg]

lemma step_matches (hs : SameCalls names calls fcalls) :
    ∀ (scope : Scope) (next : Nat) (current : Operand) (t : Term) {f : Frame}
    {σ : Meaning.Scope} {o : Operand} {code : List Binding}, Reflects f next scope σ →
    current.Below next → step names scope next current t = .ok (o, code) →
    Matches (Holds o) (executed calls code f) (Meaning.step fcalls σ (f.get current) t)
  | scope, next, current, .identifier name line, f, σ, _, _, hσ, hc, h => by
    rw [Meaning.step]
    obtain ⟨-, ⟨d, hd, -, he⟩ | ⟨hd, hmem, he⟩⟩ := step_identifier_ok h
    · rw [hs.catalog] at hd
      rw [hd]
      exact matches_emit_nil he
    · rw [hs.catalog] at hd
      rw [hd]
      have hmatch : Matches (Holds _) (executed calls _ f) _ := matches_emit_nil he
      exact hs.functions name hmem _ ▸ hmatch
  | scope, next, current, .literal text line, f, σ, _, _, hσ, hc, h => by
    rw [step] at h
    exact matches_emit_nil (Except.ok.inj h).symm
  | scope, next, current, .call target arguments line, f, σ, _, _, hσ, hc, h => by
    rw [Meaning.step]
    obtain ⟨d, os, before, hd, -, hvs, he⟩ := step_call_ok h
    rw [hs.catalog] at hd
    rw [hd]
    refine matches_emit he (values_matches hs scope next arguments hσ hvs) fun g texts hx hg => ?_
    -- the arguments leave the text so far where it was
    have hcurrent := (values_emits scope next arguments hσ.below hvs).1.agreesBelow hx current hc
    rw [← hg, ← hcurrent]
    rfl
  | scope, next, current, .group es line, f, σ, _, _, hσ, hc, h => by
    rw [Meaning.step]
    obtain ⟨parts, before, hms, he⟩ := step_group_ok h
    have hσ' : Reflects f next { scope with current } { σ with current := f.get current } :=
      ⟨hσ.parameter, rfl, hc⟩
    refine matches_emit he (members_matches hs _ next es hσ' hms) fun g texts _ hg => ?_
    rw [outcome_stacking, hg]

lemma values_matches (hs : SameCalls names calls fcalls) :
    ∀ (scope : Scope) (next : Nat) (ts : List Term) {f : Frame}
    {σ : Meaning.Scope} {os : List Operand} {code : List Binding}, Reflects f next scope σ →
    values names scope next ts = .ok (os, code) →
    Matches (HoldsAll os) (executed calls code f) (Meaning.values fcalls σ ts)
  | scope, next, [], f, σ, _, _, hσ, h => by
    cases h
    exact .ok rfl
  | scope, next, t :: ts, f, σ, _, _, hσ, h => by
    obtain ⟨o, before, rest, more, hv, hvs, rfl, rfl⟩ := values_cons_ok h
    have hfirst := value_emits scope next t hσ.below hv
    rw [Meaning.values, executed_append]
    refine (value_matches hs scope next t hσ hv).bind fun g text hx hg => ?_
    have hσ' := hσ.after hfirst hx
    refine (values_matches hs scope _ ts hσ' hvs).cons fun k hk => ?_
    have hkeep := (values_emits scope _ ts hσ'.below hvs).1.agreesBelow hk
    exact (hkeep o (hfirst.2 o (by simp))).trans hg

lemma steps_matches (hs : SameCalls names calls fcalls) :
    ∀ (scope : Scope) (next : Nat) (current : Operand) (ts : List Term)
    {f : Frame} {σ : Meaning.Scope} {o : Operand} {code : List Binding},
    Reflects f next scope σ → current.Below next →
    steps names scope next current ts = .ok (o, code) →
    Matches (Holds o) (executed calls code f) (Meaning.steps fcalls σ (f.get current) ts)
  | scope, next, current, [], f, σ, _, _, hσ, hc, h => by
    cases h
    exact .ok rfl
  | scope, next, current, t :: ts, f, σ, _, _, hσ, hc, h => by
    obtain ⟨operand, before, more, ht, hss, rfl⟩ := steps_cons_ok h
    have hfirst := step_emits scope next current t hσ.below hc ht
    rw [Meaning.steps, executed_append]
    refine (step_matches hs scope next current t hσ hc ht).bind fun g text hx hg => ?_
    rw [← hg]
    exact steps_matches hs scope _ operand ts (hσ.after hfirst hx) (hfirst.2 operand (by simp)) hss

lemma expression_matches (hs : SameCalls names calls fcalls) :
    ∀ (scope : Scope) (next : Nat) (e : Expression) {f : Frame}
    {σ : Meaning.Scope} {o : Operand} {code : List Binding}, Reflects f next scope σ →
    expression names scope next e = .ok (o, code) →
    Matches (Holds o) (executed calls code f) (Meaning.result fcalls σ e)
  | scope, next, .pipeline [] line, f, σ, _, _, hσ, h => by cases h
  | scope, next, .pipeline (t :: ts) line, f, σ, _, _, hσ, h => by
    obtain ⟨operand, before, more, hv, hss, rfl⟩ := expression_cons_ok h
    have hfirst := value_emits scope next t hσ.below hv
    rw [Meaning.result, executed_append]
    refine (value_matches hs scope next t hσ hv).bind fun g text hx hg => ?_
    rw [← hg]
    exact steps_matches hs scope _ operand ts (hσ.after hfirst hx) (hfirst.2 operand (by simp)) hss

lemma members_matches (hs : SameCalls names calls fcalls) :
    ∀ (scope : Scope) (next : Nat) (es : List Expression) {f : Frame}
    {σ : Meaning.Scope} {os : List Operand} {code : List Binding}, Reflects f next scope σ →
    members names scope next es = .ok (os, code) →
    Matches (HoldsAll os) (executed calls code f) (Meaning.members fcalls σ es)
  | scope, next, [], f, σ, _, _, hσ, h => by
    cases h
    exact .ok rfl
  | scope, next, e :: es, f, σ, _, _, hσ, h => by
    obtain ⟨o, before, rest, more, he, hms, rfl, rfl⟩ := members_cons_ok h
    have hfirst := expression_emits scope next e hσ.below he
    rw [Meaning.members, executed_append]
    refine (expression_matches hs scope next e hσ he).bind fun g text hx hg => ?_
    have hσ' := hσ.after hfirst hx
    refine (members_matches hs scope _ es hσ' hms).cons fun k hk => ?_
    have hkeep := (members_emits scope _ es hσ'.below hms).1.agreesBelow hk
    exact (hkeep o (hfirst.2 o (by simp))).trans hg

end

lemma outcome_of_procedure (hs : SameCalls names calls fcalls) {name parameter scopeName : String}
    {body : Expression} {q : Procedure} (h : procedure names name parameter scopeName body = .ok q)
    (input text : String) :
    q.outcome calls input text = Meaning.result fcalls ⟨scopeName, text⟩ body := by
  obtain ⟨⟨o, code⟩, hbody, hq⟩ := ok_of_bind h
  cases hq
  have hscope : Reflects (.start input text) 0 ⟨scopeName, .param⟩ ⟨scopeName, text⟩ :=
    ⟨rfl, rfl, trivial⟩
  exact (expression_matches hs _ 0 body hscope hbody).bind_get

end Terms

/-! ### Programs -/

lemma functionName_injective : Function.Injective functionName := by
  intro a b h
  simpa [functionName] using h

lemma forall₂_of_mapM {α β : Type} {f : α → Except Error β} {xs : List α} {ys : List β}
    (h : xs.mapM f = .ok ys) : List.Forall₂ (fun x y => f x = .ok y) xs ys := by
  induction xs generalizing ys with
  | nil =>
    cases h
    exact .nil
  | cons x xs ih =>
    rw [List.mapM_cons] at h
    obtain ⟨y, hy, h⟩ := ok_of_bind h
    obtain ⟨rest, hrest, h⟩ := ok_of_bind h
    cases h
    exact .cons hy (ih hrest)

lemma name_of_function {names : Names} {d : Definition} {q : Procedure}
    (h : function names d = .ok q) : q.name = functionName d.name := by
  obtain ⟨_, -, hq⟩ := ok_of_bind h
  cases hq
  rfl

lemma exists_procedure_of_mem {names : Names} {ds : List Definition} {qs : List Procedure}
    (h : List.Forall₂ (fun d q => function names d = .ok q) ds qs) {name : String}
    (hname : name ∈ ds.map (·.name)) (entry : Procedure) :
    ∃ d q, ds.find? (fun d => d.name = name) = some d ∧
      (qs ++ [entry]).find? (fun q => q.name = functionName name) = some q ∧
      function names d = .ok q := by
  induction h with
  | nil => cases hname
  | @cons d q ds qs hq _ ih =>
    have hqname := name_of_function hq
    by_cases hd : d.name = name
    · -- the first definition of the name
      exact ⟨d, q, by simp [hd], by simp [hqname, hd], hq⟩
    · -- a definition of another name, whose procedure has another name too
      have hne : q.name ≠ functionName name := by
        rw [hqname]
        exact fun h => hd (functionName_injective h)
      obtain ⟨d', q', hd', hq', hfun⟩ := ih (by simpa [Ne.symm hd] using hname)
      refine ⟨d', q', ?_, ?_, hfun⟩
      · simpa [hd] using hd'
      · simpa [hne] using hq'

end Lowering

lemma Program.lower_ok {catalog : Catalog} {entry : String} {p : Program} {a : Assembly}
    (h : p.lower catalog entry = .ok a) :
    firstRepeated Definition.name [] p.definitions = none ∧
      p.definitions.mapM (Lowering.function ⟨catalog, p.definitions.map (·.name)⟩) =
        .ok a.functions ∧
      Lowering.procedure ⟨catalog, p.definitions.map (·.name)⟩ entry entryParameter inputName
        p.expression = .ok a.entry := by
  unfold Program.lower at h
  split at h
  · cases h
  · rename_i hrep
    obtain ⟨functions, hfs, h⟩ := ok_of_bind h
    obtain ⟨q, hq, h⟩ := ok_of_bind h
    cases h
    exact ⟨hrep, hfs, hq⟩

namespace Lowering

variable {p : Program} {entry : String} {a : Assembly}

lemma sameCalls_of_lower (h : p.lower Catalog.standard entry = .ok a) (input : String)
    (depth : Nat) :
    SameCalls ⟨Catalog.standard, p.definitions.map (·.name)⟩ (a.call input depth)
      (Meaning.call p depth) := by
  induction depth with
  | zero => exact ⟨rfl, fun _ _ _ => rfl⟩
  | succ depth ih =>
    refine ⟨rfl, fun name hname text => ?_⟩
    obtain ⟨-, hfs, -⟩ := Program.lower_ok h
    obtain ⟨d, q, hd, hq, hfun⟩ := exists_procedure_of_mem (forall₂_of_mapM hfs) hname a.entry
    have hd : p.definition? name = some d := hd
    have hq : a.procedure? (functionName name) = some q := hq
    simp only [Assembly.call, Meaning.call, hd, hq]
    exact outcome_of_procedure ih hfun input text

/-- **Lowering preserves meaning.** The expression of a program has a result by the rules for
trees exactly when the entry procedure of its assembly has it: the same text, or the same first
error. -/
theorem yields_iff_of_lower (h : p.lower Catalog.standard entry = .ok a) (input : String)
    (r : Except Error String) : Meaning.Yields p input r ↔ a.Yields input r := by
  obtain ⟨-, -, hentry⟩ := Program.lower_ok h
  have hdepth (depth : Nat) : a.outcome depth input =
      Meaning.result (Meaning.call p depth) ⟨inputName, input⟩ p.expression :=
    outcome_of_procedure (sameCalls_of_lower h input depth) hentry input input
  unfold Meaning.Yields Assembly.Yields
  rw [Meaning.result_iff_exists_depth]
  simp only [hdepth]

/-- `def loud(x) = x | upper`, and a pipeline that calls it and forks on the result. -/
def loudProgram : Program :=
  ⟨[⟨"loud", "x", .pipeline [.identifier "x" 1, .identifier "upper" 1] 1, 1⟩],
    .pipeline [.identifier "it" 2, .identifier "loud" 2,
      .group [.pipeline [.identifier "it" 2] 2, .pipeline [.literal "!" 2] 2] 2] 2⟩

def loudAssembly : Assembly :=
  ⟨[⟨"fn_loud", "x", [⟨0, .builtin .upper [.param]⟩], .temp 0⟩],
    ⟨"run", "input", [⟨0, .invoke "fn_loud" .param⟩, ⟨1, .literal "!"⟩,
      ⟨2, .join [.temp 0, .temp 1]⟩], .temp 2⟩⟩

theorem loudProgram_yields :
    loudProgram.lower Catalog.standard "run" = .ok loudAssembly ∧
      Meaning.Yields loudProgram "hi" (.ok "HI\n!") := by
  have h : loudProgram.lower Catalog.standard "run" = .ok loudAssembly := by rfl
  exact ⟨h, (yields_iff_of_lower h "hi" _).mpr ⟨1, by rfl⟩⟩

end Lowering

end TextPipeline
