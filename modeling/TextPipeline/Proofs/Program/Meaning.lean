import Mathlib.Order.Filter.AtTopBot.Basic
import TextPipeline.Builtin.Apply
import TextPipeline.Program
import TextPipeline.Procedure.Lowering
import TextPipeline.Proofs.Outcome

/-!
The meaning of a program, read off its tree.

In a scope the one name that denotes a text stands for a known text. The rules say which result
a term has as a value, and which it has as a step on the text so far; a result is a text or the
first error. A program whose functions call each other without end has no result.

Beside the rules stands an evaluator that allows only so many calls inside each other. It
finds a result for some number of calls exactly when the rules give it
(`result_iff_exists_depth`).
-/

namespace TextPipeline

/-- The definition of this name. -/
def Program.definition? (p : Program) (name : String) : Option Definition :=
  p.definitions.find? fun d => d.name = name

namespace Meaning

open Filter

structure Scope where
  parameter : String
  current : String

mutual

/-- The result of a term in value context. -/
inductive Value (p : Program) : Scope → Term → Except Error String → Prop
  | parameter {σ line} : Value p σ (.identifier σ.parameter line) (.ok σ.current)
  | literal {σ text line} : Value p σ (.literal text line) (Builtin.ofLiteral text)
  | builtin {σ target arguments line d texts} :
      Catalog.standard.find? target = some d → Values p σ arguments texts →
      Value p σ (.call target arguments line) (texts.bind d.builtin.apply)
  | function {σ target arguments line d text r} :
      Catalog.standard.find? target = none → p.definition? target = some d →
      Values p σ arguments (.ok [text]) → Result p ⟨d.parameter, text⟩ d.body r →
      Value p σ (.call target arguments line) r
  | functionStops {σ target arguments line e} : Catalog.standard.find? target = none →
      Values p σ arguments (.error e) → Value p σ (.call target arguments line) (.error e)
  | group {σ es line texts} : Members p σ es texts →
      Value p σ (.group es line) (texts.map Text.stacked)

/-- The result of a term as a step on a text. -/
inductive Step (p : Program) : Scope → String → Term → Except Error String → Prop
  | builtinName {σ text name line d} : Catalog.standard.find? name = some d →
      Step p σ text (.identifier name line) (d.builtin.apply [text])
  | functionName {σ text name line d r} :
      Catalog.standard.find? name = none → p.definition? name = some d →
      Result p ⟨d.parameter, text⟩ d.body r → Step p σ text (.identifier name line) r
  | literal {σ text new line} : Step p σ text (.literal new line) (Builtin.ofLiteral new)
  | builtin {σ text target arguments line d texts} :
      Catalog.standard.find? target = some d → Values p σ arguments texts →
      Step p σ text (.call target arguments line)
        (texts.bind fun texts => d.builtin.apply (text :: texts))
  | group {σ text es line texts} : Members p { σ with current := text } es texts →
      Step p σ text (.group es line) (texts.map Text.stacked)

inductive Values (p : Program) : Scope → List Term → Except Error (List String) → Prop
  | nil {σ} : Values p σ [] (.ok [])
  | cons {σ t ts text texts} : Value p σ t (.ok text) → Values p σ ts texts →
      Values p σ (t :: ts) (texts.map (text :: ·))
  | stops {σ t ts e} : Value p σ t (.error e) → Values p σ (t :: ts) (.error e)

inductive Steps (p : Program) : Scope → String → List Term → Except Error String → Prop
  | nil {σ text} : Steps p σ text [] (.ok text)
  | cons {σ text t ts next r} : Step p σ text t (.ok next) → Steps p σ next ts r →
      Steps p σ text (t :: ts) r
  | stops {σ text t ts e} : Step p σ text t (.error e) → Steps p σ text (t :: ts) (.error e)

inductive Result (p : Program) : Scope → Expression → Except Error String → Prop
  | pipeline {σ t ts line text r} : Value p σ t (.ok text) → Steps p σ text ts r →
      Result p σ (.pipeline (t :: ts) line) r
  | stops {σ t ts line e} : Value p σ t (.error e) →
      Result p σ (.pipeline (t :: ts) line) (.error e)

inductive Members (p : Program) : Scope → List Expression → Except Error (List String) → Prop
  | nil {σ} : Members p σ [] (.ok [])
  | cons {σ e es text texts} : Result p σ e (.ok text) → Members p σ es texts →
      Members p σ (e :: es) (texts.map (text :: ·))
  | stops {σ e es fault} : Result p σ e (.error fault) → Members p σ (e :: es) (.error fault)

end

/-- The result of the whole program on an input. -/
def Yields (p : Program) (input : String) (r : Except Error String) : Prop :=
  Result p ⟨inputName, input⟩ p.expression r

/-! ### The evaluator -/

section Evaluator

variable (call : Calls)

mutual

def value (σ : Scope) : Term → Outcome String
  | .identifier name _ => if name = σ.parameter then pure σ.current else .pending
  | .literal text _ => .done (Builtin.ofLiteral text)
  | .call target arguments _ =>
    match Catalog.standard.find? target with
    | some d => do .done (d.builtin.apply (← values σ arguments))
    | none => do
      match ← values σ arguments with
      | [text] => call target text
      | _ => .pending
  | .group es _ => do return Text.stacked (← members σ es)

def step (σ : Scope) (text : String) : Term → Outcome String
  | .identifier name _ =>
    match Catalog.standard.find? name with
    | some d => .done (d.builtin.apply [text])
    | none => call name text
  | .literal new _ => .done (Builtin.ofLiteral new)
  | .call target arguments _ =>
    match Catalog.standard.find? target with
    | some d => do .done (d.builtin.apply (text :: (← values σ arguments)))
    | none => .pending
  | .group es _ => do return Text.stacked (← members { σ with current := text } es)

def values (σ : Scope) : List Term → Outcome (List String)
  | [] => pure []
  | t :: ts => do
    let text ← value σ t
    return text :: (← values σ ts)

def steps (σ : Scope) (text : String) : List Term → Outcome String
  | [] => pure text
  | t :: ts => do steps σ (← step σ text t) ts

def result (σ : Scope) : Expression → Outcome String
  | .pipeline [] _ => .pending
  | .pipeline (t :: ts) _ => do steps σ (← value σ t) ts

def members (σ : Scope) : List Expression → Outcome (List String)
  | [] => pure []
  | e :: es => do
    let text ← result σ e
    return text :: (← members σ es)

end

end Evaluator

/-- Calls of the functions of a program, at most `depth` of them inside each other. -/
def call (p : Program) : (depth : Nat) → Calls
  | 0, _, _ => .pending
  | depth + 1, name, text =>
    match p.definition? name with
    | some d => result (call p depth) ⟨d.parameter, text⟩ d.body
    | none => .pending

/-! ### Soundness of the evaluator -/

/-- Results of calls are results of the bodies of definitions. -/
def Answers (p : Program) (call : Calls) : Prop :=
  ∀ name text r, call name text = .done r →
    ∃ d, p.definition? name = some d ∧ Result p ⟨d.parameter, text⟩ d.body r

variable {p : Program}

mutual

lemma value_sound {calls : Calls} (hc : Answers p calls) :
    ∀ (σ : Scope) (t : Term) {r : Except Error String},
      value calls σ t = .done r → Value p σ t r
  | σ, .identifier name line, _, h => by
    rw [value] at h
    split at h
    · rename_i hname
      cases h
      exact hname ▸ .parameter
    · cases h
  | σ, .literal text line, _, h => by
    cases h
    exact .literal
  | σ, .call target arguments line, _, h => by
    unfold value at h
    split at h
    · -- a builtin, on the texts of the arguments or with their error
      rename_i d hd
      obtain ⟨e, hvs, rfl⟩ | ⟨texts, hvs, hr⟩ := Outcome.bind_eq_done h
      · exact .builtin hd (values_sound hc σ arguments hvs)
      · cases hr
        exact .builtin hd (values_sound hc σ arguments hvs)
    · -- a function
      rename_i hd
      obtain ⟨e, hvs, rfl⟩ | ⟨texts, hvs, hr⟩ := Outcome.bind_eq_done h
      · exact .functionStops hd (values_sound hc σ arguments hvs)
      · rcases texts with _ | ⟨text, _ | _⟩
        · cases hr
        · -- exactly one argument
          obtain ⟨d, hfind, hbody⟩ := hc _ _ _ hr
          exact .function hd hfind (values_sound hc σ arguments hvs) hbody
        · cases hr
  | σ, .group es line, _, h => by
    unfold value at h
    obtain ⟨e, hms, rfl⟩ | ⟨texts, hms, hr⟩ := Outcome.bind_eq_done h
    · exact .group (members_sound hc σ es hms)
    · cases hr
      exact .group (members_sound hc σ es hms)

lemma step_sound {calls : Calls} (hc : Answers p calls) :
    ∀ (σ : Scope) (text : String) (t : Term) {r : Except Error String},
      step calls σ text t = .done r → Step p σ text t r
  | σ, text, .identifier name line, _, h => by
    unfold step at h
    split at h
    · rename_i d hd
      cases h
      exact .builtinName hd
    · rename_i hd
      obtain ⟨d, hfind, hbody⟩ := hc _ _ _ h
      exact .functionName hd hfind hbody
  | σ, text, .literal new line, _, h => by
    cases h
    exact .literal
  | σ, text, .call target arguments line, _, h => by
    unfold step at h
    split at h
    · rename_i d hd
      obtain ⟨e, hvs, rfl⟩ | ⟨texts, hvs, hr⟩ := Outcome.bind_eq_done h
      · exact .builtin hd (values_sound hc σ arguments hvs)
      · cases hr
        exact .builtin hd (values_sound hc σ arguments hvs)
    · cases h
  | σ, text, .group es line, _, h => by
    unfold step at h
    obtain ⟨e, hms, rfl⟩ | ⟨texts, hms, hr⟩ := Outcome.bind_eq_done h
    · exact .group (members_sound hc _ es hms)
    · cases hr
      exact .group (members_sound hc _ es hms)

lemma values_sound {calls : Calls} (hc : Answers p calls) :
    ∀ (σ : Scope) (ts : List Term) {r : Except Error (List String)},
      values calls σ ts = .done r → Values p σ ts r
  | σ, [], _, h => by
    cases h
    exact .nil
  | σ, t :: ts, _, h => by
    unfold values at h
    obtain ⟨e, hv, rfl⟩ | ⟨text, hv, hr⟩ := Outcome.bind_eq_done h
    · -- the argument stops
      exact .stops (value_sound hc σ t hv)
    · obtain ⟨e, hvs, rfl⟩ | ⟨texts, hvs, hr⟩ := Outcome.bind_eq_done hr
      · exact .cons (value_sound hc σ t hv) (values_sound hc σ ts hvs)
      · cases hr
        exact .cons (value_sound hc σ t hv) (values_sound hc σ ts hvs)

lemma steps_sound {calls : Calls} (hc : Answers p calls) :
    ∀ (σ : Scope) (text : String) (ts : List Term) {r : Except Error String},
      steps calls σ text ts = .done r → Steps p σ text ts r
  | σ, text, [], _, h => by
    cases h
    exact .nil
  | σ, text, t :: ts, _, h => by
    unfold steps at h
    obtain ⟨e, hs, rfl⟩ | ⟨next, hs, hr⟩ := Outcome.bind_eq_done h
    · exact .stops (step_sound hc σ text t hs)
    · exact .cons (step_sound hc σ text t hs) (steps_sound hc σ next ts hr)

lemma result_sound {calls : Calls} (hc : Answers p calls) :
    ∀ (σ : Scope) (e : Expression) {r : Except Error String},
      result calls σ e = .done r → Result p σ e r
  | σ, .pipeline [] line, _, h => by cases h
  | σ, .pipeline (t :: ts) line, _, h => by
    unfold result at h
    obtain ⟨e, hv, rfl⟩ | ⟨text, hv, hr⟩ := Outcome.bind_eq_done h
    · exact .stops (value_sound hc σ t hv)
    · exact .pipeline (value_sound hc σ t hv) (steps_sound hc σ text ts hr)

lemma members_sound {calls : Calls} (hc : Answers p calls) :
    ∀ (σ : Scope) (es : List Expression) {r : Except Error (List String)},
      members calls σ es = .done r → Members p σ es r
  | σ, [], _, h => by
    cases h
    exact .nil
  | σ, e :: es, _, h => by
    unfold members at h
    obtain ⟨fault, hr, rfl⟩ | ⟨text, hr, hm⟩ := Outcome.bind_eq_done h
    · -- the member stops
      exact .stops (result_sound hc σ e hr)
    · obtain ⟨fault, hms, rfl⟩ | ⟨texts, hms, hm⟩ := Outcome.bind_eq_done hm
      · exact .cons (result_sound hc σ e hr) (members_sound hc σ es hms)
      · cases hm
        exact .cons (result_sound hc σ e hr) (members_sound hc σ es hms)

end

lemma answers_call (p : Program) (depth : Nat) : Answers p (call p depth) := by
  induction depth with
  | zero =>
    intro name text r h
    cases h
  | succ depth ih =>
    intro name text r h
    simp only [call] at h
    split at h
    · rename_i d hd
      exact ⟨d, hd, result_sound ih _ _ h⟩
    · cases h

/-! ### Completeness of the evaluator

A derivation is finite, so the evaluator reaches its result from some depth on. -/

lemma call_of_result {name text : String} {d : Definition}
    {r : Except Error String} (hd : p.definition? name = some d)
    (h : ∀ᶠ depth in atTop, result (call p depth) ⟨d.parameter, text⟩ d.body = .done r) :
    ∀ᶠ depth in atTop, call p depth name text = .done r := by
  obtain ⟨n, hn⟩ := eventually_atTop.mp h
  refine eventually_atTop.mpr ⟨n + 1, fun depth hdepth => ?_⟩
  obtain ⟨k, rfl⟩ : ∃ k, depth = k + 1 := ⟨depth - 1, by omega⟩
  simpa only [call, hd] using hn k (by omega)

mutual

lemma value_complete : ∀ {σ : Scope} {t : Term} {r : Except Error String},
    Value p σ t r → ∀ᶠ depth in atTop, value (call p depth) σ t = .done r
  | _, _, _, .parameter => by simp [value]
  | _, _, _, .literal => by simp [value]
  | _, _, _, .builtin hd hvs => by
    filter_upwards [values_complete hvs] with depth hdepth
    simp only [value, hd, hdepth, Outcome.done_bind_done]
  | _, _, _, .function hd hfind hvs hbody => by
    filter_upwards [values_complete hvs, call_of_result hfind (result_complete hbody)]
      with depth harg hcall
    simp only [value, hd, harg, Outcome.done_ok_bind, hcall]
  | _, _, _, .functionStops hd hvs => by
    filter_upwards [values_complete hvs] with depth harg
    simp only [value, hd, harg, Outcome.done_error_bind]
  | _, _, _, .group hms => by
    filter_upwards [members_complete hms] with depth hdepth
    simp only [value, hdepth, Outcome.done_bind_pure]

lemma step_complete : ∀ {σ : Scope} {text : String} {t : Term} {r : Except Error String},
    Step p σ text t r → ∀ᶠ depth in atTop, step (call p depth) σ text t = .done r
  | _, _, _, _, .builtinName hd => by simp [step, hd]
  | _, _, _, _, .functionName hd hfind hbody => by
    filter_upwards [call_of_result hfind (result_complete hbody)] with depth hcall
    simp only [step, hd, hcall]
  | _, _, _, _, .literal => by simp [step]
  | _, _, _, _, .builtin hd hvs => by
    filter_upwards [values_complete hvs] with depth hdepth
    simp only [step, hd, hdepth, Outcome.done_bind_done]
  | _, _, _, _, .group hms => by
    filter_upwards [members_complete hms] with depth hdepth
    simp only [step, hdepth, Outcome.done_bind_pure]

lemma values_complete : ∀ {σ : Scope} {ts : List Term} {r : Except Error (List String)},
    Values p σ ts r → ∀ᶠ depth in atTop, values (call p depth) σ ts = .done r
  | _, _, _, .nil => by simp [values]
  | _, _, _, .cons hv hvs => by
    filter_upwards [value_complete hv, values_complete hvs] with depth hfirst hrest
    simp only [values, hfirst, hrest, Outcome.done_ok_bind, Outcome.done_bind_pure]
  | _, _, _, .stops hv => by
    filter_upwards [value_complete hv] with depth hfirst
    simp only [values, hfirst, Outcome.done_error_bind]

lemma steps_complete : ∀ {σ : Scope} {text : String} {ts : List Term} {r : Except Error String},
    Steps p σ text ts r → ∀ᶠ depth in atTop, steps (call p depth) σ text ts = .done r
  | _, _, _, _, .nil => by simp [steps]
  | _, _, _, _, .cons hs hss => by
    filter_upwards [step_complete hs, steps_complete hss] with depth hfirst hrest
    simp only [steps, hfirst, hrest, Outcome.done_ok_bind]
  | _, _, _, _, .stops hs => by
    filter_upwards [step_complete hs] with depth hfirst
    simp only [steps, hfirst, Outcome.done_error_bind]

lemma result_complete : ∀ {σ : Scope} {e : Expression} {r : Except Error String},
    Result p σ e r → ∀ᶠ depth in atTop, result (call p depth) σ e = .done r
  | _, _, _, .pipeline hv hss => by
    filter_upwards [value_complete hv, steps_complete hss] with depth hfirst hrest
    simp only [result, hfirst, hrest, Outcome.done_ok_bind]
  | _, _, _, .stops hv => by
    filter_upwards [value_complete hv] with depth hfirst
    simp only [result, hfirst, Outcome.done_error_bind]

lemma members_complete : ∀ {σ : Scope} {es : List Expression} {r : Except Error (List String)},
    Members p σ es r → ∀ᶠ depth in atTop, members (call p depth) σ es = .done r
  | _, _, _, .nil => by simp [members]
  | _, _, _, .cons hr hms => by
    filter_upwards [result_complete hr, members_complete hms] with depth hfirst hrest
    simp only [members, hfirst, hrest, Outcome.done_ok_bind, Outcome.done_bind_pure]
  | _, _, _, .stops hr => by
    filter_upwards [result_complete hr] with depth hfirst
    simp only [members, hfirst, Outcome.done_error_bind]

end

/-- The rules give the results that the evaluator finds. -/
theorem result_iff_exists_depth {σ : Scope} {e : Expression}
    {r : Except Error String} :
    Result p σ e r ↔ ∃ depth, result (call p depth) σ e = .done r :=
  ⟨fun h => (result_complete h).exists,
    fun ⟨depth, h⟩ => result_sound (answers_call p depth) σ e h⟩

end Meaning

end TextPipeline
