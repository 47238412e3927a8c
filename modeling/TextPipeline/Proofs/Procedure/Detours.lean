import TextPipeline.Proofs.Procedure.Operations

/-!
Calls by way of one more procedure. If some operations of a procedure are moved to a procedure of
their own, which is invoked instead, no chain of calls grows by more than that one procedure
(`within_succ`): a chain that passes it twice comes back to where the operations were, and so there
was a cycle before.
-/

namespace TextPipeline.Assembly

open Relation

/-- The second assembly invokes the procedure of this name where the first has the calls of that
procedure itself. -/
structure Detour (a b : Assembly) (xs ys : List Operation) (name : String) (moved : Procedure) :
    Prop where
  exchanges : List.Forall₂ (Procedure.Exchanges xs ys) a.procedures b.procedures
  procedure : b.procedure? name = some moved
  kept : ∀ callee, .invoke callee .param ∈ ys → .invoke callee .param ∈ xs ∨ callee = name
  moved : ∀ callee, .invoke callee .param ∈ moved.kinds → .invoke callee .param ∈ xs

namespace Detour

variable {a b : Assembly} {xs ys : List Operation} {name callee : String}
  {moved f f' g g' : Procedure}

/-- Procedures of the same name. -/
def Beside (a b : Assembly) (f f' : Procedure) : Prop :=
  ∃ name, a.procedure? name = some f ∧ b.procedure? name = some f'

/-- The procedure has all the operations that are moved. -/
def Inlines (xs : List Operation) (f : Procedure) : Prop := ∀ op ∈ xs, op ∈ f.kinds

lemma procedure?_cases (h : a.Detour b xs ys name moved) (callee : String) :
    (a.procedure? callee = none ∧ b.procedure? callee = none) ∨
      ∃ g g', a.procedure? callee = some g ∧ b.procedure? callee = some g' ∧
        Procedure.Exchanges xs ys g g' :=
  find?_of_forall₂ h.exchanges fun _ _ hg => by rw [hg.name]

lemma exists_beside (h : a.Detour b xs ys name moved) (hg : b.procedure? callee = some g') :
    ∃ g, a.procedure? callee = some g ∧ Beside a b g g' := by
  obtain ⟨-, hnone⟩ | ⟨g, _, hfound, -, -⟩ := h.procedure?_cases callee
  · cases hg.symm.trans hnone
  · exact ⟨g, hfound, callee, hfound, hg⟩

lemma exchanges_of_beside (h : a.Detour b xs ys name moved) (hf : Beside a b f f') :
    Procedure.Exchanges xs ys f f' := by
  obtain ⟨found, hfound, hfound'⟩ := hf
  obtain ⟨hnone, -⟩ | ⟨_, _, hsome, hsome', hexchanges⟩ := h.procedure?_cases found
  · cases hfound.symm.trans hnone
  · cases hfound.symm.trans hsome
    cases hfound'.symm.trans hsome'
    exact hexchanges

lemma invokes_cases (h : a.Detour b xs ys name moved) (hf : Beside a b f f')
    (hg : b.Invokes f' g') :
    (∃ g, Beside a b g g' ∧ a.Invokes f g) ∨ (g' = moved ∧ Inlines xs f) := by
  obtain ⟨callee, hcallee, hfound⟩ := invokes_iff_kinds.mp hg
  obtain ⟨g, hfound', hbeside⟩ := h.exists_beside hfound
  have hold (hmem : .invoke callee .param ∈ f.kinds) : ∃ g, Beside a b g g' ∧ a.Invokes f g :=
    ⟨g, hbeside, invokes_iff_kinds.mpr ⟨callee, hmem, hfound'⟩⟩
  rcases (h.exchanges_of_beside hf).kinds with hsame | ⟨rest, hkinds, hkinds'⟩
  · -- nothing has changed here
    exact .inl (hold (hsame.mem_iff.mp hcallee))
  · have hin {op : Operation} (hop : op ∈ xs ∨ op ∈ rest) : op ∈ f.kinds :=
      hkinds.mem_iff.mpr (List.mem_append.mpr hop)
    rcases List.mem_append.mp (hkinds'.mem_iff.mp hcallee) with hnew | hrest
    · -- one of the calls that are new here
      rcases h.kept callee hnew with hkept | rfl
      · exact .inl (hold (hin (.inl hkept)))
      · exact .inr ⟨Option.some.inj (hfound.symm.trans h.procedure), fun op hop => hin (.inl hop)⟩
    · -- a call beside those that were moved
      exact .inl (hold (hin (.inr hrest)))

lemma within_of_away (h : a.Detour b xs ys name moved) {depth : Nat} (hf : Beside a b f f')
    (haway : ∀ s, ReflTransGen a.Invokes f s → ¬ Inlines xs s) (hwithin : a.Within f depth) :
    b.Within f' depth := by
  induction depth using Nat.strong_induction_on generalizing f f' with
  | _ depth ih =>
    refine within_of_forall fun g' hg' => ?_
    rcases h.invokes_cases hf hg' with ⟨g, hbeside, hfg⟩ | ⟨-, hinlines⟩
    · obtain ⟨less, rfl, hless⟩ := hwithin.of_invokes hfg
      exact ⟨less, rfl, ih less (Nat.lt_succ_self less) hbeside
        (fun s hs => haway s (.head hfg hs)) hless⟩
    · exact absurd hinlines (haway f .refl)

lemma within_moved (h : a.Detour b xs ys name moved) {depth : Nat} (hinlines : Inlines xs f)
    (hwithin : a.Within f depth) : b.Within moved depth := by
  refine within_of_forall fun g' hg' => ?_
  obtain ⟨callee, hcallee, hfound⟩ := invokes_iff_kinds.mp hg'
  obtain ⟨g, hfound', hbeside⟩ := h.exists_beside hfound
  have hinvokes (s : Procedure) (hs : Inlines xs s) : a.Invokes s g :=
    invokes_iff_kinds.mpr ⟨callee, hs _ (h.moved callee hcallee), hfound'⟩
  obtain ⟨less, rfl, hless⟩ := hwithin.of_invokes (hinvokes f hinlines)
  refine ⟨less, rfl, h.within_of_away hbeside (fun s hgs hs => ?_) hless⟩
  have hcycle : TransGen a.Invokes g g := .tail' hgs (hinvokes s hs)
  exact not_within_of_cycle hcycle .refl less hless

/-- **A detour costs one call.** -/
lemma within_succ (h : a.Detour b xs ys name moved) {depth : Nat} (hf : Beside a b f f')
    (hwithin : a.Within f depth) : b.Within f' (depth + 1) := by
  induction depth using Nat.strong_induction_on generalizing f f' with
  | _ depth ih =>
    refine within_of_forall fun g' hg' => ⟨depth, rfl, ?_⟩
    rcases h.invokes_cases hf hg' with ⟨g, hbeside, hfg⟩ | ⟨rfl, hinlines⟩
    · obtain ⟨less, rfl, hless⟩ := hwithin.of_invokes hfg
      exact ih less (Nat.lt_succ_self less) hbeside hless
    · exact h.within_moved hinlines hwithin

end Detour

end TextPipeline.Assembly
