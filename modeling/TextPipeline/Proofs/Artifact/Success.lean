import TextPipeline.Proofs.Wasm.Dialogue
import TextPipeline.Proofs.Wasm.Handles

/-!
When a compiled program has a result. The graph of its calls decides this for all plain inputs at
once, and any other input is refused (`execute_of_callGraph`).
-/

namespace TextPipeline.Artifact

open Text Wasm Host

lemma execute_of_not_plain [Engine] (artifact : Artifact) {input : String} (h : ¬ Plain input) :
    ∃ before c after, input.toList = before ++ c :: after ∧ (∀ x ∈ before, isPlain x) ∧
      ¬ isPlain c ∧ artifact.execute input = .error (.violation c) := by
  obtain ⟨c, hc⟩ : ∃ c, firstViolation input = some c := by
    rw [← firstViolation_eq_none_iff] at h
    exact Option.ne_none_iff_exists'.mp h
  obtain ⟨hnot, before, after, hsplit, hbefore⟩ := List.find?_eq_some_iff_append.mp hc
  refine ⟨before, c, after, hsplit, by simpa using hbefore, by simpa using hnot, ?_⟩
  have hrefused : ensurePlain input = .error (.violation c) := by
    unfold ensurePlain
    rw [hc]
  exact execute_of_error (start_of_refused hrefused)

/-- The run on this input calls the host, and none of the calls fails. -/
def Undisturbed [Engine] (artifact : Artifact) (input : String) : Prop :=
  ∃ linked index, artifact.start input = .ok (linked, index) ∧
    Follows (linked.enter index) (linked.dialogue index) ∧
    ∀ c e, (c, .error e) ∉ (linked.dialogue index).trace (.start input)

section Run

variable [Engine] {a : Assembly} {artifact : Artifact} {input : String}

lemma undisturbed_of_finish {handle : Int} {host : Host}
    (h : artifact.finish input = .ok (handle, host)) : artifact.Undisturbed input := by
  obtain ⟨⟨linked, index⟩, hstart, -⟩ := ok_of_bind h
  refine ⟨linked, index, hstart, linked.follows_dialogue index, fun c e hmem => ?_⟩
  obtain ⟨later, hrun, -⟩ := Dialogue.run_of_failing hmem
  rw [finish_of_start hstart, linked.call_eq_run, hrun] at h
  cases h

lemma exists_outcome_of_execute (h : Runnable a artifact) (hinput : Plain input) {s : String}
    (hs : artifact.execute input = .ok s) :
    ∃ t, a.outcome (callDepth - 1) input = .done (.ok t) := by
  obtain ⟨⟨handle, host⟩, hfinish, -⟩ := ok_of_bind hs
  obtain ⟨⟨_, _⟩, hstarted, -⟩ := ok_of_bind hfinish
  obtain ⟨linked, hloaded, hstart⟩ := h.exists_start (admits_of_start hstarted)
  have hsim := entry_simulates hloaded h.coherent hinput
  rw [finish_of_start (hstart input hinput), Instance.call] at hfinish
  generalize a.outcome (callDepth - 1) input = x at hsim ⊢
  generalize (linked.enter _ : Run Int) _ = y at hsim hfinish
  cases hsim with
  | value _ _ _ _ => exact ⟨_, rfl⟩
  | failed _ | exhausted _ | full _ _ => cases hfinish

lemma finish_of_outcome (h : Runnable a artifact) (hadmits : Engine.admits artifact.wasm)
    (hinput : Plain input) (hroom : a.texts (callDepth - 1) input ≤ maxHandle) {s : String}
    (hs : a.outcome (callDepth - 1) input = .done (.ok s)) :
    ∃ handle host, artifact.finish input = .ok (handle, host) ∧ host.get handle = .ok s := by
  obtain ⟨linked, hloaded, hstart⟩ := h.exists_start hadmits
  have hsim := entry_simulates hloaded h.coherent hinput
  rw [hs] at hsim
  rw [finish_of_start (hstart input hinput)]
  exact delivers_call hroom hsim

end Run

/-- **The call graph decides success.** Take a program that compiles. If its entry reaches a cycle
of calls, no input has a result. If it does not, there is a longest chain of calls; where the
engine takes the module and allows as many activations as this chain has procedures, every plain
input whose texts the host has room for has a result, and no call of the host fails on the way. An
input that is not plain is refused with its first character outside the policy. -/
theorem execute_of_callGraph [Engine] {source entry : String} {a : Assembly} {artifact : Artifact}
    (hlower : lowerSource source entry = .ok a) (hcompile : compile source entry = .ok artifact) :
    (a.ReachesCycle → ∀ input s, artifact.execute input ≠ .ok s) ∧
    (¬ a.ReachesCycle → ∃ longest, IsGreatest a.chainLengths longest ∧
      (longest ≤ callDepth → Engine.admits artifact.wasm → ∀ input, Plain input →
        a.texts (callDepth - 1) input ≤ maxHandle →
        (∃ s, artifact.execute input = .ok s) ∧ artifact.Undisturbed input)) ∧
    (∀ input, ¬ Plain input → ∃ before c after, input.toList = before ++ c :: after ∧
      (∀ x ∈ before, isPlain x) ∧ ¬ isPlain c ∧
      artifact.execute input = .error (.violation c)) := by
  have h := runnable_of_compile hlower hcompile
  refine ⟨fun hcycle input s hs => ?_, fun hcycle => ?_, fun input hinput =>
    artifact.execute_of_not_plain hinput⟩
  · by_cases hinput : Plain input
    · -- a run that succeeds has gone through chains of every length
      obtain ⟨t, ht⟩ := exists_outcome_of_execute h hinput hs
      exact Assembly.not_within_of_reachesCycle hcycle _ (Assembly.within_of_outcome ht)
    · -- the input is refused
      obtain ⟨_, _, _, -, -, -, herror⟩ := artifact.execute_of_not_plain hinput
      cases hs.symm.trans herror
  · obtain ⟨longest, hlongest⟩ := Assembly.exists_isGreatest_chainLengths hcycle
    refine ⟨longest, hlongest, fun hdepth hadmits input hinput hroom => ?_⟩
    -- no chain is longer than the stack is deep
    have hwithin : a.Within a.entry (callDepth - 1) := by
      intro ps hchain
      have hle : ps.length + 1 ≤ longest := hlongest.2 ⟨ps, hchain, rfl⟩
      omega
    obtain ⟨s, hs, -⟩ := Assembly.exists_outcome (wellFormed_of_lowerSource hlower) hinput
      a.entry_mem hwithin hinput
    obtain ⟨handle, host, hfinish, hget⟩ := finish_of_outcome h hadmits hinput hroom hs
    refine ⟨⟨s, ?_⟩, undisturbed_of_finish hfinish⟩
    rw [execute, bind_of_ok hfinish]
    exact hget

def loudSource : String := "def loud(x) = x | upper\nit | loud | \x7b it; '!' \x7d"

theorem loudSource_succeeds :
    lowerSource loudSource "run" = .ok Lowering.loudAssembly ∧
      ¬ Lowering.loudAssembly.ReachesCycle ∧ ∃ artifact, compile loudSource "run" = .ok artifact ∧
        (∃ s, artifact.execute "hi" = .ok s) ∧ artifact.Undisturbed "hi" ∧
        ∃ c, artifact.execute "h\u00e9" = .error (.violation c) := by
  have hlower : lowerSource loudSource "run" = .ok Lowering.loudAssembly := by decide +kernel
  have houtcome : Lowering.loudAssembly.outcome 1 "hi" = .done (.ok "HI\n!") := rfl
  have hwithin : Lowering.loudAssembly.Within Lowering.loudAssembly.entry 1 :=
    Assembly.within_of_outcome houtcome
  have hcycle : ¬ Lowering.loudAssembly.ReachesCycle := fun h =>
    Assembly.not_within_of_reachesCycle h 1 hwithin
  obtain ⟨artifact, hcompile, hadmits⟩ :=
    exists_of_isTaken (x := compile loudSource "run") (by decide +kernel)
  obtain ⟨-, hacyclic, hrefused⟩ := execute_of_callGraph hlower hcompile
  obtain ⟨longest, ⟨⟨ps, hchain, rfl⟩, -⟩, hsucceeds⟩ := hacyclic hcycle
  have hdepth : ps.length + 1 ≤ callDepth :=
    (Nat.succ_le_succ (hwithin ps hchain)).trans (by decide)
  obtain ⟨hs, hcalls⟩ := hsucceeds hdepth hadmits "hi" (by decide) (by decide +kernel)
  obtain ⟨_, c, _, -, -, -, hc⟩ := hrefused "h\u00e9" (by decide)
  exact ⟨hlower, hcycle, artifact, hcompile, hs, hcalls, ⟨c, hc⟩⟩

end TextPipeline.Artifact
