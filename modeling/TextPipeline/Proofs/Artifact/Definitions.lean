import TextPipeline.Proofs.Procedure.Weakening
import TextPipeline.Proofs.Wasm.Handles
import TextPipeline.Proofs.Wasm.Totality

/-!
The order of definitions, and definitions that nothing calls. The modules of a program and of one
with its definitions in another order, or with one more among them, agree in hardly a byte, but they
come to the same on every input (`runsAs_of_perm_or_insert`): both have the procedures of the first,
and these run the same on handles.
-/

namespace TextPipeline

namespace Assembly

variable {a b : Assembly}

lemma procedures_subset (hentry : b.entry = a.entry) (hsub : a.functions ⊆ b.functions) :
    a.procedures ⊆ b.procedures := by
  intro p hp
  rcases List.mem_append.mp hp with hf | hf
  · exact List.mem_append_left _ (hsub hf)
  · exact List.mem_append_right _ (hentry ▸ hf)

lemma extends_of_subset (hentry : b.entry = a.entry) (hsub : a.procedures ⊆ b.procedures)
    (hdistinct : (b.procedures.map (·.name)).Nodup) : b.Extends a where
  entry := hentry
  procedures := by
    intro name p hp
    have hname : p.name = name := by simpa using List.find?_some hp
    rw [← hname]
    exact find?_of_nodup hdistinct (hsub (List.mem_of_find?_eq_some hp))

lemma literals_subset (hsub : a.procedures ⊆ b.procedures) : a.literals ⊆ b.literals := by
  intro text htext
  obtain ⟨p, hp, x, hx, hop⟩ := mem_literals.mp htext
  exact mem_literals.mpr ⟨p, hsub hp, x, hx, hop⟩

end Assembly

namespace Artifact

lemma exists_runnable_of_lower {p : Program} {entry : String} {a : Assembly}
    (h : p.lower Catalog.standard entry = .ok a) (hfault : a.entryFault? = none)
    (hbytes : a.literalBytes < 2 ^ 31) : ∃ artifact, Runnable a artifact := by
  obtain ⟨-, hmemory, hcollides⟩ := Assembly.entryFault?_eq_none.mp hfault
  obtain ⟨m, hm⟩ := Wasm.exists_ofAssembly (Program.distinct_of_lower h hcollides)
    (Program.linked_of_lower h) (Nat.le_of_lt_succ hbytes)
  exact ⟨_, bind_of_ok hm _, hmemory, fun f hf => (Program.procedures_of_lower h f hf).1⟩

end Artifact

namespace Program

open Lowering

/-- The program can be lowered, its entry can have its name, and as long as its literals have room
it compiles, as does the assembly, and both come to the same on every input, unless the engine takes
the module of one but not that of the other. -/
def RunsAs [Wasm.Engine] (q : Program) (entry : String) (a : Assembly) : Prop :=
  ∃ b, q.lower Catalog.standard entry = .ok b ∧ b.entryFault? = none ∧
    (b.literalBytes < 2 ^ 31 → ∃ artifact other, Artifact.ofAssembly a = .ok artifact ∧
      Artifact.ofAssembly b = .ok other ∧
      (Wasm.Engine.admits other.wasm = Wasm.Engine.admits artifact.wasm →
        ∀ input, other.execute input = artifact.execute input))

variable {p q : Program} {entry : String} {a b : Assembly}

lemma entryFault?_iff_of_lower (h : p.lower Catalog.standard entry = .ok a) :
    a.entryFault? = none ↔ entry ≠ "" ∧ entry ≠ Wasm.memoryName ∧
      entry ∉ (p.definitions.map (·.name)).map functionName := by
  have hname : a.entry.name = entry := name_of_procedure (lower_ok h).2.2
  rw [Assembly.entryFault?_eq_none, hname, names_of_lower h]

lemma runsAs_of_reported [Wasm.Engine] (ha : p.lower Catalog.standard entry = .ok a)
    (hfault : a.entryFault? = none) (hb : q.lower Catalog.standard entry = .ok b)
    (hfault' : b.entryFault? = none) (hliterals : a.literals ⊆ b.literals)
    (hreported : ∀ input, b.reported input = a.reported input) : q.RunsAs entry a := by
  refine ⟨b, hb, hfault', fun hbytes => ?_⟩
  have hsmaller := Nat.lt_of_le_of_lt (bytesOf_le_of_subset hliterals) hbytes
  obtain ⟨artifact, hartifact⟩ := Artifact.exists_runnable_of_lower ha hfault hsmaller
  obtain ⟨other, hother⟩ := Artifact.exists_runnable_of_lower hb hfault' hbytes
  refine ⟨artifact, other, hartifact.made, hother.made, fun hadmits input => ?_⟩
  exact Artifact.execute_eq_of_reported hartifact hother hadmits (hreported input)

lemma runsAs_of_subset [Wasm.Engine] (h : p.lower Catalog.standard entry = .ok a)
    (hfault : a.entryFault? = none) {ds : List Definition} (hnodup : (ds.map (·.name)).Nodup)
    (hsub : p.definitions ⊆ ds)
    (hnew : ∀ d ∈ ds, d ∈ p.definitions ∨ functionName d.name ≠ entry ∧
      ∃ f, function (names Catalog.standard ⟨ds, p.expression⟩) d = .ok f) :
    RunsAs ⟨ds, p.expression⟩ entry a := by
  obtain ⟨hempty, hmemory, hcollides⟩ := (entryFault?_iff_of_lower h).mp hfault
  obtain ⟨b, hb, hentry, hfunctions⟩ := exists_lower_of_subset h (q := ⟨ds, p.expression⟩) rfl
    hnodup hsub fun d hd => (hnew d hd).imp_right And.right
  have hfault' : b.entryFault? = none := by
    refine (entryFault?_iff_of_lower hb).mpr ⟨hempty, hmemory, fun hmem => ?_⟩
    rw [List.map_map] at hmem hcollides
    obtain ⟨d, hd, hdname⟩ := List.mem_map.mp hmem
    rcases hnew d hd with hold | ⟨hne, -⟩
    · -- an old definition has not the name of the entry
      exact hcollides (hdname ▸ List.mem_map_of_mem hold)
    · exact hne hdname
  have hdistinct := distinct_of_lower hb (Assembly.entryFault?_eq_none.mp hfault').2.2
  have hprocedures := Assembly.procedures_subset hentry hfunctions
  exact runsAs_of_reported h hfault hb hfault' (Assembly.literals_subset hprocedures)
    (Assembly.reported_of_extends (linked_of_lower h)
      (Assembly.extends_of_subset hentry hprocedures hdistinct))

/-- **Definitions are unordered, and those that nothing calls are inert.** A program that can be
lowered can be lowered with its definitions in any other order, and with one more definition
anywhere among them, if that has a name of its own and can be lowered there. On every input the
program comes to the same as before, if the engine takes the modules of both or of neither. -/
theorem runsAs_of_perm_or_insert [Wasm.Engine] (h : p.lower Catalog.standard entry = .ok a)
    (hfault : a.entryFault? = none) :
    (∀ ds, ds.Perm p.definitions → RunsAs ⟨ds, p.expression⟩ entry a) ∧
    ∀ before d after f, p.definitions = before ++ after →
      d.name ∉ p.definitions.map (·.name) → functionName d.name ≠ entry →
      function (names Catalog.standard ⟨before ++ d :: after, p.expression⟩) d = .ok f →
      RunsAs ⟨before ++ d :: after, p.expression⟩ entry a := by
  have hnodup := (firstRepeated_eq_none.mp (lower_ok h).1).1
  refine ⟨fun ds hperm => ?_, fun before d after f hds hname hne hf => ?_⟩
  · exact runsAs_of_subset h hfault ((hperm.map _).nodup_iff.mpr hnodup) hperm.symm.subset
      fun d hd => .inl (hperm.subset hd)
  · -- the definition is put in front, as its place does not matter
    have hperm : (before ++ d :: after).Perm (d :: p.definitions) := by
      rw [hds]
      exact List.perm_middle
    refine runsAs_of_subset h hfault ?_ ?_ ?_
    · exact (hperm.map _).nodup_iff.mpr (List.nodup_cons.mpr ⟨hname, hnodup⟩)
    · exact fun x hx => hperm.symm.subset (List.mem_cons_of_mem _ hx)
    · intro x hx
      rcases List.mem_cons.mp (hperm.subset hx) with rfl | hx
      · exact .inr ⟨hne, f, hf⟩
      · exact .inl hx

/-- `def shout(x) = x | loud | append '!'` -/
def shout : Definition :=
  ⟨"shout", "x", .pipeline [.identifier "x" 1, .identifier "loud" 1,
    .call "append" [.literal "!" 1] 1] 1, 1⟩

/-- `def loud(x) = x | upper` -/
def loud : Definition :=
  ⟨"loud", "x", .pipeline [.identifier "x" 2, .identifier "upper" 2] 2, 2⟩

/-- `def twice(x) = x | { x; x | twice }`, which has no end. -/
def twice : Definition :=
  ⟨"twice", "x", .pipeline [.identifier "x" 3, .group [.pipeline [.identifier "x" 3] 3,
    .pipeline [.identifier "x" 3, .identifier "twice" 3] 3] 3] 3, 3⟩

/-- `it | shout` -/
def shouting : Expression := .pipeline [.identifier "it" 4, .identifier "shout" 4] 4

theorem shouting_runsAs : ∃ a, lower Catalog.standard "run" ⟨[shout, loud], shouting⟩ = .ok a ∧
    a.entryFault? = none ∧ RunsAs ⟨[loud, shout], shouting⟩ "run" a ∧
    RunsAs ⟨[shout, twice, loud], shouting⟩ "run" a := by
  obtain ⟨a, ha, hfault⟩ : ∃ a, lower Catalog.standard "run" ⟨[shout, loud], shouting⟩ = .ok a ∧
      a.entryFault? = none := ⟨_, rfl, rfl⟩
  obtain ⟨hperm, hinsert⟩ := runsAs_of_perm_or_insert ha hfault
  exact ⟨a, ha, hfault, hperm _ (.swap shout loud []),
    hinsert [shout] twice [loud] _ rfl (by decide) (by decide) rfl⟩

end Program

end TextPipeline
