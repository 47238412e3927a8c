import TextPipeline.Proofs.Procedure.Renaming
import TextPipeline.Proofs.Wasm.Totality

/-!
Names do not reach a module. It refers to procedures by number, so that programs that differ in the
names of their definitions and parameters only have one module (`Program.ofAssembly_renamed`).
-/

namespace TextPipeline

open Lowering Wasm

/-! ### Relinked assemblies -/

/-- The bindings invoke no other procedures than these. -/
def InvokesAmong (callees : List String) (bs : List Binding) : Prop :=
  ∀ b ∈ bs, ∀ callee o, b.operation = .invoke callee o → callee ∈ callees

namespace Assembly

/-- All procedures that are invoked are those of definitions. -/
def InvokesFunctions (a : Assembly) : Prop :=
  ∀ p ∈ a.procedures, InvokesAmong (a.functions.map (·.name)) p.bindings

/-- Procedures of definitions do not come to share a name. -/
def KeepsApart (a : Assembly) (σ : String → String) : Prop :=
  ∀ name ∈ a.functions.map (·.name), ∀ other ∈ a.functions.map (·.name),
    σ name = σ other → name = other

namespace Relinked

variable {σ : String → String} {a b : Assembly}

lemma procedures (h : a.Relinked σ b) :
    List.Forall₂ (Procedure.SameBody σ) a.procedures b.procedures :=
  List.rel_append (h.functions.imp fun _ _ hfg => hfg.2) (.cons h.entry .nil)

lemma functionNames (h : a.Relinked σ b) :
    b.functions.map (·.name) = (a.functions.map (·.name)).map σ := by
  rw [List.map_map]
  exact (map_eq_of_forall₂ h.functions fun _ _ hfg => hfg.1.symm).symm

lemma usedBuiltins (h : a.Relinked σ b) : b.usedBuiltins = a.usedBuiltins := by
  have hcalls : b.builtinCalls = a.builtinCalls := by
    rw [builtinCalls, builtinCalls, List.flatMap_def, List.flatMap_def]
    refine (congrArg List.flatten (map_eq_of_forall₂ h.procedures fun f g hfg => ?_)).symm
    rw [hfg.bindings, List.filterMap_map]
    refine List.filterMap_congr fun b _ => ?_
    obtain ⟨temp, op⟩ := b
    cases op <;> rfl
  rw [Assembly.usedBuiltins, hcalls, Assembly.usedBuiltins]

end Relinked

end Assembly

/-! ### The same code -/

lemma idxOf?_map_append {σ : String → String} {names tail tail' : List String} {callee : String}
    (hmem : callee ∈ names) (hσ : ∀ name ∈ names, σ name = σ callee → name = callee) :
    (names.map σ ++ tail').idxOf? (σ callee) = (names ++ tail).idxOf? callee := by
  induction names with
  | nil => cases hmem
  | cons name names ih =>
    obtain ⟨hname, hnames⟩ := List.forall_mem_cons.mp hσ
    simp only [List.map_cons, List.cons_append, List.idxOf?_cons, beq_iff_eq]
    by_cases heq : name = callee
    · rw [if_pos heq, if_pos (congrArg σ heq)]
    · have hrest : callee ∈ names := (List.mem_cons.mp hmem).resolve_left (Ne.symm heq)
      rw [if_neg heq, if_neg (mt hname heq), ih hrest hnames]

namespace Wasm

structure Layout.Relinked (σ : String → String) (callees : List String) (l other : Layout) :
    Prop where
  imported : other.imported = l.imported
  index : ∀ callee ∈ callees, ∃ index, l.procedureIndex? callee = some index ∧
    other.procedureIndex? (σ callee) = some index

section Code

variable {σ : String → String} {callees : List String} {l other : Layout}

lemma operationCode_relinked (h : l.Relinked σ callees other) (pool : LiteralPool)
    {op : Operation} (hop : ∀ callee o, op = .invoke callee o → callee ∈ callees) :
    operationCode other pool (op.relinked σ) = operationCode l pool op := by
  cases op with
  | literal text => rfl
  | builtin b os =>
    simp only [Operation.relinked, operationCode, Layout.builtinIndex?, h.imported]
  | invoke callee o =>
    obtain ⟨index, hold, hnew⟩ := h.index callee (hop callee o rfl)
    simp only [Operation.relinked, operationCode, hold, hnew]
  | join parts => cases parts <;> rfl

lemma bindingsCode_relinked (h : l.Relinked σ callees other) (pool : LiteralPool)
    {bs : List Binding} (hbs : InvokesAmong callees bs) :
    bindingsCode other pool (bs.map (Binding.relinked σ)) = bindingsCode l pool bs := by
  induction bs generalizing pool with
  | nil => rfl
  | cons b bs ih =>
    obtain ⟨hb, hbs⟩ := List.forall_mem_cons.mp hbs
    have hcode := operationCode_relinked h pool hb
    rw [List.map_cons, bindingsCode, bindingsCode, Binding.relinked, hcode]
    simp only [ih _ hbs]

lemma procedureBodies_relinked (h : l.Relinked σ callees other) (pool : LiteralPool)
    {fs gs : List Procedure} (hsame : List.Forall₂ (Procedure.SameBody σ) fs gs)
    (hfs : ∀ f ∈ fs, InvokesAmong callees f.bindings) :
    procedureBodies other pool gs = procedureBodies l pool fs := by
  induction hsame generalizing pool with
  | nil => rfl
  | @cons f g fs gs hfg _ ih =>
    obtain ⟨hf, hfs⟩ := List.forall_mem_cons.mp hfs
    have hbody : procedureBody other pool g = procedureBody l pool f := by
      rw [procedureBody, hfg.bindings, bindingsCode_relinked h pool hf, hfg.result,
        List.length_map, procedureBody]
    rw [procedureBodies, procedureBodies, hbody]
    simp only [fun pool => ih pool hfs]

end Code

section Assembly

variable {σ : String → String} {a b : Assembly}

lemma Layout.relinked_layout (h : a.Relinked σ b) (hσ : a.KeepsApart σ) :
    a.layout.Relinked σ (a.functions.map (·.name)) b.layout := by
  have himported : b.layout.imported = a.layout.imported := by
    rw [Assembly.layout, h.usedBuiltins, Assembly.layout]
  refine ⟨himported, fun callee hcallee => ?_⟩
  have hnames (c : Assembly) : c.layout.names = c.functions.map (·.name) ++ [c.entry.name] :=
    List.map_append
  have hsame : b.layout.procedureIndex? (σ callee) = a.layout.procedureIndex? callee := by
    rw [Layout.procedureIndex?, Layout.procedureIndex?, Layout.importCount, himported, hnames,
      hnames, h.functionNames,
      idxOf?_map_append hcallee fun name hname => hσ name hname callee hcallee,
      Layout.importCount]
  obtain ⟨index, hindex⟩ := exists_procedureIndex? (a := a)
    (hnames a ▸ List.mem_append_left _ hcallee)
  exact ⟨index, hindex, hsame.trans hindex⟩

/-- The module with its entry exported under another name. -/
def Module.withEntry (m : Module) (name : String) : Module :=
  { m with exports := m.exports.map fun
      | .function _ index => .function name index
      | .memory name => .memory name }

lemma Module.map_withEntry (a : Assembly) :
    (Module.ofAssembly a).map (·.withEntry a.entry.name) = Module.ofAssembly a := by
  cases hm : Module.ofAssembly a with
  | error e => rfl
  | ok m =>
    have hexports : (m.withEntry a.entry.name).exports = m.exports := by
      rw [withEntry, (generated_of_ofAssembly hm).exports]
      rfl
    change Except.ok { m with exports := (m.withEntry a.entry.name).exports } = .ok m
    rw [hexports]

/-- Relinked assemblies have one module, but for the name of the entry. -/
lemma Module.ofAssembly_relinked (h : a.Relinked σ b)
    (ha : (a.procedures.map (·.name)).Nodup) (hb : (b.procedures.map (·.name)).Nodup)
    (hinvokes : a.InvokesFunctions) (hσ : a.KeepsApart σ) :
    Module.ofAssembly b = (Module.ofAssembly a).map (·.withEntry b.entry.name) := by
  have hlayout := Layout.relinked_layout h hσ
  have hbodies := procedureBodies_relinked hlayout .empty h.procedures hinvokes
  have htypes : b.layout.types = a.layout.types := by
    rw [Layout.types, hlayout.imported, Layout.types]
  have htype (count : Nat) : b.layout.typeIndex count = a.layout.typeIndex count := by
    rw [Layout.typeIndex, htypes, Layout.typeIndex]
  have himports : b.layout.imports = a.layout.imports := by
    simp only [Layout.imports, hlayout.imported, htype]
  have hfunctions : (b.procedures.map fun _ => b.layout.typeIndex 1) =
      a.procedures.map fun _ => a.layout.typeIndex 1 :=
    (map_eq_of_forall₂ h.procedures fun _ _ _ => (htype 1).symm).symm
  have hentry : b.layout.importCount + b.functions.length =
      a.layout.importCount + a.functions.length := by
    rw [Layout.importCount, hlayout.imported, h.functions.length_eq.symm, Layout.importCount]
  rw [Module.ofAssembly, Module.ofAssembly, bind_of_ok ((layout_complete a).numbered ha),
    bind_of_ok ((layout_complete b).numbered hb), hbodies, procedureIndex?_entry ha,
    procedureIndex?_entry hb]
  simp only [htypes, himports, hfunctions, hentry]
  cases procedureBodies a.layout .empty a.procedures <;> rfl

end Assembly

end Wasm

namespace Program

variable {p : Program} {r : Renaming} {entry : String} {a : Assembly}

lemma invokesFunctions_of_lower (h : p.lower Catalog.standard entry = .ok a) :
    a.InvokesFunctions := by
  intro f hf b hb callee o hop
  have hemitted := (procedures_of_lower h f hf).2 b hb
  rw [hop] at hemitted
  cases hemitted with
  | invoke hname =>
    rw [names_of_lower h]
    exact List.mem_map_of_mem hname

lemma distinct_of_entry_ne (h : p.lower Catalog.standard entry = .ok a)
    (hentry : ∀ d ∈ p.definitions, functionName d.name ≠ entry) :
    (a.procedures.map (·.name)).Nodup := by
  refine distinct_of_lower h fun hmem => ?_
  rw [names_of_lower h, name_of_procedure (lower_ok h).2.2, List.map_map] at hmem
  obtain ⟨d, hd, heq⟩ := List.mem_map.mp hmem
  exact hentry d hd heq

lemma keepsApart_of_lower (h : p.lower Catalog.standard entry = .ok a)
    (hr : r.Respects Catalog.standard p) : a.KeepsApart r.procedureName := by
  intro name hname other hother heq
  rw [names_of_lower h, List.map_map] at hname hother
  obtain ⟨d, hd, rfl⟩ := List.mem_map.mp hname
  obtain ⟨e, he, rfl⟩ := List.mem_map.mp hother
  simp only [Function.comp_apply, Renaming.procedureName_functionName] at heq
  exact congrArg functionName (hr.injective d hd e he (functionName_injective heq))

/-- **Names do not reach the module.** A program that can be lowered can be lowered with its
definitions and parameters renamed, as long as the renaming respects it. For every entry that is
told apart from the definitions under their old and new names, both programs have the same module
and so the same bytes, and they do have one if the literals have room. -/
theorem ofAssembly_renamed (hp : ∃ entry a, p.lower Catalog.standard entry = .ok a)
    (hr : r.Respects Catalog.standard p) (entry : String) :
    ∃ a b, p.lower Catalog.standard entry = .ok a ∧
      (p.renamed Catalog.standard r).lower Catalog.standard entry = .ok b ∧
      ((∀ d ∈ p.definitions, functionName d.name ≠ entry) →
        (∀ d ∈ (p.renamed Catalog.standard r).definitions, functionName d.name ≠ entry) →
        Module.ofAssembly b = Module.ofAssembly a ∧
          (a.literalBytes < 2 ^ 31 → ∃ m, Module.ofAssembly a = .ok m)) := by
  obtain ⟨_, _, hlower⟩ := hp
  have ha := lower_withEntry hlower entry
  obtain ⟨b, hb, hrelinked⟩ := exists_lower_renamed ha hr
  refine ⟨_, b, ha, hb, fun hentry hentry' => ⟨?_, fun hbytes => ?_⟩⟩
  · have hname := name_of_procedure (lower_ok hb).2.2
    rw [Module.ofAssembly_relinked hrelinked (distinct_of_entry_ne ha hentry)
      (distinct_of_entry_ne hb hentry') (invokesFunctions_of_lower ha) (keepsApart_of_lower ha hr),
      hname]
    exact Module.map_withEntry _
  · exact exists_ofAssembly (distinct_of_entry_ne ha hentry) (linked_of_lower ha)
      (Nat.le_of_lt_succ hbytes)

/-- One definition has the name of a builtin, and the others call that. -/
def greeting : Program where
  definitions := [
    ⟨"upper", "z", .pipeline [.identifier "z" 1, .identifier "f" 1] 1, 1⟩,
    ⟨"f", "x", .pipeline [.identifier "x" 2, .identifier "upper" 2, .identifier "g" 2] 2, 2⟩,
    ⟨"g", "y", .pipeline [.group [
      .pipeline [.identifier "y" 3, .call "append" [.literal "!" 3] 3] 3,
      .pipeline [.call "upper" [.identifier "y" 3] 3] 3] 3] 3, 3⟩]
  expression := .pipeline [.call "f" [.identifier "it" 4] 4, .identifier "g" 4] 4

def greetingAssembly : Assembly where
  functions := [
    ⟨"fn_upper", "z", [⟨0, .invoke "fn_f" .param⟩], .temp 0⟩,
    ⟨"fn_f", "x", [⟨0, .builtin .upper [.param]⟩, ⟨1, .invoke "fn_g" (.temp 0)⟩], .temp 1⟩,
    ⟨"fn_g", "y", [⟨0, .literal "!"⟩, ⟨1, .builtin .append [.param, .temp 0]⟩,
      ⟨2, .builtin .upper [.param]⟩, ⟨3, .join [.temp 1, .temp 2]⟩], .temp 3⟩]
  entry := ⟨"run", "input", [⟨0, .invoke "fn_f" .param⟩, ⟨1, .invoke "fn_g" (.temp 0)⟩], .temp 1⟩

/-- Two definitions change places. The parameter of one is called as that definition now is, that
of the other as a builtin that it calls. -/
def exchange : Renaming where
  definition name := if name = "f" then "g" else if name = "g" then "f" else name
  parameter name := if name = "f" then "g" else if name = "g" then "append" else "x"

theorem greeting_exchanged :
    exchange.Respects Catalog.standard greeting ∧
      greeting.lower Catalog.standard "run" = .ok greetingAssembly ∧
      ∃ b m, (greeting.renamed Catalog.standard exchange).lower Catalog.standard "run" = .ok b ∧
        Module.ofAssembly greetingAssembly = .ok m ∧ Module.ofAssembly b = .ok m := by
  have hlower : greeting.lower Catalog.standard "run" = .ok greetingAssembly := by decide +kernel
  have hrespects : exchange.Respects Catalog.standard greeting :=
    ⟨by decide +kernel, by decide +kernel, by decide +kernel⟩
  obtain ⟨a, b, ha, hb, hmodules⟩ := ofAssembly_renamed ⟨"run", _, hlower⟩ hrespects "run"
  cases hlower.symm.trans ha
  obtain ⟨hsame, hroom⟩ := hmodules (by decide +kernel) (by decide +kernel)
  obtain ⟨m, hm⟩ := hroom (by decide +kernel)
  exact ⟨hrespects, hlower, b, m, hb, hm, hsame.trans hm⟩

end Program

end TextPipeline
