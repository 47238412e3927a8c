import TextPipeline.Proofs.Wasm.Generation
import TextPipeline.Wasm.Linker

/-!
Linking a module that was generated. The host can offer all of its functions (`Linker.host_eq`),
and of these every import finds the function that it is named after, with as many parameters
(`instantiate_of_generated`).
-/

namespace TextPipeline.Wasm

/-- The function under its own name and with its own number of parameters. -/
def HostFunction.link (f : HostFunction) : Link := ⟨hostModule, f.name, f.operandCount, f⟩

namespace Linker

def all : Linker :=
  (.literal :: .joinLines :: Builtin.all.map HostFunction.builtin).map HostFunction.link

lemma host_eq : host = .ok all := by decide +kernel

lemma find?_all (f : HostFunction) : all.find? hostModule f.name = some f.link := by
  cases f with
  | literal => decide
  | joinLines => decide
  | builtin b => cases b <;> decide

lemma resolve?_of_type {m : Module} {i : Import} {f : HostFunction}
    (horigin : i.origin = hostModule) (hname : i.name = f.name)
    (htype : m.types[i.type]? = some f.operandCount) :
    all.resolve? m i = some f := by
  rw [resolve?, horigin, hname, find?_all]
  exact if_pos htype

end Linker

/-- An instance of a module that was generated from the assembly. -/
structure Loaded (a : Assembly) (i : Instance) : Prop extends Generated a i.wasm where
  hosts : i.hosts = a.layout.hostFunctions

/-- **A generated module can be linked.** -/
lemma instantiate_of_generated {a : Assembly} {m : Module} (g : Generated a m) :
    ∃ i, m.instantiate Linker.all = .ok i ∧ i.wasm = m ∧ Loaded a i := by
  have hresolve (f : HostFunction) (hf : f ∈ a.layout.hostFunctions) :
      Linker.all.resolve? m (a.layout.importOf f) = some f :=
    Linker.resolve?_of_type rfl rfl (g.types ▸ Layout.types_operandCount hf)
  have hhosts : m.imports.mapM (Linker.all.resolve? m) = some a.layout.hostFunctions := by
    rw [g.imports, Layout.imports_layout]
    exact mapM_map_of_some hresolve
  refine ⟨⟨m, a.layout.hostFunctions⟩, ?_, rfl, g, rfl⟩
  rw [Module.instantiate, hhosts]
  exact if_pos g.fits

end TextPipeline.Wasm
