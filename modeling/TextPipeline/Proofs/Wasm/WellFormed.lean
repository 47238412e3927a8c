import TextPipeline.Proofs.Wasm.RoundTrip
import TextPipeline.Proofs.Wasm.Totality

/-!
Every program text that can be lowered compiles, and to a well-formed module
(`Artifact.compile_wellFormed`).
-/

namespace TextPipeline.Wasm

/-- A module that keeps to its own declarations, for an assembly. -/
structure Module.WellFormed (a : Assembly) (m : Module) : Prop where
  imports : ∀ i ∈ m.imports, ∃ f : HostFunction, i.origin = hostModule ∧ i.name = f.name ∧
    m.contents.types[i.type]? = some ⟨f.operandCount, 1⟩
  functions : ∀ type ∈ m.functions, m.contents.types[type]? = some ⟨1, 1⟩
  count : m.functions.length = a.procedures.length
  types : m.types.Nodup
  bodies : List.Forall₂ (fun p body => body.locals = p.bindings.length ∧
    Flows m p.bindings.length [] body.code [.handle]) a.procedures m.bodies
  pages : m.data.length ≤ m.pages * pageSize
  exports : m.exports =
    [.function a.entry.name (m.imports.length + a.functions.length), .memory memoryName]
  distinct : (m.exports.map Export.name).Nodup
  valid : m.isValid

lemma contents_types {m : Module} {type parameters : Nat} (h : m.types[type]? = some parameters) :
    m.contents.types[type]? = some ⟨parameters, 1⟩ := by
  simp [Module.contents, h]

lemma wellFormed_of_generated {a : Assembly} {m : Module} (g : Generated a m) (h : a.WellFormed) :
    m.WellFormed a where
  imports i hi := by
    rw [g.imports, Layout.imports_layout] at hi
    obtain ⟨f, hf, rfl⟩ := List.mem_map.mp hi
    exact ⟨f, rfl, rfl, contents_types (g.types ▸ Layout.types_operandCount hf)⟩
  functions type htype := by
    rw [g.functions] at htype
    obtain ⟨_, -, rfl⟩ := List.mem_map.mp htype
    exact contents_types (g.types ▸ Layout.types_one)
  count := by rw [g.functions, List.length_map]
  types := g.types ▸ nodup_eraseDups _
  bodies := by
    refine List.forall₂_iff_get.mpr ⟨g.bodies.length_eq, fun i hp hbody => ?_⟩
    have hmem : a.procedures.get ⟨i, hp⟩ ∈ a.procedures := List.get_mem _ _
    exact flows_body g (h.coherent _ hmem) (g.bodies.get hp hbody)
  pages := g.fits
  exports := by rw [g.exports, g.length_imports]
  distinct := by
    rw [g.exports]
    simpa [Export.name] using h.entry
  valid := isValid_of_generated g h.coherent h.entry

end Wasm

namespace Artifact

lemma filterMap_entry? (bs : List Builtin) :
    bs.filterMap Catalog.standard.entry? = bs.map Builtin.descriptor := by
  rw [funext Catalog.standard_entry?]
  exact congrFun List.filterMap_eq_map bs

/-- **Compilation succeeds.** A program text that can be lowered, with literals of less than
`2 ^ 31` bytes, compiles to a well-formed module. Nothing on the way is missing: the functions have
a numbering, in which every builtin and every procedure that is called is found, and the entry. The
builtins of the artifact are those that the module imports after the two functions for literals and
joins. -/
theorem compile_wellFormed {source entry : String} {a : Assembly}
    (h : lowerSource source entry = .ok a) (hbytes : a.literalBytes < 2 ^ 31) :
    ∃ artifact, compile source entry = .ok artifact ∧ Wasm.Module.ofAssembly a = .ok artifact.wasm ∧
      Wasm.Layout.ofAssembly a = .ok a.layout ∧ a.layout.Complete a ∧
      (∀ b ∈ a.bindings, ∀ callee o, b.operation = .invoke callee o →
        ∃ index, a.layout.procedureIndex? callee = some index) ∧
      (∀ b ∈ a.bindings, b.operation ≠ .join []) ∧
      artifact.wasm.WellFormed a ∧
      artifact.wasm.imports.map (fun i => (i.origin, i.name)) =
        (Wasm.hostModule, Wasm.literalName) :: (Wasm.hostModule, Wasm.joinName) ::
          artifact.builtins.map (fun d => (Wasm.hostModule, d.name)) ∧
      artifact.builtins = a.usedBuiltins.map Builtin.descriptor := by
  have hformed := wellFormed_of_lowerSource h
  have hroom : a.literalBytes ≤ Wasm.LiteralPool.limit := Nat.le_of_lt_succ hbytes
  have hlinked (b : Binding) (hb : b ∈ a.bindings) : b.operation.Linked a := by
    obtain ⟨p, hp, hbp⟩ := List.mem_flatMap.mp hb
    exact hformed.linked p hp b hbp
  obtain ⟨m, hm⟩ := Wasm.exists_ofAssembly hformed.distinct hformed.linked hroom
  have g := Wasm.generated_of_ofAssembly hm
  have hcomplete := Wasm.layout_complete a
  refine ⟨⟨m, a.entry.name, a.usedBuiltins.map Builtin.descriptor⟩, ?_, hm,
    hcomplete.numbered hformed.distinct, hcomplete, ?_, ?_,
    Wasm.wellFormed_of_generated g hformed, ?_, rfl⟩
  · rw [compile, bind_of_ok h, ofAssembly, bind_of_ok hm, filterMap_entry?]
    rfl
  · -- invoked procedures have a number
    intro b hb callee o hop
    have hcallee := hlinked b hb
    rw [hop] at hcallee
    exact Wasm.exists_procedureIndex? hcallee
  · -- a group that is not empty is joined from its members
    intro b hb hop
    have hjoin := hlinked b hb
    rw [hop] at hjoin
    exact hjoin rfl
  · rw [g.map_imports]
    simp [Builtin.descriptor, Function.comp_def]

/-- A definition that calls itself, beside one with the name of a builtin, which nothing calls. -/
def loopSource : String :=
  "def upper(x) = x | loop\ndef loop(x) = upper x | append '!' | loop\nit | append '' | loop"

def loopAssembly : Assembly :=
  ⟨[⟨"fn_upper", "x", [⟨0, .invoke "fn_loop" .param⟩], .temp 0⟩,
    ⟨"fn_loop", "x",
      [⟨0, .builtin .upper [.param]⟩, ⟨1, .literal "!"⟩,
        ⟨2, .builtin .append [.temp 0, .temp 1]⟩, ⟨3, .invoke "fn_loop" (.temp 2)⟩], .temp 3⟩],
    ⟨"run", "input",
      [⟨0, .literal ""⟩, ⟨1, .builtin .append [.param, .temp 0]⟩,
        ⟨2, .invoke "fn_loop" (.temp 1)⟩], .temp 2⟩⟩

theorem loopSource_compiles :
    lowerSource loopSource "run" = .ok loopAssembly ∧ loopAssembly.literalBytes < 2 ^ 31 ∧
      ∃ artifact, compile loopSource "run" = .ok artifact ∧
        artifact.wasm.WellFormed loopAssembly ∧
        artifact.wasm.imports.map (fun i => (i.origin, i.name)) =
          [("nalgae", "literal"), ("nalgae", "join_lines"), ("nalgae", "upper"),
            ("nalgae", "append")] := by
  have h : lowerSource loopSource "run" = .ok loopAssembly := by decide +kernel
  have hbytes : loopAssembly.literalBytes < 2 ^ 31 := by decide +kernel
  obtain ⟨artifact, hartifact, -, -, -, -, -, hformed, himports, hbuiltins⟩ :=
    compile_wellFormed h hbytes
  refine ⟨h, hbytes, artifact, hartifact, hformed, himports.trans ?_⟩
  rw [hbuiltins]
  decide

end Artifact

end TextPipeline
