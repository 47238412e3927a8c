import TextPipeline.Artifact
import TextPipeline.Proofs.Procedure.Lowering
import TextPipeline.Proofs.Program.Literals
import TextPipeline.Proofs.Wasm.Validity

/-!
The assemblies that program texts are lowered to (`wellFormed_of_lowerSource`): no two procedures
share a name, each of them is coherent, what they invoke exists, no join is empty, and the
literals are plain.
-/

namespace TextPipeline

lemma Catalog.eq_descriptor_of_standard {name : String} {d : Descriptor}
    (h : Catalog.standard.find? name = some d) : d = d.builtin.descriptor := by
  have hmem : d ∈ Catalog.standard := List.mem_reverse.mp (List.mem_of_find?_eq_some h)
  obtain ⟨b, -, rfl⟩ := List.mem_map.mp hmem
  rfl

namespace Lowering

/-! ### The operations of the code -/

inductive Emitted (names : Names) (texts : List String) : Operation → Prop
  | literal {text} : text ∈ texts → Emitted names texts (.literal text)
  /-- A group without members. -/
  | nothing : Emitted names texts (.literal "")
  | builtin {name d os} : names.catalog.find? name = some d → os.length = d.operandCount →
      Emitted names texts (.builtin d.builtin os)
  | invoke {name o} : name ∈ names.functions → Emitted names texts (.invoke (functionName name) o)
  | join {parts} : parts ≠ [] → Emitted names texts (.join parts)

lemma Emitted.mono {names : Names} {texts more : List String} {op : Operation}
    (h : Emitted names texts op) (hsub : texts ⊆ more) : Emitted names more op := by
  cases h with
  | literal htext => exact .literal (hsub htext)
  | nothing => exact .nothing
  | builtin hd hlen => exact .builtin hd hlen
  | invoke hname => exact .invoke hname
  | join hne => exact .join hne

def AllEmitted (names : Names) (texts : List String) (code : List Binding) : Prop :=
  ∀ b ∈ code, Emitted names texts b.operation

lemma allEmitted_nil {names : Names} {texts : List String} : AllEmitted names texts [] :=
  fun _ hb => nomatch hb

lemma AllEmitted.append {names : Names} {first second : List String} {xs ys : List Binding}
    (hx : AllEmitted names first xs) (hy : AllEmitted names second ys) :
    AllEmitted names (first ++ second) (xs ++ ys) := by
  intro b hb
  rcases List.mem_append.mp hb with h | h
  · exact (hx b h).mono (List.subset_append_left _ _)
  · exact (hy b h).mono (List.subset_append_right _ _)

lemma allEmitted_of_emit {names : Names} {texts : List String} {next : Nat} {o : Operand}
    {before code : List Binding} {op : Operation} (he : (o, code) = emit next before op)
    (hbefore : AllEmitted names texts before) (hop : Emitted names texts op) :
    AllEmitted names texts code := by
  cases he
  intro b hb
  rcases List.mem_append.mp hb with h | h
  · exact hbefore b h
  · rw [List.mem_singleton.mp h]
    exact hop

lemma emitted_stacking {names : Names} {texts : List String} (parts : List Operand) :
    Emitted names texts (if parts.isEmpty then .literal "" else .join parts) := by
  cases parts with
  | nil => exact .nothing
  | cons part parts => exact .join (List.cons_ne_nil part parts)

lemma length_of_values {names : Names} {scope : Scope} {next : Nat} {ts : List Term}
    {os : List Operand} {code : List Binding} (h : values names scope next ts = .ok (os, code)) :
    os.length = ts.length := by
  induction ts generalizing next os code with
  | nil =>
    cases h
    rfl
  | cons t ts ih =>
    obtain ⟨o, before, rest, more, -, hrest, rfl, rfl⟩ := values_cons_ok h
    rw [List.length_cons, List.length_cons, ih hrest]

section Terms

variable {names : Names}

mutual

lemma value_allEmitted : ∀ (scope : Scope) (next : Nat) (t : Term) {o : Operand}
    {code : List Binding}, value names scope next t = .ok (o, code) →
    AllEmitted names t.literals code
  | scope, next, .identifier name line, _, _, h => by
    obtain ⟨-, rfl, rfl⟩ := value_identifier_ok h
    exact allEmitted_nil
  | scope, next, .literal text line, _, _, h => by
    rw [value] at h
    rw [Term.literals]
    exact allEmitted_of_emit (Except.ok.inj h).symm allEmitted_nil (.literal List.mem_cons_self)
  | scope, next, .call target arguments line, _, _, h => by
    rw [Term.literals]
    obtain ⟨d, os, before, hd, hlen, hvs, he⟩ | ⟨o, before, -, hmem, hvs, he⟩ := value_call_ok h
    · exact allEmitted_of_emit he (values_allEmitted scope next arguments hvs)
        (.builtin hd ((length_of_values hvs).trans hlen))
    · exact allEmitted_of_emit he (values_allEmitted scope next arguments hvs) (.invoke hmem)
  | scope, next, .group es line, _, _, h => by
    rw [Term.literals]
    obtain ⟨parts, before, hms, he⟩ := value_group_ok h
    exact allEmitted_of_emit he (members_allEmitted scope next es hms) (emitted_stacking parts)

lemma step_allEmitted : ∀ (scope : Scope) (next : Nat) (current : Operand) (t : Term)
    {o : Operand} {code : List Binding}, step names scope next current t = .ok (o, code) →
    AllEmitted names t.literals code
  | scope, next, current, .identifier name line, _, _, h => by
    obtain ⟨-, ⟨d, hd, harity, he⟩ | ⟨-, hmem, he⟩⟩ := step_identifier_ok h
    · refine allEmitted_of_emit he allEmitted_nil (.builtin hd ?_)
      rw [Descriptor.operandCount, harity]
      rfl
    · exact allEmitted_of_emit he allEmitted_nil (.invoke hmem)
  | scope, next, current, .literal text line, _, _, h => by
    rw [step] at h
    rw [Term.literals]
    exact allEmitted_of_emit (Except.ok.inj h).symm allEmitted_nil (.literal List.mem_cons_self)
  | scope, next, current, .call target arguments line, _, _, h => by
    rw [Term.literals]
    obtain ⟨d, os, before, hd, hlen, hvs, he⟩ := step_call_ok h
    refine allEmitted_of_emit he (values_allEmitted scope next arguments hvs) (.builtin hd ?_)
    rw [List.length_cons, length_of_values hvs, hlen]
    rfl
  | scope, next, current, .group es line, _, _, h => by
    rw [Term.literals]
    obtain ⟨parts, before, hms, he⟩ := step_group_ok h
    exact allEmitted_of_emit he (members_allEmitted _ next es hms) (emitted_stacking parts)

lemma values_allEmitted : ∀ (scope : Scope) (next : Nat) (ts : List Term) {os : List Operand}
    {code : List Binding}, values names scope next ts = .ok (os, code) →
    AllEmitted names (literalsOfTerms ts) code
  | scope, next, [], _, _, h => by
    cases h
    exact allEmitted_nil
  | scope, next, t :: ts, _, _, h => by
    obtain ⟨o, before, rest, more, hv, hvs, rfl, rfl⟩ := values_cons_ok h
    rw [literalsOfTerms]
    exact (value_allEmitted scope next t hv).append (values_allEmitted scope _ ts hvs)

lemma steps_allEmitted : ∀ (scope : Scope) (next : Nat) (current : Operand) (ts : List Term)
    {o : Operand} {code : List Binding}, steps names scope next current ts = .ok (o, code) →
    AllEmitted names (literalsOfTerms ts) code
  | scope, next, current, [], _, _, h => by
    cases h
    exact allEmitted_nil
  | scope, next, current, t :: ts, _, _, h => by
    obtain ⟨operand, before, more, hs, hss, rfl⟩ := steps_cons_ok h
    rw [literalsOfTerms]
    exact (step_allEmitted scope next current t hs).append (steps_allEmitted scope _ operand ts hss)

lemma expression_allEmitted : ∀ (scope : Scope) (next : Nat) (e : Expression) {o : Operand}
    {code : List Binding}, expression names scope next e = .ok (o, code) →
    AllEmitted names e.literals code
  | scope, next, .pipeline [] line, _, _, h => by cases h
  | scope, next, .pipeline (t :: ts) line, _, _, h => by
    obtain ⟨operand, before, more, hv, hss, rfl⟩ := expression_cons_ok h
    rw [Expression.literals, literalsOfTerms]
    exact (value_allEmitted scope next t hv).append (steps_allEmitted scope _ operand ts hss)

lemma members_allEmitted : ∀ (scope : Scope) (next : Nat) (es : List Expression)
    {os : List Operand} {code : List Binding}, members names scope next es = .ok (os, code) →
    AllEmitted names (literalsOfMembers es) code
  | scope, next, [], _, _, h => by
    cases h
    exact allEmitted_nil
  | scope, next, e :: es, _, _, h => by
    obtain ⟨o, before, rest, more, he, hms, rfl, rfl⟩ := members_cons_ok h
    rw [literalsOfMembers]
    exact (expression_allEmitted scope next e he).append (members_allEmitted scope _ es hms)

end

end Terms

/-! ### Procedures -/

lemma Dense.below {next : Nat} {code : List Binding} (h : Dense next code) :
    ∀ b ∈ code, b.temp < next + code.length ∧
      ∀ o ∈ b.operation.operands, o.Below (next + code.length) := by
  induction code generalizing next with
  | nil => exact fun _ hb => nomatch hb
  | cons first code ih =>
    obtain ⟨htemp, hops, hcode⟩ := h
    have hlen : next + (first :: code).length = next + 1 + code.length := by
      rw [List.length_cons]
      omega
    rw [hlen]
    rintro b (_ | ⟨_, hb⟩)
    · exact ⟨by omega, fun o ho => (hops o ho).mono (by omega)⟩
    · exact ih hcode b hb

lemma counted_of_emitted {functions texts : List String} {op : Operation}
    (h : Emitted ⟨Catalog.standard, functions⟩ texts op) : op.Counted := by
  cases h with
  | literal _ | nothing | invoke _ | join _ => trivial
  | @builtin name d os hd hlen =>
    rw [Catalog.eq_descriptor_of_standard hd] at hlen
    exact hlen

lemma coherent_of_procedure {functions : List String} {name parameter scopeName : String}
    {body : Expression} {p : Procedure}
    (h : procedure ⟨Catalog.standard, functions⟩ name parameter scopeName body = .ok p) :
    p.Coherent ∧ AllEmitted ⟨Catalog.standard, functions⟩ body.literals p.bindings := by
  obtain ⟨⟨o, code⟩, hbody, hp⟩ := ok_of_bind h
  cases hp
  obtain ⟨hdense, hresult⟩ := expression_emits ⟨scopeName, .param⟩ 0 body trivial hbody
  have hall := expression_allEmitted ⟨scopeName, .param⟩ 0 body hbody
  have hbelow := hdense.below
  rw [Nat.zero_add] at hbelow hresult
  exact ⟨⟨fun b hb => (hbelow b hb).1, fun b hb => (hbelow b hb).2,
    fun b hb => counted_of_emitted (hall b hb), hresult o List.mem_cons_self⟩, hall⟩

end Lowering

/-! ### Assemblies -/

/-- The text of every binding that is a literal, in order. -/
def Assembly.literals (a : Assembly) : List String :=
  a.procedures.flatMap fun p => p.bindings.filterMap fun b =>
    match b.operation with
    | .literal text => some text
    | _ => none

lemma Assembly.mem_literals {a : Assembly} {text : String} :
    text ∈ a.literals ↔ ∃ p ∈ a.procedures, ∃ b ∈ p.bindings, b.operation = .literal text := by
  simp only [Assembly.literals, List.mem_flatMap, List.mem_filterMap]
  grind

/-- What the operation invokes is a procedure of the assembly, and what it joins is not
nothing. -/
def Operation.Linked (a : Assembly) : Operation → Prop
  | literal _ => True
  | builtin _ _ => True
  | invoke callee _ => callee ∈ a.procedures.map (·.name)
  | join parts => parts ≠ []

structure Assembly.WellFormed (a : Assembly) : Prop where
  distinct : (a.procedures.map (·.name)).Nodup
  coherent : ∀ p ∈ a.procedures, p.Coherent
  linked : ∀ p ∈ a.procedures, ∀ b ∈ p.bindings, b.operation.Linked a
  plain : ∀ text ∈ a.literals, Text.Plain text
  entry : a.entry.name ≠ Wasm.memoryName

lemma Program.procedures_of_lower {p : Program} {entry : String} {a : Assembly}
    (h : p.lower Catalog.standard entry = .ok a) : ∀ q ∈ a.procedures, q.Coherent ∧
      Lowering.AllEmitted ⟨Catalog.standard, p.definitions.map (·.name)⟩ p.literals
        q.bindings := by
  obtain ⟨-, hfs, hentry⟩ := Program.lower_ok h
  intro q hq
  rcases List.mem_append.mp hq with hq | hq
  · -- a definition
    obtain ⟨i, hi⟩ := List.mem_iff_getElem?.mp hq
    obtain ⟨d, hd, hfun⟩ := forall₂_getElem? (Lowering.forall₂_of_mapM hfs).flip hi
    obtain ⟨hco, hall⟩ := Lowering.coherent_of_procedure hfun
    refine ⟨hco, fun b hb => (hall b hb).mono fun text htext => ?_⟩
    exact List.mem_append_left _ (List.mem_flatMap.mpr ⟨d, List.mem_of_getElem? hd, htext⟩)
  · -- the entry
    rw [List.mem_singleton.mp hq]
    obtain ⟨hco, hall⟩ := Lowering.coherent_of_procedure hentry
    exact ⟨hco, fun b hb => (hall b hb).mono (List.subset_append_right _ _)⟩

lemma Program.names_of_lower {p : Program} {entry : String} {a : Assembly}
    (h : p.lower Catalog.standard entry = .ok a) :
    a.functions.map (·.name) = (p.definitions.map (·.name)).map functionName := by
  obtain ⟨-, hfs, -⟩ := Program.lower_ok h
  have hnames := (Lowering.forall₂_of_mapM hfs).imp fun d q hq => Lowering.name_of_function hq
  generalize p.definitions = ds at hnames
  generalize a.functions = qs at hnames
  induction hnames with
  | nil => rfl
  | cons hname _ ih => simp only [List.map_cons, hname, ih]

lemma Assembly.entryFault?_eq_none {a : Assembly} : a.entryFault? = none ↔
    a.entry.name ≠ "" ∧ a.entry.name ≠ Wasm.memoryName ∧
      a.entry.name ∉ a.functions.map (·.name) := by
  unfold Assembly.entryFault?
  grind

lemma Program.nodup_functions_of_lower {p : Program} {entry : String} {a : Assembly}
    (h : p.lower Catalog.standard entry = .ok a) : (a.functions.map (·.name)).Nodup := by
  have hdefinitions := (firstRepeated_eq_none.mp (Program.lower_ok h).1).1
  rw [Program.names_of_lower h]
  exact hdefinitions.map Lowering.functionName_injective

lemma Program.distinct_of_lower {p : Program} {entry : String} {a : Assembly}
    (h : p.lower Catalog.standard entry = .ok a)
    (hentry : a.entry.name ∉ a.functions.map (·.name)) : (a.procedures.map (·.name)).Nodup := by
  rw [Assembly.procedures, List.map_append, List.nodup_append]
  refine ⟨Program.nodup_functions_of_lower h, List.nodup_singleton _, ?_⟩
  intro name hname other hother heq
  have hother : other = a.entry.name := List.mem_singleton.mp hother
  exact hentry (hother ▸ heq ▸ hname)

lemma Program.linked_of_lower {p : Program} {entry : String} {a : Assembly}
    (h : p.lower Catalog.standard entry = .ok a) :
    ∀ q ∈ a.procedures, ∀ b ∈ q.bindings, b.operation.Linked a := by
  intro q hq b hb
  generalize hop : b.operation = op
  have hemitted := (Program.procedures_of_lower h q hq).2 b hb
  rw [hop] at hemitted
  cases hemitted with
  | literal _ | nothing | builtin _ _ => trivial
  | invoke hname =>
    have hmem := List.mem_map_of_mem (f := functionName) hname
    rw [← Program.names_of_lower h] at hmem
    rw [Operation.Linked, Assembly.procedures, List.map_append]
    exact List.mem_append_left _ hmem
  | join hne => exact hne

lemma lowerSource_ok {source entry : String} {a : Assembly} (h : lowerSource source entry = .ok a) :
    ∃ p, Program.parse source = .ok p ∧ p.lower Catalog.standard entry = .ok a ∧
      a.entryFault? = none := by
  obtain ⟨p, hp, h⟩ := ok_of_bind h
  obtain ⟨a', ha, h⟩ := ok_of_bind h
  split at h
  · cases h
  · rename_i hfault
    cases h
    exact ⟨p, hp, ha, hfault⟩

/-- **Texts are lowered to well-formed assemblies.** -/
lemma wellFormed_of_lowerSource {source entry : String} {a : Assembly}
    (h : lowerSource source entry = .ok a) : a.WellFormed := by
  obtain ⟨p, hparse, hlower, hfault⟩ := lowerSource_ok h
  obtain ⟨-, hmemory, hentry⟩ := Assembly.entryFault?_eq_none.mp hfault
  have hprocedures := Program.procedures_of_lower hlower
  refine ⟨Program.distinct_of_lower hlower hentry, fun q hq => (hprocedures q hq).1,
    Program.linked_of_lower hlower, fun text htext => ?_, hmemory⟩
  obtain ⟨q, hq, b, hb, hop⟩ := Assembly.mem_literals.mp htext
  have hemitted := (hprocedures q hq).2 b hb
  rw [hop] at hemitted
  cases hemitted with
  | literal htext => exact Program.plain_of_mem_literals hparse _ htext
  | nothing => exact fun c hc => nomatch hc

end TextPipeline
