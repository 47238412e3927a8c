import Mathlib.Data.List.Chain
import Mathlib.Data.List.Perm.Subperm
import Mathlib.Order.Lattice.Nat
import TextPipeline.Proofs.Builtin.Plain
import TextPipeline.Proofs.Procedure.Shape

/-!
Which procedure invokes which, and what follows for runs. A body is straight-line code, so that a
run goes through every edge of this graph: it succeeds within a depth if and only if no chain of
calls is longer (`exists_outcome`, `within_of_outcome`). If the entry reaches no cycle there is a
longest chain.
-/

namespace TextPipeline

open Text Relation

namespace Assembly

/-- A binding of one procedure invokes the other. -/
def Invokes (a : Assembly) (p q : Procedure) : Prop :=
  ∃ b ∈ p.bindings, ∃ callee o, b.operation = .invoke callee o ∧ a.procedure? callee = some q

/-- The entry leads to a procedure that leads to itself. -/
def ReachesCycle (a : Assembly) : Prop :=
  ∃ p, ReflTransGen a.Invokes a.entry p ∧ TransGen a.Invokes p p

/-- The numbers of procedures in the chains of calls that start at the entry. -/
def chainLengths (a : Assembly) : Set Nat :=
  {n | ∃ ps, List.IsChain a.Invokes (a.entry :: ps) ∧ n = (a.entry :: ps).length}

/-- No chain of calls goes further than this from the procedure. -/
def Within (a : Assembly) (p : Procedure) (depth : Nat) : Prop :=
  ∀ ps, List.IsChain a.Invokes (p :: ps) → ps.length ≤ depth

variable {a : Assembly} {p q : Procedure} {depth : Nat}

lemma Within.of_invokes (h : a.Within p depth) (hpq : a.Invokes p q) :
    ∃ less, depth = less + 1 ∧ a.Within q less := by
  have hlong (qs : List Procedure) (hqs : List.IsChain a.Invokes (q :: qs)) :
      qs.length + 1 ≤ depth := h (q :: qs) (hqs.cons_cons hpq)
  have hone : 1 ≤ depth := hlong [] (.singleton q)
  refine ⟨depth - 1, (Nat.sub_add_cancel hone).symm, fun qs hqs => ?_⟩
  exact Nat.le_sub_of_add_le (hlong qs hqs)

lemma within_of_forall (h : ∀ q, a.Invokes p q → ∃ less, depth = less + 1 ∧ a.Within q less) :
    a.Within p depth := by
  rintro (_ | ⟨q, qs⟩) hchain
  · exact Nat.zero_le _
  · obtain ⟨hpq, hqs⟩ := List.isChain_cons_cons.mp hchain
    obtain ⟨less, rfl, hless⟩ := h q hpq
    exact Nat.succ_le_succ (hless qs hqs)

/-! ### Cycles and chains -/

lemma exists_isChain_of_cycle (hp : TransGen a.Invokes p p) (n : Nat)
    (hq : ReflTransGen a.Invokes q p) : ∃ ps, ps.length = n ∧ List.IsChain a.Invokes (q :: ps) := by
  induction n generalizing q with
  | zero => exact ⟨[], rfl, .singleton q⟩
  | succ n ih =>
    -- there is a next procedure, on the way to the cycle or on the cycle itself
    obtain ⟨r, hqr, hrp⟩ : ∃ r, a.Invokes q r ∧ ReflTransGen a.Invokes r p := by
      obtain rfl | ⟨r, hqr, hrp⟩ := hq.cases_head
      · exact TransGen.head'_iff.mp hp
      · exact ⟨r, hqr, hrp⟩
    obtain ⟨ps, hlen, hchain⟩ := ih hrp
    exact ⟨r :: ps, by rw [List.length_cons, hlen], hchain.cons_cons hqr⟩

lemma not_within_of_cycle (hp : TransGen a.Invokes p p) (hq : ReflTransGen a.Invokes q p)
    (depth : Nat) : ¬ a.Within q depth := by
  obtain ⟨ps, hlen, hchain⟩ := exists_isChain_of_cycle hp (depth + 1) hq
  intro hwithin
  have hle := hwithin ps hchain
  omega

lemma not_within_of_reachesCycle (h : a.ReachesCycle) (depth : Nat) : ¬ a.Within a.entry depth := by
  obtain ⟨p, hreach, hcycle⟩ := h
  exact not_within_of_cycle hcycle hreach depth

lemma subset_of_isChain {ps : List Procedure} (h : List.IsChain a.Invokes (p :: ps)) :
    ps ⊆ a.procedures := by
  induction ps generalizing p with
  | nil => exact List.nil_subset _
  | cons q qs ih =>
    obtain ⟨hpq, hqs⟩ := List.isChain_cons_cons.mp h
    obtain ⟨_, -, _, _, -, hq⟩ := hpq
    exact List.cons_subset.mpr ⟨List.mem_of_find?_eq_some hq, ih hqs⟩

lemma nodup_of_isChain (h : ¬ a.ReachesCycle) {ps : List Procedure}
    (hchain : List.IsChain a.Invokes (a.entry :: ps)) : (a.entry :: ps).Nodup := by
  have hpair : (a.entry :: ps).Pairwise (TransGen a.Invokes) :=
    (hchain.imp fun _ _ => TransGen.single).pairwise
  have hreach : ∀ p ∈ a.entry :: ps, ReflTransGen a.Invokes a.entry p := by
    rintro p (_ | ⟨_, hp⟩)
    · exact .refl
    · exact ((List.pairwise_cons.mp hpair).1 p hp).to_reflTransGen
  refine hpair.imp_of_mem fun {p q} hp _ hpq heq => ?_
  exact h ⟨p, hreach p hp, heq ▸ hpq⟩

lemma length_le_of_isChain (h : ¬ a.ReachesCycle) {ps : List Procedure}
    (hchain : List.IsChain a.Invokes (a.entry :: ps)) :
    (a.entry :: ps).length ≤ a.procedures.length := by
  have hsub := List.cons_subset.mpr ⟨a.entry_mem, subset_of_isChain hchain⟩
  exact ((nodup_of_isChain h hchain).subperm hsub).length_le

lemma exists_isGreatest_chainLengths (h : ¬ a.ReachesCycle) :
    ∃ longest, IsGreatest a.chainLengths longest := by
  have hbound : a.procedures.length ∈ upperBounds a.chainLengths := by
    rintro _ ⟨ps, hchain, rfl⟩
    exact length_le_of_isChain h hchain
  have hsome : a.chainLengths.Nonempty := ⟨1, [], .singleton _, rfl⟩
  exact ⟨sSup a.chainLengths, Nat.sSup_mem hsome ⟨_, hbound⟩, fun n hn => le_csSup ⟨_, hbound⟩ hn⟩

end Assembly

/-! ### Runs go through all calls -/

section Execution

variable {call : Calls} {bs : List Binding} {f g : Frame}

lemma exists_outcome_of_executed (h : executed call bs f = .done (.ok g)) {b : Binding}
    (hb : b ∈ bs) : ∃ f' text, b.operation.outcome call f' = .done (.ok text) := by
  induction bs generalizing f with
  | nil => cases hb
  | cons first bs ih =>
    obtain ⟨_, -, hr⟩ | ⟨text, hop, hrest⟩ := Outcome.bind_eq_done h
    · cases hr
    · rcases List.mem_cons.mp hb with rfl | hb
      · exact ⟨f, text, hop⟩
      · exact ih hrest hb

/-- Every text of the frame is plain. -/
def Frame.AllPlain (f : Frame) : Prop := ∀ o, Plain (f.get o)

lemma Frame.AllPlain.set (hf : f.AllPlain) {text : String} (h : Plain text) (index : Nat) :
    (f.set index text).AllPlain := by
  intro o
  cases o with
  | param => exact hf .param
  | temp i =>
    by_cases hi : i = index
    · rw [hi, f.get_set_self]
      exact h
    · rw [f.get_set_of_ne text hi]
      exact hf (.temp i)

lemma plain_stacked {texts : List String} (h : ∀ s ∈ texts, Plain s) : Plain (stacked texts) := by
  cases texts with
  | nil => exact fun c hc => nomatch hc
  | cons first texts =>
    obtain ⟨hfirst, hrest⟩ := List.forall_mem_cons.mp h
    clear h
    induction texts generalizing first with
    | nil => exact hfirst
    | cons second texts ih =>
      obtain ⟨hsecond, hrest⟩ := List.forall_mem_cons.mp hrest
      have hfeed : Plain "\n" := by decide
      exact ih (first ++ "\n" ++ second) ((hfirst.append hfeed).append hsecond) hrest

/-- Calls of what the operation invokes return plain texts. -/
def Operation.Answered (call : Calls) (op : Operation) : Prop :=
  ∀ callee o, op = .invoke callee o → ∀ text, Plain text →
    ∃ s, call callee text = .done (.ok s) ∧ Plain s

lemma exists_operation_outcome {op : Operation} (hcount : op.Counted)
    (hplain : ∀ text, op = .literal text → Plain text) (hcall : op.Answered call)
    (hf : f.AllPlain) : ∃ s, op.outcome call f = .done (.ok s) ∧ Plain s := by
  have hgets (os : List Operand) : ∀ s ∈ os.map f.get, Plain s := by
    intro s hs
    obtain ⟨o, -, rfl⟩ := List.mem_map.mp hs
    exact hf o
  cases op with
  | literal text =>
    have htext := hplain text rfl
    exact ⟨text, congrArg Outcome.done (checked_of_plain htext), htext⟩
  | builtin b os =>
    have hlen : (os.map f.get).length = b.operandCount := by rw [List.length_map, hcount]
    obtain ⟨s, hs⟩ := Builtin.exists_apply hlen (hgets os)
    exact ⟨s, congrArg Outcome.done hs, Builtin.plain_of_apply hs⟩
  | invoke callee o => exact hcall callee o rfl _ (hf o)
  | join parts => exact ⟨_, rfl, plain_stacked (hgets parts)⟩

lemma exists_executed (hcount : ∀ b ∈ bs, b.operation.Counted)
    (hplain : ∀ b ∈ bs, ∀ text, b.operation = .literal text → Plain text)
    (hcall : ∀ b ∈ bs, b.operation.Answered call) (hf : f.AllPlain) :
    ∃ g, executed call bs f = .done (.ok g) ∧ g.AllPlain := by
  induction bs generalizing f with
  | nil => exact ⟨f, rfl, hf⟩
  | cons b bs ih =>
    obtain ⟨hb, hbs⟩ := List.forall_mem_cons.mp hcount
    obtain ⟨hbplain, hbsplain⟩ := List.forall_mem_cons.mp hplain
    obtain ⟨hbcall, hbscall⟩ := List.forall_mem_cons.mp hcall
    obtain ⟨s, hs, hsplain⟩ := exists_operation_outcome hb hbplain hbcall hf
    obtain ⟨g, hg, hgplain⟩ := ih hbs hbsplain hbscall (hf.set hsplain b.temp)
    exact ⟨g, by rw [executed_cons, hs, Outcome.done_ok_bind, hg], hgplain⟩

end Execution

namespace Assembly

variable {a : Assembly} {p q : Procedure} {depth : Nat} {input text : String}

lemma call_succ {name : String} (h : a.procedure? name = some q) :
    a.call input (depth + 1) name text = q.outcome (a.call input depth) input text := by
  rw [call, h]

lemma exists_procedure? {name : String} (h : name ∈ a.procedures.map (·.name)) :
    ∃ q, a.procedure? name = some q ∧ q ∈ a.procedures := by
  obtain ⟨q, hq, rfl⟩ := List.mem_map.mp h
  have hsome : (a.procedures.find? fun p => p.name = q.name).isSome :=
    List.find?_isSome.mpr ⟨q, hq, by simp⟩
  obtain ⟨first, hfirst⟩ := Option.isSome_iff_exists.mp hsome
  exact ⟨first, hfirst, List.mem_of_find?_eq_some hfirst⟩

lemma exists_call_of_outcome {calls : Calls} {s : String}
    (h : p.outcome calls input text = .done (.ok s)) (hpq : a.Invokes p q) :
    ∃ callee t r, a.procedure? callee = some q ∧ calls callee t = .done (.ok r) := by
  obtain ⟨b, hb, callee, o, hop, hq⟩ := hpq
  obtain ⟨_, -, hr⟩ | ⟨g, hexecuted, -⟩ := Outcome.bind_eq_done h
  · cases hr
  · obtain ⟨f, r, hr⟩ := exists_outcome_of_executed hexecuted hb
    rw [hop] at hr
    exact ⟨callee, f.get o, r, hq, hr⟩

lemma within_of_outcome {s : String}
    (h : p.outcome (a.call input depth) input text = .done (.ok s)) : a.Within p depth := by
  induction depth generalizing p text s with
  | zero =>
    rintro (_ | ⟨q, qs⟩) hchain
    · exact Nat.le_refl 0
    · -- a call with no depth left does not return
      obtain ⟨hpq, -⟩ := List.isChain_cons_cons.mp hchain
      obtain ⟨callee, t, r, -, hcall⟩ := exists_call_of_outcome h hpq
      cases hcall
  | succ depth ih =>
    rintro (_ | ⟨q, qs⟩) hchain
    · exact Nat.zero_le _
    · -- the call returns with one less
      obtain ⟨hpq, hqs⟩ := List.isChain_cons_cons.mp hchain
      obtain ⟨callee, t, r, hq, hcall⟩ := exists_call_of_outcome h hpq
      rw [call_succ hq] at hcall
      exact Nat.succ_le_succ (ih hcall qs hqs)

/-- **Short chains suffice.** If no chain of calls from a procedure goes further than the depth,
it has a result on plain texts. -/
lemma exists_outcome (hformed : a.WellFormed) (hinput : Plain input) (hp : p ∈ a.procedures)
    (hwithin : a.Within p depth) (htext : Plain text) :
    ∃ s, p.outcome (a.call input depth) input text = .done (.ok s) ∧ Plain s := by
  induction depth using Nat.strong_induction_on generalizing p text with
  | _ depth ih =>
    have hcall (b : Binding) (hb : b ∈ p.bindings) :
        b.operation.Answered (a.call input depth) := by
      intro callee o hop s hs
      have hlinked := hformed.linked p hp b hb
      rw [hop] at hlinked
      obtain ⟨q, hq, hqmem⟩ := exists_procedure? hlinked
      obtain ⟨less, rfl, hless⟩ := hwithin.of_invokes ⟨b, hb, callee, o, hop, hq⟩
      rw [call_succ hq]
      exact ih less (Nat.lt_succ_self less) hqmem hless hs
    have hplain (b : Binding) (hb : b ∈ p.bindings) (s : String)
        (hop : b.operation = .literal s) : Plain s :=
      hformed.plain s (mem_literals.mpr ⟨p, hp, b, hb, hop⟩)
    have hstart : (Frame.start input text).AllPlain := by
      intro o
      cases o with
      | param => exact htext
      | temp i => exact hinput
    obtain ⟨g, hg, hgplain⟩ :=
      exists_executed (hformed.coherent p hp).counts hplain hcall hstart
    exact ⟨g.get p.result, by rw [Procedure.outcome, hg]; rfl, hgplain p.result⟩

end Assembly

end TextPipeline
