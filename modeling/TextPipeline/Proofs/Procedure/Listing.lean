import TextPipeline.Proofs.Procedure.Weakening
import TextPipeline.Proofs.Program.Reprint
import TextPipeline.Proofs.Text.Recovery

/-!
What a listing tells. It shows the operands by name, so that a parameter that is spelled like a
temporary cannot be told from it; everything else can be read back. Two program texts have the same
listing if and only if their assemblies differ in operands at most, and these look alike
(`listing_eq_iff_alike`).
-/

namespace TextPipeline

open Text

/-! ### Looking alike -/

inductive Operand.Alike (parameter : String) : Operand → Operand → Prop
  | same (o : Operand) : Alike parameter o o
  | param {index : Nat} : parameter = tempName index → Alike parameter .param (.temp index)
  | temp {index : Nat} : parameter = tempName index → Alike parameter (.temp index) .param

inductive Operation.Alike (parameter : String) : Operation → Operation → Prop
  | literal (text : String) : Alike parameter (.literal text) (.literal text)
  | builtin (b : Builtin) {os others} : List.Forall₂ (Operand.Alike parameter) os others →
      Alike parameter (.builtin b os) (.builtin b others)
  | invoke (callee : String) {o other} : Operand.Alike parameter o other →
      Alike parameter (.invoke callee o) (.invoke callee other)
  | join {os others} : List.Forall₂ (Operand.Alike parameter) os others →
      Alike parameter (.join os) (.join others)

def Binding.Alike (parameter : String) (b other : Binding) : Prop :=
  b.temp = other.temp ∧ b.operation.Alike parameter other.operation

structure Procedure.Alike (p q : Procedure) : Prop where
  name : p.name = q.name
  parameter : p.parameter = q.parameter
  bindings : List.Forall₂ (Binding.Alike p.parameter) p.bindings q.bindings
  result : p.result.Alike p.parameter q.result

structure Assembly.Alike (a b : Assembly) : Prop where
  functions : List.Forall₂ Procedure.Alike a.functions b.functions
  entry : a.entry.Alike b.entry

lemma toList_toString (n : Nat) : (toString n).toList = Nat.toDigits 10 n := by
  rw [Nat.toString_eq_ofList_toDigits, String.toList_ofList]

lemma tempName_injective {m n : Nat} (h : tempName m = tempName n) : m = n := by
  have hdigits : Nat.toDigits 10 m = Nat.toDigits 10 n := by
    rw [← toList_toString, ← toList_toString, (String.append_right_inj "tmp").mp h]
  rw [← Nat.ofDigitChars_ten_toDigits (n := m), hdigits, Nat.ofDigitChars_ten_toDigits]

lemma Operand.alike_iff {parameter : String} {o other : Operand} :
    o.Alike parameter other ↔ o.shown parameter = other.shown parameter := by
  constructor
  · intro h
    cases h with
    | same => rfl
    | param h => exact h
    | temp h => exact h.symm
  · -- operands that look alike
    intro h
    cases o with
    | param =>
      cases other with
      | param => exact .same _
      | temp _ => exact .param h
    | temp m =>
      cases other with
      | param => exact .temp h.symm
      | temp n => exact tempName_injective h ▸ .same _

lemma forall₂_alike_iff {parameter : String} {os others : List Operand} :
    List.Forall₂ (Operand.Alike parameter) os others ↔
      os.map (Operand.shown parameter) = others.map (Operand.shown parameter) := by
  rw [← List.forall₂_eq_eq_eq, List.forall₂_map_left_iff, List.forall₂_map_right_iff]
  exact ⟨.imp fun _ _ => Operand.alike_iff.mp, .imp fun _ _ => Operand.alike_iff.mpr⟩

lemma Operation.Alike.shown {parameter : String} {op other : Operation}
    (h : op.Alike parameter other) : op.shown parameter = other.shown parameter := by
  cases h with
  | literal text => rfl
  | builtin b hos => rw [Operation.shown, Operand.shownAll, forall₂_alike_iff.mp hos]; rfl
  | invoke callee ho => rw [Operation.shown, Operand.alike_iff.mp ho]; rfl
  | join hos => rw [Operation.shown, Operand.shownAll, forall₂_alike_iff.mp hos]; rfl

lemma Procedure.Alike.listing {p q : Procedure} (h : p.Alike q) : p.listing = q.listing := by
  have hlines : p.bindings.map (Binding.line p.parameter) =
      q.bindings.map (Binding.line q.parameter) := by
    rw [← h.parameter]
    refine map_eq_of_forall₂ h.bindings fun b other hb => ?_
    rw [Binding.line, Binding.line, hb.1, hb.2.shown]
  have hresult := Operand.alike_iff.mp h.result
  rw [Procedure.listing, Procedure.listing, hlines, hresult, h.name, h.parameter]

lemma Assembly.Alike.listing {a b : Assembly} (h : a.Alike b) : a.listing = b.listing := by
  have hfunctions : (a.functions.map fun p => p.listing ++ "\n") =
      b.functions.map fun p => p.listing ++ "\n" :=
    map_eq_of_forall₂ h.functions fun _ _ hpq => by rw [hpq.listing]
  rw [Assembly.listing, Assembly.listing, hfunctions, h.entry.listing]

/-! ### Words -/

lemma isWord_of_check {s : String} (hfirst : s.toList.head?.any (decide <| IsLetter ·))
    (hchars : s.toList.all (decide <| IsWordChar ·)) : IsWord s := by
  refine ⟨?_, fun c hc => by simpa using List.all_eq_true.mp hchars c hc⟩
  cases hs : s.toList with
  | nil => simp [hs] at hfirst
  | cons first more => exact ⟨first, more, rfl, by simpa [hs] using hfirst⟩

lemma IsWord.append {s t : String} (hs : IsWord s) (ht : ∀ c ∈ t.toList, IsWordChar c) :
    IsWord (s ++ t) := by
  obtain ⟨⟨first, more, hfirst, hletter⟩, hchars⟩ := hs
  rw [IsWord, String.toList_append]
  refine ⟨⟨first, more ++ t.toList, by rw [hfirst]; rfl, hletter⟩, fun c hc => ?_⟩
  exact (List.mem_append.mp hc).elim (hchars c) (ht c)

lemma isWord_functionName {name : String} (h : IsWord name) : IsWord (functionName name) :=
  .append (isWord_of_check (by decide) (by decide)) h.2

lemma isWord_builtin (b : Builtin) : IsWord b.name := by
  cases b <;> exact isWord_of_check (by decide) (by decide)

lemma isWord_tempName (index : Nat) : IsWord (tempName index) := by
  refine .append (isWord_of_check (by decide) (by decide)) fun c hc => .inr ?_
  rw [toList_toString] at hc
  exact Item.isDigit_iff.mp (Nat.isDigit_of_mem_toDigits (by decide) (by decide) hc)

lemma IsWord.shown {parameter : String} (h : IsWord parameter) (o : Operand) :
    IsWord (o.shown parameter) := by
  cases o with
  | param => exact h
  | temp index => exact isWord_tempName index

lemma shownAll_injective {parameter : String} (h : IsWord parameter) {os others : List Operand}
    (hshown : Operand.shownAll parameter os = Operand.shownAll parameter others) :
    List.Forall₂ (Operand.Alike parameter) os others := by
  have hwords (os : List Operand) :
      ∀ l ∈ (os.map (Operand.shown parameter)).map String.toList,
        l ≠ [] ∧ ∀ c ∈ l, c ≠ ',' := by
    simp only [List.mem_map, exists_exists_and_eq_and]
    rintro l ⟨o, -, rfl⟩
    obtain ⟨⟨first, more, hchars, -⟩, hword⟩ := h.shown o
    refine ⟨by simp [hchars], fun c hc => ?_⟩
    rintro rfl
    exact absurd (hword ',' hc) (by decide)
  have hchars := congrArg String.toList hshown
  rw [Operand.shownAll, Operand.shownAll, String.toList_intercalate,
    String.toList_intercalate] at hchars
  have hlists := intercalate_injective (hwords os) (hwords others) hchars
  rw [forall₂_alike_iff]
  exact List.map_injective_iff.mpr (fun _ _ => String.toList_inj.mp) hlists

/-! ### Operations -/

/-- The operation can be read back: its names are words and its literal is plain. -/
def Operation.Clear : Operation → Prop
  | literal text => Plain text
  | invoke callee _ => IsWord callee
  | builtin _ _ | join _ => True

namespace Operation

/-- The word with which an operation is shown. -/
def word : Operation → String
  | literal _ => "literal"
  | builtin b _ => b.name
  | invoke _ _ => "call"
  | join _ => "join_lines"

/-- The character after this word. -/
def mark : Operation → Char
  | literal _ | invoke _ _ => ' '
  | builtin _ _ | join _ => '('

/-- The text after this character. -/
def rest (parameter : String) : Operation → String
  | literal text => quoted text
  | builtin _ os | join os => Operand.shownAll parameter os ++ ")"
  | invoke callee o => callee ++ "(" ++ o.shown parameter ++ ")"

variable {parameter : String} {op other : Operation}

lemma toList_shown (op : Operation) :
    (op.shown parameter).toList = op.word.toList ++ op.mark :: (op.rest parameter).toList := by
  cases op <;> simp [shown, word, mark, rest]

lemma isWord_word (op : Operation) : IsWord op.word := by
  cases op with
  | builtin b _ => exact isWord_builtin b
  | literal _ => exact isWord_of_check (s := "literal") (by decide) (by decide)
  | invoke _ _ => exact isWord_of_check (s := "call") (by decide) (by decide)
  | join _ => exact isWord_of_check (s := "join_lines") (by decide) (by decide)

lemma not_isWordChar_mark (op : Operation) : ¬ IsWordChar op.mark := by
  have hspace : ¬ IsWordChar ' ' := by decide
  have hparen : ¬ IsWordChar '(' := by decide
  cases op with
  | literal _ | invoke _ _ => exact hspace
  | builtin _ _ | join _ => exact hparen

lemma builtin_name_ne (b : Builtin) :
    b.name ≠ "literal" ∧ b.name ≠ "call" ∧ b.name ≠ "join_lines" := by
  cases b <;> decide

lemma builtin_name_injective {b c : Builtin} (h : b.name = c.name) : b = c := by
  revert h
  cases b <;> cases c <;> decide

lemma alike_of_shown (hp : IsWord parameter) (hop : op.Clear) (hother : other.Clear)
    (h : op.shown parameter = other.shown parameter) : op.Alike parameter other := by
  have hchars := congrArg String.toList h
  rw [toList_shown, toList_shown] at hchars
  obtain ⟨hword, -, hrest⟩ := append_cons_inj (isWord_word op).2 (isWord_word other).2
    (not_isWordChar_mark op) (not_isWordChar_mark other) hchars
  have hword : op.word = other.word := String.toList_inj.mp hword
  have hrest : op.rest parameter = other.rest parameter := String.toList_inj.mp hrest
  have hends {os others : List Operand} (h : Operand.shownAll parameter os ++ ")" =
      Operand.shownAll parameter others ++ ")") :
      List.Forall₂ (Operand.Alike parameter) os others :=
    shownAll_injective hp ((String.append_left_inj ")").mp h)
  cases op with
  | literal text =>
    cases other with
    | literal text' =>
      cases quoted_injective hop hother hrest
      exact .literal text
    | builtin b _ => exact absurd hword.symm (builtin_name_ne b).1
    | invoke _ _ | join _ => simp [word] at hword
  | builtin b os =>
    cases other with
    | builtin c others =>
      cases builtin_name_injective hword
      exact .builtin b (hends hrest)
    | literal _ => exact absurd hword (builtin_name_ne b).1
    | invoke _ _ => exact absurd hword (builtin_name_ne b).2.1
    | join _ => exact absurd hword (builtin_name_ne b).2.2
  | invoke callee o =>
    cases other with
    | invoke callee' o' =>
      have hparts : callee.toList ++ '(' :: (o.shown parameter ++ ")").toList =
          callee'.toList ++ '(' :: (o'.shown parameter ++ ")").toList := by
        simpa [rest] using congrArg String.toList hrest
      obtain ⟨hcallee, -, hargument⟩ := append_cons_inj (P := IsWordChar) hop.2 hother.2
        (by decide) (by decide) hparts
      cases String.toList_inj.mp hcallee
      have hshown := (String.append_left_inj ")").mp (String.toList_inj.mp hargument)
      exact .invoke callee (Operand.alike_iff.mpr hshown)
    | builtin b _ => exact absurd hword.symm (builtin_name_ne b).2.1
    | literal _ | join _ => simp [word] at hword
  | join os =>
    cases other with
    | join others => exact .join (hends hrest)
    | builtin b _ => exact absurd hword.symm (builtin_name_ne b).2.2
    | literal _ | invoke _ _ => simp [word] at hword

end Operation

/-! ### Procedures as lines -/

/-- A binding without the end of its line. -/
def Binding.text (parameter : String) (b : Binding) : String :=
  "    " ++ tempName b.temp ++ " = " ++ b.operation.shown parameter

lemma Binding.alike_of_text {parameter : String} (hp : IsWord parameter) {b other : Binding}
    (hb : b.operation.Clear) (hother : other.operation.Clear)
    (h : b.text parameter = other.text parameter) : b.Alike parameter other := by
  have hparts (b : Binding) : (b.text parameter).toList = "    ".toList ++
      ((tempName b.temp).toList ++ ' ' :: ("= " ++ b.operation.shown parameter).toList) := by
    simp [Binding.text]
  have hchars := congrArg String.toList h
  rw [hparts, hparts] at hchars
  obtain ⟨htemp, -, hop⟩ := append_cons_inj (isWord_tempName b.temp).2
    (isWord_tempName other.temp).2 (by decide) (by decide) (List.append_cancel_left hchars)
  exact ⟨tempName_injective (String.toList_inj.mp htemp), Operation.alike_of_shown hp hb hother
    ((String.append_right_inj "= ").mp (String.toList_inj.mp hop))⟩

structure Procedure.Clear (p : Procedure) : Prop where
  parameter : IsWord p.parameter
  operations : ∀ b ∈ p.bindings, b.operation.Clear

namespace Procedure

/-- The first line of a procedure. -/
def header (p : Procedure) : List Char :=
  ("proc " ++ p.name ++ "(" ++ p.parameter ++ ") \x7b").toList

/-- The lines between the first and the last. -/
def body (p : Procedure) : List (List Char) :=
  p.bindings.map (fun b => (b.text p.parameter).toList) ++
    [("    return " ++ p.result.shown p.parameter).toList]

/-- The last line. -/
def closing : List Char := ['\x7d']

variable {p q : Procedure}

lemma toList_listing (p : Procedure) :
    p.listing.toList = p.header ++ '\n' :: ended (p.body ++ [closing]) := by
  have hbindings : (String.join (p.bindings.map (Binding.line p.parameter))).toList =
      ended (p.bindings.map fun b => (b.text p.parameter).toList) := by
    rw [String.toList_join, List.flatMap_map, ended, List.flatMap_map]
    refine List.flatMap_congr fun b _ => ?_
    simp [Binding.line, Binding.text]
  simp [listing, header, body, closing, hbindings]

lemma header_injective (hpname : IsWord p.name) (hqname : IsWord q.name)
    (hp : IsWord p.parameter) (hq : IsWord q.parameter) (h : p.header = q.header) :
    p.name = q.name ∧ p.parameter = q.parameter := by
  have hparts (p : Procedure) : p.header = "proc ".toList ++
      (p.name.toList ++ '(' :: (p.parameter.toList ++ ')' :: " \x7b".toList)) := by
    simp [header]
  rw [hparts, hparts] at h
  obtain ⟨hname, -, hrest⟩ := append_cons_inj hpname.2 hqname.2 (by decide) (by decide)
    (List.append_cancel_left h)
  obtain ⟨hparameter, -, -⟩ := append_cons_inj hp.2 hq.2 (by decide) (by decide) hrest
  exact ⟨String.toList_inj.mp hname, String.toList_inj.mp hparameter⟩

lemma alike_of_body (hp : p.Clear) (hq : q.Clear) (hname : p.name = q.name)
    (hparameter : p.parameter = q.parameter) (h : p.body = q.body) : p.Alike q := by
  unfold body at h
  rw [← hparameter] at h
  obtain ⟨hbindings, hresult⟩ := List.append_inj' h rfl
  refine ⟨hname, hparameter, ?_, ?_⟩
  · rw [← List.forall₂_eq_eq_eq, List.forall₂_map_left_iff, List.forall₂_map_right_iff] at hbindings
    have hclear := (List.forall₂_and_left _ _).mpr ⟨hp.operations, ((List.forall₂_and_left _ _).mpr
      ⟨hq.operations, hbindings.flip⟩).flip⟩
    exact hclear.imp fun b other ⟨hb, hother, htext⟩ =>
      Binding.alike_of_text hp.parameter hb hother (String.toList_inj.mp htext)
  · have hresult := String.toList_inj.mp (List.cons.inj hresult).1
    exact Operand.alike_iff.mpr ((String.append_right_inj "    return ").mp hresult)

end Procedure

/-! ### Lines that are lines -/

/-- The text has no line feed. -/
def OneLine (s : List Char) : Prop := ∀ c ∈ s, c ≠ '\n'

lemma OneLine.append {s t : List Char} (hs : OneLine s) (ht : OneLine t) : OneLine (s ++ t) :=
  fun c hc => (List.mem_append.mp hc).elim (hs c) (ht c)

lemma IsWord.oneLine {s : String} (h : IsWord s) : OneLine s.toList := by
  rintro c hc rfl
  exact absurd (h.2 _ hc) (by decide)

lemma oneLine_of_check {s : List Char} (h : s.all (· != '\n')) : OneLine s :=
  fun c hc => by simpa using List.all_eq_true.mp h c hc

lemma oneLine_shownAll {parameter : String} (hp : IsWord parameter) (os : List Operand) :
    OneLine (Operand.shownAll parameter os).toList := by
  intro c hc
  rw [Operand.shownAll, String.toList_intercalate] at hc
  obtain hc | ⟨l, hl, hc⟩ := mem_intercalate hc
  · exact oneLine_of_check (by decide) c hc
  · simp only [List.mem_map, exists_exists_and_eq_and] at hl
    obtain ⟨o, -, rfl⟩ := hl
    exact (hp.shown o).oneLine c hc

lemma Operation.oneLine_shown {parameter : String} (hp : IsWord parameter) {op : Operation}
    (hop : op.Clear) : OneLine (op.shown parameter).toList := by
  have hmark : OneLine [op.mark] := by
    cases op <;> simp [OneLine, mark]
  have hrest : OneLine (op.rest parameter).toList := by
    have hparen {c : Char} (hc : c ≠ '\n') : OneLine [c] := by simpa [OneLine] using hc
    cases op with
    | literal text => exact ne_lineFeed_of_mem_quoted hop
    | builtin _ os | join os =>
      rw [rest, String.toList_append]
      exact (oneLine_shownAll hp os).append (hparen (by decide))
    | invoke callee o =>
      simp only [rest, String.toList_append]
      exact (((IsWord.oneLine hop).append (hparen (by decide))).append (hp.shown o).oneLine).append
        (hparen (by decide))
  rw [toList_shown, List.append_cons]
  exact ((isWord_word op).oneLine.append hmark).append hrest

namespace Procedure

variable {p q : Procedure}

lemma oneLine_header (hname : IsWord p.name) (hp : IsWord p.parameter) : OneLine p.header := by
  simp only [header, String.toList_append]
  exact ((((oneLine_of_check (by decide)).append hname.oneLine).append
    (oneLine_of_check (by decide))).append hp.oneLine).append (oneLine_of_check (by decide))

lemma header_ne_closing (p : Procedure) : p.header ≠ closing := by
  intro h
  have hhead := congrArg List.head? h
  simp [header, closing] at hhead

lemma lines_of_body (hp : p.Clear) : ∀ l ∈ p.body, OneLine l ∧ l ≠ closing := by
  have hclosing {s : List Char} : ' ' :: s ≠ closing := by simp [closing]
  intro l hl
  rcases List.mem_append.mp hl with hl | hl
  · obtain ⟨b, hb, rfl⟩ := List.mem_map.mp hl
    simp only [Binding.text, String.toList_append]
    refine ⟨?_, hclosing⟩
    exact (((oneLine_of_check (by decide)).append (isWord_tempName b.temp).oneLine).append
      (oneLine_of_check (by decide))).append
        (Operation.oneLine_shown hp.parameter (hp.operations b hb))
  · rw [List.mem_singleton.mp hl, String.toList_append]
    exact ⟨(oneLine_of_check (by decide)).append (hp.parameter.shown p.result).oneLine, hclosing⟩

/-- The lines of a procedure before the entry, with the empty one after it. -/
def block (p : Procedure) : List (List Char) := p.header :: p.body ++ [closing, []]

lemma ended_block (p : Procedure) : ended p.block = (p.listing ++ "\n").toList := by
  rw [String.toList_append, toList_listing]
  simp [block]

structure ClearFunction (p : Procedure) : Prop extends p.Clear where
  name : IsWord p.name

lemma oneLine_of_mem_block (hp : p.ClearFunction) : ∀ l ∈ p.block, OneLine l := by
  intro l hl
  simp only [block, List.cons_append, List.mem_cons, List.mem_append, List.not_mem_nil,
    or_false] at hl
  rcases hl with rfl | hl | rfl | rfl
  · exact oneLine_header hp.name hp.parameter
  · exact (lines_of_body hp.toClear l hl).1
  · exact oneLine_of_check (by decide)
  · exact oneLine_of_check (by decide)

lemma count_block (hp : p.ClearFunction) : p.block.count closing = 1 := by
  have hbody : p.body.count closing = 0 :=
    List.count_eq_zero.mpr fun hmem => (lines_of_body hp.toClear closing hmem).2 rfl
  rw [block, List.count_append, List.count_cons_of_ne p.header_ne_closing, hbody]
  decide

lemma alike_of_blocks {ps qs : List Procedure} {s t : List (List Char)}
    (hps : ∀ p ∈ ps, p.ClearFunction) (hqs : ∀ q ∈ qs, q.ClearFunction)
    (hlength : ps.length = qs.length) (h : ps.flatMap block ++ s = qs.flatMap block ++ t) :
    List.Forall₂ Alike ps qs ∧ s = t := by
  induction ps generalizing qs with
  | nil =>
    cases List.length_eq_zero_iff.mp hlength.symm
    exact ⟨.nil, h⟩
  | cons p ps ih =>
    obtain ⟨q, qs, rfl⟩ := List.exists_cons_of_length_eq_add_one hlength.symm
    obtain ⟨hp, hps⟩ := List.forall_mem_cons.mp hps
    obtain ⟨hq, hqs⟩ := List.forall_mem_cons.mp hqs
    have hopen {p : Procedure} (hp : p.ClearFunction) : ∀ l ∈ p.header :: p.body, l ≠ closing :=
      List.forall_mem_cons.mpr ⟨p.header_ne_closing, fun l hl => (lines_of_body hp.toClear l hl).2⟩
    have hsplit (p : Procedure) (ps : List Procedure) (s : List (List Char)) :
        (p :: ps).flatMap block ++ s =
          (p.header :: p.body) ++ closing :: ([] :: (ps.flatMap block ++ s)) := by
      simp [block]
    rw [hsplit, hsplit] at h
    obtain ⟨hlines, -, hrest⟩ := append_cons_inj (hopen hp) (hopen hq) (by simp) (by simp) h
    obtain ⟨hheader, hbody⟩ := List.cons.inj hlines
    obtain ⟨hname, hparameter⟩ :=
      header_injective hp.name hq.name hp.parameter hq.parameter hheader
    obtain ⟨halike, hst⟩ := ih hps hqs (Nat.succ.inj hlength) (List.cons.inj hrest).2
    exact ⟨.cons (alike_of_body hp.toClear hq.toClear hname hparameter hbody) halike, hst⟩

end Procedure

/-! ### Assemblies -/

namespace Assembly

open Procedure

structure Clear (a : Assembly) : Prop where
  functions : ∀ f ∈ a.functions, f.ClearFunction
  entry : a.entry.Clear

variable {a b : Assembly}

lemma toList_listing (a : Assembly) : a.listing.toList = ended (a.functions.flatMap block) ++
    (a.entry.header ++ '\n' :: ended (a.entry.body ++ [closing])) := by
  have hfunctions : (String.join (a.functions.map fun p => p.listing ++ "\n")).toList =
      ended (a.functions.flatMap block) := by
    rw [String.toList_join, List.flatMap_map, ended, List.flatMap_assoc]
    exact List.flatMap_congr fun p _ => (p.ended_block).symm
  rw [listing, String.toList_append, hfunctions, Procedure.toList_listing]

lemma Clear.count_blocks {ps : List Procedure} (hps : ∀ p ∈ ps, p.ClearFunction) :
    (ps.flatMap block).count closing = ps.length := by
  induction ps with
  | nil => rfl
  | cons p ps ih =>
    obtain ⟨hp, hps⟩ := List.forall_mem_cons.mp hps
    rw [List.flatMap_cons, List.count_append, count_block hp, ih hps, List.length_cons,
      Nat.add_comm]

lemma alike_of_listing (ha : a.Clear) (hb : b.Clear) (hname : a.entry.name = b.entry.name)
    (hparameter : a.entry.parameter = b.entry.parameter) (h : a.listing = b.listing) :
    a.Alike b := by
  -- The name of the entry may look like anything, also like procedures in front of the entry. But
  -- it is the same on both sides, and so is then the number of last lines before it.
  have hheader : b.entry.header = a.entry.header := by
    rw [header, header, hname, hparameter]
  obtain ⟨name, hnamelines, hended⟩ := exists_ended a.entry.header
  have hlines (c : Assembly) (hc : c.entry.header = a.entry.header) : c.listing.toList =
      ended (c.functions.flatMap block ++ (name ++ (c.entry.body ++ [closing]))) := by
    rw [toList_listing, hc, List.append_cons, hended]
    simp only [ended_append]
  have hone {c : Assembly} (hc : c.Clear) :
      ∀ l ∈ c.functions.flatMap block ++ (name ++ (c.entry.body ++ [closing])), OneLine l := by
    intro l hl
    simp only [List.mem_append, List.mem_flatMap, List.mem_singleton] at hl
    rcases hl with ⟨p, hp, hl⟩ | hl | hl | rfl
    · exact oneLine_of_mem_block (hc.functions p hp) l hl
    · exact hnamelines l hl
    · exact (lines_of_body hc.entry l hl).1
    · exact oneLine_of_check (by decide)
  have hsame := ended_injective (hone ha) (hone hb)
    ((hlines a rfl).symm.trans ((congrArg String.toList h).trans (hlines b hheader)))
  -- no line of a body is a last line, so the last lines count the procedures
  have hbody {c : Assembly} (hc : c.Clear) : c.entry.body.count closing = 0 :=
    List.count_eq_zero.mpr fun hmem => (lines_of_body hc.entry closing hmem).2 rfl
  have hlength : a.functions.length = b.functions.length := by
    have hcount := congrArg (List.count closing) hsame
    simp only [List.count_append, Clear.count_blocks ha.functions, Clear.count_blocks hb.functions,
      hbody ha, hbody hb] at hcount
    omega
  obtain ⟨hfunctions, hrest⟩ := alike_of_blocks ha.functions hb.functions hlength hsame
  have hrest := List.append_cancel_right (List.append_cancel_left hrest)
  exact ⟨hfunctions, alike_of_body ha.entry hb.entry hname hparameter hrest⟩

end Assembly

/-! ### Program texts -/

lemma Program.isName_of_parse {source : String} {p : Program} (h : Program.parse source = .ok p) :
    ∀ d ∈ p.definitions, IsName d.name ∧ IsName d.parameter := by
  obtain ⟨ts, hlex, hp⟩ := ok_of_bind h
  have hspells := Parser.spells_of_ofTokens (Token.ended_of_lex hlex).1 hp
  have hprintable : p.Printable Quotation.fitting := hspells.printable (Token.sourced_of_lex hlex)
    fun text htext =>
      ⟨plain_of_mem_literals h text htext, fitting_holds_of_mem_literals h text htext⟩
  exact fun d hd =>
    ⟨(hprintable.definitions d hd).name, (hprintable.definitions d hd).parameter⟩

section Source

variable {source entry : String} {a b : Assembly}

lemma clear_of_lowerSource (h : lowerSource source entry = .ok a) : a.Clear := by
  obtain ⟨p, hparse, hlower, -⟩ := lowerSource_ok h
  obtain ⟨-, hfunctions, hentry⟩ := Program.lower_ok hlower
  have hnames := Program.isName_of_parse hparse
  have hoperations : ∀ q ∈ a.procedures, ∀ b ∈ q.bindings, b.operation.Clear := by
    intro q hq b hb
    have hemitted := (Program.procedures_of_lower hlower q hq).2 b hb
    have hplain := (wellFormed_of_lowerSource h).plain
    generalize hop : b.operation = op at hemitted
    cases hemitted with
    | literal _ | nothing => exact hplain _ (Assembly.mem_literals.mpr ⟨q, hq, b, hb, hop⟩)
    | builtin _ _ | join _ => trivial
    | invoke hname =>
      obtain ⟨d, hd, rfl⟩ := List.mem_map.mp hname
      exact isWord_functionName (hnames d hd).1.1
  refine ⟨fun f hf => ?_, ⟨?_, hoperations _ a.entry_mem⟩⟩
  · obtain ⟨d, hd, hdf⟩ :=
      exists_of_forall₂ (Lowering.forall₂_of_mapM hfunctions).flip hf
    have hparameter : f.parameter = d.parameter := Lowering.parameter_of_procedure hdf
    refine ⟨⟨hparameter ▸ (hnames d hd).2.1, hoperations f (List.mem_append_left _ hf)⟩, ?_⟩
    rw [Lowering.name_of_function hdf]
    exact isWord_functionName (hnames d hd).1.1
  · rw [Lowering.parameter_of_procedure hentry]
    exact isWord_of_check (by decide) (by decide)

/-- No temporary of the procedure is spelled like its parameter. -/
def Procedure.Unmistakable (p : Procedure) : Prop :=
  ∀ n < p.bindings.length, p.parameter ≠ tempName n

instance : DecidablePred Procedure.Unmistakable := fun p =>
  inferInstanceAs (Decidable (∀ n < p.bindings.length, p.parameter ≠ tempName n))

lemma Operand.Alike.eq {p : Procedure} (hp : p.Unmistakable) {o other : Operand}
    (h : o.Alike p.parameter other) (ho : o.Below p.bindings.length)
    (hother : other.Below p.bindings.length) : o = other := by
  cases h with
  | same => rfl
  | param h => exact absurd h (hp _ hother)
  | temp h => exact absurd h (hp _ ho)

lemma Operation.Alike.eq {p : Procedure} (hp : p.Unmistakable) {op other : Operation}
    (h : op.Alike p.parameter other) (hop : ∀ o ∈ op.operands, o.Below p.bindings.length)
    (hother : ∀ o ∈ other.operands, o.Below p.bindings.length) : op = other := by
  have hall {os others : List Operand} (h : List.Forall₂ (Operand.Alike p.parameter) os others)
      (hos : ∀ o ∈ os, o.Below p.bindings.length)
      (hothers : ∀ o ∈ others, o.Below p.bindings.length) : os = others := by
    induction h with
    | nil => rfl
    | cons ho _ ih =>
      obtain ⟨hfirst, hos⟩ := List.forall_mem_cons.mp hos
      obtain ⟨hfirst', hothers⟩ := List.forall_mem_cons.mp hothers
      rw [ho.eq hp hfirst hfirst', ih hos hothers]
  cases h with
  | literal text => rfl
  | builtin b hos => rw [hall hos hop hother]
  | invoke callee ho => rw [ho.eq hp (hop _ List.mem_cons_self) (hother _ List.mem_cons_self)]
  | join hos => rw [hall hos hop hother]

lemma Procedure.Alike.eq {p q : Procedure} (h : p.Alike q) (hp : p.Unmistakable)
    (hcoherent : p.Coherent) (hother : q.Coherent) : p = q := by
  have hlength : q.bindings.length = p.bindings.length := h.bindings.length_eq.symm
  have hbindings : p.bindings = q.bindings := by
    rw [← List.forall₂_eq_eq_eq]
    have hops := (List.forall₂_and_left _ _).mpr ⟨hcoherent.operands,
      ((List.forall₂_and_left _ _).mpr ⟨hother.operands, h.bindings.flip⟩).flip⟩
    refine hops.imp fun ⟨temp, op⟩ ⟨temp', op'⟩ ⟨hop, hop', htemp, halike⟩ => ?_
    exact congr (congrArg Binding.mk htemp) (halike.eq hp hop (hlength ▸ hop'))
  have hresult := h.result.eq hp hcoherent.result (hlength ▸ hother.result)
  cases p
  cases q
  cases h.name
  cases h.parameter
  cases hbindings
  cases hresult
  rfl

lemma unmistakable_entry {p : Procedure} (h : p.parameter = entryParameter) :
    p.Unmistakable := by
  intro n _ htemp
  have hchars := congrArg (·.toList.head?) (h.symm.trans htemp)
  simp [entryParameter, tempName] at hchars

lemma Assembly.Alike.eq (h : a.Alike b) (hfunctions : ∀ f ∈ a.functions, f.Unmistakable)
    (hentry : a.entry.parameter = entryParameter) (ha : a.WellFormed) (hb : b.WellFormed) :
    a = b := by
  have hsame : a.functions = b.functions := by
    rw [← List.forall₂_eq_eq_eq]
    have hall := (List.forall₂_and_left _ _).mpr
      ⟨fun f hf => And.intro (hfunctions f hf) (ha.coherent f (List.mem_append_left _ hf)),
        ((List.forall₂_and_left _ _).mpr
          ⟨fun f hf => hb.coherent f (List.mem_append_left _ hf), h.functions.flip⟩).flip⟩
    exact hall.imp fun f g ⟨⟨hf, hfco⟩, hgco, hfg⟩ => hfg.eq hf hfco hgco
  have hsameEntry : a.entry = b.entry := h.entry.eq (unmistakable_entry hentry)
    (ha.coherent _ a.entry_mem) (hb.coherent _ b.entry_mem)
  cases a
  cases b
  cases hsame
  cases hsameEntry
  rfl

/-- **What a listing tells.** Two program texts with the same entry point have the same listing if
and only if their assemblies are the same but for operands that look alike: a parameter and a
temporary of the same spelling. If one of them has no function with a temporary that is spelled
like its parameter, they are the same altogether. -/
theorem listing_eq_iff_alike {other : String} (ha : lowerSource source entry = .ok a)
    (hb : lowerSource other entry = .ok b) :
    (listSource source entry = listSource other entry ↔ a.Alike b) ∧
      ((∀ f ∈ a.functions, f.Unmistakable) →
        listSource source entry = listSource other entry → a = b) := by
  have hlist : listSource source entry = listSource other entry ↔ a.listing = b.listing := by
    rw [listSource, listSource, bind_of_ok ha, bind_of_ok hb]
    exact ⟨fun h => Except.ok.inj h, fun h => congrArg Except.ok h⟩
  have hentry {c : Assembly} {text : String} (hc : lowerSource text entry = .ok c) :
      c.entry.name = entry ∧ c.entry.parameter = entryParameter := by
    obtain ⟨p, -, hlower, -⟩ := lowerSource_ok hc
    have hprocedure := (Program.lower_ok hlower).2.2
    exact ⟨Lowering.name_of_procedure hprocedure, Lowering.parameter_of_procedure hprocedure⟩
  have hiff : listSource source entry = listSource other entry ↔ a.Alike b := by
    rw [hlist]
    refine ⟨Assembly.alike_of_listing (clear_of_lowerSource ha) (clear_of_lowerSource hb) ?_ ?_,
      Assembly.Alike.listing⟩
    · rw [(hentry ha).1, (hentry hb).1]
    · rw [(hentry ha).2, (hentry hb).2]
  refine ⟨hiff, fun hfunctions h => ?_⟩
  exact (hiff.mp h).eq hfunctions (hentry ha).2 (wellFormed_of_lowerSource ha)
    (wellFormed_of_lowerSource hb)

end Source

/-- The parameter stands above the temporary with its name. -/
def parameterFirst : String := "def f(tmp0) = \x7b tmp0; tmp0 | upper \x7d\nit | f"

/-- The parameter stands below the temporary with its name. -/
def parameterLast : String := "def f(tmp0) = \x7b tmp0 | upper; tmp0 \x7d\nit | f"

/-- A parameter that is spelled like a temporary hides in a listing. -/
theorem parameterFirst_lists_as_parameterLast :
    ¬ ∀ source other entry a b, lowerSource source entry = .ok a →
      lowerSource other entry = .ok b →
      listSource source entry = listSource other entry → a = b := by
  intro h
  have hfirst : lowerSource parameterFirst "run" = .ok
      ⟨[⟨"fn_f", "tmp0", [⟨0, .builtin .upper [.param]⟩, ⟨1, .join [.param, .temp 0]⟩], .temp 1⟩],
        ⟨"run", "input", [⟨0, .invoke "fn_f" .param⟩], .temp 0⟩⟩ := by decide +kernel
  have hlast : lowerSource parameterLast "run" = .ok
      ⟨[⟨"fn_f", "tmp0", [⟨0, .builtin .upper [.param]⟩, ⟨1, .join [.temp 0, .param]⟩], .temp 1⟩],
        ⟨"run", "input", [⟨0, .invoke "fn_f" .param⟩], .temp 0⟩⟩ := by decide +kernel
  have hlisting : listSource parameterFirst "run" = listSource parameterLast "run" := by
    rw [listSource, listSource, bind_of_ok hfirst, bind_of_ok hlast]
    decide +kernel
  have heq := h _ _ _ _ _ hfirst hlast hlisting
  revert heq
  decide

/-- A program text that uses every operation, and another layout of it. -/
def quotingSource : String := "def f(tmp9) = \x7b tmp9 | append '\"\\'; tmp9 \x7d\nit | f"

def quotingLayout : String :=
  "# in a block\ndef f(tmp9) = \x7b tmp9 | append \"\"\"\"\\\"\"\";\n  tmp9 \x7d\n\nit | f"

/-- The assembly of both. -/
def quotingAssembly : Assembly :=
  ⟨[⟨"fn_f", "tmp9", [⟨0, .literal "\"\\"⟩, ⟨1, .builtin .append [.param, .temp 0]⟩,
      ⟨2, .join [.temp 1, .param]⟩], .temp 2⟩],
    ⟨"run", "input", [⟨0, .invoke "fn_f" .param⟩], .temp 0⟩⟩

theorem quotingSource_lists_as_quotingLayout :
    ∃ a b, lowerSource quotingSource "run" = .ok a ∧ lowerSource quotingLayout "run" = .ok b ∧
      (∀ f ∈ a.functions, f.Unmistakable) ∧
      listSource quotingSource "run" = listSource quotingLayout "run" ∧ a.Alike b ∧ a = b := by
  have hsource : lowerSource quotingSource "run" = .ok quotingAssembly := by decide +kernel
  have hlayout : lowerSource quotingLayout "run" = .ok quotingAssembly := by decide +kernel
  have hlisting : listSource quotingSource "run" = listSource quotingLayout "run" := by
    rw [listSource, listSource, bind_of_ok hsource, bind_of_ok hlayout]
  have hfunctions : ∀ f ∈ quotingAssembly.functions, f.Unmistakable := by decide
  obtain ⟨halike, heq⟩ := listing_eq_iff_alike hsource hlayout
  exact ⟨_, _, hsource, hlayout, hfunctions, hlisting, halike.mp hlisting, heq hfunctions hlisting⟩

end TextPipeline
