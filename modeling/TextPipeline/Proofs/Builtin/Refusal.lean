import Mathlib.Data.List.Basic
import TextPipeline.Proofs.Builtin.Plain

/-!
What the character policy refuses. Arguments are looked at in order and the first character that is
not plain is the error (`edited_of_firstRefused`), so that the check of the result finds something
only where an argument is the result. With as many operands as a builtin takes, the policy is all
that it can fail on, and with any other number it fails whatever they are.
-/

namespace TextPipeline

namespace Text

/-- The first character that is not plain, in the first of the texts that has one. -/
def FirstRefused (texts : List String) (c : Char) : Prop :=
  ∃ before s after, texts = before ++ s :: after ∧ (∀ t ∈ before, Plain t) ∧
    ∃ start rest, s.toList = start ++ c :: rest ∧ (∀ d ∈ start, isPlain d) ∧ ¬ isPlain c

lemma firstViolation_eq_some_iff {s : String} {c : Char} : firstViolation s = some c ↔
    ∃ start rest, s.toList = start ++ c :: rest ∧ (∀ d ∈ start, isPlain d) ∧ ¬ isPlain c := by
  rw [firstViolation, List.find?_eq_some_iff_append]
  simp only [Bool.not_eq_true', Bool.not_not, Bool.not_eq_true]
  constructor
  · rintro ⟨hc, start, rest, hs, hstart⟩
    exact ⟨start, rest, hs, hstart, hc⟩
  · rintro ⟨start, rest, hs, hstart, hc⟩
    exact ⟨hc, start, rest, hs, hstart⟩

lemma firstRefused_iff {texts : List String} {c : Char} :
    FirstRefused texts c ↔ texts.findSome? firstViolation = some c := by
  simp only [List.findSome?_eq_some_iff, firstViolation_eq_none_iff, firstViolation_eq_some_iff]
  constructor
  · rintro ⟨before, s, after, htexts, hbefore, hc⟩
    exact ⟨before, s, after, htexts, hc, hbefore⟩
  · rintro ⟨before, s, after, htexts, hc, hbefore⟩
    exact ⟨before, s, after, htexts, hbefore, hc⟩

lemma exists_firstRefused_iff {texts : List String} :
    (∃ c, FirstRefused texts c) ↔ ¬ ∀ s ∈ texts, Plain s := by
  simp only [firstRefused_iff, ← Option.ne_none_iff_exists', ne_eq, List.findSome?_eq_none_iff,
    firstViolation_eq_none_iff]

lemma FirstRefused.append {texts : List String} {c : Char} (h : FirstRefused texts c)
    (more : List String) : FirstRefused (texts ++ more) c := by
  obtain ⟨before, s, after, rfl, hrest⟩ := h
  exact ⟨before, s, after ++ more, by simp, hrest⟩

lemma edited_of_firstRefused {args : List String} {result : String} {c : Char}
    (h : FirstRefused (args ++ [result]) c) : edited args result = .error (.violation c) := by
  rw [firstRefused_iff] at h
  induction args with
  | nil =>
    have hc : firstViolation result = some c := by simpa using h
    simp only [edited, checked, ensurePlain, hc]
    rfl
  | cons a args ih =>
    unfold edited at ih ⊢
    rw [List.forM]
    cases ha : firstViolation a with
    | some d =>
      have hd : d = c := by simpa [ha] using h
      simp only [ensurePlain, ha, hd]
      rfl
    | none =>
      simp only [ensurePlain, ha]
      exact ih (by simpa [ha] using h)

lemma checked_of_firstRefused {s : String} {c : Char} (h : FirstRefused [s] c) :
    checked s = .error (.violation c) := by
  have hresult : FirstRefused ([] ++ [s]) c := h
  exact edited_of_firstRefused hresult

/-- The outcome of an operation under the policy: a plain text if its arguments are plain, and
otherwise the first character that is not. -/
structure Guarded (args : List String) (outcome : Except Error String) : Prop where
  ok_iff : (∃ t, outcome = .ok t) ↔ ∀ s ∈ args, Plain s
  plain : ∀ t, outcome = .ok t → Plain t
  error_iff : ∀ e, outcome = .error e ↔ ∃ c, FirstRefused args c ∧ e = .violation c

lemma guarded_of_cases {args : List String} {outcome : Except Error String}
    (hok : (∀ s ∈ args, Plain s) → ∃ t, outcome = .ok t ∧ Plain t)
    (herror : ∀ c, FirstRefused args c → outcome = .error (.violation c)) :
    Guarded args outcome := by
  by_cases hargs : ∀ s ∈ args, Plain s
  · obtain ⟨t, rfl, ht⟩ := hok hargs
    have hnone (c : Char) : ¬ FirstRefused args c := fun hc =>
      exists_firstRefused_iff.mp ⟨c, hc⟩ hargs
    refine ⟨⟨fun _ => hargs, fun _ => ⟨t, rfl⟩⟩, ?_, fun e => ⟨?_, ?_⟩⟩
    · rintro u hu
      cases hu
      exact ht
    · intro h
      cases h
    · rintro ⟨c, hc, -⟩
      exact absurd hc (hnone c)
  · obtain ⟨c, hc⟩ := exists_firstRefused_iff.mpr hargs
    have houtcome := herror c hc
    subst houtcome
    refine ⟨⟨?_, fun h => absurd h hargs⟩, ?_, fun e => ⟨?_, ?_⟩⟩
    · rintro ⟨t, ht⟩
      cases ht
    · rintro t ht
      cases ht
    · intro h
      cases h
      exact ⟨c, hc, rfl⟩
    · rintro ⟨d, hd, rfl⟩
      -- the outcome itself says that no other character comes first
      exact herror d hd

end Text

open Text

namespace Builtin

/-- Every builtin looks at all of its operands, and at nothing before them. -/
lemma apply_of_firstRefused {b : Builtin} {args : List String} {c : Char}
    (hcount : args.length = b.operandCount) (hc : FirstRefused args c) :
    b.apply args = .error (.violation c) := by
  have hedited (result : String) : edited args result = .error (.violation c) :=
    edited_of_firstRefused (hc.append _)
  cases b with
  | id =>
    obtain ⟨s, rfl⟩ := List.length_eq_one_iff.mp hcount
    -- the operand is checked as the result
    exact checked_of_firstRefused hc
  | const =>
    obtain ⟨s, value, rfl⟩ := List.length_eq_two.mp hcount
    -- and so is the value that replaces the subject
    have hvalue : FirstRefused ([s] ++ [value]) c := hc
    exact edited_of_firstRefused hvalue
  | upper | lower | trim | trimIndent =>
    obtain ⟨s, rfl⟩ := List.length_eq_one_iff.mp hcount
    exact hedited _
  | append | prepend | indent =>
    obtain ⟨s, t, rfl⟩ := List.length_eq_two.mp hcount
    exact hedited _
  | replace | wrap =>
    obtain ⟨s, t, u, rfl⟩ := List.length_eq_three.mp hcount
    exact hedited _

/-- **The policy decides.** A builtin with as many operands as it takes, a literal and the join of
two texts succeed exactly on plain texts, and then the result is plain, so the check of a result
never fails on plain arguments. Otherwise the error names the first character that is not plain in
the first argument that has one. With any other number of operands a builtin fails, whatever the
texts are. -/
theorem operations_guarded (b : Builtin) (args : List String) (s t : String) :
    (args.length = b.operandCount → Guarded args (b.apply args)) ∧
    (args.length ≠ b.operandCount →
      b.apply args = .error (.execution (.operandCount b args.length))) ∧
    Guarded [s] (ofLiteral s) ∧ Guarded [s, t] (joinLines s t) := by
  refine ⟨fun hcount => ?_, apply_of_length_ne, ?_, ?_⟩
  · -- a builtin
    refine guarded_of_cases (fun hargs => ?_) fun c hc => apply_of_firstRefused hcount hc
    obtain ⟨result, hresult⟩ := exists_apply hcount hargs
    exact ⟨result, hresult, plain_of_apply hresult⟩
  · -- a literal
    refine guarded_of_cases (fun hargs => ?_) fun c hc => checked_of_firstRefused hc
    have hplain := hargs s List.mem_cons_self
    exact ⟨s, checked_of_plain hplain, hplain⟩
  · -- two texts that are joined
    refine guarded_of_cases (fun hargs => ?_) fun c hc => edited_of_firstRefused (hc.append _)
    have hjoin := joinLines_of_plain (hargs s (by simp)) (hargs t (by simp))
    exact ⟨_, hjoin, plain_of_edited hjoin⟩

/-- The subject is plain, the target has an accent before a bell and the replacement a zero. -/
def accented : List String := ["a\tb", "x\u00e9\x07", "\x00"]

theorem accented_refused :
    accented.length = replace.operandCount ∧
    replace.apply accented = .error (.violation '\u00e9') ∧
    accented.length ≠ append.operandCount ∧
    append.apply accented = .error (.execution (.operandCount append 3)) := by
  have hcount : accented.length = replace.operandCount := rfl
  have hother : accented.length ≠ append.operandCount := by decide
  have hfirst : FirstRefused accented '\u00e9' := firstRefused_iff.mpr (by decide)
  obtain ⟨hguarded, -⟩ := operations_guarded replace accented "" ""
  obtain ⟨-, hfails, -⟩ := operations_guarded append accented "" ""
  exact ⟨hcount, ((hguarded hcount).error_iff _).mpr ⟨_, hfirst, rfl⟩, hother, hfails hother⟩

end Builtin

end TextPipeline
