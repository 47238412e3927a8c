import Mathlib.Data.List.Infix
import TextPipeline.Proofs.Builtin.Plain

/-!
Replacing a text. Up to the first occurrence of the target nothing changes, the occurrence is
exchanged, and what follows it is looked at anew (`replaceEach_of_firstAt`). So what was put around
a text can be taken off again, if the target is not found too early (`replace_undoes_wrap`).
-/

namespace TextPipeline

namespace Text

variable {target new s : List Char}

/-- The target occurs at this place, and at none before it. -/
def FirstAt (target s : List Char) (place : Nat) : Prop :=
  target <+: s.drop place ∧ ∀ earlier < place, ¬ target <+: s.drop earlier

instance (target s : List Char) (place : Nat) : Decidable (FirstAt target s place) :=
  inferInstanceAs (Decidable (_ ∧ _))

lemma replaceEach_append (covered s : List Char) :
    replaceEach target new covered.length (covered ++ s) = replaceEach target new 0 s := by
  induction covered with
  | nil => rfl
  | cons c covered ih => exact ih

lemma replaceEach_of_not_infix (h : ¬ target <:+: s) : replaceEach target new 0 s = s := by
  induction s with
  | nil => rfl
  | cons c s ih =>
    have hhere : ¬ target.isPrefixOf (c :: s) := fun hprefix =>
      h (List.isPrefixOf_iff_prefix.mp hprefix).isInfix
    rw [replaceEach, if_neg hhere, ih fun hlater => h (List.infix_cons hlater)]

lemma replaceEach_of_firstAt {place : Nat} (htarget : target ≠ []) (h : FirstAt target s place) :
    replaceEach target new 0 s =
      s.take place ++ new ++ replaceEach target new 0 (s.drop (place + target.length)) := by
  induction place generalizing s with
  | zero =>
    obtain ⟨rest, rfl⟩ := h.1
    obtain ⟨c, more, rfl⟩ := List.exists_cons_of_ne_nil htarget
    have hhere : (c :: more).isPrefixOf (c :: (more ++ rest)) :=
      List.isPrefixOf_iff_prefix.mpr (List.prefix_append (c :: more) rest)
    rw [List.cons_append, replaceEach, if_pos hhere, List.length_cons, Nat.add_sub_cancel,
      replaceEach_append]
    simp
  | succ place ih =>
    cases s with
    | nil => exact absurd (List.prefix_nil.mp h.1) htarget
    | cons c s =>
      have hlater : FirstAt target s place :=
        ⟨h.1, fun earlier hearlier => h.2 (earlier + 1) (Nat.succ_lt_succ hearlier)⟩
      have hhere : ¬ target.isPrefixOf (c :: s) := fun hprefix =>
        h.2 0 (Nat.succ_pos place) (List.isPrefixOf_iff_prefix.mp hprefix)
      rw [replaceEach, if_neg hhere, ih hlater, Nat.succ_add]
      rfl

lemma replace_of_ne_nil (h : target ≠ []) (new s : List Char) :
    replace target new s = replaceEach target new 0 s := by
  rw [replace, if_neg (by simpa using h)]

lemma replace_nil_nil (s : List Char) : replace [] [] s = s := by
  simp [replace, insertEverywhere]

lemma replace_head {head rest : List Char} (h : head = [] ∨ ¬ head <:+: rest) :
    replace head [] (head ++ rest) = rest := by
  by_cases hempty : head = []
  · rw [hempty]
    exact replace_nil_nil rest
  · have hfirst : FirstAt head (head ++ rest) 0 :=
      ⟨List.prefix_append head rest, fun _ hearlier => absurd hearlier (Nat.not_lt_zero _)⟩
    rw [replace_of_ne_nil hempty, replaceEach_of_firstAt hempty hfirst]
    simpa using replaceEach_of_not_infix (h.resolve_left hempty)

lemma replace_tail {s tail : List Char} (h : tail = [] ∨ FirstAt tail (s ++ tail) s.length) :
    replace tail [] (s ++ tail) = s := by
  by_cases hempty : tail = []
  · rw [hempty, List.append_nil]
    exact replace_nil_nil s
  · rw [replace_of_ne_nil hempty, replaceEach_of_firstAt hempty (h.resolve_left hempty),
      List.take_left, ← List.length_append, List.drop_length]
    simp [replaceEach]

end Text

open Text

namespace Builtin

lemma apply_replace {s target new : String} (hs : Plain s) (htarget : Plain target)
    (hnew : Plain new) : replace.apply [s, target, new] =
      .ok (onChars (Text.replace target.toList new.toList) s) :=
  apply_of_edited rfl rfl (by simp [hs, htarget, hnew])

lemma apply_wrap {s head tail : String} (hs : Plain s) (hhead : Plain head) (htail : Plain tail) :
    wrap.apply [s, head, tail] = .ok (head ++ s ++ tail) :=
  apply_of_edited rfl rfl (by simp [hs, hhead, htail])

/-- **Replacing undoes wrapping.** A text between a head and a tail is found again by replacing
first the head and then the tail by nothing, if the text with its tail does not have the head, and
has the tail at its end for the first time. An empty head or tail does not need this. -/
theorem replace_undoes_wrap {s head tail : String} (hs : Plain s) (hhead : Plain head)
    (htail : Plain tail) (hhead' : head = "" ∨ ¬ head.toList <:+: s.toList ++ tail.toList)
    (htail' : tail = "" ∨ FirstAt tail.toList (s.toList ++ tail.toList) s.toList.length) :
    ∃ wrapped opened, wrap.apply [s, head, tail] = .ok wrapped ∧
      replace.apply [wrapped, head, ""] = .ok opened ∧
      replace.apply [opened, tail, ""] = .ok s := by
  have hempty : Plain "" := by decide
  have hwrap := apply_wrap hs hhead htail
  have hopen := apply_replace (plain_of_apply hwrap) hhead hempty
  have hopened : onChars (Text.replace head.toList "".toList) (head ++ s ++ tail) = s ++ tail := by
    have hhead' : head.toList = [] ∨ ¬ head.toList <:+: s.toList ++ tail.toList :=
      hhead'.imp_left String.toList_eq_nil_iff.mpr
    refine String.toList_inj.mp ?_
    simpa [onChars] using replace_head hhead'
  rw [hopened] at hopen
  refine ⟨_, _, hwrap, hopen, ?_⟩
  have htail' : tail.toList = [] ∨ FirstAt tail.toList (s.toList ++ tail.toList) s.toList.length :=
    htail'.imp_left String.toList_eq_nil_iff.mpr
  rw [apply_replace (plain_of_apply hopen) htail hempty]
  refine congrArg Except.ok (String.toList_inj.mp ?_)
  simpa [onChars] using replace_tail htail'

/-- The text begins with a part of the head and ends with a part of the tail, which overlap with the
head and the tail themselves. -/
theorem bracketed_recovered :
    Plain "<a>" ∧ Plain "<<" ∧ Plain ">-" ∧
      (¬ "<<".toList <:+: "<a>".toList ++ ">-".toList) ∧
      FirstAt ">-".toList ("<a>".toList ++ ">-".toList) "<a>".toList.length ∧
      ∃ wrapped opened, wrap.apply ["<a>", "<<", ">-"] = .ok wrapped ∧
        replace.apply [wrapped, "<<", ""] = .ok opened ∧
        replace.apply [opened, ">-", ""] = .ok "<a>" := by
  have hs : Plain "<a>" := by decide
  have hhead : Plain "<<" := by decide
  have htail : Plain ">-" := by decide
  have habsent : ¬ "<<".toList <:+: "<a>".toList ++ ">-".toList := by decide
  have hfirst : FirstAt ">-".toList ("<a>".toList ++ ">-".toList) "<a>".toList.length := by decide
  exact ⟨hs, hhead, htail, habsent, hfirst,
    replace_undoes_wrap hs hhead htail (.inr habsent) (.inr hfirst)⟩

end Builtin

end TextPipeline
