import Mathlib.Tactic.Common
import TextPipeline.Builtin.Apply
import TextPipeline.Proofs.Outcome

/-!
The character policy in the results of the builtins: what an edit returns is plain, and two
plain texts can be joined.
-/

namespace TextPipeline

namespace Text

lemma ensurePlain_of_plain {s : String} (h : Plain s) : ensurePlain s = .ok () := by
  unfold ensurePlain
  rw [(firstViolation_eq_none_iff s).mpr h]

lemma plain_of_ensurePlain {s : String} {u : Unit} (h : ensurePlain s = .ok u) : Plain s := by
  unfold ensurePlain at h
  split at h
  · cases h
  · rename_i hnone
    exact (firstViolation_eq_none_iff s).mp hnone

lemma plain_of_checked {s t : String} (h : checked s = .ok t) : Plain t := by
  obtain ⟨_, hplain, ht⟩ := ok_of_bind h
  cases ht
  exact plain_of_ensurePlain hplain

lemma plain_of_edited {args : List String} {s t : String} (h : edited args s = .ok t) :
    Plain t := by
  obtain ⟨_, -, hs⟩ := ok_of_bind h
  exact plain_of_checked hs

lemma eq_of_edited {args : List String} {s t : String} (h : edited args s = .ok t) : t = s := by
  obtain ⟨_, -, hchecked⟩ := ok_of_bind h
  obtain ⟨_, -, ht⟩ := ok_of_bind hchecked
  cases ht
  rfl

lemma checked_of_plain {s : String} (h : Plain s) : checked s = .ok s := by
  unfold checked
  rw [ensurePlain_of_plain h]
  rfl

lemma edited_of_plain {args : List String} {s : String} (hargs : ∀ a ∈ args, Plain a)
    (hs : Plain s) : edited args s = .ok s := by
  induction args with
  | nil => exact checked_of_plain hs
  | cons a args ih =>
    have ha := ensurePlain_of_plain (hargs a List.mem_cons_self)
    have hrest : edited args s = .ok s := ih fun b hb => hargs b (List.mem_cons_of_mem _ hb)
    unfold edited at hrest ⊢
    rw [List.forM, ha]
    exact hrest

lemma Plain.append {s t : String} (hs : Plain s) (ht : Plain t) : Plain (s ++ t) := by
  intro c hc
  rw [String.toList_append] at hc
  rcases List.mem_append.mp hc with h | h
  · exact hs c h
  · exact ht c h

end Text

open Text

lemma Builtin.plain_of_apply {b : Builtin} {args : List String} {t : String}
    (h : b.apply args = .ok t) : Plain t := by
  unfold Builtin.apply at h
  split at h
  case h_1 => exact plain_of_checked h
  case h_12 => cases h
  all_goals exact plain_of_edited h

lemma Builtin.joinLines_of_plain {s t : String} (hs : Plain s) (ht : Plain t) :
    Builtin.joinLines s t = .ok (s ++ "\n" ++ t) := by
  have hfeed : Plain "\n" := by decide
  refine edited_of_plain ?_ ((hs.append hfeed).append ht)
  rintro a (_ | ⟨_, _ | ⟨_, h⟩⟩)
  · exact hs
  · exact ht
  · cases h

end TextPipeline
