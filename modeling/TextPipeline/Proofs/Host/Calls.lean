import TextPipeline.Proofs.Host

/-!
The host under any sequence of calls. A call either keeps one more text, which is plain, under
the next handle, or changes nothing but the failure that the host remembers (`answer_cases`). So
the texts only ever grow at the end, whatever the calls are and however many of them fail.
-/

namespace TextPipeline

open Text Wasm

structure HostCall where
  memory : Option Memory
  function : HostFunction
  arguments : List Int

namespace Host

/-- The handle that a call returns, or why it fails, and the host after it. -/
def answer (h : Host) (c : HostCall) : Except Error Int × Host :=
  h.perform c.memory c.function c.arguments

/-- The host after these calls, of which any may fail. -/
def after (h : Host) (calls : List HostCall) : Host :=
  calls.foldl (fun h c => (h.answer c).2) h

/-- The host that remembers this failure, unless it remembers one. -/
def failing (h : Host) (e : Error) : Host := { h with failure := h.failure.or (some e) }

@[simp] lemma after_nil (h : Host) : h.after [] = h := rfl
@[simp] lemma after_cons (h : Host) (c : HostCall) (calls : List HostCall) :
    h.after (c :: calls) = (h.answer c).2.after calls := rfl

/-! ### One call -/

lemma plain_of_literal {memory : Option Memory} {offset length : Int} {s : String}
    (h : literal memory offset length = .ok s) : Plain s := by
  unfold literal at h
  split at h
  · cases h
  · split at h
    · cases h
    · split at h
      · cases h
      · split at h
        · cases h
        · exact plain_of_checked h

lemma plain_of_result {h : Host} {memory : Option Memory} {f : HostFunction} {args : List Int}
    {s : String} (hs : h.result memory f args = .ok s) : Plain s := by
  unfold result at hs
  split at hs
  · exact plain_of_literal hs
  · obtain ⟨a, -, hs⟩ := ok_of_bind hs
    obtain ⟨b, -, hs⟩ := ok_of_bind hs
    exact plain_of_edited hs
  · obtain ⟨texts, -, hs⟩ := ok_of_bind hs
    exact Builtin.plain_of_apply hs
  · cases hs

/-- All that a call can do: it fails if there is no text to keep or no handle for it. -/
lemma answer_cases (h : Host) (c : HostCall) :
    (∃ s, h.result c.memory c.function c.arguments = .ok s ∧ Plain s ∧
        h.answer c = (.ok h.texts.size, h.push s)) ∨
      ∃ e, (h.result c.memory c.function c.arguments = .error e ∨ maxHandle < h.texts.size) ∧
        h.answer c = (.error e, h.failing e) := by
  unfold answer perform
  cases hres : h.result c.memory c.function c.arguments with
  | error e => exact .inr ⟨e, .inl rfl, rfl⟩
  | ok s =>
    simp only [store]
    split
    · -- the text is kept
      exact .inl ⟨s, rfl, plain_of_result hres, rfl⟩
    · -- the handles have run out
      rename_i hfull
      exact .inr ⟨_, .inr (Nat.lt_of_not_le hfull), rfl⟩

lemma exists_get_iff (h : Host) (handle : Int) :
    (∃ s, h.get handle = .ok s) ↔ 0 ≤ handle ∧ handle < h.texts.size := by
  constructor
  · rintro ⟨s, hs⟩
    obtain index | index := handle
    · obtain ⟨hlt, -⟩ := Array.getElem?_eq_some_iff.mp ((h.get_ofNat index s).mp hs)
      exact ⟨Int.natCast_nonneg index, Int.ofNat_lt.mpr hlt⟩
    · cases hs
  · rintro ⟨hle, hlt⟩
    obtain ⟨index, rfl⟩ := Int.eq_ofNat_of_zero_le hle
    have hsome := Array.getElem?_eq_getElem (Int.ofNat_lt.mp hlt)
    exact ⟨_, (h.get_ofNat index _).mpr hsome⟩

lemma grows_answer (h : Host) (c : HostCall) : h.Grows (h.answer c).2 := by
  obtain ⟨s, -, -, hans⟩ | ⟨e, -, hans⟩ := h.answer_cases c
  · rw [hans]
    exact h.grows_push s
  · rw [hans]
    exact fun _ _ hget => hget

/-! ### Any number of calls -/

lemma grows_after (h : Host) (calls : List HostCall) : h.Grows (h.after calls) := by
  induction calls generalizing h with
  | nil => exact .refl h
  | cons c calls ih => exact (h.grows_answer c).trans (ih _)

/-- Every text of the host is plain. -/
def AllPlain (h : Host) : Prop := ∀ s ∈ h.texts, Plain s

lemma AllPlain.get {h : Host} (hp : h.AllPlain) {handle : Int} {s : String}
    (hget : h.get handle = .ok s) : Plain s := by
  obtain index | index := handle
  · exact hp s (Array.mem_of_getElem? ((h.get_ofNat index s).mp hget))
  · cases hget

lemma AllPlain.answer {h : Host} (hp : h.AllPlain) (c : HostCall) : (h.answer c).2.AllPlain := by
  obtain ⟨s, -, hs, hans⟩ | ⟨e, -, hans⟩ := h.answer_cases c
  · rw [hans]
    intro t ht
    rcases Array.mem_push.mp ht with ht | rfl
    · exact hp t ht
    · exact hs
  · rw [hans]
    exact hp

lemma AllPlain.after {h : Host} (hp : h.AllPlain) (calls : List HostCall) :
    (h.after calls).AllPlain := by
  induction calls generalizing h with
  | nil => exact hp
  | cons c calls ih => exact ih (hp.answer c)

lemma allPlain_start {input : String} (hinput : Plain input) : (start input).AllPlain := by
  intro s hs
  cases Array.mem_singleton.mp hs
  exact hinput

end Host

end TextPipeline
