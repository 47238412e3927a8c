import TextPipeline.Proofs.Wasm.LiteralPool

/-!
Literals are neither lost nor moved. Texts are interned one after another, and every call is
answered with what the table says of its text in the end (`calls_eq_map`), because a call only ever
adds to the table and a text that was refused is refused for good. So what is known of the final
pool, by an invariant that each call keeps (`Packed`), is known of every answer
(`calls_keep_literals`).
-/

namespace TextPipeline.Wasm

namespace LiteralPool

/-! ### Calls one after another -/

/-- The pool after a call. -/
def after (pool : LiteralPool) (text : String) : LiteralPool := (pool.intern text).2

/-- The calls for these texts, each with its answer, and the pool after the last of them. -/
def calls (pool : LiteralPool) : List String → List (String × Except Error Location) × LiteralPool
  | [] => ([], pool)
  | text :: texts =>
    let (log, final) := (pool.after text).calls texts
    ((text, (pool.intern text).1) :: log, final)

lemma after_cases (pool : LiteralPool) (text : String) :
    (pool.after text = pool ∧ ((pool.find? text).isSome ∨ pool.Exceeds text)) ∨
      (pool.after text = pool.extended text ∧ pool.find? text = none ∧ ¬ pool.Exceeds text) := by
  unfold after
  obtain ⟨location, hfound, hintern⟩ | ⟨hnone, hroom, hintern⟩ | ⟨-, hexceeds, hintern⟩ :=
    pool.intern_cases text
  · exact .inl ⟨by rw [hintern], .inl (by rw [hfound]; rfl)⟩
  · exact .inr ⟨by rw [hintern], hnone, hroom⟩
  · exact .inl ⟨by rw [hintern], .inr hexceeds⟩

lemma calls_append (pool : LiteralPool) (texts more : List String) :
    (pool.calls (texts ++ more)).2 = ((pool.calls texts).2.calls more).2 := by
  induction texts generalizing pool with
  | nil => rfl
  | cons text texts ih => exact ih (pool.after text)

lemma calls_induction {P : LiteralPool → Prop} (hafter : ∀ pool text, P pool → P (pool.after text))
    {pool : LiteralPool} (hpool : P pool) (texts : List String) : P (pool.calls texts).2 := by
  induction texts generalizing pool with
  | nil => exact hpool
  | cons text texts ih => exact ih (hafter pool text hpool)

/-! ### Answers for good -/

/-- What the table says of a text. -/
def answer (pool : LiteralPool) (text : String) : Except Error Location :=
  match pool.find? text with
  | some location => .ok location
  | none => .error (.generation .literalsTooLarge)

/-- The pool has the text or has refused it. -/
def Settled (pool : LiteralPool) (text : String) : Prop :=
  (pool.find? text).isSome ∨ pool.Exceeds text

lemma settled_after (pool : LiteralPool) (text : String) : (pool.after text).Settled text := by
  obtain ⟨hafter, hsettled⟩ | ⟨hafter, -⟩ := pool.after_cases text
  · rw [hafter]
    exact hsettled
  · rw [hafter]
    refine .inl ?_
    rw [find?_extended, if_pos rfl]
    rfl

lemma intern_fst (pool : LiteralPool) (text : String) :
    (pool.intern text).1 = (pool.after text).answer text := by
  unfold after answer
  obtain ⟨location, hfound, hintern⟩ | ⟨hnone, -, hintern⟩ | ⟨hnone, -, hintern⟩ :=
    pool.intern_cases text
  · simp only [hintern, hfound]
  · simp only [hintern, find?_extended, if_pos]
  · simp only [hintern, hnone]

lemma Settled.after {pool : LiteralPool} {text : String} (h : pool.Settled text) (other : String) :
    (pool.after other).Settled text ∧ (pool.after other).answer text = pool.answer text := by
  obtain ⟨hafter, -⟩ | ⟨hafter, hnone, hroom⟩ := pool.after_cases other
  · rw [hafter]
    exact ⟨h, rfl⟩
  · -- a text that was added, which is not this one
    have hne : text ≠ other := by
      rintro rfl
      rcases h with h | h
      · simp [hnone] at h
      · exact hroom h
    have hfind : (pool.extended other).find? text = pool.find? text := by
      rw [find?_extended, if_neg hne]
    have hlength := pool.length_data_extended other
    rw [hafter]
    refine ⟨?_, by unfold answer; rw [hfind]⟩
    rw [Settled, hfind]
    refine h.imp_right fun hexceeds => ?_
    unfold Exceeds at hexceeds ⊢
    omega

lemma Settled.calls {pool : LiteralPool} {text : String} (h : pool.Settled text)
    (texts : List String) : (pool.calls texts).2.answer text = pool.answer text := by
  have hkeeps : ∀ (grown : LiteralPool) (other : String), grown.Settled text ∧
      grown.answer text = pool.answer text →
      (grown.after other).Settled text ∧ (grown.after other).answer text = pool.answer text := by
    rintro grown other ⟨hsettled, hanswer⟩
    obtain ⟨hsettled', hanswer'⟩ := hsettled.after other
    exact ⟨hsettled', hanswer'.trans hanswer⟩
  exact (calls_induction hkeeps ⟨h, rfl⟩ texts).2

lemma calls_eq_map (pool : LiteralPool) (texts : List String) :
    (pool.calls texts).1 = texts.map fun text => (text, (pool.calls texts).2.answer text) := by
  induction texts generalizing pool with
  | nil => rfl
  | cons text texts ih =>
    have hfirst : (pool.intern text).1 = (pool.calls (text :: texts)).2.answer text :=
      (pool.intern_fst text).trans ((pool.settled_after text).calls texts).symm
    rw [List.map_cons, ← hfirst]
    exact congrArg _ (ih (pool.after text))

/-! ### The data -/

lemma Packed.after {pool : LiteralPool} (text : String) (h : pool.Packed) :
    (pool.after text).Packed := by
  obtain ⟨hafter, -⟩ | ⟨hafter, hnone, hroom⟩ := pool.after_cases text
  · rwa [hafter]
  · rw [hafter]
    exact h.extended hnone hroom

lemma texts_calls_subset (pool : LiteralPool) (texts : List String) :
    (pool.calls texts).2.texts ⊆ texts ++ pool.texts := by
  induction texts generalizing pool with
  | nil => exact List.Subset.refl _
  | cons text texts ih =>
    have hafter : (pool.after text).texts ⊆ text :: pool.texts := by
      obtain ⟨hafter, -⟩ | ⟨hafter, -⟩ := pool.after_cases text
      · rw [hafter]
        exact List.subset_cons_self text pool.texts
      · rw [hafter]
        exact List.Subset.refl _
    intro other hother
    rcases List.mem_append.mp (ih (pool.after text) hother) with hmem | hmem
    · exact List.mem_cons_of_mem _ (List.mem_append_left _ hmem)
    · rcases List.mem_cons.mp (hafter hmem) with rfl | hmem
      · exact List.mem_cons_self
      · exact List.mem_cons_of_mem _ (List.mem_append_right _ hmem)

lemma answer_eq_ok {pool : LiteralPool} {text : String} {location : Location} :
    pool.answer text = .ok location ↔ pool.find? text = some location := by
  unfold answer
  cases pool.find? text <;> simp

end LiteralPool

section Log

open LiteralPool

variable {texts : List String} {log : List (String × Except Error Location)} {pool : LiteralPool}
  (h : empty.calls texts = (log, pool))
include h

lemma packed_of_calls : pool.Packed := by
  have hpacked := calls_induction (fun _ text hpool => Packed.after text hpool) packed_empty texts
  rwa [h] at hpacked

lemma log_eq_map : log = texts.map fun text => (text, pool.answer text) := by
  have hlog := empty.calls_eq_map texts
  rw [h] at hlog
  exact hlog

lemma mem_log_iff {text : String} {r : Except Error Location} :
    (text, r) ∈ log ↔ text ∈ texts ∧ pool.answer text = r := by
  simp [log_eq_map h]

lemma bytesOf_log : bytesOf ((log.filter (·.2.isOk)).map Prod.fst) = bytesOf pool.texts := by
  have hanswer (text : String) : (pool.answer text).isOk = true ↔ text ∈ pool.texts := by
    rw [← not_iff_not, ← find?_eq_none, answer]
    cases pool.find? text <;> simp [Except.isOk, Except.toBool]
  have hfound (text : String) : text ∈ (log.filter (·.2.isOk)).map Prod.fst ↔
      text ∈ texts ∧ text ∈ pool.texts := by
    simp [log_eq_map h, hanswer]
  have hasked : pool.texts ⊆ texts := by
    have hsubset := empty.texts_calls_subset texts
    rw [h] at hsubset
    simpa [LiteralPool.texts, empty] using hsubset
  refine Nat.le_antisymm ?_ ?_
  · -- a text that was answered is in the table
    exact bytesOf_le_of_subset fun text htext => ((hfound text).mp htext).2
  · -- a text in the table was asked for, as the pool was empty
    exact bytesOf_le_of_subset fun text htext => (hfound text).mpr ⟨hasked htext, htext⟩

end Log

/-- **Interning neither loses nor moves a text.** Whatever texts are interned one after another, in
the end every location that was returned still selects the bytes of its text. All calls for a text
have the same answer, and different texts have no byte in common. The data is as long as the texts
that were interned, each of them counted once. Offsets and lengths are less than 2³¹, so that they
are not negative as signed numbers of 32 bits, and all of the texts are inside the pages, which have
2³² bytes at most. A call that fails does so because the data or its text has reached 2³¹ bytes, and
the data and the table after it are those before it. -/
theorem calls_keep_literals {texts : List String} {log : List (String × Except Error Location)}
    {pool : LiteralPool} (h : LiteralPool.empty.calls texts = (log, pool)) :
    log.map Prod.fst = texts ∧
      (∀ text location, (text, .ok location) ∈ log →
        Stored pool.data location text ∧ location.offset < 2 ^ 31 ∧ location.length < 2 ^ 31 ∧
        location.offset + location.length ≤ pool.pages * 65536) ∧
      pool.pages * 65536 ≤ 2 ^ 32 ∧
      (∀ text r r', (text, r) ∈ log → (text, r') ∈ log → r = r') ∧
      (∀ text other l l', (text, .ok l) ∈ log → (other, .ok l') ∈ log → text ≠ other →
        l.Apart l') ∧
      pool.data.length = bytesOf ((log.filter (·.2.isOk)).map Prod.fst) ∧
      ∀ text e, (pool.intern text).1 = .error e →
        e = .generation .literalsTooLarge ∧
        (2 ^ 31 ≤ pool.data.length ∨ 2 ^ 31 ≤ (utf8 text).length) ∧
        (pool.intern text).2.data = pool.data ∧
        (pool.intern text).2.locations = pool.locations ∧
        (LiteralPool.empty.calls (texts ++ [text])).2 = pool := by
  have hpacked := packed_of_calls h
  have hok {text : String} {location : Location} (hmem : (text, .ok location) ∈ log) :
      pool.find? text = some location :=
    LiteralPool.answer_eq_ok.mp ((mem_log_iff h).mp hmem).2
  refine ⟨?_, fun text location hmem => ?_, hpacked.pages_le, fun text r r' hr hr' => ?_,
    fun text other l l' hl hl' hne => hpacked.apart text other l l' (hok hl) (hok hl') hne,
    hpacked.size.trans (bytesOf_log h).symm, fun text e he => ?_⟩
  · simp [log_eq_map h, Function.comp_def]
  · have hstored := hpacked.stored text location (hok hmem)
    obtain ⟨hoffset, hlength⟩ := hpacked.narrow text location (hok hmem)
    have hpages := pool.length_le_pages
    have hinside := hstored.inside
    unfold LiteralPool.limit at hoffset hlength
    unfold pageSize at hpages
    exact ⟨hstored, by omega, by omega, by omega⟩
  · exact ((mem_log_iff h).mp hr).2.symm.trans ((mem_log_iff h).mp hr').2
  · obtain ⟨location, -, hintern⟩ | ⟨-, -, hintern⟩ | ⟨-, hexceeds, hintern⟩ :=
      pool.intern_cases text
    · rw [hintern] at he
      cases he
    · rw [hintern] at he
      cases he
    · -- both limits are checked before anything is written
      have hafter : pool.after text = pool := congrArg Prod.snd hintern
      rw [hintern] at he
      cases he
      unfold LiteralPool.Exceeds LiteralPool.limit at hexceeds
      refine ⟨rfl, by omega, congrArg LiteralPool.data hafter,
        congrArg LiteralPool.locations hafter, ?_⟩
      rw [LiteralPool.calls_append, h]
      exact hafter

/-- A text of two bytes that is interned twice, an empty one and another. -/
def accentedLog : List (String × Except Error Location) :=
  [("é", .ok ⟨0, 2⟩), ("", .ok ⟨2, 0⟩), ("ab", .ok ⟨2, 2⟩), ("é", .ok ⟨0, 2⟩)]

def accentedPool : LiteralPool :=
  ⟨[("ab", ⟨2, 2⟩), ("", ⟨2, 0⟩), ("é", ⟨0, 2⟩)], [0xc3, 0xa9, 0x61, 0x62]⟩

theorem accentedLog_keeps_literals :
    LiteralPool.empty.calls ["é", "", "ab", "é"] = (accentedLog, accentedPool) ∧
      Stored accentedPool.data ⟨0, 2⟩ "é" ∧ (⟨0, 2⟩ : Location).Apart ⟨2, 2⟩ ∧
      accentedPool.data.length = bytesOf ["é", "", "ab", "é"] := by
  have h : LiteralPool.empty.calls ["é", "", "ab", "é"] = (accentedLog, accentedPool) := by
    decide +kernel
  obtain ⟨-, hlocations, -, -, hapart, hsize, -⟩ := calls_keep_literals h
  exact ⟨h, (hlocations "é" ⟨0, 2⟩ (by simp [accentedLog])).1,
    hapart "é" "ab" ⟨0, 2⟩ ⟨2, 2⟩ (by simp [accentedLog]) (by simp [accentedLog]) (by decide),
    hsize⟩

end TextPipeline.Wasm
