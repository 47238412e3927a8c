import TextPipeline.Proofs.Artifact
import TextPipeline.Proofs.Builtin.Plain
import TextPipeline.Proofs.Procedure.Shape
import TextPipeline.Proofs.Wasm.Dialogue

/-!
Runs on two inputs. A module knows texts by their handles only, and no call fails because of what
plain texts say. So two hosts with as many plain texts answer every call alike (`Twins.answer`),
and whatever a module says to one of them it says to the other (`Twins.run`): the calls of a
compiled program do not depend on its input (`oblivious_of_compile`).
-/

namespace TextPipeline

open Text Wasm

/-- Both computations succeed, with related values, or both fail, with the same error. -/
inductive EndAlike {α : Type} (R : α → α → Prop) : Except Error α → Except Error α → Prop
  | ok {a b} : R a b → EndAlike R (.ok a) (.ok b)
  | error (e : Error) : EndAlike R (.error e) (.error e)

namespace EndAlike

variable {α β : Type} {R : α → α → Prop} {S : β → β → Prop}

lemma bind {x y : Except Error α} {k l : α → Except Error β} (hxy : EndAlike R x y)
    (hkl : ∀ a b, R a b → EndAlike S (k a) (l b)) : EndAlike S (x >>= k) (y >>= l) := by
  cases hxy with
  | ok hab => exact hkl _ _ hab
  | error e => exact .error e

lemma imp {R' : α → α → Prop} {x y : Except Error α} (hxy : EndAlike R x y)
    (h : ∀ a b, R a b → R' a b) : EndAlike R' x y := by
  cases hxy with
  | ok hab => exact .ok (h _ _ hab)
  | error e => exact .error e

lemma mapM {f g : β → Except Error α} (h : ∀ x, EndAlike R (f x) (g x)) (xs : List β) :
    EndAlike (List.Forall₂ R) (xs.mapM f) (xs.mapM g) := by
  induction xs with
  | nil => exact .ok .nil
  | cons x xs ih =>
    rw [List.mapM_cons, List.mapM_cons]
    exact (h x).bind fun _ _ hfirst => ih.bind fun _ _ hrest => .ok (.cons hfirst hrest)

end EndAlike

/-- All that is known of two texts is that they are plain. -/
def BothPlain (s t : String) : Prop := Plain s ∧ Plain t

namespace Builtin

lemma apply_endAlike (b : Builtin) {args others : List String}
    (h : List.Forall₂ BothPlain args others) :
    EndAlike BothPlain (b.apply args) (b.apply others) := by
  have hlen : args.length = others.length := h.length_eq
  by_cases hcount : args.length = b.operandCount
  · -- as many operands as it takes, all of them plain
    obtain ⟨hargs, -⟩ := (List.forall₂_and_left args others).mp h
    obtain ⟨hothers, -⟩ :=
      (List.forall₂_and_left others args).mp (h.flip.imp fun _ _ => And.symm)
    obtain ⟨s, hs⟩ := exists_apply hcount hargs
    obtain ⟨t, ht⟩ := exists_apply (hlen ▸ hcount) hothers
    rw [hs, ht]
    exact .ok ⟨plain_of_apply hs, plain_of_apply ht⟩
  · -- the count is all that is looked at
    rw [apply_of_length_ne hcount, apply_of_length_ne (hlen ▸ hcount), hlen]
    exact .error _

end Builtin

namespace Host

/-- The hosts hold as many texts, all of them plain, and remember the same failure. -/
structure Twins (h other : Host) : Prop where
  size : h.texts.size = other.texts.size
  failure : h.failure = other.failure
  plain : h.AllPlain
  otherPlain : other.AllPlain

lemma get_of_unknown {h : Host} {handle : Int} (hnone : ¬ ∃ s, h.get handle = .ok s) :
    h.get handle = .error (.execution (.unknownHandle handle)) := by
  cases hget : h.get handle with
  | ok s => exact absurd ⟨s, hget⟩ hnone
  | error e =>
    unfold get at hget
    split at hget
    · split at hget
      · cases hget
      · exact hget.symm
    · exact hget.symm

namespace Twins

variable {h other : Host}

lemma start {first second : String} (hfirst : Plain first) (hsecond : Plain second) :
    Twins (.start first) (.start second) :=
  ⟨rfl, rfl, allPlain_start hfirst, allPlain_start hsecond⟩

lemma push (ht : Twins h other) {s t : String} (hst : BothPlain s t) :
    Twins (h.push s) (other.push t) where
  size := by simp only [Host.push, Array.size_push, ht.size]
  failure := ht.failure
  plain := fun x hx => (Array.mem_push.mp hx).elim (ht.plain x) fun hs => hs ▸ hst.1
  otherPlain := fun x hx => (Array.mem_push.mp hx).elim (ht.otherPlain x) fun hs => hs ▸ hst.2

lemma failing (ht : Twins h other) (e : Error) : Twins (h.failing e) (other.failing e) where
  size := ht.size
  failure := by simp only [Host.failing, ht.failure]
  plain := ht.plain
  otherPlain := ht.otherPlain

lemma get (ht : Twins h other) (handle : Int) :
    EndAlike BothPlain (h.get handle) (other.get handle) := by
  have hsame : (∃ s, h.get handle = .ok s) ↔ ∃ t, other.get handle = .ok t := by
    rw [exists_get_iff, exists_get_iff, ht.size]
  by_cases hknown : ∃ s, h.get handle = .ok s
  · obtain ⟨s, hs⟩ := hknown
    obtain ⟨t, hget⟩ := hsame.mp ⟨s, hs⟩
    rw [hs, hget]
    exact .ok ⟨ht.plain.get hs, ht.otherPlain.get hget⟩
  · rw [get_of_unknown hknown, get_of_unknown (mt hsame.mpr hknown)]
    exact .error _

lemma result (ht : Twins h other) (memory : Option Memory) (f : HostFunction) (args : List Int) :
    EndAlike BothPlain (h.result memory f args) (other.result memory f args) := by
  unfold Host.result
  split
  · -- a literal, which is the same in the same memory
    rename_i offset length
    cases hliteral : literal memory offset length with
    | error e => exact .error e
    | ok s => exact .ok ⟨plain_of_literal hliteral, plain_of_literal hliteral⟩
  · -- two texts that are joined
    refine (ht.get _).bind fun a a' ha => (ht.get _).bind fun b b' hb => ?_
    have hab := Builtin.joinLines_of_plain ha.1 hb.1
    have hab' := Builtin.joinLines_of_plain ha.2 hb.2
    rw [hab, hab']
    exact .ok ⟨plain_of_edited hab, plain_of_edited hab'⟩
  · -- a builtin
    exact (EndAlike.mapM ht.get _).bind fun _ _ => Builtin.apply_endAlike _
  · exact .error _

lemma answer (ht : Twins h other) (c : HostCall) :
    (h.answer c).1 = (other.answer c).1 ∧ Twins (h.answer c).2 (other.answer c).2 := by
  have hresult := ht.result c.memory c.function c.arguments
  unfold Host.answer perform
  generalize h.result c.memory c.function c.arguments = x at hresult
  generalize other.result c.memory c.function c.arguments = y at hresult
  cases hresult with
  | error e => exact ⟨rfl, ht.failing e⟩
  | ok hst =>
    simp only [store, ht.size]
    split
    · exact ⟨rfl, ht.push hst⟩
    · exact ⟨rfl, ht.failing _⟩

/-- **Twins cannot be told apart.** A module makes the same calls of both and ends alike. -/
lemma run {α : Type} (ht : Twins h other) (d : Dialogue α) :
    d.trace h = d.trace other ∧ (d.run h).1 = (d.run other).1 ∧
      Twins (d.run h).2 (d.run other).2 := by
  induction d generalizing h other with
  | ends result => exact ⟨rfl, rfl, ht⟩
  | calls c next ih =>
    obtain ⟨hsame, hlater⟩ := ht.answer c
    simp only [Dialogue.trace, Dialogue.run]
    rcases hans : h.answer c with ⟨r, later⟩
    rcases hans' : other.answer c with ⟨r', later'⟩
    rw [hans, hans'] at hsame hlater
    cases hsame
    cases r with
    | error e => exact ⟨rfl, rfl, hlater⟩
    | ok handle =>
      obtain ⟨htrace, hvalue, hlast⟩ := ih handle hlater
      exact ⟨congrArg _ htrace, hvalue, hlast⟩

end Twins

end Host

namespace Artifact

open Host

/-- The runs return the same handle and leave as many texts. -/
def SameHandle (x y : Int × Host) : Prop := x.1 = y.1 ∧ x.2.texts.size = y.2.texts.size

section Inputs

variable [Engine] {artifact : Artifact} {first second : String}

lemma call_endAlike (i : Instance) (index : Nat) (hfirst : Plain first) (hsecond : Plain second) :
    EndAlike (fun x y => x.1 = y.1 ∧ Twins x.2 y.2) (i.call index first) (i.call index second) := by
  obtain ⟨-, hvalue, hlast⟩ := (Twins.start hfirst hsecond).run (i.dialogue index)
  rw [i.call_eq_run, i.call_eq_run]
  generalize (i.dialogue index).run (.start first) = x at hvalue hlast
  generalize (i.dialogue index).run (.start second) = y at hvalue hlast
  obtain ⟨r, host⟩ := x
  obtain ⟨r', other⟩ := y
  cases hvalue
  cases r with
  | ok handle => exact .ok ⟨rfl, hlast⟩
  | error e =>
    have hfailure : host.failure = other.failure := hlast.failure
    simp only [hfailure]
    exact .error _

lemma start_congr (hfirst : Plain first) (hsecond : Plain second) :
    artifact.start first = artifact.start second := by
  rw [start, start, ensurePlain_of_plain hfirst, ensurePlain_of_plain hsecond]

lemma finish_endAlike (artifact : Artifact) (hfirst : Plain first) (hsecond : Plain second) :
    EndAlike (fun x y => x.1 = y.1 ∧ Twins x.2 y.2) (artifact.finish first)
      (artifact.finish second) := by
  rw [finish, finish, start_congr hfirst hsecond]
  cases artifact.start second with
  | error e => exact .error e
  | ok started => exact call_endAlike started.1 started.2 hfirst hsecond

/-- **A compiled program does not look at its input.** Plain inputs start it alike, and where the
engine takes its module they do start it. On any two of them it then makes the same calls of the
host, with the same arguments and the same handles returned, and both runs end with the same handle
and as many texts, or both with the same error. -/
theorem oblivious_of_compile {source entry : String}
    (hcompile : compile source entry = .ok artifact) (hfirst : Plain first)
    (hsecond : Plain second) :
    artifact.start first = artifact.start second ∧
      (Engine.admits artifact.wasm →
        ∃ linked index, artifact.start first = .ok (linked, index)) ∧
      (∀ linked index, artifact.start first = .ok (linked, index) →
        Follows (linked.enter index) (linked.dialogue index) ∧
        (linked.dialogue index).trace (.start first) =
          (linked.dialogue index).trace (.start second)) ∧
      EndAlike SameHandle (artifact.finish first) (artifact.finish second) ∧
      EndAlike BothPlain (artifact.execute first) (artifact.execute second) := by
  have hfinish := artifact.finish_endAlike hfirst hsecond
  refine ⟨start_congr hfirst hsecond, fun hadmits => ?_, fun linked index _ => ?_,
    hfinish.imp fun _ _ h => ⟨h.1, h.2.size⟩, hfinish.bind ?_⟩
  · obtain ⟨a, hlower, -⟩ := ok_of_bind hcompile
    obtain ⟨linked, -, hstart⟩ := (runnable_of_compile hlower hcompile).exists_start hadmits
    exact ⟨linked, _, hstart first hfirst⟩
  · exact ⟨linked.follows_dialogue index, ((Twins.start hfirst hsecond).run _).1⟩
  · rintro ⟨handle, host⟩ ⟨_, other⟩ ⟨rfl, htwins⟩
    exact htwins.get handle

end Inputs

def stackingSource : String :=
  "def twice(x) = \x7b x; x \x7d | upper\n" ++
  "\x7b it | twice; replace \x7b it \x7d 'a' '' \x7d | append '.'"

theorem stackingSource_oblivious : ∃ artifact, compile stackingSource "run" = .ok artifact ∧
    Engine.admits artifact.wasm ∧ Plain "banana" ∧ Plain "" ∧ ∃ linked index,
      artifact.start "banana" = .ok (linked, index) ∧ artifact.start "" = .ok (linked, index) ∧
      (linked.dialogue index).trace (.start "banana") = (linked.dialogue index).trace (.start "") ∧
      EndAlike SameHandle (artifact.finish "banana") (artifact.finish "") := by
  obtain ⟨artifact, hcompile, hadmits⟩ :=
    exists_of_isTaken (x := compile stackingSource "run") (by decide +kernel)
  have hbanana : Plain "banana" := by decide
  have hempty : Plain "" := by decide
  obtain ⟨hsame, hstarts, htraces, hfinish, -⟩ := oblivious_of_compile hcompile hbanana hempty
  obtain ⟨linked, index, hstart⟩ := hstarts hadmits
  exact ⟨artifact, hcompile, hadmits, hbanana, hempty, linked, index, hstart, hsame ▸ hstart,
    (htraces linked index hstart).2, hfinish⟩

end Artifact

end TextPipeline
