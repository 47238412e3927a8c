import Mathlib.Data.List.Forall2
import TextPipeline.Proofs.Builtin.Refusal
import TextPipeline.Proofs.Text.Margin

/-!
Indenting texts and removing their common margin, as builtins. A margin that is put before every
line is removed with the one that was there, a second removal finds nothing, and a removal takes
nothing but the margin, except that it cuts blank lines by their length and not by what they hold.
Texts one below the other are indented as each of them is, and margins one before the other are one
margin.
-/

namespace TextPipeline

namespace Text

lemma eq_of_isFiller {c : Char} (hplain : isPlain c) (hfiller : isFiller c) (hfeed : c ≠ '\n') :
    c = ' ' ∨ c = '\t' ∨ c = '\r' := by
  simp only [isFiller, decide_eq_true_eq] at hfiller
  simp only [isPlain, Bool.or_eq_true, Bool.and_eq_true, decide_eq_true_eq] at hplain
  obtain ((htab | hline) | hreturn) | ⟨hspace, -⟩ := hplain
  · exact .inr (.inl htab)
  · exact absurd hline hfeed
  · exact .inr (.inr hreturn)
  · exact .inl (Char.le_antisymm hfiller hspace)

/-- What is left of a line that loses characters at its start: `width` of them if it is not blank
and at most that many otherwise, all of them `removable` from this line. -/
def Shortened (removable : List Char → Char → Prop) (width : Nat) (line rest : List Char) : Prop :=
  ∃ lost, line = lost ++ rest ∧ (∀ c ∈ lost, removable line c) ∧ lost.length ≤ width ∧
    (¬ isBlank line → lost.length = width)

/-- A text and what is left of it: the lines from the first to the last that is not blank, without
the least margin of those that are not blank. -/
structure Unindented (removable : List Char → Char → Prop) (s : List Char)
    (kept : List (List Char)) (width : Nat) (t : List Char) : Prop where
  span : IsSpan (lines s) kept
  least : IsLeast (margins kept) width
  shortened : List.Forall₂ (Shortened removable width) kept (lines t)
  flush : ∃ c rest, c :: rest ∈ lines t ∧ ¬ isBlank (c :: rest) ∧ c ≠ ' ' ∧ c ≠ '\t'

lemma shortened_drop {l : List Char} {width : Nat} (hplain : ∀ c ∈ l, isPlain c)
    (hfeed : ∀ c ∈ l, c ≠ '\n') (hwidth : ¬ isBlank l → width ≤ marginWidth l) :
    Shortened (fun line c => c = ' ' ∨ c = '\t' ∨ isBlank line ∧ c = '\r') width l
      (l.drop width) := by
  refine ⟨l.take width, (List.take_append_drop width l).symm, fun c hc => ?_,
    List.length_take_le width l, fun hblank => ?_⟩
  · by_cases hblank : isBlank l
    · -- a blank line is cut whatever it holds
      have hmem := List.mem_of_mem_take hc
      have hfiller := List.all_eq_true.mp hblank c hmem
      obtain h | h | h := eq_of_isFiller (hplain c hmem) hfiller (hfeed c hmem)
      · exact .inl h
      · exact .inr (.inl h)
      · exact .inr (.inr ⟨hblank, h⟩)
    · exact (margin_of_mem_take (hwidth hblank) hc).imp_right .inl
  · exact List.length_take_of_le ((hwidth hblank).trans (marginWidth_le_length l))

lemma exists_flush {ls : List (List Char)} (h : IsLeast (margins ls) 0) :
    ∃ c rest, c :: rest ∈ ls ∧ ¬ isBlank (c :: rest) ∧ c ≠ ' ' ∧ c ≠ '\t' := by
  obtain ⟨l, hl, hblank, hwidth⟩ := h.1
  cases l with
  | nil => exact absurd rfl hblank
  | cons c rest =>
    refine ⟨c, rest, hl, hblank, ?_⟩
    by_contra hmargin
    have hc : ∀ d ∈ [c], d = ' ' ∨ d = '\t' := by
      intro d hd
      rw [List.mem_singleton.mp hd]
      tauto
    have hone := marginWidth_append hc rest
    rw [List.singleton_append, hwidth, List.length_singleton] at hone
    omega

lemma unindented_trimIndent {s : List Char} {kept : List (List Char)} {width : Nat}
    (hplain : ∀ c ∈ s, isPlain c) (hspan : IsSpan (lines s) kept)
    (hleast : IsLeast (margins kept) width) :
    Unindented (fun line c => c = ' ' ∨ c = '\t' ∨ isBlank line ∧ c = '\r') s kept width
      (Text.trimIndent s) := by
  refine ⟨hspan, hleast, ?_, exists_flush (isSpan_trimIndent hspan hleast).2⟩
  rw [lines_trimIndent hspan hleast, List.forall₂_map_right_iff, List.forall₂_same]
  intro l hl
  have hline := hspan.subset hl
  exact shortened_drop (fun c hc => hplain c (mem_of_mem_line hline hc))
    (fun c hc => ne_lineFeed_of_mem_lines hline hc) (le_marginWidth_of_isLeast hleast hl)

end Text

open Text

namespace Builtin

lemma apply_trimIndent {s : String} (hs : Plain s) :
    trimIndent.apply [s] = .ok (onChars Text.trimIndent s) :=
  apply_of_edited rfl rfl (by simpa using hs)

lemma apply_indent {s margin : String} (hs : Plain s) (hmargin : Plain margin) :
    indent.apply [s, margin] = .ok (onChars (Text.indent margin.toList) s) :=
  apply_of_edited rfl rfl (by simp [hs, hmargin])

/-- Spaces and tabs before every line are forgotten. -/
theorem trimIndent_forgets_indent {s margin : String} (hs : Plain s)
    (hmargin : ∀ c ∈ margin.toList, c = ' ' ∨ c = '\t') :
    ∃ t u, indent.apply [s, margin] = .ok t ∧ trimIndent.apply [t] = .ok u ∧
      trimIndent.apply [s] = .ok u := by
  have hplain : Plain margin := by
    intro c hc
    rcases hmargin c hc with rfl | rfl
    · decide
    · decide
  have hindent := apply_indent hs hplain
  have htrim := apply_trimIndent (plain_of_apply hindent)
  refine ⟨_, _, hindent, htrim, ?_⟩
  rw [apply_trimIndent hs]
  simp only [onChars, String.toList_ofList, trimIndent_indent hmargin]

/-- Blank lines at both ends and between, one of them with a carriage return. -/
def ragged : String := "\n\t \ta\r\n\r\n \tb\n  "

lemma plain_ragged : Plain ragged := by decide

theorem ragged_forgets_indent :
    Plain ragged ∧ (∀ c ∈ " \t ".toList, c = ' ' ∨ c = '\t') ∧
      ∃ t u, indent.apply [ragged, " \t "] = .ok t ∧ trimIndent.apply [t] = .ok u ∧
        trimIndent.apply [ragged] = .ok u := by
  have hmargin : ∀ c ∈ " \t ".toList, c = ' ' ∨ c = '\t' := by simp
  exact ⟨plain_ragged, hmargin, trimIndent_forgets_indent plain_ragged hmargin⟩

/-- Removing the margin twice is removing it once. -/
theorem trimIndent_idempotent {s : String} (hs : Plain s) :
    ∃ t, trimIndent.apply [s] = .ok t ∧ trimIndent.apply [t] = .ok t := by
  have htrim := apply_trimIndent hs
  refine ⟨_, htrim, ?_⟩
  rw [apply_trimIndent (plain_of_apply htrim)]
  simp only [onChars, String.toList_ofList, trimIndent_trimIndent]

theorem ragged_trimmed_twice :
    Plain ragged ∧ ∃ t, trimIndent.apply [ragged] = .ok t ∧ trimIndent.apply [t] = .ok t :=
  ⟨plain_ragged, trimIndent_idempotent plain_ragged⟩

/-- **What removing the margin takes away.** If a text has a line that is not blank, the lines of
the result are those from the first to the last that is not blank, each without its first `width`
characters, where `width` is the least margin of those that are not blank. These characters are
spaces and tabs, but a blank line, which may be too short, loses carriage returns with them. Some
line of the result that is not blank has no margin. -/
theorem trimIndent_unindents {s : String} (hs : Plain s)
    (h : ∃ l ∈ lines s.toList, ¬ isBlank l) :
    ∃ t kept width, trimIndent.apply [s] = .ok t ∧
      Unindented (fun line c => c = ' ' ∨ c = '\t' ∨ isBlank line ∧ c = '\r') s.toList kept width
        t.toList ∧
      lines t.toList = kept.map (·.drop width) := by
  obtain hblank | ⟨kept, width, hspan, hleast⟩ := blank_or_isSpan s.toList
  · -- there is a line that is not blank
    obtain ⟨l, hl, hl'⟩ := h
    exact absurd (hblank l hl) hl'
  · refine ⟨_, kept, width, apply_trimIndent hs, ?_, ?_⟩
    · rw [onChars, String.toList_ofList]
      exact unindented_trimIndent hs hspan hleast
    · rw [onChars, String.toList_ofList]
      exact lines_trimIndent hspan hleast

theorem ragged_unindents :
    Plain ragged ∧ (∃ l ∈ lines ragged.toList, ¬ isBlank l) ∧
      ∃ t kept width, trimIndent.apply [ragged] = .ok t ∧
        Unindented (fun line c => c = ' ' ∨ c = '\t' ∨ isBlank line ∧ c = '\r') ragged.toList kept
          width t.toList ∧
        lines t.toList = kept.map (·.drop width) := by
  have hline : ∃ l ∈ lines ragged.toList, ¬ isBlank l := by decide
  exact ⟨plain_ragged, hline, trimIndent_unindents plain_ragged hline⟩

/-- An empty line with its carriage return, between lines that have a margin. -/
def returnBetween : String := "  a\n\r\n  b"

/-- Not only spaces and tabs are removed. -/
theorem returnBetween_loses_return :
    ¬ ∀ s : String, Plain s → (∃ l ∈ lines s.toList, ¬ isBlank l) →
      ∃ t kept width, trimIndent.apply [s] = .ok t ∧
        Unindented (fun _ c => c = ' ' ∨ c = '\t') s.toList kept width t.toList := by
  intro h
  have hplain : Plain returnBetween := by decide
  obtain ⟨t, kept, width, ht, hspan, -, hshortened, -⟩ := h returnBetween hplain (by decide)
  have hresult : lines t.toList = [['a'], [], ['b']] := by
    rw [← Except.ok.inj ((apply_trimIndent hplain).symm.trans ht)]
    decide
  have hkept : kept = [[' ', ' ', 'a'], ['\r'], [' ', ' ', 'b']] := by
    rw [← dropBlankEnds_of_isSpan hspan]
    decide
  rw [hresult, hkept] at hshortened
  obtain ⟨-, hlater⟩ := List.forall₂_cons.mp hshortened
  obtain ⟨⟨lost, hlost, hmargin, -⟩, -⟩ := List.forall₂_cons.mp hlater
  rw [List.append_nil] at hlost
  have hreturn := hmargin '\r' (hlost ▸ List.mem_cons_self)
  revert hreturn
  decide

/-! ### Joined texts and repeated margins -/

lemma foldlM_joinLines_indent {margin : String} {more : List String} (s : String) (hs : Plain s)
    (hmore : ∀ a ∈ more, Plain a) (hmargin : Plain margin) :
    ∃ joined, Plain joined ∧ more.foldlM joinLines s = .ok joined ∧
      (more.map (onChars (Text.indent margin.toList))).foldlM joinLines
        (onChars (Text.indent margin.toList) s) =
          .ok (onChars (Text.indent margin.toList) joined) := by
  induction more generalizing s with
  | nil => exact ⟨s, hs, rfl, rfl⟩
  | cons a more ih =>
    -- the texts that are still to be joined, with `s` those that are joined already
    obtain ⟨ha, hmore⟩ := List.forall_mem_cons.mp hmore
    have hjoin := joinLines_of_plain hs ha
    have hjoin' := joinLines_of_plain (plain_of_apply (apply_indent hs hmargin))
      (plain_of_apply (apply_indent ha hmargin))
    have hindent : onChars (Text.indent margin.toList) s ++ "\n" ++
        onChars (Text.indent margin.toList) a =
          onChars (Text.indent margin.toList) (s ++ "\n" ++ a) := by
      refine String.toList_inj.mp ?_
      simp [onChars, indent_join]
    rw [hindent] at hjoin'
    obtain ⟨joined, hplain, hjoined, hjoined'⟩ := ih (s ++ "\n" ++ a) (plain_of_edited hjoin) hmore
    refine ⟨joined, hplain, ?_, ?_⟩
    · rw [List.foldlM_cons, bind_of_ok hjoin]
      exact hjoined
    · rw [List.map_cons, List.foldlM_cons, bind_of_ok hjoin']
      exact hjoined'

/-- The text behind the inner margin, and that behind the outer one. -/
def indentTwice (inner outer s : String) : Except Error String := do
  indent.apply [← indent.apply [s, inner], outer]

lemma firstViolation_append (s t : String) :
    firstViolation (s ++ t) = (firstViolation s).or (firstViolation t) := by
  rw [firstViolation, String.toList_append, List.find?_append]
  rfl

lemma indentTwice_of_plain {s inner outer : String} (hs : Plain s) (hinner : Plain inner)
    (houter : Plain outer) (hfeed : '\n' ∉ inner.toList) :
    ∃ t, indentTwice inner outer s = .ok t ∧ indent.apply [s, outer ++ inner] = .ok t := by
  have hfirst := apply_indent hs hinner
  have hne : ∀ c ∈ inner.toList, c ≠ '\n' := fun c hc h => hfeed (h ▸ hc)
  refine ⟨_, (bind_of_ok hfirst _).trans (apply_indent (plain_of_apply hfirst) houter), ?_⟩
  rw [apply_indent hs (houter.append hinner)]
  simp only [onChars, String.toList_ofList, String.toList_append, indent_indent hne]

lemma indent_of_firstViolation {s margin : String} {c : Char}
    (h : (firstViolation s).or (firstViolation margin) = some c) :
    indent.apply [s, margin] = .error (.violation c) := by
  refine apply_of_firstRefused rfl (firstRefused_iff.mpr ?_)
  cases hs : firstViolation s with
  | some d => simpa [hs] using h
  | none => simpa [hs] using h

/-- Two margins are refused as one that consists of them, unless each of them has a character that
is not plain: then the inner one is looked at first, but stands last in the one. -/
lemma indentTwice_eq {inner outer : String} (s : String) (hfeed : '\n' ∉ inner.toList)
    (h : Plain inner ∨ Plain outer) :
    indentTwice inner outer s = indent.apply [s, outer ++ inner] := by
  unfold indentTwice
  cases hs : firstViolation s with
  | some c =>
    rw [indent_of_firstViolation (by rw [hs]; rfl), indent_of_firstViolation (by rw [hs]; rfl)]
    rfl
  | none =>
    have hplain := (firstViolation_eq_none_iff s).mp hs
    cases hinner : firstViolation inner with
    | some c =>
      have houter : Plain outer := h.resolve_left fun hplain => by
        rw [(firstViolation_eq_none_iff inner).mpr hplain] at hinner
        cases hinner
      have hone : firstViolation (outer ++ inner) = some c := by
        rw [firstViolation_append, (firstViolation_eq_none_iff outer).mpr houter, hinner]
        rfl
      rw [indent_of_firstViolation (by rw [hs, hinner]; rfl),
        indent_of_firstViolation (by rw [hs, hone]; rfl)]
      rfl
    | none =>
      have hinner := (firstViolation_eq_none_iff inner).mp hinner
      cases houter : firstViolation outer with
      | some c =>
        have hone : firstViolation (outer ++ inner) = some c := by
          rw [firstViolation_append, houter]
          rfl
        have hfirst := apply_indent hplain hinner
        have hnone := (firstViolation_eq_none_iff _).mpr (plain_of_apply hfirst)
        rw [bind_of_ok hfirst, indent_of_firstViolation (by rw [hnone, houter]; rfl),
          indent_of_firstViolation (by rw [hs, hone]; rfl)]
      | none =>
        have houter := (firstViolation_eq_none_iff outer).mp houter
        obtain ⟨t, htwice, honce⟩ := indentTwice_of_plain hplain hinner houter hfeed
        exact htwice.trans honce.symm

lemma exists_indent_refused {margin : String} (s : String) (h : ¬ Plain margin) :
    ∃ e, indent.apply [s, margin] = .error e := by
  obtain ⟨c, hc⟩ : ∃ c, FirstRefused [s, margin] c :=
    exists_firstRefused_iff.mpr fun hall => h (hall margin (by simp))
  exact ⟨_, apply_of_firstRefused rfl hc⟩

/-- **Indentation goes through joins and adds up.** Texts joined from the left and then indented are
the texts indented one by one and then joined, whatever the margin is. A margin without line feeds
and another one put before it make one margin, on every text: there is a result with the two exactly
if there is one with the one, and it is the same. The refusal is the same too if one of the two is
plain. -/
theorem indent_distributes_and_composes :
    (∀ (s margin : String) (more : List String), (∀ a ∈ s :: more, Plain a) → Plain margin →
      ∃ joined first others t, more.foldlM joinLines s = .ok joined ∧
        List.Forall₂ (fun a b => indent.apply [a, margin] = .ok b) (s :: more) (first :: others) ∧
        indent.apply [joined, margin] = .ok t ∧ others.foldlM joinLines first = .ok t) ∧
    ∀ s inner outer : String, '\n' ∉ inner.toList →
      (∀ t, indentTwice inner outer s = .ok t ↔ indent.apply [s, outer ++ inner] = .ok t) ∧
      (Plain inner ∨ Plain outer →
        indentTwice inner outer s = indent.apply [s, outer ++ inner]) ∧
      (Plain s → Plain inner → Plain outer → ∃ t, indentTwice inner outer s = .ok t) := by
  refine ⟨fun s margin more htexts hmargin => ?_, fun s inner outer hfeed => ⟨fun t => ?_,
    indentTwice_eq s hfeed, fun hs hinner houter => ?_⟩⟩
  · obtain ⟨hs, hmore⟩ := List.forall_mem_cons.mp htexts
    obtain ⟨joined, hplain, hjoined, hjoined'⟩ := foldlM_joinLines_indent s hs hmore hmargin
    refine ⟨joined, _, _, _, hjoined, .cons (apply_indent hs hmargin) ?_,
      apply_indent hplain hmargin, hjoined'⟩
    rw [List.forall₂_map_right_iff, List.forall₂_same]
    exact fun a ha => apply_indent (hmore a ha) hmargin
  · -- where neither margin is plain the errors may differ, but both ways end with one
    by_cases h : Plain inner ∨ Plain outer
    · rw [indentTwice_eq s hfeed h]
    · obtain ⟨hinner, houter⟩ := not_or.mp h
      obtain ⟨e, htwice⟩ := exists_indent_refused s hinner
      have hone : ¬ Plain (outer ++ inner) := fun hplain => hinner fun c hc =>
        hplain c (by rw [String.toList_append]; exact List.mem_append_right _ hc)
      obtain ⟨e', honce⟩ := exists_indent_refused s hone
      rw [honce, indentTwice, bind_of_error htwice]
      exact ⟨nofun, nofun⟩
  · obtain ⟨t, htwice, -⟩ := indentTwice_of_plain hs hinner houter hfeed
    exact ⟨t, htwice⟩

/-- Three texts, one of them empty and one with an empty line at its end, and a margin that has a
line feed; then two margins on the text with the empty line. -/
theorem stacked_texts_indent :
    (∃ joined first others t, ["", "b\n"].foldlM joinLines "a" = .ok joined ∧
      List.Forall₂ (fun a b => indent.apply [a, "-\n>"] = .ok b) ["a", "", "b\n"]
        (first :: others) ∧
      indent.apply [joined, "-\n>"] = .ok t ∧ others.foldlM joinLines first = .ok t) ∧
    indentTwice "> " "-\n" "b\n" = indent.apply ["b\n", "-\n> "] := by
  obtain ⟨hjoin, htwice⟩ := indent_distributes_and_composes
  have htexts : ∀ a ∈ ["a", "", "b\n"], Plain a := by
    simp only [List.forall_mem_cons]
    decide
  exact ⟨hjoin _ _ _ htexts (by decide), (htwice _ _ _ (by decide)).2.1 (.inl (by decide))⟩

end Builtin

end TextPipeline
