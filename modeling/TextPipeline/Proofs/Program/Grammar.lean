import Mathlib.Tactic.Common
import TextPipeline.Program
import TextPipeline.Token

/-!
The grammar of programs, as rules for what a list of tokens starts with: in `TermAt depth ts t
rest` the tokens `ts` are those of the term `t` and then `rest`, which starts with the token after
the term. Only the arguments of a name depend on what follows them: they go as far as they can.
-/

namespace TextPipeline.Grammar

/-- Terms stand at depths up to this one. -/
def maxDepth : Nat := 255

/-- A token with which a term starts. -/
def StartsTerm (t : Token) : Prop := t.kind = .ident ∨ t.kind = .literal ∨ t.kind = .openBrace

/-- The first token starts an argument of a name on this line. -/
def StartsArgument (line : Nat) : List Token → Prop
  | [] => False
  | t :: _ => t.line ≤ line ∧ StartsTerm t

lemma StartsArgument.mono {line later : Nat} {ts : List Token} (h : StartsArgument line ts)
    (hle : line ≤ later) : StartsArgument later ts := by
  cases ts with
  | nil => exact h
  | cons t ts => exact ⟨Nat.le_trans h.1 hle, h.2⟩

mutual

inductive TermAt : (depth : Nat) → List Token → Term → List Token → Prop
  | literal {depth t rest} : depth ≤ maxDepth → t.kind = .literal →
      TermAt depth (t :: rest) (.literal t.lexeme t.line) rest
  | group {depth opening ts es closing rest} : depth ≤ maxDepth → opening.kind = .openBrace →
      MembersAt (depth + 1) ts es (closing :: rest) → closing.kind = .closeBrace →
      TermAt depth (opening :: ts) (.group es opening.line) rest
  | identifier {depth t rest} : depth ≤ maxDepth → t.kind = .ident →
      ¬ StartsArgument t.line rest →
      TermAt depth (t :: rest) (.identifier t.lexeme t.line) rest
  | call {depth t ts arg args rest} : depth ≤ maxDepth → t.kind = .ident →
      ArgumentsAt (depth + 1) t.line ts (arg :: args) rest → ¬ StartsArgument t.line rest →
      TermAt depth (t :: ts) (.call t.lexeme (arg :: args) t.line) rest

inductive ArgumentsAt : (depth line : Nat) → List Token → List Term → List Token → Prop
  | nil {depth line ts} : ArgumentsAt depth line ts [] ts
  | cons {depth line ts arg mid args rest} : StartsArgument line ts → TermAt depth ts arg mid →
      ArgumentsAt depth line mid args rest → ArgumentsAt depth line ts (arg :: args) rest

inductive ExpressionAt : (depth : Nat) → List Token → Expression → List Token → Prop
  | pipeline {depth t ts first mid more rest} : TermAt depth (t :: ts) first mid →
      StepsAt depth mid more rest →
      ExpressionAt depth (t :: ts) (.pipeline (first :: more) t.line) rest

inductive StepsAt : (depth : Nat) → List Token → List Term → List Token → Prop
  | nil {depth ts} : StepsAt depth ts [] ts
  | cons {depth pipe ts t mid more rest} : pipe.kind = .pipe → TermAt depth ts t mid →
      StepsAt depth mid more rest → StepsAt depth (pipe :: ts) (t :: more) rest

inductive MembersAt : (depth : Nat) → List Token → List Expression → List Token → Prop
  | none {depth ts} : MembersAt depth ts [] ts
  | some {depth ts e mid es rest} : ExpressionAt depth ts e mid → FurtherAt depth mid es rest →
      MembersAt depth ts (e :: es) rest

inductive FurtherAt : (depth : Nat) → List Token → List Expression → List Token → Prop
  | nil {depth ts} : FurtherAt depth ts [] ts
  | cons {depth semicolon ts e mid es rest} : semicolon.kind = .semicolon →
      ExpressionAt depth ts e mid → FurtherAt depth mid es rest →
      FurtherAt depth (semicolon :: ts) (e :: es) rest

end

inductive DefinitionAt : List Token → Definition → List Token → Prop
  | mk {define name opening parameter closing equals ts body rest} : define.kind = .define →
      name.kind = .ident → opening.kind = .openParen → parameter.kind = .ident →
      closing.kind = .closeParen → equals.kind = .equals → ExpressionAt 0 ts body rest →
      DefinitionAt (define :: name :: opening :: parameter :: closing :: equals :: ts)
        ⟨name.lexeme, parameter.lexeme, body, equals.line⟩ rest

inductive DefinitionsAt : List Token → List Definition → List Token → Prop
  | nil {ts} : DefinitionsAt ts [] ts
  | cons {ts d mid ds rest} : DefinitionAt ts d mid → DefinitionsAt mid ds rest →
      DefinitionsAt ts (d :: ds) rest

/-- The kind of the first token. -/
def kindAhead (ts : List Token) : Option TokenKind := ts.head?.map (·.kind)

/-- The tokens spell this program: its definitions, its expression, and the end. -/
def Spells (tokens : List Token) (p : Program) : Prop :=
  ∃ ts theEnd, DefinitionsAt tokens p.definitions ts ∧ kindAhead ts ≠ some .define ∧
    ExpressionAt 0 ts p.expression [theEnd] ∧ theEnd.kind = .theEnd

/-! ### What derivations pass over -/

@[simp] lemma kindAhead_cons (t : Token) (ts : List Token) : kindAhead (t :: ts) = some t.kind :=
  rfl

/-- `rest` is what is left of `ts` after tokens other than the end. -/
def Passes (ts rest : List Token) : Prop :=
  ∃ passed, (∀ t ∈ passed, t.kind ≠ .theEnd) ∧ ts = passed ++ rest

namespace Passes

lemma refl (ts : List Token) : Passes ts ts := ⟨[], by simp, rfl⟩

lemma trans {ts mid rest : List Token} (h₁ : Passes ts mid) (h₂ : Passes mid rest) :
    Passes ts rest := by
  obtain ⟨xs, hxs, rfl⟩ := h₁
  obtain ⟨ys, hys, rfl⟩ := h₂
  refine ⟨xs ++ ys, ?_, (List.append_assoc xs ys rest).symm⟩
  intro t ht
  rcases List.mem_append.mp ht with h | h
  · exact hxs t h
  · exact hys t h

lemma head {t : Token} (ts : List Token) (h : t.kind ≠ .theEnd) : Passes (t :: ts) ts :=
  ⟨[t], by simpa using h, rfl⟩

lemma length_le {ts rest : List Token} (h : Passes ts rest) : rest.length ≤ ts.length := by
  obtain ⟨passed, -, rfl⟩ := h
  rw [List.length_append]
  omega

end Passes

lemma TermAt.head {depth : Nat} {ts rest : List Token} {t : Term} (h : TermAt depth ts t rest) :
    ∃ first tail, ts = first :: tail ∧ t.line = first.line ∧ StartsTerm first := by
  cases h with
  | literal _ hkind => exact ⟨_, _, rfl, rfl, .inr (.inl hkind)⟩
  | group _ hkind _ _ => exact ⟨_, _, rfl, rfl, .inr (.inr hkind)⟩
  | identifier _ hkind _ => exact ⟨_, _, rfl, rfl, .inl hkind⟩
  | call _ hkind _ _ => exact ⟨_, _, rfl, rfl, .inl hkind⟩

lemma StartsTerm.ne_theEnd {t : Token} (h : StartsTerm t) : t.kind ≠ .theEnd := by
  rcases h with h | h | h <;> simp [h]

lemma TermAt.passes_of_tail {depth : Nat} {ts rest : List Token} {t : Term}
    (h : TermAt depth ts t rest) (htail : Passes ts.tail rest) : Passes ts rest := by
  obtain ⟨first, tail, rfl, -, hstarts⟩ := h.head
  exact (Passes.head tail hstarts.ne_theEnd).trans htail

-- The rules are mutual, and so are these; a term passes at least its first token.
mutual

lemma termAt_passes_tail : ∀ {depth : Nat} {ts rest : List Token} {t : Term},
    TermAt depth ts t rest → Passes ts.tail rest
  | _, _, _, _, .literal _ _ => .refl _
  | _, _, _, _, .group _ _ hmembers hclosing =>
    (membersAt_passes hmembers).trans (.head _ (by simp [hclosing]))
  | _, _, _, _, .identifier _ _ _ => .refl _
  | _, _, _, _, .call _ _ hargs _ => argumentsAt_passes hargs

lemma argumentsAt_passes : ∀ {depth line : Nat} {ts rest : List Token} {args : List Term},
    ArgumentsAt depth line ts args rest → Passes ts rest
  | _, _, _, _, _, .nil => .refl _
  | _, _, _, _, _, .cons _ harg hargs =>
    (harg.passes_of_tail (termAt_passes_tail harg)).trans (argumentsAt_passes hargs)

lemma expressionAt_passes : ∀ {depth : Nat} {ts rest : List Token} {e : Expression},
    ExpressionAt depth ts e rest → Passes ts rest
  | _, _, _, _, .pipeline hfirst hmore =>
    (hfirst.passes_of_tail (termAt_passes_tail hfirst)).trans (stepsAt_passes hmore)

lemma stepsAt_passes : ∀ {depth : Nat} {ts rest : List Token} {more : List Term},
    StepsAt depth ts more rest → Passes ts rest
  | _, _, _, _, .nil => .refl _
  | _, _, _, _, .cons hpipe hterm hmore =>
    (Passes.head _ (by simp [hpipe])).trans
      ((hterm.passes_of_tail (termAt_passes_tail hterm)).trans (stepsAt_passes hmore))

lemma membersAt_passes : ∀ {depth : Nat} {ts rest : List Token} {es : List Expression},
    MembersAt depth ts es rest → Passes ts rest
  | _, _, _, _, .none => .refl _
  | _, _, _, _, .some he hes => (expressionAt_passes he).trans (furtherAt_passes hes)

lemma furtherAt_passes : ∀ {depth : Nat} {ts rest : List Token} {es : List Expression},
    FurtherAt depth ts es rest → Passes ts rest
  | _, _, _, _, .nil => .refl _
  | _, _, _, _, .cons hsemicolon he hes =>
    (Passes.head _ (by simp [hsemicolon])).trans
      ((expressionAt_passes he).trans (furtherAt_passes hes))

end

lemma definitionAt_passes {ts rest : List Token} {d : Definition} (h : DefinitionAt ts d rest) :
    Passes ts rest := by
  obtain ⟨hdefine, hname, hopening, hparameter, hclosing, hequals, hbody⟩ := h
  refine (Passes.head _ (by simp [hdefine])).trans ?_
  refine (Passes.head _ (by simp [hname])).trans ?_
  refine (Passes.head _ (by simp [hopening])).trans ?_
  refine (Passes.head _ (by simp [hparameter])).trans ?_
  refine (Passes.head _ (by simp [hclosing])).trans ?_
  refine (Passes.head _ (by simp [hequals])).trans ?_
  exact expressionAt_passes hbody

lemma definitionsAt_passes {ts rest : List Token} {ds : List Definition}
    (h : DefinitionsAt ts ds rest) : Passes ts rest := by
  induction h with
  | nil => exact .refl _
  | cons hd _ ih => exact (definitionAt_passes hd).trans ih

section Passing

variable {depth : Nat} {ts rest : List Token}

lemma TermAt.passes {t : Term} (h : TermAt depth ts t rest) : Passes ts rest :=
  h.passes_of_tail (termAt_passes_tail h)

lemma TermAt.length_lt {t : Term} (h : TermAt depth ts t rest) : rest.length < ts.length := by
  have hle := (termAt_passes_tail h).length_le
  obtain ⟨first, tail, rfl, -⟩ := h.head
  exact Nat.lt_succ_of_le hle

lemma TermAt.depth_le {t : Term} (h : TermAt depth ts t rest) : depth ≤ maxDepth := by
  cases h <;> assumption

lemma ExpressionAt.depth_le {e : Expression} (h : ExpressionAt depth ts e rest) :
    depth ≤ maxDepth := by
  obtain ⟨hfirst, -⟩ := h
  exact hfirst.depth_le

lemma ExpressionAt.kindAhead_ne {e : Expression} {kind : TokenKind}
    (h : ExpressionAt depth ts e rest) (hkind : kind ∉ [TokenKind.ident, .literal, .openBrace]) :
    kindAhead ts ≠ some kind := by
  obtain ⟨hfirst, -⟩ := h
  obtain ⟨_, _, hts, -, hstarts⟩ := hfirst.head
  cases hts
  rintro ⟨⟩
  rcases hstarts with hk | hk | hk <;> simp [hk] at hkind

lemma DefinitionAt.head {d : Definition} (h : DefinitionAt ts d rest) :
    ∃ define tail, ts = define :: tail ∧ define.kind = .define ∧ rest.length ≤ tail.length := by
  obtain ⟨hdefine, -, -, -, -, -, hbody⟩ := h
  have hlength := (expressionAt_passes hbody).length_le
  exact ⟨_, _, rfl, hdefine, by simp only [List.length_cons]; omega⟩

end Passing

end TextPipeline.Grammar
