import TextPipeline.Proofs.Procedure.Weakening

/-!
Expressions in their place. A position is a program with one expression left out. Whether a program
can be lowered depends on the expression at a position only through the nodes of that expression
(`Rewrites.exists_lower`): the rule of a node around it looks at how many terms stand below it,
and never at what they are.
-/

namespace TextPipeline

open Lowering

mutual

/-- An expression with one expression left out of it. -/
inductive Expression.Position
  | here
  | stage (before : List Term) (inner : Term.Position) (after : List Term) (line : Nat)

inductive Term.Position
  | argument (target : String) (before : List Term) (inner : Term.Position) (after : List Term)
    (line : Nat)
  | member (before : List Expression) (inner : Expression.Position) (after : List Expression)
    (line : Nat)

end

mutual

/-- The whole with this expression put in. -/
def Expression.Position.fill (e : Expression) : Expression.Position → Expression
  | .here => e
  | .stage before inner after line => .pipeline (before ++ inner.fill e :: after) line

def Term.Position.fill (e : Expression) : Term.Position → Term
  | .argument target before inner after line => .call target (before ++ inner.fill e :: after) line
  | .member before inner after line => .group (before ++ inner.fill e :: after) line

end

namespace Program

inductive Position
  | body (before : List Definition) (name parameter : String) (inner : Expression.Position)
    (line : Nat) (after : List Definition) (expression : Expression)
  | top (definitions : List Definition) (inner : Expression.Position)

namespace Position

def fill (e : Expression) : Position → Program
  | body before name parameter inner line after expression =>
    ⟨before ++ ⟨name, parameter, inner.fill e, line⟩ :: after, expression⟩
  | top definitions inner => ⟨definitions, inner.fill e⟩

/-- The name in scope at the position. -/
def parameter : Position → String
  | body _ _ parameter _ _ _ _ => parameter
  | top _ _ => inputName

end Position

end Program

/-! ### What the rule of a node looks at -/

lemma Lowering.Checks.exists_ok_iff {names : Names} {α : Type} {sites : List Site}
    {x : Except Error α} (h : Checks names sites x) :
    (∃ a, x = .ok a) ↔ ∀ s ∈ sites, s.Allowed names := by
  cases h with
  | @ok a hall => exact ⟨fun _ => hall, fun _ => ⟨a, rfl⟩⟩
  | error hfirst => exact ⟨nofun, fun hall => absurd hall hfirst.not_allowed⟩

/-- The node with all that is below it made alike. -/
def Site.outline : Site → Site
  | pipeline e => pipeline (.pipeline (List.replicate e.terms.length (.literal "" 0)) 0)
  | term context scope (.call target arguments line) =>
    term context scope (.call target (List.replicate arguments.length (.literal "" 0)) line)
  | term context scope (.group es line) =>
    term context scope (.group (List.replicate es.length (.pipeline [] 0)) line)
  | s => s

lemma Site.allowed_outline {names : Names} (s : Site) :
    s.outline.Allowed names ↔ s.Allowed names := by
  cases s with
  | pipeline e => simp [outline, Allowed, Expression.terms]
  | term context scope t =>
    cases t <;> cases context <;> simp [outline, Allowed]

lemma Site.Allowed.mono {names more : Names} (hsub : names.Within more) {s : Site}
    (h : s.Allowed names) : s.Allowed more := by
  have hfunction (name : String) (hname : names.IsFunction name) : more.IsFunction name :=
    ⟨hsub.catalog ▸ hname.1, hsub.functions hname.2⟩
  cases s with
  | pipeline e => exact h
  | term context scope t =>
    cases t <;> cases context <;> simp only [Allowed, hsub.catalog] at h ⊢
    case identifier.value => exact h
    case identifier.step => exact h.imp_right (Or.imp_right (hfunction _))
    case call.value => exact h.imp_right (And.imp_left (hfunction _))
    case call.step => exact h

lemma forall_allowed_outline {names : Names} {sites : List Site} :
    (∀ s ∈ sites.map Site.outline, s.Allowed names) ↔ ∀ s ∈ sites, s.Allowed names := by
  simp only [List.forall_mem_map, Site.allowed_outline]

lemma sitesOfTerms_append (context : Context) (scope : String) (ts us : List Term) :
    sitesOfTerms context scope (ts ++ us) =
      sitesOfTerms context scope ts ++ sitesOfTerms context scope us := by
  induction ts with
  | nil => rfl
  | cons t ts ih => rw [List.cons_append, sitesOfTerms, sitesOfTerms, ih, List.append_assoc]

lemma sitesOfMembers_append (scope : String) (es fs : List Expression) :
    sitesOfMembers scope (es ++ fs) = sitesOfMembers scope es ++ sitesOfMembers scope fs := by
  induction es with
  | nil => rfl
  | cons e es ih => rw [List.cons_append, sitesOfMembers, sitesOfMembers, ih, List.append_assoc]

/-- A list in which the nodes of an expression can be exchanged for those of another. -/
def Surrounds (scope : String) (whole : Expression → List Site) : Prop :=
  ∃ before after, ∀ e, (whole e).map Site.outline =
    before ++ (e.sites scope).map Site.outline ++ after

namespace Surrounds

variable {scope : String} {whole : Expression → List Site}

lemma around (h : Surrounds scope whole) (before after : List Site) :
    Surrounds scope fun e => before ++ whole e ++ after := by
  obtain ⟨left, right, hwhole⟩ := h
  refine ⟨before.map Site.outline ++ left, right ++ after.map Site.outline, fun e => ?_⟩
  simp only [List.map_append, hwhole, List.append_assoc]

lemma cons {node : Expression → Site} {s : Site} (h : Surrounds scope whole)
    (hnode : ∀ e, (node e).outline = s) : Surrounds scope fun e => node e :: whole e := by
  obtain ⟨left, right, hwhole⟩ := h
  refine ⟨s :: left, right, fun e => ?_⟩
  simp only [List.map_cons, hnode, hwhole, List.cons_append]

end Surrounds

lemma exists_sites_pipeline (scope : String) (before after : List Term) (line : Nat) :
    ∃ context left, ∀ t, (Expression.pipeline (before ++ t :: after) line).sites scope =
      .pipeline (.pipeline (before ++ t :: after) line) ::
        (left ++ t.sites context scope ++ sitesOfTerms .step scope after) := by
  cases before with
  | nil => exact ⟨.value, [], fun t => rfl⟩
  | cons first before =>
    refine ⟨.step, first.sites .value scope ++ sitesOfTerms .step scope before, fun t => ?_⟩
    rw [List.cons_append, Expression.sites, sitesOfTerms_append, sitesOfTerms]
    simp only [List.append_assoc]

mutual

lemma Expression.Position.surrounds (scope : String) :
    ∀ x : Expression.Position, Surrounds scope fun e => (x.fill e).sites scope
  | .here => ⟨[], [], fun e => by simp [Expression.Position.fill]⟩
  | .stage before inner after line => by
    obtain ⟨context, left, hsites⟩ := exists_sites_pipeline scope before after line
    simp only [Expression.Position.fill, hsites]
    refine (inner.surrounds scope context).around left _ |>.cons (s := ?_) fun e => ?_
    · exact .pipeline (.pipeline (List.replicate (before.length + (after.length + 1))
        (.literal "" 0)) 0)
    · simp [Site.outline, Expression.terms]

lemma Term.Position.surrounds (scope : String) :
    ∀ (context : Context) (x : Term.Position),
      Surrounds scope fun e => (x.fill e).sites context scope
  | context, .argument target before inner after line => by
    simp only [Term.Position.fill, Term.sites, sitesOfTerms_append, sitesOfTerms,
      ← List.append_assoc]
    refine (inner.surrounds scope .value).around _ _ |>.cons (s := ?_) fun e => ?_
    · -- the site depends on the number of the arguments only
      exact .term context scope (.call target (List.replicate
        (before.length + (after.length + 1)) (.literal "" 0)) line)
    · simp [Site.outline]
  | context, .member before inner after line => by
    simp only [Term.Position.fill, Term.sites, sitesOfMembers_append, sitesOfMembers,
      ← List.append_assoc]
    refine (inner.surrounds scope).around _ _ |>.cons (s := ?_) fun e => ?_
    · -- the site depends on the number of the members only
      exact .term context scope (.group (List.replicate (before.length + (after.length + 1))
        (.pipeline [] 0)) line)
    · simp [Site.outline]

end

lemma Program.Position.surrounds (x : Program.Position) :
    Surrounds x.parameter fun e => (x.fill e).sites := by
  cases x with
  | body before name parameter inner line after expression =>
    simpa [fill, sites, Position.parameter] using (inner.surrounds parameter).around
      (before.flatMap fun d => d.body.sites d.parameter)
      ((after.flatMap fun d => d.body.sites d.parameter) ++ expression.sites inputName)
  | top definitions inner =>
    simpa [fill, sites, Position.parameter] using (inner.surrounds inputName).around
      (definitions.flatMap fun d => d.body.sites d.parameter) []

/-! ### One expression for another -/

/-- Where the name is in scope, the second expression may have taken the place of the first. -/
def Rewritten (parameter : String) (e e' : Expression) (scope : String)
    (body body' : Expression) : Prop :=
  body' = body ∨ scope = parameter ∧
    ∃ x : Expression.Position, body = x.fill e ∧ body' = x.fill e'

lemma Rewritten.sites {parameter scope : String} {e e' body body' : Expression}
    (h : Rewritten parameter e e' scope body body') : body' = body ∨ ∃ before after,
      (body.sites scope).map Site.outline =
        before ++ (e.sites parameter).map Site.outline ++ after ∧
      (body'.sites scope).map Site.outline =
        before ++ (e'.sites parameter).map Site.outline ++ after := by
  rcases h with rfl | ⟨rfl, x, rfl, rfl⟩
  · exact .inl rfl
  · obtain ⟨before, after, hsites⟩ := x.surrounds scope
    exact .inr ⟨before, after, hsites e, hsites e'⟩

lemma Rewritten.allowed {names : Names} {parameter scope : String} {e e' body body' : Expression}
    (h : Rewritten parameter e e' scope body body')
    (hbody : ∀ s ∈ body.sites scope, s.Allowed names)
    (he : ∀ s ∈ e'.sites parameter, s.Allowed names) :
    ∀ s ∈ body'.sites scope, s.Allowed names := by
  obtain rfl | ⟨before, after, hold, hnew⟩ := h.sites
  · exact hbody
  · rw [← forall_allowed_outline] at hbody he ⊢
    rw [hold, List.forall_mem_append, List.forall_mem_append] at hbody
    rw [hnew, List.forall_mem_append, List.forall_mem_append]
    exact ⟨⟨hbody.1.1, he⟩, hbody.2⟩

namespace Program

structure RewrittenDefinition (parameter : String) (e e' : Expression) (d d' : Definition) :
    Prop where
  sameName : d'.name = d.name
  sameParameter : d'.parameter = d.parameter
  body : Rewritten parameter e e' d.parameter d.body d'.body

/-- A program in which no name has changed, and no body except by rewriting. -/
structure Rewrites (parameter : String) (e e' : Expression) (p q : Program) : Prop where
  definitions : List.Forall₂ (RewrittenDefinition parameter e e') p.definitions q.definitions
  expression : Rewritten parameter e e' inputName p.expression q.expression

variable {parameter entry : String} {e e' : Expression} {p q : Program} {catalog : Catalog}
  {a : Assembly}

lemma RewrittenDefinition.refl (d : Definition) : RewrittenDefinition parameter e e' d d :=
  ⟨rfl, rfl, .inl rfl⟩

lemma Position.rewrites (x : Position) (e e' : Expression) :
    Rewrites x.parameter e e' (x.fill e) (x.fill e') := by
  have hsame (ds : List Definition) :
      List.Forall₂ (RewrittenDefinition x.parameter e e') ds ds :=
    List.forall₂_same.mpr fun d _ => .refl d
  cases x with
  | body before name parameter inner line after expression =>
    refine ⟨List.rel_append (hsame before) (.cons ?_ (hsame after)), .inl rfl⟩
    exact ⟨rfl, rfl, .inr ⟨rfl, inner, rfl, rfl⟩⟩
  | top definitions inner => exact ⟨hsame definitions, .inr ⟨rfl, inner, rfl, rfl⟩⟩

lemma Rewrites.definitionNames (h : Rewrites parameter e e' p q) :
    q.definitions.map (·.name) = p.definitions.map (·.name) :=
  (map_eq_of_forall₂ h.definitions fun _ _ hd => hd.sameName.symm).symm

lemma Rewrites.names (h : Rewrites parameter e e' p q) (catalog : Catalog) :
    q.names catalog = p.names catalog := congrArg (Names.mk catalog) h.definitionNames

lemma Rewrites.definition? (h : Rewrites parameter e e' p q) (name : String) :
    (p.definition? name = none ∧ q.definition? name = none) ∨
      ∃ d d', p.definition? name = some d ∧ q.definition? name = some d' ∧
        RewrittenDefinition parameter e e' d d' :=
  find?_of_forall₂ h.definitions fun _ _ hd => by rw [hd.sameName]

/-! ### Lowering at a position -/

lemma exists_lower_iff : (∃ a, p.lower catalog entry = .ok a) ↔
    (p.definitions.map (·.name)).Nodup ∧ ∀ s ∈ p.sites, s.Allowed (p.names catalog) := by
  constructor
  · rintro ⟨a, h⟩
    have hnodup := (firstRepeated_eq_none.mp (lower_ok h).1).1
    exact ⟨hnodup, (lower_checks catalog entry hnodup).exists_ok_iff.mp ⟨a, h⟩⟩
  · rintro ⟨hnodup, hall⟩
    exact (lower_checks catalog entry hnodup).exists_ok_iff.mpr hall

lemma Position.allowed (x : Position) (h : (x.fill e).lower catalog entry = .ok a) :
    ∀ s ∈ e.sites x.parameter, s.Allowed ((x.fill e).names catalog) := by
  obtain ⟨-, hall⟩ := exists_lower_iff.mp ⟨a, h⟩
  obtain ⟨before, after, hsites⟩ := x.surrounds
  rw [← forall_allowed_outline, hsites, List.forall_mem_append, List.forall_mem_append] at hall
  exact forall_allowed_outline.mp hall.1.2

/-- **Only the nodes of an expression matter where it stands.** -/
lemma Rewrites.exists_lower (h : Rewrites parameter e e' p q)
    (ha : p.lower catalog entry = .ok a)
    (he : ∀ s ∈ e'.sites parameter, s.Allowed (p.names catalog)) :
    ∃ b, q.lower catalog entry = .ok b := by
  obtain ⟨hnodup, hall⟩ := exists_lower_iff.mp ⟨a, ha⟩
  refine exists_lower_iff.mpr ⟨h.definitionNames ▸ hnodup, fun s hs => ?_⟩
  rw [h.names catalog]
  rcases List.mem_append.mp hs with hs | hs
  · -- a definition, whose body may be rewritten
    obtain ⟨d', hd', hs⟩ := List.mem_flatMap.mp hs
    obtain ⟨d, hd, hrewritten⟩ := exists_of_forall₂ h.definitions.flip hd'
    have hbody : ∀ s ∈ d.body.sites d.parameter, s.Allowed (p.names catalog) := fun s hs =>
      hall s (List.mem_append_left _ (List.mem_flatMap.mpr ⟨d, hd, hs⟩))
    rw [hrewritten.sameParameter] at hs
    exact hrewritten.body.allowed hbody he s hs
  · exact h.expression.allowed (fun s hs => hall s (List.mem_append_right _ hs)) he s hs

end Program

end TextPipeline
