import TextPipeline.Proofs.Program.Literals
import TextPipeline.Proofs.Program.Printer
import TextPipeline.Proofs.Token.Order

/-!
Trees that can be written out. The lines of tokens decide where the arguments of a name end, and
printing a program gives it new lines. In a printable tree only the last argument of a name can be a
name or have line feeds (`Term.Printable`); then the printed text is read as the same tree, up to
lines (`Program.Printable.parse_print`).
-/

namespace TextPipeline

open Grammar Text

/-! ### Trees without lines -/

mutual

def Term.erase : Term → Term
  | .identifier name _ => .identifier name 0
  | .literal text _ => .literal text 0
  | .call target arguments _ => .call target (eraseTerms arguments) 0
  | .group members _ => .group (eraseMembers members) 0

def eraseTerms : List Term → List Term
  | [] => []
  | t :: ts => t.erase :: eraseTerms ts

def Expression.erase : Expression → Expression
  | .pipeline terms _ => .pipeline (eraseTerms terms) 0

def eraseMembers : List Expression → List Expression
  | [] => []
  | e :: es => e.erase :: eraseMembers es

end

def Definition.erase (d : Definition) : Definition := ⟨d.name, d.parameter, d.body.erase, 0⟩

def Program.erase (p : Program) : Program :=
  ⟨p.definitions.map (·.erase), p.expression.erase⟩

/-! ### Printable trees -/

/-- The number of line feeds in these texts. -/
def feeds (texts : List String) : Nat := lineFeeds (texts.flatMap String.toList)

lemma feeds_nil : feeds [] = 0 := rfl

lemma feeds_append (texts more : List String) :
    feeds (texts ++ more) = feeds texts + feeds more := by
  simp [feeds, lineFeeds]

lemma feeds_singleton (text : String) : feeds [text] = lineFeeds text.toList := by
  simp [feeds]

lemma feeds_eq_zero {texts : List String} (h : ∀ text ∈ texts, lineFeeds text.toList = 0) :
    feeds texts = 0 := by
  induction texts with
  | nil => exact feeds_nil
  | cons text texts ih =>
    obtain ⟨htext, htexts⟩ := List.forall_mem_cons.mp h
    rw [← List.singleton_append, feeds_append, feeds_singleton, htext, ih htexts]

/-- Another argument can follow the term. -/
def Term.Inline (t : Term) : Prop := t.IsEnclosed ∧ feeds t.literals = 0

mutual

/-- The tree can be written out at this depth, with its literals in quotes that hold them. -/
inductive Term.Printable (quotes : String → Quotation) : (depth : Nat) → Term → Prop
  | identifier {depth name line} : depth ≤ maxDepth → IsName name →
      Term.Printable quotes depth (.identifier name line)
  | literal {depth text line} : depth ≤ maxDepth → Plain text → (quotes text).Holds text →
      Term.Printable quotes depth (.literal text line)
  | call {depth target arguments line} : depth ≤ maxDepth → IsName target → arguments ≠ [] →
      (∀ t ∈ arguments, Term.Printable quotes (depth + 1) t) →
      (∀ t ∈ arguments.dropLast, t.Inline) →
      Term.Printable quotes depth (.call target arguments line)
  | group {depth members line} : depth ≤ maxDepth →
      (∀ e ∈ members, Expression.Printable quotes (depth + 1) e) →
      Term.Printable quotes depth (.group members line)

inductive Expression.Printable (quotes : String → Quotation) : (depth : Nat) → Expression → Prop
  | pipeline {depth terms line} : terms ≠ [] → (∀ t ∈ terms, Term.Printable quotes depth t) →
      Expression.Printable quotes depth (.pipeline terms line)

end

/-! ### The tokens of printed trees -/

open Item (tokens)

/-- No argument of a name on this line follows. -/
def Breaks (line : Nat) (after : List Item) : Prop := ¬ StartsArgument line (tokens line after)

section Reads

variable (quotes : String → Quotation) (depth : Nat)

/-- Its items are read as the term, with other lines, if it is no name before an argument. -/
def Term.Reads (t : Term) : Prop :=
  ∀ line after, (¬ t.IsEnclosed → Breaks (line + feeds t.literals) after) →
    ∃ t', t'.erase = t.erase ∧ t'.line = line ∧ TermAt depth (tokens line (t.items quotes ++ after))
      t' (tokens (line + feeds t.literals) after)

def Expression.Reads (e : Expression) : Prop :=
  ∀ line after, Breaks (line + feeds e.literals) after →
    ∃ e', e'.erase = e.erase ∧ ExpressionAt depth (tokens line (e.items quotes ++ after))
      e' (tokens (line + feeds e.literals) after)

variable {quotes depth} {line : Nat} {after : List Item}

lemma not_startsArgument_of_kind {t : Token} (kind : TokenKind) (h : t.kind = kind)
    (hkind : kind ∉ [TokenKind.ident, .literal, .openBrace]) (l : Nat) (ts : List Token) :
    ¬ StartsArgument l (t :: ts) := by
  rintro ⟨-, hk | hk | hk⟩ <;> simp [← h, hk] at hkind

lemma breaks_stepItems {ts : List Term}
    (h : Breaks (line + feeds (literalsOfTerms ts)) after) :
    Breaks line (stepItems quotes ts ++ after) := by
  cases ts with
  | nil => simpa [stepItems, literalsOfTerms, feeds_nil] using h
  | cons t ts => exact not_startsArgument_of_kind .pipe rfl (by decide) _ _

lemma steps_reads {ts : List Term} (hts : ∀ t ∈ ts, t.Reads quotes depth)
    (h : Breaks (line + feeds (literalsOfTerms ts)) after) :
    ∃ ts', eraseTerms ts' = eraseTerms ts ∧
      StepsAt depth (tokens line (stepItems quotes ts ++ after)) ts'
        (tokens (line + feeds (literalsOfTerms ts)) after) := by
  induction ts generalizing line with
  | nil => exact ⟨[], rfl, .nil⟩
  | cons t ts ih =>
    obtain ⟨ht, hts⟩ := List.forall_mem_cons.mp hts
    rw [literalsOfTerms, feeds_append, ← Nat.add_assoc] at h ⊢
    obtain ⟨t', htree, -, hterm⟩ := ht line (stepItems quotes ts ++ after) fun _ =>
      breaks_stepItems h
    obtain ⟨ts', htrees, hsteps⟩ := ih hts h
    refine ⟨t' :: ts', by rw [eraseTerms, eraseTerms, htree, htrees], ?_⟩
    have hpipe : (⟨.pipe, "|", line⟩ : Token).kind = .pipe := rfl
    rw [stepItems, List.cons_append, List.cons_append, List.cons_append, List.append_assoc]
    exact .cons hpipe hterm hsteps

lemma pipeline_reads {ts : List Term} {l : Nat} (hne : ts ≠ [])
    (hts : ∀ t ∈ ts, t.Reads quotes depth) :
    (Expression.pipeline ts l).Reads quotes depth := by
  obtain ⟨t, ts, rfl⟩ := List.exists_cons_of_ne_nil hne
  obtain ⟨ht, hts⟩ := List.forall_mem_cons.mp hts
  intro line after h
  rw [Expression.literals, literalsOfTerms, feeds_append, ← Nat.add_assoc] at h ⊢
  obtain ⟨t', htree, -, hterm⟩ := ht line (stepItems quotes ts ++ after) fun _ =>
    breaks_stepItems h
  obtain ⟨ts', htrees, hsteps⟩ := steps_reads hts h
  rw [Expression.items, pipelineItems, List.append_assoc]
  obtain ⟨first, tail, hfirst, -⟩ := hterm.head
  rw [hfirst] at hterm ⊢
  refine ⟨.pipeline (t' :: ts') first.line, ?_, .pipeline hterm hsteps⟩
  rw [Expression.erase, Expression.erase, eraseTerms, eraseTerms, htree, htrees]

lemma breaks_furtherItems {es : List Expression}
    (h : Breaks (line + feeds (literalsOfMembers es)) after) :
    Breaks line (furtherItems quotes es ++ after) := by
  cases es with
  | nil => simpa [furtherItems, literalsOfMembers, feeds_nil] using h
  | cons e es => exact not_startsArgument_of_kind .semicolon rfl (by decide) _ _

lemma further_reads {es : List Expression} (hes : ∀ e ∈ es, e.Reads quotes depth)
    (h : Breaks (line + feeds (literalsOfMembers es)) after) :
    ∃ es', eraseMembers es' = eraseMembers es ∧
      FurtherAt depth (tokens line (furtherItems quotes es ++ after)) es'
        (tokens (line + feeds (literalsOfMembers es)) after) := by
  induction es generalizing line with
  | nil => exact ⟨[], rfl, .nil⟩
  | cons e es ih =>
    obtain ⟨he, hes⟩ := List.forall_mem_cons.mp hes
    rw [literalsOfMembers, feeds_append, ← Nat.add_assoc] at h ⊢
    obtain ⟨e', htree, hexpression⟩ := he line (furtherItems quotes es ++ after)
      (breaks_furtherItems h)
    obtain ⟨es', htrees, hfurther⟩ := ih hes h
    refine ⟨e' :: es', by rw [eraseMembers, eraseMembers, htree, htrees], ?_⟩
    have hsemicolon : (⟨.semicolon, ";", line⟩ : Token).kind = .semicolon := rfl
    rw [furtherItems, List.cons_append, List.cons_append, List.append_assoc]
    exact .cons hsemicolon hexpression hfurther

lemma members_reads {es : List Expression} (hes : ∀ e ∈ es, e.Reads quotes depth)
    (h : Breaks (line + feeds (literalsOfMembers es)) after) :
    ∃ es', eraseMembers es' = eraseMembers es ∧
      MembersAt depth (tokens line (memberItems quotes es ++ after)) es'
        (tokens (line + feeds (literalsOfMembers es)) after) := by
  cases es with
  | nil => exact ⟨[], rfl, .none⟩
  | cons e es =>
    obtain ⟨he, hes⟩ := List.forall_mem_cons.mp hes
    rw [literalsOfMembers, feeds_append, ← Nat.add_assoc] at h ⊢
    obtain ⟨e', htree, hexpression⟩ := he line (furtherItems quotes es ++ after)
      (breaks_furtherItems h)
    obtain ⟨es', htrees, hfurther⟩ := further_reads hes h
    refine ⟨e' :: es', by rw [eraseMembers, eraseMembers, htree, htrees], ?_⟩
    rw [memberItems, List.append_assoc]
    exact .some hexpression hfurther

lemma arguments_reads {args : List Term} (hargs : ∀ t ∈ args, t.Reads quotes depth)
    (hinline : ∀ t ∈ args.dropLast, t.Inline)
    (h : Breaks (line + feeds (literalsOfTerms args)) after) :
    ∃ args', eraseTerms args' = eraseTerms args ∧
      ArgumentsAt depth line (tokens line (argumentItems quotes args ++ after)) args'
        (tokens (line + feeds (literalsOfTerms args)) after) := by
  induction args with
  | nil => exact ⟨[], rfl, .nil⟩
  | cons t args ih =>
    obtain ⟨ht, hargs⟩ := List.forall_mem_cons.mp hargs
    rw [literalsOfTerms, feeds_append, ← Nat.add_assoc] at h ⊢
    rw [argumentItems, List.cons_append, List.append_assoc, Item.tokens_space]
    -- Only the last argument may be a name or have line feeds.
    have hread : ∃ args', eraseTerms args' = eraseTerms args ∧
        ArgumentsAt depth line
          (tokens (line + feeds t.literals) (argumentItems quotes args ++ after)) args'
          (tokens (line + feeds t.literals + feeds (literalsOfTerms args)) after) ∧
        (¬ t.IsEnclosed →
          Breaks (line + feeds t.literals) (argumentItems quotes args ++ after)) := by
      cases args with
      | nil =>
        exact ⟨[], rfl, .nil, fun _ => by simpa [argumentItems, literalsOfTerms, feeds_nil] using h⟩
      | cons u args =>
        obtain ⟨⟨hclosed, hfeeds⟩, hinline⟩ := List.forall_mem_cons.mp hinline
        rw [hfeeds, Nat.add_zero] at h ⊢
        obtain ⟨args', htrees, hread⟩ := ih hargs hinline h
        exact ⟨args', htrees, hread, fun hopen => absurd hclosed hopen⟩
    obtain ⟨args', htrees, hread, hopen⟩ := hread
    obtain ⟨t', htree, hline, hterm⟩ := ht line (argumentItems quotes args ++ after) hopen
    refine ⟨t' :: args', by rw [eraseTerms, eraseTerms, htree, htrees], .cons ?_ hterm hread⟩
    obtain ⟨first, tail, hfirst, hfirstLine, hstarts⟩ := hterm.head
    rw [hfirst]
    exact ⟨by omega, hstarts⟩

lemma breaks_closing (line : Nat) (after : List Item) :
    Breaks line ([.blank ' ', .mark .closeBrace '\x7d'] ++ after) :=
  not_startsArgument_of_kind .closeBrace rfl (by decide) _ _

mutual

lemma Term.Printable.reads : ∀ {depth : Nat} {t : Term}, t.Printable quotes depth →
    t.Reads quotes depth
  | _, .identifier name _, .identifier hdepth hname => by
    intro line after h
    rw [Term.literals] at h ⊢
    rw [Term.items, List.singleton_append, Item.tokens_word line after hname]
    exact ⟨.identifier name line, by rw [Term.erase, Term.erase], rfl,
      .identifier hdepth rfl (h id)⟩
  | _, .literal text _, .literal hdepth _ _ => by
    intro line after _
    rw [Term.literals, feeds_singleton, Term.items, List.singleton_append, Item.tokens_quoted]
    exact ⟨.literal text line, by rw [Term.erase, Term.erase], rfl, .literal hdepth rfl⟩
  | _, .call target args _, .call hdepth hname hne hargs hinline => by
    intro line after h
    rw [Term.literals] at h ⊢
    obtain ⟨args', htrees, hread⟩ :=
      arguments_reads (fun t ht => (hargs t ht).reads) hinline (h id)
    have hne' : args' ≠ [] := by
      rintro rfl
      cases args with
      | nil => exact hne rfl
      | cons arg args => cases htrees
    obtain ⟨arg', args', rfl⟩ := List.exists_cons_of_ne_nil hne'
    rw [Term.items, List.cons_append, Item.tokens_word line _ hname]
    refine ⟨.call target (arg' :: args') line, ?_, rfl, .call hdepth rfl hread fun hs => ?_⟩
    · rw [Term.erase, Term.erase, htrees]
    · exact h id (hs.mono (Nat.le_add_right _ _))
  | _, .group members _, .group hdepth hes => by
    intro line after _
    rw [Term.literals]
    -- The members stand before a blank and the closing brace.
    obtain ⟨es', htrees, hread⟩ :=
      members_reads (fun e he => (hes e he).reads) (breaks_closing _ after)
    rw [Term.items, List.cons_append, List.cons_append, List.append_assoc]
    refine ⟨.group es' line, by rw [Term.erase, Term.erase, htrees], rfl, ?_⟩
    have hopening : (⟨.openBrace, "\x7b", line⟩ : Token).kind = .openBrace := rfl
    exact .group hdepth hopening hread rfl

lemma Expression.Printable.reads : ∀ {depth : Nat} {e : Expression}, e.Printable quotes depth →
    e.Reads quotes depth
  | _, _, .pipeline hne hts => pipeline_reads hne fun t ht => (hts t ht).reads

end

structure Definition.Printable (quotes : String → Quotation) (d : Definition) : Prop where
  name : IsName d.name
  parameter : IsName d.parameter
  body : d.body.Printable quotes 0

lemma breaks_newline (line : Nat) (after : List Item) : Breaks line (.blank '\n' :: after) := by
  have hlines : ∀ t ∈ tokens (line + 1) after, line + 1 ≤ t.line :=
    (Item.tokens_ordered (line + 1) after).2
  change ¬ StartsArgument line (tokens (line + 1) after)
  cases hts : tokens (line + 1) after with
  | nil => exact id
  | cons t ts =>
    have hline := hlines t (hts ▸ List.mem_cons_self)
    exact fun hs => Nat.not_succ_le_self line (hline.trans hs.1)

lemma Definition.Printable.reads {d : Definition} (h : d.Printable quotes) (line : Nat)
    (after : List Item) :
    ∃ d', d'.erase = d.erase ∧ DefinitionAt (tokens line (d.items quotes ++ after)) d'
      (tokens (line + feeds d.body.literals + 1) after) := by
  obtain ⟨body', htree, hread⟩ := h.body.reads line (.blank '\n' :: after) (breaks_newline _ _)
  refine ⟨⟨d.name, d.parameter, body', line⟩, by rw [erase, erase, htree], ?_⟩
  have hitems : d.items quotes ++ after = .word "def".toList :: .blank ' ' ::
      .word d.name.toList :: .mark .openParen '(' :: .word d.parameter.toList ::
      .mark .closeParen ')' :: .blank ' ' :: .mark .equals '=' :: .blank ' ' ::
      (d.body.items quotes ++ .blank '\n' :: after) := by
    simp [items]
  rw [hitems, Item.tokens_define, Item.tokens_space, Item.tokens_word _ _ h.name,
    Item.tokens_mark _ _ _ (by decide), Item.tokens_word _ _ h.parameter,
    Item.tokens_mark _ _ _ (by decide), Item.tokens_space, Item.tokens_mark _ _ _ (by decide),
    Item.tokens_space]
  exact .mk rfl rfl rfl rfl rfl rfl hread

lemma definitions_read {ds : List Definition} (hds : ∀ d ∈ ds, d.Printable quotes) (line : Nat)
    (after : List Item) :
    ∃ ds' line', ds'.map Definition.erase = ds.map Definition.erase ∧
      DefinitionsAt (tokens line (ds.flatMap (·.items quotes) ++ after)) ds'
        (tokens line' after) := by
  induction ds generalizing line with
  | nil => exact ⟨[], line, rfl, .nil⟩
  | cons d ds ih =>
    obtain ⟨hd, hds⟩ := List.forall_mem_cons.mp hds
    obtain ⟨d', htree, hread⟩ := hd.reads line (ds.flatMap (·.items quotes) ++ after)
    obtain ⟨ds', line', htrees, hreads⟩ := ih hds _
    refine ⟨d' :: ds', line', by rw [List.map_cons, List.map_cons, htree, htrees], ?_⟩
    rw [List.flatMap_cons, List.append_assoc]
    exact .cons hread hreads

structure Program.Printable (quotes : String → Quotation) (p : Program) : Prop where
  definitions : ∀ d ∈ p.definitions, d.Printable quotes
  expression : p.expression.Printable quotes 0

lemma Program.Printable.spells {p : Program} (h : p.Printable quotes) (line : Nat) :
    ∃ q, q.erase = p.erase ∧ Spells (tokens line (p.items quotes)) q := by
  obtain ⟨ds, line', htrees, hds⟩ := definitions_read h.definitions line (p.expression.items quotes)
  have hend : Breaks (line' + feeds p.expression.literals) [] :=
    not_startsArgument_of_kind .theEnd rfl (by decide) _ _
  obtain ⟨e, htree, he⟩ := h.expression.reads line' [] hend
  rw [List.append_nil] at he
  refine ⟨⟨ds, e⟩, ?_, _, _, hds, he.kindAhead_ne (by decide), he, rfl⟩
  rw [erase, erase, htrees, htree]

end Reads

/-! ### The text of printed trees -/

open Item (AllFit)

/-- The items fit before others that separate them. -/
def FitTogether (items : List Item) : Prop :=
  ∀ after, AllFit after → Separates (after.flatMap Item.text) → AllFit (items ++ after)

lemma fits_list {α : Type} {between : List Item} {f : α → List Item} {as : List α}
    {after : List Item} (hbetween : ∀ after, AllFit after →
      AllFit (between ++ after) ∧ Separates ((between ++ after).flatMap Item.text))
    (has : ∀ a ∈ as, FitTogether (f a)) (hafter : AllFit after)
    (hseparates : Separates (after.flatMap Item.text)) :
    AllFit (as.flatMap (fun a => between ++ f a) ++ after) ∧
      Separates ((as.flatMap (fun a => between ++ f a) ++ after).flatMap Item.text) := by
  induction as with
  | nil => exact ⟨hafter, hseparates⟩
  | cons a as ih =>
    obtain ⟨ha, has⟩ := List.forall_mem_cons.mp has
    obtain ⟨hall, hseparates⟩ := ih has
    rw [List.flatMap_cons, List.append_assoc, List.append_assoc]
    exact hbetween _ (ha _ hall hseparates)

section Fits

variable {quotes : String → Quotation}

lemma argumentItems_eq (ts : List Term) :
    argumentItems quotes ts = ts.flatMap fun t => [.blank ' '] ++ t.items quotes := by
  induction ts with
  | nil => rfl
  | cons t ts ih => simp [argumentItems, ih]

lemma stepItems_eq (ts : List Term) : stepItems quotes ts =
    ts.flatMap fun t => [.blank ' ', .mark .pipe '|', .blank ' '] ++ t.items quotes := by
  induction ts with
  | nil => rfl
  | cons t ts ih => simp [stepItems, ih]

lemma furtherItems_eq (es : List Expression) : furtherItems quotes es =
    es.flatMap fun e => [.mark .semicolon ';', .blank ' '] ++ e.items quotes := by
  induction es with
  | nil => rfl
  | cons e es ih => simp [furtherItems, ih]

section Lists

variable {after : List Item} (hafter : AllFit after) (hs : Separates (after.flatMap Item.text))
include hafter hs

lemma fits_arguments {ts : List Term} (hts : ∀ t ∈ ts, FitTogether (t.items quotes)) :
    AllFit (argumentItems quotes ts ++ after) ∧
      Separates ((argumentItems quotes ts ++ after).flatMap Item.text) := by
  rw [argumentItems_eq]
  refine fits_list (fun after h => ⟨⟨fits_space after, h⟩, ?_⟩) hts hafter hs
  exact separates_cons (by decide) (by decide) _

lemma fits_steps {ts : List Term} (hts : ∀ t ∈ ts, FitTogether (t.items quotes)) :
    AllFit (stepItems quotes ts ++ after) ∧
      Separates ((stepItems quotes ts ++ after).flatMap Item.text) := by
  rw [stepItems_eq]
  refine fits_list (fun after h =>
    ⟨⟨fits_space _, fits_mark (by decide) _, fits_space after, h⟩, ?_⟩) hts hafter hs
  exact separates_cons (by decide) (by decide) _

lemma fits_further {es : List Expression} (hes : ∀ e ∈ es, FitTogether (e.items quotes)) :
    AllFit (furtherItems quotes es ++ after) ∧
      Separates ((furtherItems quotes es ++ after).flatMap Item.text) := by
  rw [furtherItems_eq]
  refine fits_list (fun after h => ⟨⟨fits_mark (by decide) _, fits_space after, h⟩, ?_⟩)
    hes hafter hs
  exact separates_cons (by decide) (by decide) _

end Lists

lemma fits_pipeline {ts : List Term} (hts : ∀ t ∈ ts, FitTogether (t.items quotes)) :
    FitTogether (pipelineItems quotes ts) := by
  intro after hafter hs
  cases ts with
  | nil => exact hafter
  | cons t ts =>
    obtain ⟨ht, hts⟩ := List.forall_mem_cons.mp hts
    obtain ⟨hall, hs⟩ := fits_steps hafter hs hts
    rw [pipelineItems, List.append_assoc]
    exact ht _ hall hs

lemma fits_members {es : List Expression} (hes : ∀ e ∈ es, FitTogether (e.items quotes)) :
    FitTogether (memberItems quotes es) := by
  intro after hafter hs
  cases es with
  | nil => exact hafter
  | cons e es =>
    obtain ⟨he, hes⟩ := List.forall_mem_cons.mp hes
    obtain ⟨hall, hs⟩ := fits_further hafter hs hes
    rw [memberItems, List.append_assoc]
    exact he _ hall hs

mutual

lemma Term.Printable.fits : ∀ {depth : Nat} {t : Term}, t.Printable quotes depth →
    FitTogether (t.items quotes)
  | _, _, .identifier _ hname => fun after hafter hs => by
    rw [Term.items]
    exact ⟨fits_word hname.1 hs, hafter⟩
  | _, _, .literal _ hplain hholds => fun after hafter hs => by
    rw [Term.items]
    exact ⟨Quotation.fits_item hplain hholds hs, hafter⟩
  | _, _, .call _ hname _ hargs _ => fun after hafter hs => by
    obtain ⟨hall, hs⟩ := fits_arguments hafter hs fun t ht => (hargs t ht).fits
    rw [Term.items]
    exact ⟨fits_word hname.1 hs, hall⟩
  | _, _, .group _ hes => fun after hafter _ => by
    rw [Term.items, List.cons_append, List.cons_append, List.append_assoc]
    refine ⟨fits_mark (by decide) _, fits_space _,
      fits_members (fun e he => (hes e he).fits) _ ?_ ?_⟩
    · -- the closing brace comes after a space
      exact ⟨fits_space _, fits_mark (by decide) _, hafter⟩
    · exact separates_cons (by decide) (by decide) _

lemma Expression.Printable.fits : ∀ {depth : Nat} {e : Expression}, e.Printable quotes depth →
    FitTogether (e.items quotes)
  | _, _, .pipeline _ hts => by
    rw [Expression.items]
    exact fits_pipeline fun t ht => (hts t ht).fits

end

lemma Definition.Printable.fits {d : Definition} (h : d.Printable quotes) {after : List Item}
    (hafter : AllFit after) : AllFit (d.items quotes ++ after) := by
  have hbody : AllFit (d.body.items quotes ++ .blank '\n' :: after) :=
    h.body.fits _ ⟨by simp [Item.Fits], hafter⟩ (separates_cons (by decide) (by decide) _)
  rw [Definition.items, List.append_assoc, List.append_assoc]
  refine ⟨fits_word isWord_define ?_, fits_space _, fits_word h.name.1 ?_, fits_mark (by decide) _,
    fits_word h.parameter.1 ?_, fits_mark (by decide) _, fits_space _, fits_mark (by decide) _,
    fits_space _, hbody⟩
  all_goals exact separates_cons (by decide) (by decide) _

lemma Program.Printable.fits {p : Program} (h : p.Printable quotes) : AllFit (p.items quotes) := by
  have hexpression : AllFit (p.expression.items quotes ++ []) :=
    h.expression.fits [] trivial (by simp [Separates])
  rw [List.append_nil] at hexpression
  have hdefinitions (ds : List Definition) (hds : ∀ d ∈ ds, d.Printable quotes) :
      AllFit (ds.flatMap (·.items quotes) ++ p.expression.items quotes) := by
    induction ds with
    | nil => exact hexpression
    | cons d ds ih =>
      obtain ⟨hd, hds⟩ := List.forall_mem_cons.mp hds
      rw [List.flatMap_cons, List.append_assoc]
      exact hd.fits (ih hds)
  exact hdefinitions p.definitions h.definitions

end Fits

/-- A printable program is read back from its text. -/
lemma Program.Printable.parse_print {quotes : String → Quotation} {p : Program}
    (h : p.Printable quotes) :
    ∃ q, Program.parse (p.print quotes) = .ok q ∧ q.erase = p.erase := by
  obtain ⟨q, htree, hspells⟩ := h.spells 1
  have hsplit : Item.Split (p.print quotes).toList (p.items quotes) :=
    ⟨p.flatMap_items quotes, h.fits⟩
  refine ⟨q, ?_, htree⟩
  exact (bind_of_ok (Token.scan_of_split hsplit 1) _).trans (Parser.ofTokens_of_spells hspells)

end TextPipeline
