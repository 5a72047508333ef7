import Wirescript.Proofs.Jumps
import Wirescript.Proofs.Preparation

/-!
# Prepared code is jump-closed

Extraction makes labels for conditions that are evaluated in part, and expansion copies the labels
of a callee for each call that it replaces and makes one more to leave by. All of them are new:
labels of extraction are of a kind that lowering never asks for, and copied labels carry the number
of the call, which is another one each time. So the bodies of a prepared program are jump-closed if
those of its source have no labels and jumps of their own.
-/

namespace Wirescript

open Stmt
open List hiding span

variable {arguments : List Expr} {X code : List Stmt} {k k' : Nat} {r : Routine} {span : Span}
  {body : Stmt}

/-- The statement jumps when an event occurs. -/
def Stmt.awaits : Stmt → Bool
  | .gotoOn .. => true
  | _ => false

/-- The statement holds no others, control goes on after it, and no event interrupts it. -/
def Stmt.Passing (s : Stmt) : Prop := s.Single ∧ s.endsFlow = false ∧ s.awaits = false

namespace Extract

/-- Code that was made from expressions. All its labels are for skipping. -/
abbrev Numbers (σ : LabelSupply) (code : List Stmt) (σ' : LabelSupply) : Prop :=
  Stmt.Numbers (· = "skip") Passing σ code σ'

end Extract

namespace Extract

/-- The labels that extraction makes up stay inside the code of one expression. -/
def labelScheme : Scheme where
  fault _ := True
  supply _ := True
  source e := e.visit wrapVisitor = []
  sourceStmt _ := False
  target _ := True
  calls _ _ := True
  value _ _ := True
  values _ _ := True
  array _ := True
  line := IsStraight Passing
  code := Numbers

theorem lawful_labelScheme : labelScheme.Lawful where
  breach _ := trivial
  fresh _ _ := ⟨trivial, trivial⟩
  skipped _ := trivial
  operand h _ hc := subset_nil.1 (h ▸ Expr.visit_operand_subset wrapVisitor hc)
  operandStmt h := h.elim
  body h := by cases h
  item h := h.elim
  written _ _ _ := trivial
  writtenStmt h := h.elim
  callee _ := trivial
  calleeStmt h := h.elim
  straight h := .straight h
  append h h' := Numbers.append h h'
  skip {ξ σ₀ _ xs ys x} sense span _ _ h h' := by
    refine Numbers.around (h.append h') (.single _ "skip" rfl (by decide))
      (perm_iff_count.2 fun l ↦ ?_) ?_
    · simp [labels_cons_of_none (rfl : label? (.gotoIf ..) = none)]
    · simp +contextual [or_imp, target?, Passing, Single, endsFlow, awaits]
  plain _ _ := trivial
  unary _ _ := trivial
  convert _ _ := trivial
  binary _ _ _ := trivial
  make _ _ _ _ := trivial
  call _ _ _ := trivial
  segment _ _ _ := trivial
  reread _ _ _ _ := trivial
  left _ _ _ _ := trivial
  void _ _ _ _ := trivial
  nil := trivial
  cons _ _ := trivial
  read _ _ := trivial
  range _ _ _ := trivial
  element _ _ _ _ _ := ⟨rfl, rfl, trivial, rfl, rfl⟩
  assign _ _ _ _ := ⟨rfl, rfl, trivial, rfl, rfl⟩
  stepped _ _ _ := ⟨rfl, rfl, trivial, rfl, rfl⟩
  lineCall _ _ _ _ _ := ⟨rfl, rfl, trivial, rfl, rfl⟩
  stays h := h.elim
  declare h := h.elim
  define h := h.elim
  gotoIf h := h.elim
  retValue h := h.elim

section Labels

variable {ξ ξ' : Extractor} {e : Expr} {s s' : Split} (he : e.visit wrapVisitor = [])

include he

theorem splits_value (h : Yields (expr e).value ξ s ξ') :
    labelScheme.Splits e ξ.labels s ξ'.labels :=
  (Scheme.From.of_yields ((lawful_labelScheme.plans_expr he).value fun _ ↦ trivial) trivial h).2

theorem numbers_store {x : Variable} (h : Yields ((expr e).store x span) ξ code ξ') :
    Numbers ξ.labels code ξ'.labels :=
  (Scheme.From.of_yields ((lawful_labelScheme.plans_expr he).store (fun _ ↦ trivial) trivial span)
    trivial h).2

theorem splits_settled {ξ₁ : Extractor} (h : Yields (expr e).value ξ s ξ₁)
    (h' : Yields (settled s) ξ₁ s' ξ') : labelScheme.Splits e ξ.labels s' ξ'.labels := by
  obtain ⟨-, hs', hlabels⟩ := Scheme.From.of_yields
    (lawful_labelScheme.from_ahead (splits_value he h) fun _ _ ↦ trivial) trivial h'
  exact hlabels ▸ hs'

end Labels

/-- A statement that reads a value, with another value in its place. -/
inductive Recasts : Stmt → Stmt → Prop
  | define (span nameSpan : Span) (x : Variable) (e e' : Expr) :
      Recasts (.define span nameSpan x e) (.define span nameSpan x e')
  | gotoIf (span : Span) (l : Label) (e e' : Expr) (sense : Bool) :
      Recasts (.gotoIf span l e sense) (.gotoIf span l e' sense)
  | retValue (span : Span) (e e' : Expr) : Recasts (.retValue span e) (.retValue span e')

/-- A statement that control goes on from, and that is neither a label nor a jump nor a mark. -/
structure Falls (s : Stmt) : Prop where
  isHint : s.isHint = false
  label? : s.label? = none
  target? : s.target? = none
  endsFlow : s.endsFlow = false

/-- What extraction makes of flat code, with the labels that it hands out: statements stay, code takes
their place, or code stands before and after a statement that reads a value. Nothing stands behind a
statement that control does not go on from. -/
inductive Extracts : LabelSupply → List Stmt → List Stmt → LabelSupply → Prop
  | nil (σ : LabelSupply) : Extracts σ [] [] σ
  | same {σ σ' : LabelSupply} {s : Stmt} {source code : List Stmt} (hs : s.Single)
      (h : Extracts σ source code σ') : Extracts σ (s :: source) (s :: code) σ'
  | falling {σ σ₁ σ' : LabelSupply} {s : Stmt} {xs source code : List Stmt} (hs : Falls s)
      (hxs : Numbers σ xs σ₁) (h : Extracts σ₁ source code σ') :
      Extracts σ (s :: source) (xs ++ code) σ'
  | around {σ σ₁ σ' : LabelSupply} {s t : Stmt} {xs ys source code : List Stmt} (hst : Recasts s t)
      (hxs : Numbers σ xs σ₁) (hys : Straight Passing ys)
      (hlast : s.endsFlow = true → ys = []) (h : Extracts σ₁ source code σ') :
      Extracts σ (s :: source) (xs ++ (t :: ys ++ code)) σ'

namespace Extracts

variable {σ σ₁ σ' : LabelSupply} {source source' code' : List Stmt}

theorem append (h : Extracts σ source code σ₁) (h' : Extracts σ₁ source' code' σ') :
    Extracts σ (source ++ source') (code ++ code') σ' := by
  induction h with
  | nil => exact h'
  | same hs _ ih => exact .same hs (ih h')
  | falling hs hxs _ ih =>
    rw [append_assoc]
    exact .falling hs hxs (ih h')
  | around hst hxs hys hlast _ ih =>
    rw [append_assoc, append_assoc]
    exact .around hst hxs hys hlast (ih h')

/-- Code that is new, for one statement. -/
theorem new {s : Stmt} (hs : Falls s) (h : Numbers σ code σ') : Extracts σ [s] code σ' := by
  rw [← append_nil code]
  exact .falling hs h (.nil σ')

/-- The effects around a statement that reads a value. -/
theorem reading {e : Expr} {s : Split} {use : Expr → Stmt} {t : Stmt}
    (h : labelScheme.Splits e σ s σ')
    (huse : ∀ e, Recasts t (use e)) (hlast : t.endsFlow = true → s.after = []) :
    Extracts σ [t] (s.around use) σ' := by
  have hcode := Extracts.around (huse s.value.node) h.before h.after hlast (.nil σ')
  rwa [append_nil] at hcode

/-- The code has the labels of the source and those that were handed out, and holds no blocks. -/
theorem gains (h : Extracts σ source code σ') :
    (∃ made, σ.Draws (· = "skip") made σ' ∧ Gains source code made) ∧
      ∀ s ∈ code, s.Single := by
  induction h with
  | nil σ => exact ⟨⟨[], .nil σ, .refl []⟩, forall_mem_nil _⟩
  | @same _ _ s _ _ hs _ ih =>
    obtain ⟨⟨made, hdraws, hgains⟩, hsingle⟩ := ih
    exact ⟨⟨made, hdraws, (Gains.refl [s]).append hgains⟩, forall_mem_cons.2 ⟨hs, hsingle⟩⟩
  | @falling _ _ _ s xs _ _ hs hxs _ ih =>
    obtain ⟨⟨made, hdraws, hgains⟩, hsingle⟩ := ih
    have hnew : Gains [s] xs (labels xs) :=
      ⟨by simp [labels_cons_of_none hs.label?],
        by simpa [targets_cons, hs.target?] using hxs.defined⟩
    exact ⟨⟨_, hxs.draws.append hdraws, hnew.append hgains⟩,
      forall_mem_append.2 ⟨fun t ht ↦ (hxs.each t ht).1, hsingle⟩⟩
  | @around _ _ _ s t xs ys _ _ hst hxs hys _ _ ih =>
    obtain ⟨⟨made, hdraws, hgains⟩, hsingle⟩ := ih
    have hsame : t.label? = s.label? ∧ t.target? = s.target? ∧ t.Single := by
      cases hst <;> exact ⟨rfl, rfl, trivial⟩
    have hnew : Gains [s] (xs ++ t :: ys) (labels xs) := by
      constructor
      · simp only [labels_append, labels_cons, hsame.1, hys.labels]
        exact perm_append_comm
      · simp only [targets_append, targets_cons, hsame.2.1, hys.targets]
        refine fun l hl ↦ mem_append.2 ((mem_append.1 hl).symm.imp_right (hxs.defined ·))
    refine ⟨⟨_, hxs.draws.append hdraws, ?_⟩, ?_⟩
    · have hboth := hnew.append hgains
      rwa [append_assoc] at hboth
    · rw [← append_assoc]
      refine forall_mem_append.2 ⟨forall_mem_append.2 ⟨fun u hu ↦ (hxs.each u hu).1, ?_⟩,
        hsingle⟩
      exact forall_mem_cons.2 ⟨hsame.2.2, fun u hu ↦ (hys.each u hu).1⟩

end Extracts

/-- The value that is read last of all has nothing behind it. -/
theorem after_of_settled {s s' : Split} {ξ ξ' : Extractor} (h : Yields (settled s) ξ s' ξ') :
    s'.after = [] := by
  unfold settled ahead at h
  split at h
  · split at h
    · cases h
      rfl
    · obtain ⟨x, ξ₁, -, h⟩ := yields_bind.1 h
      cases h
      rfl
  · next hafter =>
    cases h
    simpa using hafter

mutual

theorem extracts_stmt {s : Stmt} (hs : s.visit wrapVisitor = []) {ξ ξ' : Extractor}
    {code : List Stmt} (h : Yields (stmt s) ξ code ξ') :
    Extracts ξ.labels s.flatten code ξ'.labels := by
  match s with
  | .block span items => exact extracts_stmts (append_eq_nil_iff.1 hs).1 h
  | .declare .. | .label .. | .goto .. | .ret _ | .hint .. | .nop _ | .rollback ..
  | .gotoOn .. =>
    cases h
    exact .same trivial (.nil _)
  | .define span nameSpan x value =>
    have hvalue := (append_eq_nil_iff.1 hs).1
    cases value
    case segment | call =>
      obtain ⟨code', ξ₁, hcode', h⟩ := yields_bind.1 h
      cases h
      have hdeclare : Straight Passing [Stmt.declare span nameSpan x] :=
        Straight.nil.cons ⟨rfl, rfl, trivial, rfl, rfl⟩
      exact .new ⟨rfl, rfl, rfl, rfl⟩ ((Numbers.straight hdeclare).append (numbers_store hvalue hcode'))
    all_goals
      rw [stmt] at h
      · obtain ⟨v, ξ₁, hv, h⟩ := yields_bind.1 h
        cases h
        exact .reading (splits_value hvalue hv) (fun _ ↦ .define ..) fun hends ↦ by cases hends
      · simp
      · simp
  | .assign span x value =>
    exact .new ⟨rfl, rfl, rfl, rfl⟩ (numbers_store (append_eq_nil_iff.1 hs).1 h)
  | .gotoIf span target condition sense =>
    obtain ⟨c, ξ₁, hc, h⟩ := yields_bind.1 h
    obtain ⟨c', ξ₂, hc', h⟩ := yields_bind.1 h
    cases h
    have hsettled := splits_settled (append_eq_nil_iff.1 hs).1 hc hc'
    exact .reading hsettled (fun _ ↦ .gotoIf ..) fun _ ↦ after_of_settled hc'
  | .retValue span value =>
    obtain ⟨v, ξ₁, hv, h⟩ := yields_bind.1 h
    obtain ⟨v', ξ₂, hv', h⟩ := yields_bind.1 h
    cases h
    have hsettled := splits_settled (append_eq_nil_iff.1 hs).1 hv hv'
    exact .reading hsettled (fun _ ↦ .retValue ..) fun _ ↦ after_of_settled hv'
  | .call span callee arguments result =>
    have hparts (e : Expr) (he : e ∈ arguments) : e.visit wrapVisitor = [] :=
      subset_nil.1 ((append_eq_nil_iff.1 hs).1 ▸ Expr.mem_visitAll he)
    exact .new ⟨rfl, rfl, rfl, rfl⟩ (Scheme.From.of_yields (lawful_labelScheme.from_callStatement
      span trivial hparts ⟨fun _ _ _ ↦ trivial, fun _ _ _ ↦ trivial⟩
      (lawful_labelScheme.plans_exprs hparts) fun _ _ ↦ trivial) trivial h).2
  | .expression span e =>
    exact .new ⟨rfl, rfl, rfl, rfl⟩ (Scheme.From.of_yields
      (lawful_labelScheme.plans_expr (append_eq_nil_iff.1 hs).1).discard trivial h).2
  | .compound .. | .ifThen .. | .ifElse .. | .whileLoop .. | .doWhile .. | .on .. => cases h

theorem extracts_stmts {items : List Stmt} (hs : visitAll wrapVisitor items = [])
    {ξ ξ' : Extractor} {code : List Stmt} (h : Yields (stmts items) ξ code ξ') :
    Extracts ξ.labels (flattenAll items) code ξ'.labels := by
  match items with
  | [] =>
    cases h
    exact .nil _
  | s :: rest =>
    obtain ⟨code₁, ξ₁, hcode₁, h⟩ := yields_bind.1 h
    obtain ⟨code₂, ξ₂, hcode₂, h⟩ := yields_bind.1 h
    cases h
    obtain ⟨hs, hrest⟩ := append_eq_nil_iff.1 hs
    exact (extracts_stmt hs hcode₁).append (extracts_stmts hrest hcode₂)

end

end Extract

theorem Stmt.visitAll_eq_nil {α : Type} {v : Visitor α} {items : List Stmt}
    (h : ∀ s ∈ items, s.visit v = []) : visitAll v items = [] := by
  rw [visitAll_eq_flatMap]
  exact flatMap_eq_nil_iff.2 h

/-- The body of a routine is flat, flattening made up its labels, and its jumps stay inside. -/
structure Stmt.FlatClosed (r : Routine) (body : Stmt) : Prop where
  closed : JumpClosed body.flatten
  labels : ∀ l ∈ labels body.flatten, l.Flattening r
  single : ∀ s ∈ body.flatten, s.Single

/-- Lowered code holds no blocks. -/
theorem Lowered.flattenAll_statements {lo : Lowered} (h : lower r body = .ok lo) :
    flattenAll lo.statements = lo.statements := by
  refine Flat.flattenAll fun s hs ↦ ?_
  obtain ⟨r, σ, -, hs | rfl⟩ := Lowered.mem_statements h hs
  · exact flatten_of_mem_flatten hs
  · rfl

/-- What flattening makes of a jumpless body is extracted from the lowered body. -/
theorem Flattens.extracts {flat : Stmt} (hbody : body.Jumpless) (h : Flattens r body flat) :
    ∃ lo σ, lower r body = .ok lo ∧
      Extract.Extracts (Extractor.ofRoutine r).labels lo.statements flat.flatten σ := by
  obtain ⟨lo, e, hlower, hextract, rfl⟩ := h
  obtain ⟨-, hplain, -⟩ := lowered_jumpClosed hbody hlower
  obtain ⟨ξ, hyields⟩ := extract_eq_ok hextract
  rw [Lowered.body] at hyields
  have hextracts := Extract.extracts_stmts (visitAll_eq_nil hplain) hyields
  have hflat : e.body.flatten = e.statements :=
    Flat.flattenAll fun s hs ↦ (hextracts.gains.2 s hs).flatten
  rw [Lowered.flattenAll_statements hlower, ← hflat] at hextracts
  exact ⟨lo, _, hlower, hextracts⟩

/-- What flattening makes of a jumpless body. -/
theorem Flattens.flatClosed {flat : Stmt} (hbody : body.Jumpless) (h : Flattens r body flat) :
    flat.FlatClosed r := by
  obtain ⟨lo, σ, hlower, hextracts⟩ := h.extracts hbody
  obtain ⟨hclosed, -, hkinds⟩ := lowered_jumpClosed hbody hlower
  obtain ⟨⟨made, hdraws, hgains⟩, hsingle⟩ := hextracts.gains
  refine ⟨?_, ?_, hsingle⟩
  · refine hgains.jumpClosed hclosed hdraws.nodup fun l hl hl' ↦ ?_
    obtain ⟨kind, n, ⟨-, hne⟩, hdigits, rfl⟩ := hkinds l hl
    obtain ⟨_, n', rfl, hdigits', heq⟩ := hdraws.exists_kind hl'
    exact hne (Label.numbered_inj hdigits hdigits' heq).1
  · intro l hl
    rcases mem_append.1 (hgains.labels.mem_iff.1 hl) with hl | hl
    · obtain ⟨kind, n, ⟨hkind, -⟩, -, rfl⟩ := hkinds l hl
      exact ⟨kind, hkind, n, rfl⟩
    · obtain ⟨_, n, rfl, -, rfl⟩ := hdraws.exists_kind hl
      exact ⟨"skip", by decide, n, rfl⟩

/-! ### Expansion -/

namespace Expand

section Copy

variable {site : Nat} {bound : Table Variable Variable} {result : Option Variable} {exit : Label}
  (hcode : ∀ s ∈ code, s.Single)

include hcode

/-- The labels of a copy are those of the body, at a site. -/
theorem labels_copies : labels (substituted (copy site bound result exit) code) =
      (labels code).map (·.inSite site) := by
  induction code with
  | nil => rfl
  | cons s rest ih =>
    obtain ⟨hs, hrest⟩ := forall_mem_cons.1 hcode
    rw [substituted_cons, labels_append, ih hrest]
    cases s
    case block | expression => exact hs.elim
    case retValue => cases result <;> rfl
    all_goals rfl

/-- The jumps of a copy are those of the body, at a site, and those that leave it. -/
theorem targets_copies : Stmt.targets (substituted (copy site bound result exit) code) ⊆
      (Stmt.targets code).map (·.inSite site) ++ [exit] := by
  induction code with
  | nil => exact nil_subset _
  | cons s rest ih =>
    obtain ⟨hs, hrest⟩ := forall_mem_cons.1 hcode
    have hfirst : Stmt.targets (s.substitute (copy site bound result exit)).flatten ⊆
        (Stmt.targets [s]).map (·.inSite site) ++ [exit] := by
      cases s
      case block | expression => exact hs.elim
      case ret => exact .refl _
      case retValue => cases result <;> exact .refl _
      all_goals first | exact nil_subset _ | exact subset_append_left _ _
    rw [substituted_cons, targets_append, ← singleton_append, targets_append]
    intro l hl
    have hor := (mem_append.1 hl).imp (hfirst ·) (ih hrest ·)
    simp only [map_append, mem_append] at hor ⊢
    tauto

/-- Substitution does not wrap statements into others. -/
theorem single_copies : ∀ t ∈ substituted (copy site bound result exit) code, t.Single := by
  intro t ht
  obtain ⟨s, hs, ht⟩ := mem_flatMap.1 ht
  have hs := hcode s hs
  cases s
  case block | expression => exact hs.elim
  case retValue =>
    cases result with
    | none =>
      obtain rfl := mem_singleton.1 ht
      trivial
    | some x =>
      rcases mem_cons.1 ht with rfl | ht
      · trivial
      · obtain rfl := mem_singleton.1 ht
        trivial
  all_goals
    obtain rfl := mem_singleton.1 ht
    trivial

end Copy

theorem straight_bindArguments {site : Nat} {written : List Variable} {b : Bindings}
    (h : bindArguments r site span written arguments = .ok b) :
    Straight Passing b.before ∧ Straight Passing b.after :=
  forall_bindArguments (fun _ _ _ ↦ ⟨rfl, rfl, trivial, rfl, rfl⟩)
    (fun _ _ ↦ ⟨rfl, rfl, trivial, rfl, rfl⟩) h

/-- The labels that are made up for the sites after `k` up to `k'`. -/
structure Mints (k : Nat) (made : List Label) (k' : Nat) : Prop where
  le : k ≤ k'
  nodup : made.Nodup
  sites (l : Label) (h : l ∈ made) : ∃ l' site, l = Label.inSite l' site ∧ k < site ∧ site ≤ k'

theorem Mints.nil (k : Nat) : Mints k [] k := ⟨Nat.le_refl k, nodup_nil, by simp⟩

theorem Mints.append {k₁ k₂ : Nat} {made made' : List Label} (h : Mints k made k₁)
    (h' : Mints k₁ made' k₂) : Mints k (made ++ made') k₂ where
  le := Nat.le_trans h.le h'.le
  nodup := by
    refine h.nodup.append h'.nodup fun l hl hl' ↦ ?_
    obtain ⟨_, site, rfl, -, hle⟩ := h.sites l hl
    obtain ⟨_, site', heq, hlt, -⟩ := h'.sites _ hl'
    have hsite := (Label.inSite_inj heq).2
    omega
  sites l hl := by
    rcases mem_append.1 hl with hl | hl
    · obtain ⟨l', site, heq, hlt, hle⟩ := h.sites l hl
      exact ⟨l', site, heq, hlt, Nat.le_trans hle h'.le⟩
    · obtain ⟨l', site, heq, hlt, hle⟩ := h'.sites l hl
      exact ⟨l', site, heq, Nat.lt_of_le_of_lt h.le hlt, hle⟩

/-- The labels of one copy, with the end of the copy. -/
theorem mints_copy {labels : List Label} (k : Nat) (hnodup : labels.Nodup)
    (hexit : r.exitName ∉ labels) :
    Mints k (labels.map (·.inSite (k + 1)) ++ [r.exit (k + 1)]) (k + 1) := by
  have heq : labels.map (·.inSite (k + 1)) ++ [r.exit (k + 1)] =
      (labels ++ [r.exitName]).map (·.inSite (k + 1)) := by
    rw [map_append, map_singleton, r.exit_eq]
  rw [heq]
  refine ⟨Nat.le_succ k, ?_, fun l hl ↦ ?_⟩
  · refine List.Nodup.map (fun l l' h ↦ (Label.inSite_inj h).1) ?_
    refine hnodup.append (nodup_singleton _) fun l hl hl' ↦ ?_
    obtain rfl := mem_singleton.1 hl'
    exact hexit hl
  · obtain ⟨l', -, rfl⟩ := mem_map.1 hl
    exact ⟨l', k + 1, rfl, Nat.lt_succ_self k, Nat.le_refl _⟩

variable {i : Inliner}

/-- Expansion makes code from other code: it adds the labels of copies, and every jump that is added
names one of them. -/
def Extends (k : Nat) (source code : List Stmt) (k' : Nat) : Prop :=
  (∃ made, Mints k made k' ∧ Gains source code made) ∧ ∀ s ∈ code, s.Single

theorem extends_call {inner : Routine → List Stmt → Expand (List Stmt)} {q : Routine}
    (hbody : ∀ body, i.bodies.get? q = some body → body.FlatClosed q)
    (hinner : ∀ {r code X k k'}, (∀ s ∈ code, s.Single) → Yields (inner r code) k X k' →
      Extends k code X k') {result : Option Variable}
    (h : Yields (call i inner span q arguments result) k X k') :
    Extends k [.call span (.routine q) arguments result] X k' := by
  obtain ⟨body, b, Y, hget, -, hb, hyields, rfl⟩ := yields_call h
  obtain ⟨hclosed, hlabels, hsingle⟩ := hbody body hget
  obtain ⟨hbefore, hafter⟩ := straight_bindArguments hb
  rw [flatten_substitute] at hyields
  obtain ⟨⟨made, hmints, hgains⟩, hY⟩ := hinner (single_copies hsingle) hyields
  have hexit : q.exitName ∉ labels body.flatten := fun hexit ↦ (hlabels _ hexit).written.2 rfl
  refine ⟨⟨_, (mints_copy k hclosed.nodup hexit).append hmints, ?_, ?_⟩, ?_⟩
  · have hperm := hgains.labels
    rw [labels_copies hsingle] at hperm
    refine perm_iff_count.2 fun l ↦ ?_
    have hcount := perm_iff_count.1 hperm l
    simp only [labels_append, labels_label, hbefore.labels, hafter.labels,
      count_append, hcount, labels_nil,
      labels_cons_of_none (rfl : label? (.call ..) = none)]
    omega
  · simp only [targets_append, targets_cons, hbefore.targets, hafter.targets]
    intro l hl
    have hl : l ∈ Stmt.targets Y := by simpa [target?] using hl
    rcases mem_append.1 (hgains.targets hl) with hl | hl
    · rcases mem_append.1 (targets_copies hsingle hl) with hl | hl
      · obtain ⟨l', hl', rfl⟩ := mem_map.1 hl
        have hdefined : l'.inSite (k + 1) ∈ (labels body.flatten).map (·.inSite (k + 1)) :=
          mem_map_of_mem (hclosed.defined hl')
        simp [hdefined]
      · simp [mem_singleton.1 hl]
    · simp [hl]
  · simp only [forall_mem_append, forall_mem_cons]
    exact ⟨fun s hs ↦ (hbefore.each s hs).1, hY, trivial, fun s hs ↦ (hafter.each s hs).1⟩

theorem extends_stmts (hbodies : ∀ r body, i.bodies.get? r = some body → body.FlatClosed r)
    {depth : Nat} (hcode : ∀ s ∈ code, s.Single) (h : Yields (stmts i depth r code) k X k') :
    Extends k code X k' := by
  refine forall_stmts (fun k ↦ ⟨⟨[], .nil k, .refl []⟩, forall_mem_nil _⟩) ?_
    (fun k s hs ↦ ⟨⟨[], .nil k, .refl _⟩, by simpa using hs⟩)
    (fun {_ q} _ ih _ _ _ _ _ _ _ ↦ extends_call (hbodies q) ih) hcode h
  rintro _ _ _ _ _ _ _ ⟨⟨made₁, hmints₁, hgains₁⟩, hX₁⟩ ⟨⟨made₂, hmints₂, hgains₂⟩, hX₂⟩
  exact ⟨⟨made₁ ++ made₂, hmints₁.append hmints₂, hgains₁.append hgains₂⟩,
    forall_mem_append.2 ⟨hX₁, hX₂⟩⟩

end Expand

/-! ### Preparation -/

/-- Code in goto form: no statement holds others, no label is defined twice, and every jump names one
that is defined. -/
structure Stmt.Prepared (code : List Stmt) : Prop extends JumpClosed code where
  single : ∀ s ∈ code, s.Single

theorem Stmt.Prepared.flatten (h : Prepared body.items) : body.flatten = body.items := by
  cases body with
  | block span items => exact Flat.flattenAll fun s hs ↦ (h.single s hs).flatten
  | _ => rfl

/-- Code whose labels are all made up by flattening stays closed when calls are expanded. -/
theorem Inliner.prepared_expand {i : Inliner}
    (hbodies : ∀ entry ∈ i.bodies.entries, entry.2.FlatClosed entry.1) (hr : body.FlatClosed r)
    {e : Expanded} (h : Yields (i.expand r body) k e k') : Prepared e.statements := by
  obtain ⟨⟨made, hmints, hgains⟩, hsingle⟩ := Expand.extends_stmts
    (fun q body hbody ↦ hbodies _ (Table.mem_of_get? hbody)) hr.single (Inliner.yields_expand h)
  refine ⟨hgains.jumpClosed hr.closed hmints.nodup fun l hl hl' ↦ ?_, hsingle⟩
  obtain ⟨l', site, rfl, hpos, -⟩ := hmints.sites l hl'
  have hle := (hr.labels _ hl).written.1 l' site rfl
  omega

theorem Naming.items_substitute (st : Naming) (s : Stmt) :
    (s.substitute st.substitution).items = s.items.map (substitute st.substitution) := by
  cases s
  case block => exact substituteAll_eq_map _ _
  all_goals rfl

/-- New names leave labels and jumps as they are. -/
theorem Stmt.Prepared.named (h : Prepared code) (st : Naming) :
    Prepared (code.map (substitute st.substitution)) := by
  have hlabels : labels (code.map (substitute st.substitution)) = labels code := by
    rw [labels, filterMap_map]
    exact filterMap_congr fun s _ ↦ st.label?_substitute s
  have htargets : targets (code.map (substitute st.substitution)) = targets code := by
    rw [targets, filterMap_map]
    exact filterMap_congr fun s _ ↦ by cases s <;> rfl
  refine ⟨⟨hlabels ▸ h.nodup, hlabels ▸ htargets ▸ h.defined⟩, fun t ht ↦ ?_⟩
  obtain ⟨s, hs, rfl⟩ := mem_map.1 ht
  have hsingle := h.single s hs
  cases s <;> first | exact hsingle.elim | trivial

theorem Program.prepared_of_yields {p : Program} {a : Analysis} {mode : Inlining} {b : Bodies}
    {notices notices' : List Notice} (hp : ∀ entry ∈ p.bodies.entries, entry.2.Jumpless)
    (h : Yields (p.prepare a mode) notices b notices') :
    ∀ entry ∈ b.entries, Prepared entry.2.items := by
  obtain ⟨flat, _, entries, _, live, -, hflat, heach, hcalled, rfl⟩ := exists_of_yields_prepare h
  have hclosed : ∀ entry ∈ flat.entries, entry.2.FlatClosed entry.1 := by
    intro entry hentry
    obtain ⟨body, hbody, hflattens⟩ := mem_entries_flat hflat hentry
    exact hflattens.flatClosed (hp _ hbody)
  have hexpanded := forall_expandEach (Q := fun s ↦ Prepared s.items)
    (fun _ h _ _ _ ↦ Inliner.prepared_expand hclosed h)
    (fun entry hentry ↦ hclosed entry (mem_filter.1 hentry).1) heach
  intro entry hentry
  obtain ⟨source, hsource, rfl⟩ := mem_map.1 hentry
  rw [Naming.items_substitute]
  exact (hexpanded source ((of_called hcalled).1 hsource)).named _

end Wirescript
