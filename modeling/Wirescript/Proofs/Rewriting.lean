import Wirescript.Flat.Lowered
import Wirescript.Proofs.Outcome

/-!
# How lowering goes through a tree

Laws of lowering relate a tree to what becomes of it and to the labels that are made up for it, and
they all go through the tree in the same way. A `Lower.Scheme` says what is to hold, `Scheme.Lawful`
is what has to be shown of single nodes, and from that everything follows for trees
(`Lawful.from_stmt`). The text of the pass is read here and nowhere else.
-/

namespace Wirescript

/-- Lowering leaves the expression as it is. -/
def Expr.isAtom : Expr → Bool
  | .literal _ _ | .read _ _ | .step _ _ _ _ | .error _ => true
  | _ => false

/-- Lowering leaves the statement as it is. -/
def Stmt.isAtom : Stmt → Bool
  | .declare _ _ _ | .label _ _ | .goto _ _ | .rollback _ _ | .ret _ | .hint _ _ | .nop _ => true
  | _ => false

namespace Lower

/-! ### Single nodes -/

variable {n : Note}

/-- An operator becomes a value that its note or its operands name, or stays one: with the note it
came with if no operand changed, and with a derived one otherwise. -/
theorem settle_cases {changed : Bool} {kept derived : Expr} {P : Revised Expr → Prop}
    (hvalue : ∀ v, (if changed then none else n.constant).or derived.constant = some v → P (.new
      (Build.literal v n.span))) (hkept : changed = false → P (.same kept))
    (hderived : changed = true → P (.new derived)) : P (settle n changed kept derived) := by
  unfold settle
  split
  · next v hv => exact hvalue v hv
  · cases changed with
    | true => exact hderived rfl
    | false => exact hkept rfl

/-- A call stays one, or all its arguments are known and its value takes its place. -/
theorem foldCall_cases {callee : Callee} {arguments : Revised (List Expr)} {r : Revised Expr}
    (h : foldCall n callee arguments = .ok r) : r = arguments.map (.call n callee) ∨
      ∃ b evaluator values v, callee.builtin? = some b ∧ b.evaluator = some evaluator ∧
        arguments.node.mapM Expr.constant = some values ∧ evaluator.compute? values = some v ∧
        r = .new (Build.literal v n.span) := by
  unfold foldCall at h
  split at h
  · exact .inl (Except.ok.inj h).symm
  · next b hb =>
    split at h
    · exact .inl (Except.ok.inj h).symm
    · cases h
    · next evaluator hevaluator _ =>
      split at h
      · next v hv =>
        obtain ⟨values, hvalues, hv⟩ := Option.bind_eq_some_iff.1 hv
        exact .inr ⟨b, evaluator, values, v, hb, hevaluator, hvalues, hv, (Except.ok.inj h).symm⟩
      · exact .inl (Except.ok.inj h).symm

/-- A jump on a condition stays one, unless the condition is known. -/
theorem jumpIf_cases {condition : Expr} {target : Label} {sense : Bool} {span : Span}
    {P : Stmt → Prop} (hgoto : P (.goto span target)) (hnop : P (.nop span))
    (hgotoIf : P (.gotoIf span target condition sense)) : P (jumpIf condition target sense span) := by
  unfold jumpIf
  split
  · split
    · exact hgoto
    · exact hnop
  · exact hgotoIf

/-! ### Schemes -/

/-- What is to hold of trees and of what becomes of them, between two states of the supply. -/
structure Scheme where
  /-- Why lowering may stop. -/
  fault : Fault → Prop := fun _ ↦ True
  supply : LabelSupply → Prop := fun _ ↦ True
  expr : Expr → LabelSupply → Revised Expr → LabelSupply → Prop := fun _ _ _ _ ↦ True
  exprs : List Expr → LabelSupply → Revised (List Expr) → LabelSupply → Prop := fun _ _ _ _ ↦ True
  stmt : Stmt → LabelSupply → Revised Stmt → LabelSupply → Prop := fun _ _ _ _ ↦ True
  stmts : List Stmt → LabelSupply → Revised (List Stmt) → LabelSupply → Prop := fun _ _ _ _ ↦ True

/-- What holds of single nodes. -/
structure Scheme.Lawful (L : Scheme) : Prop where
  byReference (b p) : L.fault (.constantByReference b p) := by intros; trivial
  fresh {σ} (h : L.supply σ) (kind) : L.supply (σ.fresh kind).2 := by intros; trivial
  atom {e} (h : e.isAtom = true) (σ) : L.expr e σ (.same e) σ := by intros; trivial
  unary {n op e σ o σ'} (h : L.expr e σ o σ') : L.expr (.unary n op e) σ
    (settle n o.changed (.unary n op o.node) (Build.unary op o.node n.span)) σ' := by intros; trivial
  binary {n op e f σ l σ₁ r σ₂} (hl : L.expr e σ l σ₁) (hr : L.expr f σ₁ r σ₂) :
    L.expr (.binary n op e f) σ (settle n (l.changed || r.changed) (.binary n op l.node r.node)
      (Build.binary op l.node r.node n.span)) σ₂ := by intros; trivial
  make {n e f g σ x σ₁ y σ₂ z σ₃} (hx : L.expr e σ x σ₁) (hy : L.expr f σ₁ y σ₂)
    (hz : L.expr g σ₂ z σ₃) : L.expr (.make n e f g) σ
      (settle n (x.changed || y.changed || z.changed) (.make n x.node y.node z.node)
        (Build.make n.type x.node y.node z.node n.span)) σ₃ := by intros; trivial
  call {n callee es σ as σ' r} (h : L.exprs es σ as σ') (hr : foldCall n callee as = .ok r) :
    L.expr (.call n callee es) σ r σ' := by intros; trivial
  convert {n e σ o σ'} (h : L.expr e σ o σ') : L.expr (.convert n e) σ
    (settle n o.changed (.convert n o.node) (Build.convert o.node n.type n.span)) σ' := by
      intros; trivial
  segment {n es σ r σ'} (h : L.exprs es σ r σ') : L.expr (.segment n es) σ (r.map (.segment n)) σ' := by
    intros; trivial
  assign {n x e σ v σ'} (h : L.expr e σ v σ') : L.expr (.assign n x e) σ (v.map (.assign n x)) σ' := by
    intros; trivial
  compound {n x op e σ v σ'} (h : L.expr e σ v σ') : L.expr (.compound n x op e) σ
    (.new (Build.assign x (Build.combined x op v.node n.span) n.span)) σ' := by intros; trivial
  statement {n s σ r σ'} (h : L.stmt s σ r σ') :
    L.expr (.statement n s) σ (r.map (.statement n)) σ' := by intros; trivial
  nil (σ) : L.exprs [] σ (.same []) σ := by intros; trivial
  cons {e es σ r σ₁ rs σ₂} (h : L.expr e σ r σ₁) (hs : L.exprs es σ₁ rs σ₂) :
    L.exprs (e :: es) σ (.map₂ List.cons r rs) σ₂ := by intros; trivial
  atomStmt {s} (h : s.isAtom = true) (σ) : L.stmt s σ (.same s) σ := by intros; trivial
  block {span items σ r σ'} (h : L.stmts items σ r σ') :
    L.stmt (.block span items) σ (r.map (.block span)) σ' := by intros; trivial
  define {span nameSpan x e σ v σ'} (h : L.expr e σ v σ') :
    L.stmt (.define span nameSpan x e) σ (v.map (.define span nameSpan x)) σ' := by intros; trivial
  store {span x e σ v σ'} (h : L.expr e σ v σ') :
    L.stmt (.assign span x e) σ (v.map (.assign span x)) σ' := by intros; trivial
  combine {span x op e σ v σ'} (h : L.expr e σ v σ') : L.stmt (.compound span x op e) σ
    (.new (.assign span x (Build.combined x op v.node span))) σ' := by intros; trivial
  retValue {span e σ v σ'} (h : L.expr e σ v σ') :
    L.stmt (.retValue span e) σ (v.map (.retValue span)) σ' := by intros; trivial
  expression {span e σ v σ'} (h : L.expr e σ v σ') :
    L.stmt (.expression span e) σ (v.map (.expression span)) σ' := by intros; trivial
  invoke {span callee es result σ r σ'} (h : L.exprs es σ r σ') :
    L.stmt (.call span callee es result) σ (r.map (.call span callee · result)) σ' := by
      intros; trivial
  gotoIf {span l e sense σ c σ'} (h : L.expr e σ c σ') :
    L.stmt (.gotoIf span l e sense) σ (.new (jumpIf c.node l sense span)) σ' := by intros; trivial
  gotoOn {span l event es σ r σ'} (h : L.exprs es σ r σ') :
    L.stmt (.gotoOn span l event es) σ (r.map (.gotoOn span l event)) σ' := by intros; trivial
  ifThen {span e s σ c σ₁ b σ₂} (hσ : L.supply σ₂) (hc : L.expr e σ c σ₁) (hb : L.stmt s σ₁ b σ₂) :
    L.stmt (.ifThen span e s) σ (.new (.block span ([jumpIf c.node (σ₂.fresh "end").1 false span]
      ++ grouped b.node ++ [.label span (σ₂.fresh "end").1]))) (σ₂.fresh "end").2 := by
        intros; trivial
  ifElse {span e s t σ c σ₁ b σ₂ a σ₃} (hσ : L.supply σ₃) (hc : L.expr e σ c σ₁)
    (hb : L.stmt s σ₁ b σ₂) (ha : L.stmt t σ₂ a σ₃) :
    L.stmt (.ifElse span e s t) σ (.new (.block span
      ([jumpIf c.node ((σ₃.fresh "end").2.fresh "else").1 false span] ++ grouped b.node
        ++ [.goto span (σ₃.fresh "end").1, .label span ((σ₃.fresh "end").2.fresh "else").1]
        ++ grouped a.node ++ [.label span (σ₃.fresh "end").1])))
      ((σ₃.fresh "end").2.fresh "else").2 := by intros; trivial
  whileLoop {span e s σ c σ₁ b σ₂} (hσ : L.supply σ₂) (hc : L.expr e σ c σ₁)
    (hb : L.stmt s σ₁ b σ₂) :
    L.stmt (.whileLoop span e s) σ (.new (.block span [.label span (σ₂.fresh "continue").1,
      jumpIf c.node ((σ₂.fresh "continue").2.fresh "break").1 false span, b.node,
      .goto span (σ₂.fresh "continue").1,
      .label span ((σ₂.fresh "continue").2.fresh "break").1]))
      ((σ₂.fresh "continue").2.fresh "break").2 := by intros; trivial
  doWhile {span s e σ b σ₁ c σ₂} (hσ : L.supply σ₂) (hb : L.stmt s σ b σ₁)
    (hc : L.expr e σ₁ c σ₂) :
    L.stmt (.doWhile span s e) σ (.new (.block span [.label span (σ₂.fresh "body").1, b.node,
      .label span ((σ₂.fresh "body").2.fresh "continue").1,
      jumpIf c.node (σ₂.fresh "body").1 true span,
      .label span (((σ₂.fresh "body").2.fresh "continue").2.fresh "break").1]))
      (((σ₂.fresh "body").2.fresh "continue").2.fresh "break").2 := by intros; trivial
  on {span event es s σ a σ₁ b σ₂} (hσ : L.supply σ₂) (ha : L.exprs es σ a σ₁)
    (hb : L.stmt s σ₁ b σ₂) :
    L.stmt (.on span event es s) σ (.new (.block span [
      .gotoOn span (σ₂.fresh "event").1 event a.node,
      .goto span ((σ₂.fresh "event").2.fresh "end").1, .label span (σ₂.fresh "event").1, b.node,
      .rollback span ((σ₂.fresh "event").2.fresh "end").1,
      .label span ((σ₂.fresh "event").2.fresh "end").1]))
      ((σ₂.fresh "event").2.fresh "end").2 := by intros; trivial
  nilStmts (σ) : L.stmts [] σ (.same []) σ := by intros; trivial
  consStmts {s items σ r σ₁ rs σ₂} (h : L.stmt s σ r σ₁) (hs : L.stmts items σ₁ rs σ₂) :
    L.stmts (s :: items) σ (.map₂ List.cons r rs) σ₂ := by intros; trivial

namespace Scheme

variable {L : Scheme} {α β : Type} {σ σ' : LabelSupply} {Q : α → LabelSupply → Prop}
  {R : β → LabelSupply → Prop}

/-- Started in a state, the computation ends with an outcome and a state that are related, or stops
for one of the reasons. -/
def From (L : Scheme) (σ : LabelSupply) (x : Lower α) (Q : α → LabelSupply → Prop) : Prop :=
  L.supply σ → Outcome L.fault (fun p ↦ L.supply p.2 ∧ Q p.1 p.2) (x.run σ)

theorem From.pure {a : α} (h : Q a σ) : L.From σ (pure a) Q := fun hσ ↦ ⟨hσ, h⟩

theorem From.bind {x : Lower α} {f : α → Lower β} (hx : L.From σ x Q)
    (hf : ∀ a σ', Q a σ' → L.From σ' (f a) R) : L.From σ (x >>= f) R := by
  intro hσ
  exact (hx hσ).bind fun p hp ↦ hf p.1 p.2 hp.2 hp.1

theorem From.label {f : Label → Lower β} {kind : String} (h : L.Lawful)
    (hf : L.supply σ → L.From (σ.fresh kind).2 (f (σ.fresh kind).1) R) :
    L.From σ (label kind >>= f) R :=
  fun hσ ↦ hf hσ (h.fresh hσ kind)

theorem From.of_run {x : Lower α} {a : α} (h : L.From σ x Q) (hσ : L.supply σ)
    (hrun : x.run σ = .ok (a, σ')) : L.supply σ' ∧ Q a σ' := by
  have h := h hσ
  rw [hrun] at h
  exact h

theorem Lawful.from_foldCall (h : L.Lawful) {callee : Callee} {as : Revised (List Expr)}
    {R : Revised Expr → LabelSupply → Prop} (hr : ∀ r, foldCall n callee as = .ok r → R r σ) :
    L.From σ (liftM (foldCall n callee as)) R := by
  intro hσ
  rcases hfold : foldCall n callee as with f | r
  · show L.fault f
    unfold foldCall at hfold
    split at hfold
    · cases hfold
    · split at hfold
      · cases hfold
      · cases hfold
        exact h.byReference _ _
      · split at hfold <;> cases hfold
  · exact ⟨hσ, hr r hfold⟩

mutual

theorem Lawful.from_expr (h : L.Lawful) (e : Expr) (σ : LabelSupply) :
    L.From σ (Lower.expr e) (L.expr e σ) := by
  match e with
  | .literal .. | .read .. | .step .. | .error _ =>
    rw [Lower.expr]
    exact .pure (h.atom rfl σ)
  | .unary n op e => exact (h.from_expr e σ).bind fun _ _ ho ↦ .pure (h.unary ho)
  | .binary n op e f =>
    exact (h.from_expr e σ).bind fun _ _ hl ↦ (h.from_expr f _).bind fun _ _ hr ↦
      .pure (h.binary hl hr)
  | .make n e f g =>
    exact (h.from_expr e σ).bind fun _ _ hx ↦ (h.from_expr f _).bind fun _ _ hy ↦
      (h.from_expr g _).bind fun _ _ hz ↦ .pure (h.make hx hy hz)
  | .call n callee es =>
    exact (h.from_exprs es σ).bind fun _ _ hes ↦ h.from_foldCall fun _ hr ↦ h.call hes hr
  | .convert n e => exact (h.from_expr e σ).bind fun _ _ ho ↦ .pure (h.convert ho)
  | .segment n es => exact (h.from_exprs es σ).bind fun _ _ hes ↦ .pure (h.segment hes)
  | .assign n x e => exact (h.from_expr e σ).bind fun _ _ hv ↦ .pure (h.assign hv)
  | .compound n x op e => exact (h.from_expr e σ).bind fun _ _ hv ↦ .pure (h.compound hv)
  | .statement n s => exact (h.from_stmt s σ).bind fun _ _ hs ↦ .pure (h.statement hs)

theorem Lawful.from_exprs (h : L.Lawful) (es : List Expr) (σ : LabelSupply) :
    L.From σ (Lower.exprs es) (L.exprs es σ) := by
  match es with
  | [] =>
    rw [Lower.exprs]
    exact .pure (h.nil σ)
  | e :: es =>
    exact (h.from_expr e σ).bind fun _ _ he ↦ (h.from_exprs es _).bind fun _ _ hes ↦
      .pure (h.cons he hes)

theorem Lawful.from_stmt (h : L.Lawful) (s : Stmt) (σ : LabelSupply) :
    L.From σ (Lower.stmt s) (L.stmt s σ) := by
  match s with
  | .declare .. | .label .. | .goto .. | .rollback .. | .ret _ | .hint .. | .nop _ =>
    rw [Lower.stmt]
    exact .pure (h.atomStmt rfl σ)
  | .block span items => exact (h.from_stmts items σ).bind fun _ _ hs ↦ .pure (h.block hs)
  | .define span nameSpan x e => exact (h.from_expr e σ).bind fun _ _ hv ↦ .pure (h.define hv)
  | .assign span x e => exact (h.from_expr e σ).bind fun _ _ hv ↦ .pure (h.store hv)
  | .compound span x op e => exact (h.from_expr e σ).bind fun _ _ hv ↦ .pure (h.combine hv)
  | .retValue span e => exact (h.from_expr e σ).bind fun _ _ hv ↦ .pure (h.retValue hv)
  | .expression span e => exact (h.from_expr e σ).bind fun _ _ hv ↦ .pure (h.expression hv)
  | .call span callee es result => exact (h.from_exprs es σ).bind fun _ _ hes ↦ .pure (h.invoke hes)
  | .gotoIf span l e sense => exact (h.from_expr e σ).bind fun _ _ hc ↦ .pure (h.gotoIf hc)
  | .gotoOn span l event es => exact (h.from_exprs es σ).bind fun _ _ hes ↦ .pure (h.gotoOn hes)
  | .ifThen span e s =>
    exact (h.from_expr e σ).bind fun _ _ hc ↦ (h.from_stmt s _).bind fun _ _ hb ↦
      .label h fun hσ ↦ .pure (h.ifThen hσ hc hb)
  | .ifElse span e s t =>
    exact (h.from_expr e σ).bind fun _ _ hc ↦ (h.from_stmt s _).bind fun _ _ hb ↦
      (h.from_stmt t _).bind fun _ _ ha ↦ .label h fun hσ ↦ .label h fun _ ↦
        .pure (h.ifElse hσ hc hb ha)
  | .whileLoop span e s =>
    exact (h.from_expr e σ).bind fun _ _ hc ↦ (h.from_stmt s _).bind fun _ _ hb ↦
      .label h fun hσ ↦ .label h fun _ ↦ .pure (h.whileLoop hσ hc hb)
  | .doWhile span s e =>
    exact (h.from_stmt s σ).bind fun _ _ hb ↦ (h.from_expr e _).bind fun _ _ hc ↦
      .label h fun hσ ↦ .label h fun _ ↦ .label h fun _ ↦ .pure (h.doWhile hσ hb hc)
  | .on span event es s =>
    exact (h.from_exprs es σ).bind fun _ _ ha ↦ (h.from_stmt s _).bind fun _ _ hb ↦
      .label h fun hσ ↦ .label h fun _ ↦ .pure (h.on hσ ha hb)

theorem Lawful.from_stmts (h : L.Lawful) (items : List Stmt) (σ : LabelSupply) :
    L.From σ (Lower.stmts items) (L.stmts items σ) := by
  match items with
  | [] =>
    rw [Lower.stmts]
    exact .pure (h.nilStmts σ)
  | s :: rest =>
    exact (h.from_stmt s σ).bind fun _ _ hs ↦ (h.from_stmts rest _).bind fun _ _ hrest ↦
      .pure (h.consStmts hs hrest)

end

end Scheme

end Lower

end Wirescript
