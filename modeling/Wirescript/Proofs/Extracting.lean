import Wirescript.Flat.Extracted
import Wirescript.Proofs.Outcome
import Wirescript.Proofs.Visits

/-!
# How extraction goes through a tree

Laws of extraction differ in what they say about its outcome: what values and statements mention,
which calls they hold, what their notes say, where their labels come from. They all go through the
tree in the same way. An `Extract.Scheme` says what is to hold, `Scheme.Lawful` is what has to be
shown of single nodes, and from that everything follows for trees (`Lawful.plans_expr`,
`Lawful.from_stmt`).
-/

namespace Wirescript

open List

variable {array : Expr} {items : Extract Operands} {value : Extract Split}

/-! ### Single nodes -/

/-- The expressions right below an expression. -/
def Expr.operands : Expr → List Expr
  | .literal _ _ | .read _ _ | .step _ _ _ _ | .error _ | .statement _ _ => []
  | .unary _ _ operand | .convert _ operand => [operand]
  | .binary _ _ left right => [left, right]
  | .make _ x y z => [x, y, z]
  | .call _ _ arguments => arguments
  | .segment _ items => items
  | .assign _ _ value | .compound _ _ _ value => [value]

/-- The expressions right below a flat statement. -/
def Stmt.operands : Stmt → List Expr
  | .define _ _ _ value | .assign _ _ value | .gotoIf _ _ value _ | .retValue _ value
  | .expression _ value => [value]
  | .call _ _ arguments _ => arguments
  | _ => []

def Expr.IsOperator : Expr → Prop
  | .unary _ _ _ | .convert _ _ | .binary _ _ _ _ | .make _ _ _ _ => True
  | _ => False

/-- The operator with other operands. -/
def Expr.withOperands : Expr → List Expr → Expr
  | .unary n op _, [a] => .unary n op a
  | .convert n _, [a] => .convert n a
  | .binary n op _ _, [a, b] => .binary n op a b
  | .make n _ _ _, [a, b, c] => .make n a b c
  | e, _ => e

/-- The operator built anew from other operands. -/
def Expr.rebuild : Expr → List Expr → Expr
  | .unary n op _, [a] => Build.unary op a n.span
  | .convert n _, [a] => Build.convert a n.type n.span
  | .binary n op _ _, [a, b] => Build.binary op a b n.span
  | .make n _ _ _, [a, b, c] => Build.make n.type a b c n.span
  | e, _ => e

/-- The expression has nothing below it and no effect. -/
def Expr.IsPlain : Expr → Prop
  | .literal _ _ | .read _ _ | .error _ => True
  | _ => False

/-- The expression may leave its value in the variable. -/
def Expr.LeftIn (x : Variable) : Expr → Prop
  | .call _ callee _ => x.type = callee.returnType
  | .binary _ op _ _ => op.isShortCircuit = true ∧ x.type = .bool
  | .step _ y _ _ | .assign _ y _ => x = y
  | _ => False

/-- The expression leaves no value. -/
def Expr.IsVoid : Expr → Prop
  | .call _ callee _ => callee.returnType.isVoid = true
  | .statement _ _ => True
  | _ => False

/-- The variable that an expression writes itself. -/
def Expr.written? : Expr → Option Variable
  | .step _ x _ _ | .assign _ x _ => some x
  | _ => none

/-- The variable that a flat statement writes itself. -/
def Stmt.written? : Stmt → Option Variable
  | .define _ _ x _ | .assign _ x _ => some x
  | .call _ _ _ result => result
  | _ => none

def Expr.isList : Expr → Bool
  | .segment .. => true
  | _ => false

def Expr.isCall : Expr → Bool
  | .call .. => true
  | _ => false

/-- The call stores values to a range of an array. -/
def Callee.storesRange (callee : Callee) : Bool := callee.builtin?.any (·.name == "setRange")

/-- The arguments other than what is stored to a range. -/
def Callee.unlisted (callee : Callee) (arguments : List Expr) : List Expr :=
  if callee.storesRange then arguments.dropLast else arguments

theorem Callee.dropLast_subset_unlisted (callee : Callee) (arguments : List Expr) :
    arguments.dropLast ⊆ callee.unlisted arguments := by
  unfold unlisted
  split
  · exact .refl _
  · exact dropLast_subset _

/-- The operands other than what is stored. -/
def Expr.unlisted : Expr → List Expr
  | .assign _ _ _ => []
  | .call _ callee arguments => callee.unlisted arguments
  | e => e.operands

@[inherit_doc Expr.unlisted]
def Stmt.unlisted : Stmt → List Expr
  | .define _ _ _ _ | .assign _ _ _ | .expression _ _ => []
  | .call _ callee arguments _ => callee.unlisted arguments
  | s => s.operands

/-- The operands that a flat statement needs the values of. -/
def Stmt.valued : Stmt → List Expr
  | .expression _ _ => []
  | s => s.operands

/-- Extraction leaves the statement as it is. -/
def Stmt.Stays : Stmt → Prop
  | .declare _ _ _ | .label _ _ | .goto _ _ | .gotoOn _ _ _ _ | .rollback _ _ | .ret _ | .hint _ _
  | .nop _ => True
  | _ => False

section Visits

variable {α : Type} (v : Visitor α)

theorem Expr.visit_operand_subset {e c : Expr} (hc : c ∈ e.operands) : c.visit v ⊆ e.visit v := by
  rw [Expr.visit.eq_def v e]
  refine subset_append_of_subset_right _ ?_
  cases e
  case call | segment => exact Expr.mem_visitAll hc
  all_goals simp only [operands] at hc
  all_goals aesop

theorem Stmt.visit_operand_subset {s : Stmt} {c : Expr} (hc : c ∈ s.operands) :
    c.visit v ⊆ s.visit v := by
  rw [Stmt.visit.eq_def]
  refine subset_append_of_subset_left _ (subset_append_of_subset_right _ ?_)
  cases s
  case call => exact Expr.mem_visitAll hc
  all_goals simp only [operands, mem_cons, not_mem_nil, or_false] at hc
  all_goals exact hc ▸ .refl _

end Visits

namespace Extract

/-! ### Operators -/

section Operators

variable {n : Note} {e x y z left right : Expr}

/-- The operator made of the values of its operands. -/
def remade (e : Expr) (o : Operands) : Split :=
  ⟨o.before, .choose o.values.changed (e.withOperands o.values.node) (e.rebuild o.values.node),
    o.after⟩

attribute [local simp] expr Plan.ofValue Plan.operands gather ahead remade Expr.withOperands
  Expr.rebuild Revised.map₂ Revised.same Bool.or_assoc

theorem value_unary {op : UnaryOp} : (expr (.unary n op e)).value = (do
    let o ← Plan.operands [expr e]
    return remade (.unary n op e) o) := by simp

theorem value_convert : (expr (.convert n e)).value = (do
    let o ← Plan.operands [expr e]
    return remade (.convert n e) o) := by simp

theorem value_make : (expr (.make n x y z)).value = (do
    let o ← Plan.operands [expr x, expr y, expr z]
    return remade (.make n x y z) o) := by simp

theorem value_binary {op : BinaryOp} : (expr (.binary n op left right)).value = (do
    let l ← (expr left).value
    let r ← (expr right).value
    if op.isShortCircuit && r.hasEffects then shortCircuit op l r n.span
    else
      let o ← gather [l, r]
      return remade (.binary n op left right) o) := by simp

end Operators

/-! ### Schemes -/

/-- What is to hold of trees before extraction, and of values and code after it. -/
structure Scheme where
  /-- Why extraction may stop. -/
  fault : Fault → Prop
  /-- Whether lists and expressions without a value may stand anywhere. -/
  anywhere : Prop := True
  supply : Extractor → Prop
  source : Expr → Prop
  sourceStmt : Stmt → Prop
  /-- Variables that may be written. -/
  target : Variable → Prop
  calls : Callee → List Expr → Prop
  /-- What may stand for an expression. -/
  value : Expr → Revised Expr → Prop
  values : List Expr → Revised (List Expr) → Prop
  /-- Arrays that elements are stored to. -/
  array : Expr → Prop
  line : Stmt → Prop
  /-- Code whose labels were handed out from one supply to the other. -/
  code : LabelSupply → List Stmt → LabelSupply → Prop

/-- What holds of single nodes. -/
structure Scheme.Lawful (L : Scheme) : Prop where
  breach (b) : L.fault (.internal b)
  fresh {ξ} (h : L.supply ξ) (type) :
    L.target (.slot ⟨.extracted ξ.routine ξ.temporaries.next, ξ.temporaries.fresh.1, type,
      .temporary, {}⟩) ∧ L.supply { ξ with temporaries := ξ.temporaries.fresh.2 }
  skipped {ξ} (h : L.supply ξ) : L.supply { ξ with labels := (ξ.labels.fresh "skip").2 }
  operand {e} (h : L.source e) : ∀ c ∈ e.operands, L.source c
  operandStmt {s} (h : L.sourceStmt s) : ∀ c ∈ s.operands, L.source c
  valued {e c} (h : L.source e) (hc : c ∈ e.operands) (hv : c.IsVoid) : L.anywhere := by
    exact fun _ _ _ ↦ trivial
  valuedStmt {s c} (h : L.sourceStmt s) (hc : c ∈ s.valued) (hv : c.IsVoid) : L.anywhere := by
    exact fun _ _ _ ↦ trivial
  unlisted {e c} (h : L.source e) (hc : c ∈ e.unlisted) (hl : c.isList = true) : L.anywhere := by
    exact fun _ _ _ ↦ trivial
  unlistedStmt {s c} (h : L.sourceStmt s) (hc : c ∈ s.unlisted) (hl : c.isList = true) :
    L.anywhere := by exact fun _ _ _ ↦ trivial
  body {n s} (h : L.source (.statement n s)) : L.sourceStmt s
  item {span items} (h : L.sourceStmt (.block span items)) : ∀ s ∈ items, L.sourceStmt s
  written {e} (h : L.source e) : ∀ x ∈ e.written?, L.target x
  writtenStmt {s} (h : L.sourceStmt s) : ∀ x ∈ s.written?, L.target x
  callee {n c es} (h : L.source (.call n c es)) : L.calls c es
  calleeStmt {span c es result} (h : L.sourceStmt (.call span c es result)) : L.calls c es
  straight {σ code} (h : ∀ s ∈ code, L.line s) : L.code σ code σ
  append {σ₀ σ₁ σ₂ xs ys} (h : L.code σ₀ xs σ₁) (h' : L.code σ₁ ys σ₂) : L.code σ₀ (xs ++ ys) σ₂
  skip {ξ σ₀ σ₁ xs ys x} (sense span) (hξ : L.supply ξ) (hx : L.target x) (h : L.code σ₀ xs σ₁)
    (h' : L.code σ₁ ys ξ.labels) :
    L.code σ₀ (xs ++ .gotoIf span (ξ.labels.fresh "skip").1 (Build.read x span) sense ::
      (ys ++ [.label span (ξ.labels.fresh "skip").1])) (ξ.labels.fresh "skip").2
  plain {e} (h : L.source e) (he : e.IsPlain) : L.value e (.same e)
  unary {n op e r} (h : L.source (.unary n op e)) (hr : L.value e r) :
    L.value (.unary n op e)
      (.choose r.changed (.unary n op r.node) (Build.unary op r.node n.span))
  convert {n e r} (h : L.source (.convert n e)) (hr : L.value e r) : L.value (.convert n e)
    (.choose r.changed (.convert n r.node) (Build.convert r.node n.type n.span))
  binary {n op e e' r r'} (h : L.source (.binary n op e e')) (hr : L.value e r)
    (hr' : L.value e' r') : L.value (.binary n op e e')
      (.choose (r.changed || r'.changed) (.binary n op r.node r'.node)
        (Build.binary op r.node r'.node n.span))
  make {n x y z a b c} (h : L.source (.make n x y z)) (ha : L.value x a) (hb : L.value y b)
    (hc : L.value z c) : L.value (.make n x y z)
      (.choose (a.changed || b.changed || c.changed) (.make n a.node b.node c.node)
        (Build.make n.type a.node b.node c.node n.span))
  call {n c es r} (h : L.source (.call n c es)) (hc : c.needsStatement = false)
    (hr : L.values es r) : L.value (.call n c es)
      (.choose r.changed (.call n c r.node) (Build.call c r.node n.span))
  segment {n es r element} (h : L.source (.segment n es)) (hn : n.type.element? = some element)
    (hr : L.values es r) : L.value (.segment n es)
      (.choose r.changed (.segment n r.node) (Build.segment element r.node n.span))
  reread {e r x} (span) (hx : L.target x) (hr : L.value e r) (htype : x.type = r.node.type) :
    L.value e (.new (Build.read x span))
  left {e x} (span) (h : L.source e) (hx : L.target x) (he : e.LeftIn x) :
    L.value e (.new (Build.read x span))
  void {e} (span) (h : L.source e) (he : e.IsVoid) (hv : L.anywhere) :
    L.value e (.new (Build.statement (.nop span)))
  nil : L.values [] (.same [])
  cons {e es r rs} (hr : L.value e r) (hrs : L.values es rs) :
    L.values (e :: es) (.map₂ List.cons r rs)
  read {x} (span) (hx : L.target x) : L.array (Build.read x span)
  range {c a start n es} (hname : c.builtin?.any (·.name == "setRange") = true)
    (hc : L.calls c [a, start, .segment n es]) (h : L.source a) : L.array a
  element {a v span set es r types} (index) (ha : L.array a)
    (hset : Builtin.resolve "set" types .none = .ok set) (hr : L.values es r)
    (hv : v ∈ r.node) : L.line (.call span set [a, Build.float index span, v] none)
  assign {x e r} (span) (hx : L.target x) (he : e.isList = true → L.anywhere) (hr : L.value e r) :
    L.line (.assign span x r.node)
  stepped {x} (down span) (hx : L.target x) : L.line (step x down span)
  lineCall {c es r result} (span) (h : L.calls c es) (hr : L.values es r)
    (hresult : ∀ x ∈ result, L.target x)
    (hc : L.anywhere ∨ c.returnType.isVoid = false ∨ Plan.range? c es (exprs es) = none) :
    L.line (.call span c r.node result)
  stays {s} (h : L.sourceStmt s) (hs : s.Stays) : L.line s
  declare {span at' x e} (h : L.sourceStmt (.define span at' x e)) : L.line (.declare span at' x)
  define {span at' x e r} (h : L.sourceStmt (.define span at' x e)) (hl : e.isList = false)
    (hc : e.isCall = false) (hr : L.value e r) : L.line (.define span at' x r.node)
  gotoIf {span l e r sense} (h : L.sourceStmt (.gotoIf span l e sense)) (hr : L.value e r) :
    L.line (.gotoIf span l r.node sense)
  retValue {span e r} (h : L.sourceStmt (.retValue span e)) (hr : L.value e r) :
    L.line (.retValue span r.node)

namespace Scheme

variable {L : Scheme} {α β : Type} {σ σ' τ : LabelSupply} {Q : α → LabelSupply → Prop}

/-- Started with some labels, the computation ends as it should, or stops for a reason. -/
def From (L : Scheme) (σ : LabelSupply) (x : Extract α) (Q : α → LabelSupply → Prop) : Prop :=
  Meets L.fault (fun ξ ↦ L.supply ξ ∧ ξ.labels = σ) x fun a ξ ↦ L.supply ξ ∧ Q a ξ.labels

theorem From.pure {a : α} (h : Q a σ) : L.From σ (pure a : Extract α) Q :=
  Meets.pure fun _ hξ ↦ ⟨hξ.1, hξ.2.symm ▸ h⟩

theorem From.bind {R : β → LabelSupply → Prop} {x : Extract α} {f : α → Extract β}
    (hx : L.From σ x Q) (hf : ∀ a τ, Q a τ → L.From τ (f a) R) : L.From σ (x >>= f) R :=
  Meets.bind hx fun a ξ hξ ↦ hf a ξ.labels hξ.2 ξ ⟨hξ.1, rfl⟩

theorem From.of_yields {Q : LabelSupply → α → LabelSupply → Prop} {x : Extract α}
    {ξ ξ' : Extractor} {a : α} (h : ∀ σ, L.From σ x (Q σ)) (hξ : L.supply ξ) (hx : Yields x ξ a ξ') :
    L.supply ξ' ∧ Q ξ.labels a ξ'.labels := by
  have hrun := h ξ.labels ξ ⟨hξ, rfl⟩
  rw [hx] at hrun
  exact hrun

/-- The expression is split as it should be. -/
structure Splits (L : Scheme) (e : Expr) (σ : LabelSupply) (s : Split) (σ' : LabelSupply) :
    Prop where
  before : L.code σ s.before σ'
  value : L.value e s.value
  after : ∀ t ∈ s.after, L.line t

/-- The expressions are split as they should be, one after the other. -/
inductive AllSplit (L : Scheme) : List Expr → LabelSupply → List Split → LabelSupply → Prop
  | nil (σ : LabelSupply) : AllSplit L [] σ [] σ
  | cons {e : Expr} {es : List Expr} {s : Split} {splits : List Split} {σ σ₁ σ' : LabelSupply}
      (h : L.Splits e σ s σ₁) (h' : AllSplit L es σ₁ splits σ') :
      AllSplit L (e :: es) σ (s :: splits) σ'

/-- The operands are those of the expressions. -/
structure Gathers (L : Scheme) (es : List Expr) (σ : LabelSupply) (o : Operands)
    (σ' : LabelSupply) : Prop where
  before : L.code σ o.before σ'
  values : L.values es o.values
  after : ∀ t ∈ o.after, L.line t

/-- All uses of the expression are as they should be. -/
structure Plans (L : Scheme) (e : Expr) (p : Plan) : Prop where
  value (hv : e.IsVoid → L.anywhere) (σ : LabelSupply) : L.From σ p.value (L.Splits e σ)
  store (hv : e.IsVoid → L.anywhere) {x : Variable} (hx : L.target x) (span : Span)
    (σ : LabelSupply) : L.From σ (p.store x span) (L.code σ)
  discard (σ : LabelSupply) : L.From σ p.discard (L.code σ)
  items {n : Note} {es : List Expr} (he : e = .segment n es) (σ : LabelSupply) :
    L.From σ (Plan.operands (exprs es)) (L.Gathers es σ)

/-- The operands have values, and none that may have to be read ahead is a list. -/
def Places (L : Scheme) (es : List Expr) : Prop :=
  (∀ c ∈ es, c.IsVoid → L.anywhere) ∧ ∀ c ∈ es.dropLast, c.isList = true → L.anywhere

namespace Lawful

section

variable (hL : L.Lawful) {arguments es : List Expr} {plans : List Plan} {callee : Callee}
  {s : Split} {n : Note}

include hL

theorem from_breach {b : Breach} :
    L.From σ (throw (.internal b) : Extract α) Q := Meets.throw (hL.breach b)

theorem from_temporary (type : Ty) (σ : LabelSupply) :
    L.From σ (temporary type) fun x σ' ↦ L.target x ∧ x.type = type ∧ σ' = σ := by
  rintro ξ ⟨hξ, rfl⟩
  obtain ⟨hx, hsupply⟩ := hL.fresh hξ type
  exact ⟨hsupply, hx, rfl, rfl⟩

theorem code_around {e : Expr} (h : L.Splits e σ s σ') {use : Expr → Stmt}
    (huse : ∀ {r}, L.value e r → L.line (use r.node)) : L.code σ (s.around use) σ' :=
  hL.append h.before (hL.straight (forall_mem_cons.2 ⟨huse h.value, h.after⟩))

theorem code_effects {e : Expr} (h : L.Splits e σ s σ') : L.code σ s.effects σ' :=
  hL.append h.before (hL.straight h.after)

theorem from_ahead {e : Expr} (h : L.Splits e σ s σ') {needed : Bool}
    (hl : needed = true → e.isList = true → L.anywhere) (τ : LabelSupply) :
    L.From τ (ahead needed s) fun s' τ' ↦ L.Splits e σ s' σ' ∧ τ' = τ := by
  unfold ahead
  split
  · next hneeded =>
    split
    · exact .pure ⟨⟨hL.code_effects h, h.value, forall_mem_nil _⟩, rfl⟩
    · refine (hL.from_temporary _ τ).bind ?_
      rintro x _ ⟨hx, htype, rfl⟩
      exact .pure ⟨⟨hL.code_around h (hL.assign _ hx (hl hneeded)), hL.reread _ hx h.value htype,
        forall_mem_nil _⟩, rfl⟩
  · exact .pure ⟨h, rfl⟩

theorem from_gather {splits : List Split} (h : L.AllSplit es σ splits σ')
    (hl : ∀ c ∈ es.dropLast, c.isList = true → L.anywhere) (τ : LabelSupply) :
    L.From τ (gather splits) fun o τ' ↦ L.Gathers es σ o σ' ∧ τ' = τ := by
  induction h generalizing τ with
  | nil σ => exact .pure ⟨⟨hL.straight (forall_mem_nil _), hL.nil, forall_mem_nil _⟩, rfl⟩
  | @cons e es s splits _ _ _ hs hrest ih =>
    -- only the last operand is never read ahead
    have hahead (hneeded : splits.any Split.hasBefore = true) : e.isList = true → L.anywhere := by
      cases hrest with
      | nil => cases hneeded
      | cons => exact hl e (by simp)
    refine (hL.from_ahead hs hahead τ).bind ?_
    rintro s' _ ⟨hs', rfl⟩
    have hl' : ∀ c ∈ es.dropLast, c.isList = true → L.anywhere := by
      intro c hc
      cases es with
      | nil => cases hc
      | cons => exact hl c (mem_cons_of_mem _ hc)
    refine (ih hl' _).bind ?_
    rintro o _ ⟨ho, rfl⟩
    exact .pure ⟨⟨hL.append hs'.before ho.before, hL.cons hs'.value ho.values,
      forall_mem_append.2 ⟨hs'.after, ho.after⟩⟩, rfl⟩

theorem from_shortCircuit {op : BinaryOp} {e e' : Expr} {left right : Split}
    (h : L.source (.binary n op e e')) (hop : op.isShortCircuit = true)
    (hleft : L.Splits e σ left σ') (hright : L.Splits e' σ' right τ) (span : Span) :
    L.From τ (shortCircuit op left right span) (L.Splits (.binary n op e e') σ) := by
  have hl := hL.unlisted h (.head _)
  have hl' := hL.unlisted h (.tail _ (.head _))
  refine (hL.from_temporary _ τ).bind ?_
  rintro x _ ⟨hx, htype, rfl⟩
  rintro ξ ⟨hξ, rfl⟩
  refine ⟨hL.skipped hξ, ?_, hL.left span h hx ⟨hop, htype⟩, forall_mem_nil _⟩
  exact hL.skip _ span hξ hx (hL.code_around hleft (hL.assign span hx hl))
    (hL.code_around hright (hL.assign span hx hl'))

theorem from_elementStores (start : Float32) (span : Span) (ha : L.array array)
    (hitems : ∀ σ, L.From σ items (L.Gathers es σ)) (σ : LabelSupply) :
    L.From σ (elementStores array start items span) (L.code σ) := by
  unfold elementStores
  split
  · split
    · exact hL.from_breach
    · next set hset =>
      refine (hitems σ).bind fun o τ ho ↦ .pure ?_
      refine hL.append (hL.append ho.before (hL.straight fun t ht ↦ ?_)) (hL.straight ho.after)
      obtain ⟨⟨v, i⟩, hmem, rfl⟩ := mem_map.1 ht
      exact hL.element _ ha hset ho.values
        (mem_of_getElem? (mem_zipIdx_iff_getElem?.1 hmem))
  · exact hL.from_breach

theorem plans_ofValue {e : Expr} (hl : e.isList = false)
    (h : ∀ σ, L.From σ value (L.Splits e σ)) : L.Plans e (.ofValue value) where
  value _ := h
  store _ _ hx _ σ := (h σ).bind fun _ _ hs ↦
    .pure (hL.code_around hs (hL.assign _ hx fun hlist ↦ absurd hlist (by simp [hl])))
  discard σ := (h σ).bind fun _ _ hs ↦ .pure (hL.code_effects hs)
  items heq := by
    subst heq
    cases hl

theorem plans_ofEffects {e : Expr} {effects : Extract (List Stmt)} (hl : e.isList = false)
    (heffects : ∀ σ, L.From σ effects (L.code σ))
    (h : (e.IsVoid → L.anywhere) → ∀ σ, L.From σ value (L.Splits e σ)) :
    L.Plans e (.ofEffects effects value) where
  value := h
  store hv := (hL.plans_ofValue hl (h hv)).store hv
  discard := heffects
  items heq := by
    subst heq
    cases hl

theorem places_call (h : L.source (.call n callee arguments)) : L.Places arguments :=
  ⟨fun _ hc ↦ hL.valued h hc, fun _ hc ↦ hL.unlisted h (callee.dropLast_subset_unlisted _ hc)⟩

theorem places_segment (h : L.source (.segment n es)) : L.Places es :=
  ⟨fun _ hc ↦ hL.valued h hc, fun _ hc ↦ hL.unlisted h (dropLast_subset _ hc)⟩

theorem from_operands (h : Forall₂ L.Plans es plans) (hplaces : L.Places es) (σ : LabelSupply) :
    L.From σ (Plan.operands plans) (L.Gathers es σ) := by
  obtain ⟨hvalued, hl⟩ := hplaces
  have hsplits (σ : LabelSupply) : L.From σ (plans.mapM Plan.value) (L.AllSplit es σ) := by
    clear hl
    induction h generalizing σ with
    | nil => exact .pure (.nil σ)
    | cons hp _ ih =>
      obtain ⟨hv, hrest⟩ := forall_mem_cons.1 hvalued
      rw [mapM_cons]
      exact (hp.value hv σ).bind fun _ τ hs ↦ (ih hrest τ).bind fun _ _ h ↦ .pure (.cons hs h)
  refine (hsplits σ).bind fun splits τ h ↦ ?_
  refine Meets.after (hL.from_gather h hl τ) ?_
  rintro o ξ ⟨hξ, ho, hlabels⟩
  exact ⟨hξ, hlabels ▸ ho⟩

omit hL in
/-- A list that is stored to a range element by element is a literal one. -/
theorem range?_eq_some {start : Float32}
    (h : Plan.range? callee arguments (exprs arguments) = some (array, start, items)) :
    ∃ first n es, arguments = [array, first, .segment n es] ∧
      callee.builtin?.any (·.name == "setRange") = true ∧ items = Plan.operands (exprs es) := by
  unfold Plan.range? at h
  split at h
  · next array' start' third first second values hplans =>
    split at h
    · next hname =>
      split at h
      · next hindex hitems =>
        cases h
        simp only [exprs, List.cons.injEq, and_true] at hplans
        obtain ⟨rfl, rfl, rfl⟩ := hplans
        cases third
        case segment n es =>
          cases hitems
          exact ⟨start', n, es, rfl, hname, rfl⟩
        all_goals
          rw [expr] at hitems
          cases hitems
      · cases h
    · cases h
  · cases h

theorem from_callStatement {result : Option Variable} (span : Span) (hc : L.calls callee arguments)
    (hsource : ∀ e ∈ arguments, L.source e) (hplaces : L.Places arguments)
    (hplans : Forall₂ L.Plans arguments (exprs arguments)) (hresult : ∀ x ∈ result, L.target x)
    (σ : LabelSupply) :
    L.From σ (Plan.callStatement callee arguments (exprs arguments) result span) (L.code σ) := by
  unfold Plan.callStatement
  split
  · next array start items hrange =>
    obtain ⟨first, n, es, rfl, hname, rfl⟩ := range?_eq_some hrange
    simp only [exprs, forall₂_cons] at hplans
    exact hL.from_elementStores start span (hL.range hname hc (hsource array (by simp)))
      (hplans.2.2.1.items rfl) σ
  · next hrange =>
    refine (hL.from_operands hplans hplaces σ).bind fun o τ ho ↦ .pure ?_
    exact hL.append ho.before (hL.straight (forall_mem_cons.2
      ⟨hL.lineCall span hc ho.values hresult (.inr (.inr hrange)), ho.after⟩))

theorem from_callValue (h : L.source (.call n callee arguments))
    (hv : (Expr.call n callee arguments).IsVoid → L.anywhere)
    (hplans : Forall₂ L.Plans arguments plans) (σ : LabelSupply) :
    L.From σ (Plan.callValue n callee plans) (L.Splits (.call n callee arguments) σ) := by
  refine (hL.from_operands hplans (hL.places_call h) σ).bind fun o τ ho ↦ ?_
  have hresult : L.anywhere ∨ callee.returnType.isVoid = false := by
    cases hvoid : callee.returnType.isVoid with
    | true => exact .inl (hv hvoid)
    | false => exact .inr rfl
  have hbefore {result : Option Variable} (hx : ∀ x ∈ result, L.target x) :
      L.code σ (o.before ++ .call n.span callee o.values.node result :: o.after) τ :=
    hL.append ho.before (hL.straight (forall_mem_cons.2
      ⟨hL.lineCall n.span (hL.callee h) ho.values hx (hresult.imp_right .inl), ho.after⟩))
  split
  · split
    · next hvoid =>
      exact .pure ⟨hbefore (by simp), hL.void n.span h hvoid (hv hvoid), forall_mem_nil _⟩
    · refine (hL.from_temporary _ τ).bind ?_
      rintro x _ ⟨hx, htype, rfl⟩
      refine .pure ⟨hbefore (by simpa using hx), hL.left n.span h hx htype, forall_mem_nil _⟩
  · next hneeds => exact .pure ⟨ho.before, hL.call h (by simpa using hneeds) ho.values, ho.after⟩

theorem from_segmentValue {items : List Expr} (h : L.source (.segment n items))
    (hplans : Forall₂ L.Plans items plans) (σ : LabelSupply) :
    L.From σ (Plan.segmentValue n plans) (L.Splits (.segment n items) σ) := by
  refine (hL.from_operands hplans (hL.places_segment h) σ).bind fun o τ ho ↦ ?_
  split
  · next helement => exact .pure ⟨ho.before, hL.segment h helement ho.values, ho.after⟩
  · exact hL.from_breach

end

mutual

/-- All uses of an expression are as they should be. -/
theorem plans_expr (hL : L.Lawful) {e : Expr} (he : L.source e) : L.Plans e (expr e) := by
  have hparts := hL.operand he
  have hvalued {c : Expr} : c ∈ e.operands → c.IsVoid → L.anywhere := hL.valued he
  match e with
  | .literal .. | .read .. | .error _ =>
    exact hL.plans_ofValue rfl fun σ ↦ .pure
      ⟨hL.straight (forall_mem_nil _), hL.plain he trivial, forall_mem_nil _⟩
  | .unary n op operand =>
    have hoperand := (hL.plans_expr (hparts operand (.head _))).value (hvalued (.head _))
    exact hL.plans_ofValue rfl fun σ ↦ (hoperand σ).bind fun o τ ho ↦
      .pure ⟨ho.before, hL.unary he ho.value, ho.after⟩
  | .convert n operand =>
    have hoperand := (hL.plans_expr (hparts operand (.head _))).value (hvalued (.head _))
    exact hL.plans_ofValue rfl fun σ ↦ (hoperand σ).bind fun o τ ho ↦
      .pure ⟨ho.before, hL.convert he ho.value, ho.after⟩
  | .binary n op left right =>
    have hmem : right ∈ [left, right] := .tail _ (.head _)
    have hleft := (hL.plans_expr (hparts left (.head _))).value (hvalued (.head _))
    have hright := (hL.plans_expr (hparts right hmem)).value (hvalued hmem)
    refine hL.plans_ofValue rfl fun σ ↦ (hleft σ).bind fun l σ₁ hl ↦
      (hright σ₁).bind fun r τ hr ↦ ?_
    split
    · next hop => exact hL.from_shortCircuit he (Bool.and_eq_true_iff.1 hop).1 hl hr n.span
    · refine (hL.from_ahead hl (fun _ ↦ hL.unlisted he (.head _)) τ).bind ?_
      rintro l' _ ⟨hl', rfl⟩
      exact .pure ⟨hL.append hl'.before hr.before, hL.binary he hl'.value hr.value,
        forall_mem_append.2 ⟨hl'.after, hr.after⟩⟩
  | .make n x y z =>
    have hmem : y ∈ [x, y, z] := .tail _ (.head _)
    have hmem' : z ∈ [x, y, z] := .tail _ (.tail _ (.head _))
    have hx := (hL.plans_expr (hparts x (.head _))).value (hvalued (.head _))
    have hy := (hL.plans_expr (hparts y hmem)).value (hvalued hmem)
    have hz := (hL.plans_expr (hparts z hmem')).value (hvalued hmem')
    refine hL.plans_ofValue rfl fun σ ↦ (hx σ).bind fun a σ₁ ha ↦
      (hy σ₁).bind fun b σ₂ hb ↦ (hz σ₂).bind fun c τ hc ↦
      (hL.from_ahead ha (fun _ ↦ hL.unlisted he (.head _)) τ).bind ?_
    rintro a' _ ⟨ha', rfl⟩
    refine (hL.from_ahead hb (fun _ ↦ hL.unlisted he hmem) _).bind ?_
    rintro b' _ ⟨hb', rfl⟩
    exact .pure ⟨hL.append ha'.before (hL.append hb'.before hc.before),
      hL.make he ha'.value hb'.value hc.value, forall_mem_append.2
        ⟨ha'.after, forall_mem_append.2 ⟨hb'.after, hc.after⟩⟩⟩
  | .call n callee arguments =>
    rw [expr]
    have hplans := hL.plans_exprs hparts
    have hplaces := hL.places_call he
    refine ⟨fun hv ↦ hL.from_callValue he hv hplans, fun hv _ hx span σ ↦ ?_,
      hL.from_callStatement n.span (hL.callee he) hparts hplaces hplans (by simp), by simp⟩
    split
    · exact hL.from_callStatement span (hL.callee he) hparts hplaces hplans (by simpa using hx) σ
    · exact (hL.plans_ofValue rfl (hL.from_callValue he hv hplans)).store hv hx span σ
  | .step n x yieldsNew down =>
    have hx := hL.written he x rfl
    have hstep : ∀ t ∈ [step x down n.span], L.line t := by simpa using hL.stepped down n.span hx
    have hread := hL.left n.span he hx rfl
    refine hL.plans_ofEffects rfl (fun σ ↦ .pure (hL.straight hstep)) fun _ σ ↦ .pure ?_
    split
    · exact ⟨hL.straight hstep, hread, forall_mem_nil _⟩
    · exact ⟨hL.straight (forall_mem_nil _), hread, hstep⟩
  | .segment n items =>
    have hplans := hL.plans_exprs hparts
    have hitems := hL.from_operands hplans (hL.places_segment he)
    have hvalue := hL.from_segmentValue he hplans
    refine ⟨fun _ ↦ hvalue, fun _ _ hx span σ ↦ ?_, fun σ ↦ ?_, fun heq σ ↦ ?_⟩
    · exact hL.from_elementStores 0 span (hL.read span hx) hitems σ
    · exact (hvalue σ).bind fun _ _ hs ↦ .pure (hL.code_effects hs)
    · cases heq
      exact hitems σ
  | .assign n x value =>
    have hx := hL.written he x rfl
    have heffects := (hL.plans_expr (hparts value (.head _))).store (hvalued (.head _)) hx n.span
    exact hL.plans_ofEffects rfl heffects fun _ σ ↦ (heffects σ).bind fun code τ hcode ↦
      .pure ⟨hcode, hL.left n.span he hx rfl, forall_mem_nil _⟩
  | .compound n x op value => exact hL.plans_ofValue rfl fun σ ↦ hL.from_breach
  | .statement n body =>
    have heffects := hL.from_stmt (hL.body he)
    exact hL.plans_ofEffects rfl heffects fun hv σ ↦ (heffects σ).bind fun code τ hcode ↦
      .pure ⟨hcode, hL.void n.span he trivial (hv trivial), forall_mem_nil _⟩

@[inherit_doc plans_expr]
theorem plans_exprs (hL : L.Lawful) {es : List Expr} (hes : ∀ e ∈ es, L.source e) :
    Forall₂ L.Plans es (exprs es) := by
  match es with
  | [] => exact .nil
  | e :: rest =>
    obtain ⟨he, hrest⟩ := forall_mem_cons.1 hes
    exact .cons (hL.plans_expr he) (hL.plans_exprs hrest)

/-- A statement becomes code as it should be. -/
theorem from_stmt (hL : L.Lawful) {s : Stmt} (hs : L.sourceStmt s) (σ : LabelSupply) :
    L.From σ (stmt s) (L.code σ) := by
  have hparts := hL.operandStmt hs
  match s with
  | .block span items => exact hL.from_stmts (hL.item hs) σ
  | .declare .. | .label .. | .goto .. | .ret _ | .hint .. | .nop _ | .gotoOn .. | .rollback .. =>
    exact .pure (hL.straight (by simpa using hL.stays hs trivial))
  | .define span nameSpan x value =>
    have hx := hL.writtenStmt hs x rfl
    have hvalue := hL.plans_expr (hparts value (.head _))
    have hv := hL.valuedStmt hs (.head _)
    cases value
    case segment | call =>
      have hdeclare : L.code σ [.declare span nameSpan x] σ :=
        hL.straight (by simpa using hL.declare hs)
      exact (hvalue.store hv hx span σ).bind fun code τ hcode ↦ .pure (hL.append hdeclare hcode)
    all_goals
      rw [stmt]
      · exact (hvalue.value hv σ).bind fun v τ hv ↦
          .pure (hL.code_around hv (hL.define hs rfl rfl))
      · simp
      · simp
  | .assign span x value =>
    exact (hL.plans_expr (hparts value (.head _))).store (hL.valuedStmt hs (.head _))
      (hL.writtenStmt hs x rfl) span σ
  | .gotoIf span target condition sense =>
    refine ((hL.plans_expr (hparts condition (.head _))).value (hL.valuedStmt hs (.head _)) σ).bind
      fun c τ hc ↦ (hL.from_ahead hc (fun _ ↦ hL.unlistedStmt hs (.head _)) τ).bind ?_
    rintro c' _ ⟨hc', rfl⟩
    exact .pure (hL.code_around hc' (hL.gotoIf hs))
  | .retValue span value =>
    refine ((hL.plans_expr (hparts value (.head _))).value (hL.valuedStmt hs (.head _)) σ).bind
      fun v τ hv ↦ (hL.from_ahead hv (fun _ ↦ hL.unlistedStmt hs (.head _)) τ).bind ?_
    rintro v' _ ⟨hv', rfl⟩
    exact .pure (hL.code_around hv' (hL.retValue hs))
  | .call span callee arguments result =>
    have hplaces : L.Places arguments := ⟨fun _ hc ↦ hL.valuedStmt hs hc,
      fun _ hc ↦ hL.unlistedStmt hs (callee.dropLast_subset_unlisted _ hc)⟩
    exact hL.from_callStatement span (hL.calleeStmt hs) hparts hplaces (hL.plans_exprs hparts)
      (hL.writtenStmt hs) σ
  | .expression span e => exact (hL.plans_expr (hparts e (.head _))).discard σ
  | .compound .. | .ifThen .. | .ifElse .. | .whileLoop .. | .doWhile .. | .on .. =>
    exact hL.from_breach

@[inherit_doc from_stmt]
theorem from_stmts (hL : L.Lawful) {items : List Stmt} (hs : ∀ s ∈ items, L.sourceStmt s)
    (σ : LabelSupply) :
    L.From σ (stmts items) (L.code σ) := by
  match items with
  | [] =>
    rw [stmts]
    exact .pure (hL.straight (forall_mem_nil _))
  | s :: rest =>
    obtain ⟨hs, hrest⟩ := forall_mem_cons.1 hs
    exact (hL.from_stmt hs σ).bind fun code σ₁ hcode ↦
      (hL.from_stmts hrest σ₁).bind fun code' τ hcode' ↦ .pure (hL.append hcode hcode')

end

end Lawful

end Scheme

end Extract

end Wirescript
