import Wirescript.Proofs.Folding

/-!
# Evaluation from left to right

What expressions with effects mean: operands are evaluated strictly from left to right, each effect
happens where it stands, and a short-circuit operator skips its right operand once the left one
decides. An assignment and a count before the value yield what they stored. A call evaluates all
arguments before it writes any of them to a parameter.

The meaning is a relation on memories, like that of flat code, and it looks at no note but for the
type that components or a conversion are for. `Expr.WellTyped` says that operators and built-in
functions fit the types of their operands, so that an expression without effects always has a
value; evaluation keeps a memory typed (`Expr.Evaluates.typed`).
-/

namespace Wirescript

open Wirescript.Expr
open List

variable {op : BinaryOp} {arguments : List Expr} {parameters : List Variable} {r : Routine}
  {v : Value}

variable {κ : Type} [DecidableEq κ]

/-! ### Expressions without effects -/

mutual

/-- Nothing in the expression has to be a statement of its own. -/
def Expr.isPure : Expr → Bool
  | .literal .. | .read .. | .error _ => true
  | .unary _ _ operand | .convert _ operand => operand.isPure
  | .binary _ _ left right => left.isPure && right.isPure
  | .make _ x y z => x.isPure && y.isPure && z.isPure
  | .call _ callee arguments => !callee.needsStatement && allPure arguments
  | .segment _ items => allPure items
  | .step .. | .assign .. | .compound .. | .statement .. => false

@[inherit_doc isPure]
def Expr.allPure : List Expr → Bool
  | [] => true
  | e :: rest => e.isPure && allPure rest

end

/-! ### Meaning -/

section

variable (key : Slot → κ) (calls : Routine → Memory κ → Memory κ → Prop)

/-- Values are written to the parameters, from left to right. -/
def Receives : List (Variable × Value) → Memory κ → Memory κ → Prop
  | [], m, m' => m' = m
  | (parameter, value) :: rest, m, m' =>
    ∃ m₁, (if parameter.modifiers.out then m₁ = m else m.store key parameter value = .ok m₁) ∧
      Receives rest m₁ m'

/-- A routine is called with values. Arguments that are passed by reference are written after it. -/
def Invokes (r : Routine) (arguments : List Expr) (values : List Value) (m m' : Memory κ) : Prop :=
  ∃ m₁ m₂, Receives key (r.parameters.zip values) m m₁ ∧ calls r m₁ m₂ ∧
    PassesBack key (r.parameters.zip arguments) m₂ m'

/-- What a variable holds when it is counted up, or down. -/
def Steps (x : Variable) (down : Bool) (m : Memory κ) (w : Value) (m' : Memory κ) : Prop :=
  (if down then BinaryOp.subtract else .add).compute? (m.load key x) (.float 1) = some w ∧
    m.store key x w = .ok m'

mutual

/-- The expression has the value, and its effects lead from one memory to another. -/
def Expr.Evaluates : Expr → Memory κ → Value → Memory κ → Prop
  | .literal _ value, m, v, m' => v = value ∧ m' = m
  | .read _ x, m, v, m' => v = m.load key x ∧ m' = m
  | .unary _ op operand, m, v, m' => ∃ a, operand.Evaluates m a m' ∧ op.compute? a = some v
  | .binary _ op left right, m, v, m' =>
    ∃ a m₁, left.Evaluates m a m₁ ∧ if a.bool?.any op.decidedBy then v = a ∧ m' = m₁
      else ∃ b, right.Evaluates m₁ b m' ∧ op.compute? a b = some v
  | .make n x y z, m, v, m' =>
    ∃ a m₁ b m₂ c, x.Evaluates m a m₁ ∧ y.Evaluates m₁ b m₂ ∧ z.Evaluates m₂ c m' ∧
      v = .ofComponents n.type ⟨a.float?.getD 0, b.float?.getD 0, c.float?.getD 0⟩
  | .convert n operand, m, v, m' => ∃ a, operand.Evaluates m a m' ∧ v = a.converted n.type
  | .call _ (.routine r) arguments, m, v, m' =>
    ∃ values m₁ slot, EvaluatesAll arguments m values m₁ ∧
      Invokes key calls r arguments values m₁ m' ∧ r.returnSlot = some slot ∧
      v = m'.load key slot
  | .call _ (.builtin b _) arguments, m, v, m' =>
    ∃ evaluator values, b.evaluator = some evaluator ∧ EvaluatesAll arguments m values m' ∧
      evaluator.compute? values = some v
  | .step _ x yieldsNew down, m, v, m' =>
    ∃ w, Steps key x down m w m' ∧ v = if yieldsNew then w else m.load key x
  | .assign _ x value, m, v, m' => ∃ m₁, value.Evaluates m v m₁ ∧ m₁.store key x v = .ok m'
  | .segment .., _, _, _ | .compound .., _, _, _ | .error _, _, _, _ | .statement .., _, _, _ =>
    False

/-- The expressions are evaluated one after the other. -/
def Expr.EvaluatesAll : List Expr → Memory κ → List Value → Memory κ → Prop
  | [], m, values, m' => values = [] ∧ m' = m
  | e :: rest, m, values, m' =>
    ∃ v m₁ others, e.Evaluates m v m₁ ∧ EvaluatesAll rest m₁ others m' ∧ values = v :: others

end

/-- What a call does, once its arguments have been evaluated. -/
def Callee.Applies (callee : Callee) (arguments : List Expr) (values : List Value)
    (result : Option Variable) (m m' : Memory κ) : Prop :=
  match callee with
  | .routine r =>
    ∃ m₁, Invokes key calls r arguments values m m₁ ∧ Keeps key result r.returnSlot m₁ m'
  | .builtin b _ =>
    ∃ evaluator value, b.evaluator = some evaluator ∧ evaluator.compute? values = some value ∧
      match result with
      | some x => m.store key x value = .ok m'
      | none => m' = m

/-- A call as a statement. -/
def Callee.Calls (callee : Callee) (arguments : List Expr) (result : Option Variable)
    (m m' : Memory κ) : Prop :=
  ∃ values m₁, EvaluatesAll key calls arguments m values m₁ ∧
    callee.Applies key calls arguments values result m₁ m'

/-- The effects of an expression that stands as a statement. A call need not have a result. -/
def Expr.Acts (e : Expr) (m m' : Memory κ) : Prop :=
  match e with
  | .call _ callee arguments => callee.Calls key calls arguments none m m'
  | other => ∃ v, other.Evaluates key calls m v m'

/-- What a statement does whose expressions are evaluated from left to right, and where control goes
after it. -/
def Stmt.InOrder (routine : Routine) (s : Stmt) (m : Memory κ) (c : Control) (m' : Memory κ) :
    Prop :=
  match s with
  | .define _ _ x value | .assign _ x value =>
    c = .next ∧ ∃ v m₁, value.Evaluates key calls m v m₁ ∧ m₁.store key x v = .ok m'
  | .expression _ e => c = .next ∧ e.Acts key calls m m'
  | .call _ callee arguments result => c = .next ∧ callee.Calls key calls arguments result m m'
  | .gotoIf _ target condition sense =>
    ∃ v, condition.Evaluates key calls m v m' ∧
      c = if v.bool? = some sense then .jump target else .next
  | .retValue _ value =>
    c = .stop ∧ ∃ v m₁, value.Evaluates key calls m v m₁ ∧
      match routine.returnSlot with
      | some slot => m₁.store key slot v = .ok m'
      | none => m' = m₁
  | other => other.Step key calls routine m c m'

end

/-! ### Types -/

section

variable (key : Slot → κ) (types : κ → Option Ty) (callable : Routine → Prop)

/-- The arguments have the types of the parameters. -/
def Routine.Fits (r : Routine) (arguments : List Expr) : Prop :=
  ∀ p a, (p, a) ∈ r.parameters.zip arguments → p.Typed key types ∧ a.type = p.type

/-- The function has a value of its type for all arguments of the types of the given ones. -/
def Builtin.Computes (b : Builtin) (returnType : Ty) (arguments : List Expr) : Prop :=
  ∃ evaluator, b.evaluator = some evaluator ∧
    ∀ values, values.map Value.type = arguments.map Expr.type →
      ∃ v, evaluator.compute? values = some v ∧ v.type = returnType

/-- The arguments of a call have the types that its callee asks for, and the callee is one that may
be called. -/
def Callee.Admits (callee : Callee) (arguments : List Expr) : Prop :=
  match callee with
  | .routine r => callable r ∧ r.Fits key types arguments
  | .builtin b t => b.Computes t arguments

/-- A call has a result. A routine leaves it in a cell of its type. -/
def Callee.Returns (callee : Callee) : Prop :=
  match callee with
  | .routine r => ∃ slot, r.returnSlot = some slot ∧ slot.Typed key types ∧ slot.type = r.returnType
  | .builtin _ t => t.isVoid = false

mutual

/-- Every note names the type that the expression has, and operators, built-in functions and routines
fit the types of their operands: nothing but a call of a routine can fail. -/
def Expr.WellTyped : Expr → Prop
  | .literal n value => n.type = value.type
  | .read n x => n.type = x.type ∧ x.Typed key types
  | .unary n op operand =>
    operand.WellTyped ∧ ∀ a, a.type = operand.type → ∃ v, op.compute? a = some v ∧ v.type = n.type
  | .binary n op left right =>
    left.WellTyped ∧ right.WellTyped ∧ n.type = op.resultType left.type right.type ∧
      ∀ a b, a.type = left.type → b.type = right.type →
        ∃ v, op.compute? a b = some v ∧ v.type = n.type
  | .make n x y z => x.WellTyped ∧ y.WellTyped ∧ z.WellTyped ∧ n.type.isVectorLike = true
  | .convert n operand =>
    operand.WellTyped ∧ ∀ a : Value, a.type = operand.type → (a.converted n.type).type = n.type
  | .call n callee arguments =>
    AllWellTyped arguments ∧ n.type = callee.returnType ∧
      callee.Admits key types callable arguments ∧ callee.Returns key types
  | .step n x _ _ => n.type = x.type ∧ x.Typed key types ∧ x.type = .float
  | .assign n x value => value.WellTyped ∧ x.Typed key types ∧ value.type = x.type ∧ n.type = x.type
  | .segment .. | .compound .. | .error _ | .statement .. => False

@[inherit_doc WellTyped]
def Expr.AllWellTyped : List Expr → Prop
  | [] => True
  | e :: rest => e.WellTyped ∧ AllWellTyped rest

end

end

mutual

/-- What a well typed expression reads has a cell of its type. -/
theorem Expr.WellTyped.reads {κ : Type} {key : Slot → κ} {types : κ → Option Ty}
    {callable : Routine → Prop} {e : Expr} (h : e.WellTyped key types callable) {x : Variable}
    (hx : x ∈ e.reads) : x.Typed key types := by
  match e with
  | .literal .. => cases hx
  | .read n y =>
    obtain rfl : x = y := by simpa using hx
    exact h.2
  | .unary _ _ operand | .convert _ operand => exact WellTyped.reads h.1 hx
  | .binary n op left right =>
    rw [reads_binary, mem_append] at hx
    rcases hx with hx | hx
    · exact WellTyped.reads h.1 hx
    · exact WellTyped.reads h.2.1 hx
  | .make n a b c =>
    rw [reads_make, mem_append, mem_append] at hx
    rcases hx with (hx | hx) | hx
    · exact WellTyped.reads h.1 hx
    · exact WellTyped.reads h.2.1 hx
    · exact WellTyped.reads h.2.2.1 hx
  | .call n callee arguments => exact AllWellTyped.reads h.1 hx
  | .step n y yieldsNew down =>
    obtain rfl : x = y := by simpa using hx
    exact h.2.1
  | .assign n y value =>
    rcases mem_cons.1 hx with rfl | hx
    · exact h.2.1
    · exact WellTyped.reads h.1 hx
  | .segment .. | .compound .. | .error _ | .statement .. => exact h.elim

@[inherit_doc WellTyped.reads]
theorem Expr.AllWellTyped.reads {κ : Type} {key : Slot → κ} {types : κ → Option Ty}
    {callable : Routine → Prop} {es : List Expr} (h : AllWellTyped key types callable es)
    {x : Variable} (hx : x ∈ allReads es) : x.Typed key types := by
  match es with
  | [] => cases hx
  | e :: rest =>
    rcases mem_append.1 hx with hx | hx
    · exact WellTyped.reads h.1 hx
    · exact AllWellTyped.reads h.2 hx

end

theorem BinaryOp.decided_iff :
    v.bool?.any op.decidedBy = true ↔ ∃ b, v = .bool b ∧ op.decidedBy b = true := by
  cases v <;> simp [Value.bool?]

/-- A value that decides an operation is of the type of the operation. -/
theorem BinaryOp.type_of_decided {left right : Ty} (h : v.bool?.any op.decidedBy = true) :
    v.type = op.resultType left right := by
  obtain ⟨b, rfl, hb⟩ := BinaryOp.decided_iff.1 h
  cases op <;> first | rfl | cases hb

theorem Value.type_of_stepped {w : Value} {down : Bool} (hv : v.type = .float)
    (h : (if down then BinaryOp.subtract else .add).compute? v (.float 1) = some w) :
    w.type = .float := by
  obtain ⟨f, rfl⟩ := Value.eq_float_of_type hv
  cases down <;> cases h <;> rfl

/-! ### Evaluation keeps memories typed -/

section

variable {key : Slot → κ} {calls : Routine → Memory κ → Memory κ → Prop} {types : κ → Option Ty}
  {callable : Routine → Prop} {m m' : Memory κ}

omit [DecidableEq κ] in
/-- Values that have the types of the arguments have those of the parameters. -/
theorem Routine.Fits.values {values : List Value} (h : r.Fits key types arguments)
    (hvalues : values.map Value.type = arguments.map Expr.type) :
    ∀ p v, (p, v) ∈ r.parameters.zip values → p.Typed key types ∧ v.type = p.type := by
  unfold Routine.Fits at h
  generalize r.parameters = parameters at h
  induction parameters generalizing arguments values with
  | nil => simp
  | cons q parameters ih =>
    cases values with
    | nil => simp
    | cons w values =>
      cases arguments with
      | nil => cases hvalues
      | cons a arguments =>
        obtain ⟨hw, hvalues⟩ := List.cons.inj hvalues
        intro p v hmem
        rcases mem_cons.1 hmem with heq | hmem
        · cases heq
          obtain ⟨hq, ha⟩ := h q a (.head _)
          exact ⟨hq, hw.trans ha⟩
        · exact ih hvalues (fun p a hmem ↦ h p a (.tail _ hmem)) p v hmem

theorem Receives.typed {entries : List (Variable × Value)} (h : Receives key entries m m')
    (hm : m.Typed types)
    (hentries : ∀ p v, (p, v) ∈ entries → p.Typed key types ∧ v.type = p.type) :
    m'.Typed types := by
  induction entries generalizing m with
  | nil =>
    obtain rfl : m' = m := h
    exact hm
  | cons e entries ih =>
    obtain ⟨m₁, hfirst, hrest⟩ := h
    obtain ⟨hp, hv⟩ := hentries e.1 e.2 (.head _)
    refine ih hrest ?_ fun q w hmem ↦ hentries q w (.tail _ hmem)
    split at hfirst
    · rwa [hfirst]
    · exact hm.store hp hv hfirst

theorem PassesBack.typed (h : PassesBack key (parameters.zip arguments) m m') (hm : m.Typed types)
    (hfits : ∀ p a, (p, a) ∈ parameters.zip arguments → p.Typed key types ∧ a.type = p.type)
    (harguments : AllWellTyped key types callable arguments) : m'.Typed types := by
  induction parameters generalizing arguments m with
  | nil =>
    obtain rfl : m' = m := h
    exact hm
  | cons p parameters ih =>
    cases arguments with
    | nil =>
      obtain rfl : m' = m := h
      exact hm
    | cons a arguments =>
      obtain ⟨m₁, hfirst, hrest⟩ := h
      obtain ⟨hp, ha⟩ := hfits p a (.head _)
      have hothers := fun q b hmem ↦ hfits q b (.tail _ hmem)
      refine ih hrest ?_ hothers harguments.2
      split at hfirst
      · obtain ⟨x, hx, hstore⟩ := hfirst
        obtain ⟨n, rfl⟩ : ∃ n, a = .read n x := by
          cases a <;> cases hx
          exact ⟨_, rfl⟩
        obtain ⟨hn, hxtyped⟩ := harguments.1
        refine hm.store hxtyped ?_ hstore
        rw [hm.load hp, ← ha, ← hn]
        rfl
      · rwa [hfirst]

/-- Routines that may be called keep memories typed. -/
def CallsTyped (types : κ → Option Ty) (callable : Routine → Prop)
    (calls : Routine → Memory κ → Memory κ → Prop) : Prop :=
  ∀ r, callable r → ∀ m m', calls r m m' → m.Typed types → m'.Typed types

theorem Invokes.typed {values : List Value} (hcalls : CallsTyped types callable calls)
    (h : Invokes key calls r arguments values m m') (hm : m.Typed types) (hr : callable r)
    (hfits : r.Fits key types arguments)
    (harguments : AllWellTyped key types callable arguments)
    (hvalues : values.map Value.type = arguments.map Expr.type) : m'.Typed types := by
  obtain ⟨m₁, m₂, h₁, h₂, h₃⟩ := h
  exact h₃.typed (hcalls r hr m₁ m₂ h₂ (h₁.typed hm (hfits.values hvalues))) hfits harguments

mutual

/-- An expression has a value of its type, and its effects keep the memory typed. -/
theorem Expr.Evaluates.typed {e : Expr} {v : Value} {m m' : Memory κ}
    (hcalls : CallsTyped types callable calls) (he : e.WellTyped key types callable)
    (h : e.Evaluates key calls m v m') (hm : m.Typed types) : v.type = e.type ∧ m'.Typed types := by
  match e with
  | .literal n value =>
    obtain ⟨rfl, rfl⟩ := h
    exact ⟨he.symm, hm⟩
  | .read n x =>
    obtain ⟨rfl, rfl⟩ := h
    exact ⟨(hm.load he.2).trans he.1.symm, hm⟩
  | .unary n op operand =>
    obtain ⟨a, ha, hv⟩ := h
    obtain ⟨hatype, hm'⟩ := Evaluates.typed hcalls he.1 ha hm
    obtain ⟨w, hw, hwtype⟩ := he.2 a hatype
    cases hw.symm.trans hv
    exact ⟨hwtype, hm'⟩
  | .binary n op left right =>
    obtain ⟨a, m₁, ha, h⟩ := h
    obtain ⟨hatype, hm₁⟩ := Evaluates.typed hcalls he.1 ha hm
    split at h
    · next hdecided =>
      obtain ⟨rfl, rfl⟩ := h
      exact ⟨(BinaryOp.type_of_decided hdecided).trans he.2.2.1.symm, hm₁⟩
    · obtain ⟨b, hb, hv⟩ := h
      obtain ⟨hbtype, hm'⟩ := Evaluates.typed hcalls he.2.1 hb hm₁
      obtain ⟨w, hw, hwtype⟩ := he.2.2.2 a b hatype hbtype
      cases hw.symm.trans hv
      exact ⟨hwtype, hm'⟩
  | .make n x y z =>
    obtain ⟨a, m₁, b, m₂, c, ha, hb, hc, rfl⟩ := h
    obtain ⟨-, hm₁⟩ := Evaluates.typed hcalls he.1 ha hm
    obtain ⟨-, hm₂⟩ := Evaluates.typed hcalls he.2.1 hb hm₁
    obtain ⟨-, hm'⟩ := Evaluates.typed hcalls he.2.2.1 hc hm₂
    exact ⟨Value.type_ofComponents he.2.2.2 _, hm'⟩
  | .convert n operand =>
    obtain ⟨a, ha, rfl⟩ := h
    obtain ⟨hatype, hm'⟩ := Evaluates.typed hcalls he.1 ha hm
    exact ⟨he.2 a hatype, hm'⟩
  | .call n (.routine r) arguments =>
    obtain ⟨hall, hn, ⟨hr, hfits⟩, slot, hslot, hslotTyped, hslotType⟩ := he
    obtain ⟨values, m₁, slot', hvalues, hinvokes, hslot', rfl⟩ := h
    obtain ⟨hvtypes, hm₁⟩ := EvaluatesAll.typed hcalls hall hvalues hm
    have hm' := Invokes.typed hcalls hinvokes hm₁ hr hfits hall hvtypes
    cases hslot.symm.trans hslot'
    exact ⟨(hm'.load hslotTyped).trans (hslotType.trans hn.symm), hm'⟩
  | .call n (.builtin b t) arguments =>
    obtain ⟨hall, hn, ⟨evaluator, hevaluator, hcompute⟩, -⟩ := he
    obtain ⟨evaluator', values, hevaluator', hvalues, hv⟩ := h
    obtain ⟨hvtypes, hm'⟩ := EvaluatesAll.typed hcalls hall hvalues hm
    cases hevaluator.symm.trans hevaluator'
    obtain ⟨w, hw, hwtype⟩ := hcompute values hvtypes
    cases hw.symm.trans hv
    exact ⟨hwtype.trans hn.symm, hm'⟩
  | .step n x yieldsNew down =>
    obtain ⟨w, ⟨hw, hstore⟩, rfl⟩ := h
    have hload := hm.load he.2.1
    have hwtype : w.type = x.type := by
      rw [he.2.2] at hload ⊢
      exact Value.type_of_stepped hload hw
    refine ⟨?_, hm.store he.2.1 hwtype hstore⟩
    cases yieldsNew with
    | true => exact hwtype.trans he.1.symm
    | false => exact hload.trans he.1.symm
  | .assign n x value =>
    obtain ⟨m₁, hv, hstore⟩ := h
    obtain ⟨hvtype, hm₁⟩ := Evaluates.typed hcalls he.1 hv hm
    have hvx := hvtype.trans he.2.2.1
    exact ⟨hvx.trans he.2.2.2.symm, hm₁.store he.2.1 hvx hstore⟩
  | .segment _ _ | .compound _ _ _ _ | .error _ | .statement _ _ => exact he.elim

theorem Expr.EvaluatesAll.typed {es : List Expr} {values : List Value} {m m' : Memory κ}
    (hcalls : CallsTyped types callable calls) (hes : AllWellTyped key types callable es)
    (h : EvaluatesAll key calls es m values m') (hm : m.Typed types) :
    values.map Value.type = es.map Expr.type ∧ m'.Typed types := by
  match es, hes, h with
  | [], _, h =>
    obtain ⟨rfl, rfl⟩ := h
    exact ⟨rfl, hm⟩
  | e :: rest, hes, h =>
    obtain ⟨v, m₁, others, hv, hothers, rfl⟩ := h
    obtain ⟨hvtype, hm₁⟩ := Evaluates.typed hcalls hes.1 hv hm
    obtain ⟨hotypes, hm'⟩ := EvaluatesAll.typed hcalls hes.2 hothers hm₁
    exact ⟨by rw [map_cons, map_cons, hvtype, hotypes], hm'⟩

end

/-! ### Expressions without effects have values -/

mutual

/-- An expression without effects that is well typed has a value in every typed memory. -/
theorem Expr.exists_evaluates {e : Expr} (hpure : e.isPure = true)
    (he : e.WellTyped key types callable) (hm : m.Typed types) :
    ∃ v, e.Evaluates key calls m v m ∧ v.type = e.type := by
  match e with
  | .literal n value => exact ⟨value, ⟨rfl, rfl⟩, he.symm⟩
  | .read n x => exact ⟨_, ⟨rfl, rfl⟩, (hm.load he.2).trans he.1.symm⟩
  | .unary n op operand =>
    rw [isPure] at hpure
    obtain ⟨a, ha, hatype⟩ := exists_evaluates hpure he.1 hm
    obtain ⟨v, hv, hvtype⟩ := he.2 a hatype
    exact ⟨v, ⟨a, ha, hv⟩, hvtype⟩
  | .binary n op left right =>
    rw [isPure, Bool.and_eq_true] at hpure
    obtain ⟨hl, hr⟩ := hpure
    obtain ⟨a, ha, hatype⟩ := exists_evaluates hl he.1 hm
    obtain ⟨b, hb, hbtype⟩ := exists_evaluates hr he.2.1 hm
    obtain ⟨v, hv, hvtype⟩ := he.2.2.2 a b hatype hbtype
    by_cases hdecided : a.bool?.any op.decidedBy = true
    · refine ⟨a, ⟨a, m, ha, ?_⟩, (BinaryOp.type_of_decided hdecided).trans he.2.2.1.symm⟩
      rw [if_pos hdecided]
      exact ⟨rfl, rfl⟩
    · refine ⟨v, ⟨a, m, ha, ?_⟩, hvtype⟩
      rw [if_neg hdecided]
      exact ⟨b, hb, hv⟩
  | .make n x y z =>
    rw [isPure, Bool.and_eq_true, Bool.and_eq_true] at hpure
    obtain ⟨⟨hx, hy⟩, hz⟩ := hpure
    obtain ⟨a, ha, -⟩ := exists_evaluates hx he.1 hm
    obtain ⟨b, hb, -⟩ := exists_evaluates hy he.2.1 hm
    obtain ⟨c, hc, -⟩ := exists_evaluates hz he.2.2.1 hm
    exact ⟨_, ⟨a, m, b, m, c, ha, hb, hc, rfl⟩, Value.type_ofComponents he.2.2.2 _⟩
  | .convert n operand =>
    rw [isPure] at hpure
    obtain ⟨a, ha, hatype⟩ := exists_evaluates hpure he.1 hm
    exact ⟨_, ⟨a, ha, rfl⟩, he.2 a hatype⟩
  | .call n (.builtin b t) arguments =>
    rw [isPure, Bool.and_eq_true] at hpure
    obtain ⟨-, hall⟩ := hpure
    obtain ⟨hargs, hn, ⟨evaluator, hevaluator, hcompute⟩, -⟩ := he
    obtain ⟨values, hvalues, hvtypes⟩ := exists_evaluatesAll hall hargs hm
    obtain ⟨v, hv, hvtype⟩ := hcompute values hvtypes
    exact ⟨v, ⟨evaluator, values, hevaluator, hvalues, hv⟩, hvtype.trans hn.symm⟩
  | .call n (.routine r) arguments => simp [isPure, Callee.needsStatement] at hpure
  | .step .. | .assign .. | .compound .. | .statement .. => simp [isPure] at hpure
  | .segment .. | .error _ => simp [WellTyped] at he

theorem Expr.exists_evaluatesAll {es : List Expr} (hpure : allPure es = true)
    (hes : AllWellTyped key types callable es) (hm : m.Typed types) :
    ∃ values, EvaluatesAll key calls es m values m ∧
      values.map Value.type = es.map Expr.type := by
  match es with
  | [] => exact ⟨[], ⟨rfl, rfl⟩, rfl⟩
  | e :: rest =>
    rw [allPure, Bool.and_eq_true] at hpure
    obtain ⟨he, hrest⟩ := hpure
    obtain ⟨v, hv, hvtype⟩ := exists_evaluates he hes.1 hm
    obtain ⟨others, hothers, hotypes⟩ := exists_evaluatesAll hrest hes.2 hm
    exact ⟨v :: others, ⟨v, m, others, hv, hothers, rfl⟩, by
      rw [map_cons, map_cons, hvtype, hotypes]⟩

end

/-- The operands of an operation whose right operand has no effects are both evaluated, also if the
left one decides. -/
theorem Expr.Evaluates.operands {n : Note} {left right : Expr}
    (hcalls : CallsTyped types callable calls)
    (he : (Expr.binary n op left right).WellTyped key types callable)
    (h : (Expr.binary n op left right).Evaluates key calls m v m') (hm : m.Typed types)
    (hright : op.isShortCircuit = true → right.isPure = true) :
    ∃ a b, EvaluatesAll key calls [left, right] m [a, b] m' ∧ op.compute? a b = some v := by
  obtain ⟨a, m₁, ha, h⟩ := h
  split at h
  · next hdecided =>
    obtain ⟨rfl, rfl⟩ := h
    obtain ⟨b, rfl, hb⟩ := BinaryOp.decided_iff.1 hdecided
    have hop : op.isShortCircuit = true := by cases op <;> first | rfl | cases hb
    have hm₁ := (Evaluates.typed hcalls he.1 ha hm).2
    obtain ⟨c, hc, -⟩ := exists_evaluates (hright hop) he.2.1 hm₁
    exact ⟨.bool b, c, ⟨_, _, _, ha, ⟨c, _, _, hc, ⟨rfl, rfl⟩, rfl⟩, rfl⟩,
      BinaryOp.compute?_of_decidedBy hb c⟩
  · obtain ⟨b, hb, hv⟩ := h
    exact ⟨a, b, ⟨_, _, _, ha, ⟨b, _, _, hb, ⟨rfl, rfl⟩, rfl⟩, rfl⟩, hv⟩

end

end Wirescript
