import Mathlib.Tactic.SplitIfs
import Wirescript.Machine.Eval
import Wirescript.Proofs.Outcome
import Wirescript.Proofs.Visits

/-!
# Cells

What reading and writing a variable has to do with its cell: a variable is found in one cell, also
if it is a component at any depth, and it is all that a read looks at and a write changes. From this
follow the two ways in which memories are compared: they agree on all cells but some
(`Memory.Agrees`), and every cell holds a value of its type (`Memory.Typed`). The value of an
expression depends on the cells of the variables that it reads, and on nothing else.
-/

namespace Wirescript

open Wirescript.Expr
open Table

variable {e operand : Expr} {n : Note} {x : Variable}

/-- The variable whose cell holds the value. -/
def Variable.root : Variable → Slot
  | .slot s => s
  | .component base _ _ => base.root

namespace Memory

variable {κ : Type} [DecidableEq κ] {key : Slot → κ} {m m' μ : Memory κ} {v : Value}

theorem get?_insert (m : Memory κ) (k other : κ) (v : Value) :
    (m.insert k v).get? other = if k = other then some v else m.get? other := by
  split_ifs with h
  · rw [h, get?_insert_self]
  · exact get?_insert_of_ne m v h

/-! ### One cell for a variable -/

section

variable (h : μ.get? (key x.root) = m.get? (key x.root))

include h

theorem load_congr : μ.load key x = m.load key x := by
  induction x with
  | slot s => rw [load, load, show μ.get? (key s) = m.get? (key s) from h]
  | component base axis origin ih => rw [load, load, ih h]

/-- A write changes the cell of the variable and looks at nothing else. -/
theorem store_congr (hm' : m.store key x v = .ok m') :
    ∃ w, m' = m.insert (key x.root) w ∧ μ.store key x v = .ok (μ.insert (key x.root) w) := by
  induction x generalizing v with
  | slot s =>
    cases hm'
    exact ⟨v, rfl, rfl⟩
  | component base axis origin ih =>
    have hload : μ.load key base = m.load key base := load_congr h
    unfold store at hm' ⊢
    split at hm'
    · cases hm'
    · rw [hload]
      split at hm'
      · exact ih h hm'
      · exact ih h hm'
      · cases hm'

end

section

variable (h : m.store key x v = .ok m')

include h

theorem store_eq_insert : ∃ w, m' = m.insert (key x.root) w := by
  obtain ⟨w, hw, -⟩ := store_congr rfl h
  exact ⟨w, hw⟩

theorem get?_store_of_ne {k : κ} (hk : key x.root ≠ k) : m'.get? k = m.get? k := by
  obtain ⟨w, rfl⟩ := store_eq_insert h
  exact get?_insert_of_ne m w hk

theorem load_store_of_ne {y : Variable} (hy : key x.root ≠ key y.root) :
    m'.load key y = m.load key y :=
  load_congr (get?_store_of_ne h hy)

/-- What has been written is read. -/
theorem load_store_self : m'.load key x = v := by
  induction x generalizing v with
  | slot s =>
    cases h
    rw [load, get?_insert_self]
    rfl
  | component base axis origin ih =>
    unfold store at h
    split at h
    · cases h
    · next number hnumber =>
      obtain rfl : v = .float number := by cases v <;> simp_all [Value.float?]
      split at h
      · rw [load, ih h]
        cases axis <;> rfl
      · rw [load, ih h]
        cases axis <;> rfl
      · cases h

end

/-! ### Memories that agree -/

/-- The memories agree on every cell but those of a set. -/
def Agrees (hidden : κ → Prop) (m μ : Memory κ) : Prop := ∀ k, ¬ hidden k → μ.get? k = m.get? k

variable {hidden : κ → Prop}

theorem Agrees.refl (hidden : κ → Prop) (m : Memory κ) : Agrees hidden m m := fun _ _ ↦ rfl

section

variable (h : Agrees hidden m μ)

include h

theorem Agrees.load (hx : ¬ hidden (key x.root)) : μ.load key x = m.load key x :=
  load_congr (h _ hx)

/-- A write to a cell that is not hidden can be made in both memories. -/
theorem Agrees.store (hx : ¬ hidden (key x.root)) (hm' : m.store key x v = .ok m') :
    ∃ μ', μ.store key x v = .ok μ' ∧ Agrees hidden m' μ' ∧
      ∀ k, hidden k → μ'.get? k = μ.get? k := by
  obtain ⟨w, rfl, hμ'⟩ := store_congr (h _ hx) hm'
  refine ⟨_, hμ', fun k hk ↦ ?_, fun k hk ↦ ?_⟩
  · rw [get?_insert, get?_insert, h k hk]
  · exact get?_insert_of_ne μ w fun heq ↦ hx (heq ▸ hk)

/-- A write to a hidden cell changes nothing that is compared. -/
theorem Agrees.insert {k : κ} (hk : hidden k) (v : Value) : Agrees hidden m (μ.insert k v) := by
  intro other hother
  have hne : k ≠ other := fun heq ↦ hother (heq ▸ hk)
  rw [get?_insert_of_ne μ v hne, h other hother]

end

/-! ### Typed memories -/

/-- Every cell that has a type and has been written holds a value of its type. -/
def Typed (types : κ → Option Ty) (m : Memory κ) : Prop :=
  ∀ k t v, types k = some t → m.get? k = some v → v.type = t

variable {types : κ → Option Ty}

theorem Typed.insert (h : m.Typed types) {k : κ} (hv : ∀ t, types k = some t → v.type = t) :
    Memory.Typed types (m.insert k v) := by
  intro other t w ht hw
  rw [get?_insert] at hw
  split_ifs at hw with heq
  · cases hw
    exact hv t (heq ▸ ht)
  · exact h other t w ht hw

end Memory

/-! ### Typed variables -/

/-- The variable has the type of its cell, a type that cells can have, and is a component only of a
vector or a rotation. -/
def Variable.Typed {κ : Type} (key : Slot → κ) (types : κ → Option Ty) : Variable → Prop
  | .slot s => types (key s) = some s.type ∧ s.type.default?.isSome = true
  | .component base _ _ => base.Typed key types ∧ base.type.isVectorLike = true

theorem Variable.Typed.types_root {κ : Type} {key : Slot → κ} {types : κ → Option Ty}
    (h : x.Typed key types) : types (key x.root) = some x.root.type := by
  induction x with
  | slot s => exact h.1
  | component base axis origin ih => exact ih h.1

theorem Ty.type_of_default? {t : Ty} {v : Value} (h : t.default? = some v) : v.type = t := by
  cases t <;> simp [Ty.default?] at h <;> subst h <;> rfl

namespace Memory

variable {κ : Type} [DecidableEq κ] {key : Slot → κ} {m m' : Memory κ} {v : Value}
  {types : κ → Option Ty}

theorem Typed.load (h : m.Typed types) (hx : x.Typed key types) : (m.load key x).type = x.type := by
  cases x with
  | slot s =>
    obtain ⟨htype, hdefault⟩ := hx
    rw [Memory.load]
    rcases hget : m.get? (key s) with - | v
    · obtain ⟨d, hd⟩ := Option.isSome_iff_exists.1 hdefault
      rw [hd]
      exact Ty.type_of_default? hd
    · exact h _ _ _ htype hget
  | component base axis origin => rfl

/-- Storing a value of its type to a variable keeps a memory typed. -/
theorem Typed.store (h : m.Typed types) (hx : x.Typed key types) (hv : v.type = x.type)
    (hm' : m.store key x v = .ok m') : m'.Typed types := by
  induction x generalizing v with
  | slot s =>
    cases hm'
    refine h.insert fun t ht ↦ ?_
    cases hx.1.symm.trans ht
    exact hv
  | component base axis origin ih =>
    have hload := h.load hx.1
    unfold Memory.store at hm'
    split at hm'
    · cases hm'
    · split at hm'
      · next w hw => exact ih hx.1 (by rw [← hload, hw]; rfl) hm'
      · next w hw => exact ih hx.1 (by rw [← hload, hw]; rfl) hm'
      · cases hm'

end Memory

/-! ### Variables that a value depends on -/

/-- The variables that are read, or written and then read. -/
def readVisitor : Visitor Variable where
  expr
    | .read _ x | .step _ x _ _ | .assign _ x _ => [x]
    | _ => []

/-- The variables that the value of an expression may depend on. -/
def Expr.reads (e : Expr) : List Variable := e.visit readVisitor

@[inherit_doc reads]
def Expr.allReads (es : List Expr) : List Variable := visitAll readVisitor es

@[simp] theorem Expr.reads_read : (Expr.read n x).reads = [x] := rfl

@[simp] theorem Expr.reads_step {yieldsNew down : Bool} :
    (Expr.step n x yieldsNew down).reads = [x] := rfl

@[simp] theorem Expr.reads_unary {op : UnaryOp} :
    (Expr.unary n op operand).reads = operand.reads := rfl

@[simp] theorem Expr.reads_convert : (Expr.convert n operand).reads = operand.reads := rfl

@[simp] theorem Expr.reads_binary {op : BinaryOp} {left right : Expr} :
    (Expr.binary n op left right).reads = left.reads ++ right.reads := rfl

@[simp] theorem Expr.reads_make {x y z : Expr} :
    (Expr.make n x y z).reads = x.reads ++ y.reads ++ z.reads := rfl

@[simp] theorem Expr.reads_call {callee : Callee} {arguments : List Expr} :
    (Expr.call n callee arguments).reads = allReads arguments := rfl

@[simp] theorem Expr.reads_assign {value : Expr} :
    (Expr.assign n x value).reads = x :: value.reads := rfl

@[simp] theorem Expr.allReads_nil : allReads [] = [] := rfl

@[simp] theorem Expr.allReads_cons {rest : List Expr} :
    allReads (e :: rest) = e.reads ++ allReads rest := rfl

/-! ### Values of expressions -/

theorem Substitution.builtin?_callee (σ : Substitution) (callee : Callee) :
    (σ.callee callee).builtin? = callee.builtin? := by
  cases callee <;> rfl

theorem Expr.constant_substitute {σ : Substitution} (e : Expr) :
    (e.substitute σ).constant = e.constant := by
  cases e <;> rw [substitute] <;> rfl

section Values

variable {κ κ' : Type} [DecidableEq κ] [DecidableEq κ'] {key : Slot → κ} {key' : Slot → κ'}
  {m : Memory κ} {μ : Memory κ'} {σ : Substitution} {f : Fault → Fault}

/-- The fault that an expression has no value becomes that of the expression with other symbols. -/
def Substitution.Blames (σ : Substitution) (f : Fault → Fault) : Prop :=
  ∀ e, f (.internal (.cannotEvaluate e)) = .internal (.cannotEvaluate (e.substitute σ))

theorem Expr.valued_substitute (hf : σ.Blames f) (e : Expr) (v : Option Value) :
    (e.substitute σ).valued v = (e.valued v).mapError f := by
  cases v with
  | none => exact congrArg Except.error (hf e).symm
  | some v => rfl

mutual

/-- Where symbols have been replaced, an expression has the value or the fault that it had, if the
variables that are read have their values. -/
theorem Expr.eval_mapError (hf : σ.Blames f) {e : Expr}
    (h : ∀ x ∈ e.reads, m.load key (σ.var x) = μ.load key' x) :
    (e.substitute σ).eval key m = (e.eval key' μ).mapError f := by
  rw [eval.eq_def, eval.eq_def key' μ, constant_substitute]
  have hcannot := hf e
  rcases e.constant with - | value
  · match e with
    | .literal n value => rfl
    | .read n x => exact congrArg Except.ok (h x (by simp))
    | .unary n op operand =>
      simp only [substitute, mapError_bind, eval_mapError hf (e := operand) h]
      exact congrArg _ (funext fun _ ↦ (Expr.unary n op operand).valued_substitute hf _)
    | .convert n operand =>
      simp only [substitute, mapError_bind, eval_mapError hf (e := operand) h]
      rfl
    | .binary n op left right =>
      rw [reads_binary, List.forall_mem_append] at h
      simp only [substitute, mapError_bind, eval_mapError hf h.1, eval_mapError hf h.2]
      exact congrArg _ (funext fun _ ↦ congrArg _ (funext fun _ ↦
        (Expr.binary n op left right).valued_substitute hf _))
    | .make n x y z =>
      rw [reads_make, List.forall_mem_append, List.forall_mem_append] at h
      simp only [substitute, mapError_bind, eval_mapError hf h.1.1,
        eval_mapError hf h.1.2, eval_mapError hf h.2]
      rfl
    | .call n callee arguments =>
      simp only [substitute, σ.builtin?_callee]
      rcases callee.builtin?.bind Builtin.evaluator with - | evaluator
      · exact congrArg Except.error hcannot.symm
      · have hall := evalAll_mapError hf h
        simp only [mapError_bind, hall]
        exact congrArg _ (funext fun _ ↦ (Expr.call n callee arguments).valued_substitute hf _)
    | .step .. | .segment .. | .assign .. | .compound .. | .error _ | .statement .. =>
      exact congrArg Except.error hcannot.symm
  · rfl

@[inherit_doc eval_mapError]
theorem Expr.evalAll_mapError (hf : σ.Blames f) {es : List Expr}
    (h : ∀ x ∈ allReads es, m.load key (σ.var x) = μ.load key' x) :
    evalAll key m (substituteAll σ es) = (evalAll key' μ es).mapError f := by
  match es with
  | [] => rfl
  | e :: rest =>
    rw [allReads_cons, List.forall_mem_append] at h
    simp only [substituteAll, evalAll, mapError_bind, eval_mapError hf h.1,
      evalAll_mapError hf h.2]
    rfl

end

end Values

section Congruence

variable {κ : Type} [DecidableEq κ] {key : Slot → κ} {m μ : Memory κ}

theorem mapError_id {α : Type} (x : Except Fault α) : x.mapError id = x := by cases x <;> rfl

theorem Substitution.blames_empty : Substitution.Blames {} id := fun e ↦ by
  rw [e.substitute_empty, id]

/-- A value depends on the cells of the variables that are read. -/
theorem Expr.eval_congr (h : ∀ x ∈ e.reads, μ.get? (key x.root) = m.get? (key x.root)) :
    e.eval key μ = e.eval key m := by
  have hvalue := eval_mapError Substitution.blames_empty fun x hx ↦ Memory.load_congr (h x hx)
  rwa [e.substitute_empty, mapError_id] at hvalue

@[inherit_doc eval_congr]
theorem Expr.evalAll_congr {es : List Expr}
    (h : ∀ x ∈ allReads es, μ.get? (key x.root) = m.get? (key x.root)) :
    evalAll key μ es = evalAll key m es := by
  have hvalues :=
    evalAll_mapError Substitution.blames_empty fun x hx ↦ Memory.load_congr (h x hx)
  rwa [substituteAll_empty, mapError_id] at hvalues

end Congruence

end Wirescript
