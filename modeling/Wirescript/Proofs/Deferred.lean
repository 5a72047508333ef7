import Wirescript.Proofs.InOrder

/-!
# Counts that are stored late

What expressions mean when a count that yields the old value is stored late. The value of the count is
the variable itself, so the store is put off for as long as nothing has to run before the rest of the
expression is read: until an operand to the right runs something first (`Expr.isEager`), until the
enclosing call has been made, or until the enclosing assignment has stored. Counts that are owed when
the value is there are settled in the order in which they stand.

`Expr.Produces` leaves out what is still owed (`Expr.owed`). Of that, the arguments of a call are
settled as soon as its result has been taken (`Expr.hasty`), and an operand of something else may owe
the rest for longer (`Expr.pending`).
-/

namespace Wirescript

open Wirescript.Expr

/-- A count whose store is put off. -/
structure Count where
  x : Variable
  down : Bool
  span : Span

mutual

/-- Something has to run before the value is read. -/
def Expr.isEager : Expr → Bool
  | .literal .. | .read .. | .error _ => false
  | .unary _ _ operand | .convert _ operand => operand.isEager
  | .binary _ op left right => op.isShortCircuit && !right.isPure || (left.isEager || right.isEager)
  | .make _ x y z => x.isEager || (y.isEager || z.isEager)
  | .call _ callee arguments => callee.needsStatement || anyEager arguments
  | .segment _ items => anyEager items
  | .step _ _ yieldsNew _ => yieldsNew
  | .assign .. | .compound .. | .statement .. => true

@[inherit_doc isEager]
def Expr.anyEager : List Expr → Bool
  | [] => false
  | e :: rest => e.isEager || anyEager rest

end

mutual

/-- The counts that are not stored when the value is used as an operand. -/
def Expr.pending : Expr → List Count
  | .unary _ _ operand | .convert _ operand => operand.pending
  | .binary _ op left right =>
    if op.isShortCircuit && !right.isPure then []
    else (if right.isEager then [] else left.pending) ++ right.pending
  | .make _ x y z =>
    (if y.isEager || z.isEager then [] else x.pending) ++
      ((if z.isEager then [] else y.pending) ++ z.pending)
  | .call _ callee arguments => if callee.needsStatement then [] else allPending arguments
  | .segment _ items => allPending items
  | .step n x yieldsNew down => if yieldsNew then [] else [⟨x, down, n.span⟩]
  | _ => []

@[inherit_doc pending]
def Expr.allPending : List Expr → List Count
  | [] => []
  | e :: rest => (if anyEager rest then [] else e.pending) ++ allPending rest

end

/-- The counts that are stored once the value has been taken, before anything else is done. -/
def Expr.hasty : Expr → List Count
  | .call _ callee arguments => if callee.needsStatement then allPending arguments else []
  | _ => []

/-- All counts that are not stored when the value is there. -/
def Expr.owed (e : Expr) : List Count := e.hasty ++ e.pending

/-- The counts that are stored before what stands to the right, where `first` says that something
runs first there. -/
def Expr.due (e : Expr) (first : Bool) : List Count := if first then e.owed else e.hasty

/-! ### Expressions without effects -/

mutual

/-- An expression without effects runs nothing first and leaves nothing to be stored. -/
theorem Expr.isPure_iff (e : Expr) : e.isPure = true ↔ e.isEager = false ∧ e.pending = [] := by
  match e with
  | .literal .. | .read .. | .error _ => simp [isPure, isEager, pending]
  | .unary _ _ operand | .convert _ operand => exact isPure_iff operand
  | .binary _ op left right =>
    have hl := isPure_iff left
    have hr := isPure_iff right
    cases h : right.isPure <;> simp_all [isPure, isEager, pending]
  | .make _ x y z =>
    have hx := isPure_iff x
    have hy := isPure_iff y
    have hz := isPure_iff z
    simp only [isPure, isEager, pending, List.append_eq_nil_iff]
    grind
  | .call _ callee arguments =>
    have hall := allPure_iff arguments
    cases h : callee.needsStatement <;> simp [isPure, isEager, pending, h, hall]
  | .segment _ items => exact allPure_iff items
  | .step _ _ yieldsNew _ => cases yieldsNew <;> simp [isPure, isEager, pending]
  | .assign .. | .compound .. | .statement .. => simp [isPure, isEager]

theorem Expr.allPure_iff (es : List Expr) :
    allPure es = true ↔ anyEager es = false ∧ allPending es = [] := by
  match es with
  | [] => simp [allPure, anyEager, allPending]
  | e :: rest =>
    have he := isPure_iff e
    have hrest := allPure_iff rest
    simp only [allPure, anyEager, allPending, List.append_eq_nil_iff]
    grind

end

/-- An expression that runs nothing first makes no call. -/
theorem Expr.hasty_eq_nil {e : Expr} (h : e.isEager = false) : e.hasty = [] := by
  cases e <;> simp_all [hasty, isEager]

mutual

/-- What is counted late is mentioned. -/
theorem Expr.mem_reads_of_pending {e : Expr} {c : Count} (h : c ∈ e.pending) : c.x ∈ e.reads := by
  match e with
  | .unary _ _ operand | .convert _ operand =>
    simp only [pending] at h
    simpa using mem_reads_of_pending h
  | .binary _ op left right =>
    have hl := mem_reads_of_pending (e := left) (c := c)
    have hr := mem_reads_of_pending (e := right) (c := c)
    simp only [pending] at h
    simp only [reads_binary]
    grind
  | .make _ x y z =>
    have hx := mem_reads_of_pending (e := x) (c := c)
    have hy := mem_reads_of_pending (e := y) (c := c)
    have hz := mem_reads_of_pending (e := z) (c := c)
    simp only [pending] at h
    simp only [reads_make]
    grind
  | .call _ callee arguments =>
    simp only [pending] at h
    split at h
    · cases h
    · exact mem_allReads_of_allPending h
  | .step n x yieldsNew down =>
    simp only [pending] at h
    split at h
    · cases h
    · simp [List.mem_singleton.1 h]
  | .segment _ items => exact mem_allReads_of_allPending h
  | .literal .. | .read .. | .error _ | .assign .. | .compound .. | .statement .. =>
    simp [pending] at h

theorem Expr.mem_allReads_of_allPending {es : List Expr} {c : Count}
    (h : c ∈ allPending es) : c.x ∈ allReads es := by
  match es with
  | [] => simp [allPending] at h
  | e :: rest =>
    rw [allPending, List.mem_append] at h
    rw [allReads_cons, List.mem_append]
    rcases h with h | h
    · split at h
      · cases h
      · exact .inl (mem_reads_of_pending h)
    · exact .inr (mem_allReads_of_allPending h)

end

/-! ### Meaning -/

section

variable {κ : Type} [DecidableEq κ] (key : Slot → κ)
  (calls : Routine → Memory κ → Memory κ → Prop)

/-- The counts are stored one after the other. -/
def Settles : List Count → Memory κ → Memory κ → Prop
  | [], m, m' => m' = m
  | c :: rest, m, m' => ∃ w m₁, Steps key c.x c.down m w m₁ ∧ Settles rest m₁ m'

mutual

/-- The expression has the value, and its effects but for what it owes lead from one memory to
another. -/
def Expr.Produces : Expr → Memory κ → Value → Memory κ → Prop
  | .literal _ value, m, v, m' => v = value ∧ m' = m
  | .read _ x, m, v, m' => v = m.load key x ∧ m' = m
  | .unary _ op operand, m, v, m' =>
    ∃ a m₁, operand.Produces m a m₁ ∧ Settles key operand.hasty m₁ m' ∧ op.compute? a = some v
  | .binary _ op left right, m, v, m' =>
    ∃ a m₁ m₂, left.Produces m a m₁ ∧ if op.isShortCircuit && !right.isPure then
        Settles key left.owed m₁ m₂ ∧ if a.bool?.any op.decidedBy then v = a ∧ m' = m₂
          else ∃ b m₃, right.Produces m₂ b m₃ ∧ Settles key right.owed m₃ m' ∧
            op.compute? a b = some v
      else Settles key (left.due right.isEager) m₁ m₂ ∧
          ∃ b m₃, right.Produces m₂ b m₃ ∧ Settles key right.hasty m₃ m' ∧ op.compute? a b = some v
  | .make n x y z, m, v, m' =>
    ∃ a m₁ m₂ b m₃ m₄ c m₅, x.Produces m a m₁ ∧
      Settles key (x.due (y.isEager || z.isEager)) m₁ m₂ ∧ y.Produces m₂ b m₃ ∧
      Settles key (y.due z.isEager) m₃ m₄ ∧ z.Produces m₄ c m₅ ∧ Settles key z.hasty m₅ m' ∧
      v = .ofComponents n.type ⟨a.float?.getD 0, b.float?.getD 0, c.float?.getD 0⟩
  | .convert n operand, m, v, m' =>
    ∃ a m₁, operand.Produces m a m₁ ∧ Settles key operand.hasty m₁ m' ∧ v = a.converted n.type
  | .call _ (.routine r) arguments, m, v, m' =>
    ∃ values m₁ slot, ProducesAll arguments m values m₁ ∧
      Invokes key calls r arguments values m₁ m' ∧ r.returnSlot = some slot ∧ v = m'.load key slot
  | .call _ (.builtin b _) arguments, m, v, m' =>
    ∃ evaluator values, b.evaluator = some evaluator ∧ ProducesAll arguments m values m' ∧
      evaluator.compute? values = some v
  | .step _ x yieldsNew down, m, v, m' =>
    if yieldsNew then Steps key x down m v m' else v = m.load key x ∧ m' = m
  | .assign _ x value, m, v, m' =>
    ∃ w m₁ m₂, value.Produces m w m₁ ∧ m₁.store key x w = .ok m₂ ∧ Settles key value.owed m₂ m' ∧
      v = m'.load key x
  | .segment .., _, _, _ | .compound .., _, _, _ | .error _, _, _, _ | .statement .., _, _, _ =>
    False

/-- The values of the expressions are produced one after the other. -/
def Expr.ProducesAll : List Expr → Memory κ → List Value → Memory κ → Prop
  | [], m, values, m' => values = [] ∧ m' = m
  | e :: rest, m, values, m' =>
    ∃ v m₁ m₂ others, e.Produces m v m₁ ∧ Settles key (e.due (anyEager rest)) m₁ m₂ ∧
      ProducesAll rest m₂ others m' ∧ values = v :: others

end

/-- The value is used once nothing is owed. -/
def Expr.Completes (e : Expr) (m : Memory κ) (v : Value) (m' : Memory κ) : Prop :=
  ∃ m₁, e.Produces key calls m v m₁ ∧ Settles key e.owed m₁ m'

/-- The value is stored, and then what is owed. -/
def Expr.StoresTo (e : Expr) (x : Variable) (m m' : Memory κ) : Prop :=
  ∃ v m₁ m₂, e.Produces key calls m v m₁ ∧ m₁.store key x v = .ok m₂ ∧ Settles key e.owed m₂ m'

/-- A call as a statement. Its arguments are settled after it. -/
def Callee.CallsLate (callee : Callee) (arguments : List Expr) (result : Option Variable)
    (m m' : Memory κ) : Prop :=
  ∃ values m₁ m₂, ProducesAll key calls arguments m values m₁ ∧
    callee.Applies key calls arguments values result m₁ m₂ ∧
    Settles key (allPending arguments) m₂ m'

/-- The effects of an expression that stands as a statement. -/
def Expr.ActsLate (e : Expr) (m m' : Memory κ) : Prop :=
  match e with
  | .call _ callee arguments => callee.CallsLate key calls arguments none m m'
  | other => ∃ v, other.Completes key calls m v m'

/-- What a statement does whose counts are stored late, and where control goes after it. -/
def Stmt.InTime (routine : Routine) (s : Stmt) (m : Memory κ) (c : Control) (m' : Memory κ) :
    Prop :=
  match s with
  | .define _ _ x value | .assign _ x value => c = .next ∧ value.StoresTo key calls x m m'
  | .expression _ e => c = .next ∧ e.ActsLate key calls m m'
  | .call _ callee arguments result => c = .next ∧ callee.CallsLate key calls arguments result m m'
  | .gotoIf _ target condition sense =>
    ∃ v, condition.Completes key calls m v m' ∧
      c = if v.bool? = some sense then .jump target else .next
  | .retValue _ value =>
    c = .stop ∧ ∃ v m₁, value.Completes key calls m v m₁ ∧
      match routine.returnSlot with
      | some slot => m₁.store key slot v = .ok m'
      | none => m' = m₁
  | other => other.Step key calls routine m c m'

end

section

variable {κ : Type} [DecidableEq κ] {key : Slot → κ} {m m' : Memory κ} {cs cs' : List Count}

@[simp] theorem settles_nil : Settles key [] m m' ↔ m' = m := Iff.rfl

theorem settles_append :
    Settles key (cs ++ cs') m m' ↔ ∃ m₁, Settles key cs m m₁ ∧ Settles key cs' m₁ m' := by
  induction cs generalizing m with
  | nil => simp
  | cons c rest ih =>
    simp only [List.cons_append, Settles, ih]
    grind

variable {calls : Routine → Memory κ → Memory κ → Prop} {v : Value} {n : Note}

/-- As a statement of its own, a count is stored whatever it yields. -/
theorem Expr.actsLate_step {x : Variable} {yieldsNew down : Bool} :
    (Expr.step n x yieldsNew down).ActsLate key calls m m' ↔ ∃ w, Steps key x down m w m' := by
  cases yieldsNew with
  | true =>
    refine ⟨fun ⟨v, m₁, hv, howed⟩ ↦ ⟨v, ?_⟩, fun ⟨w, hw⟩ ↦ ⟨w, m', hw, rfl⟩⟩
    obtain rfl : m' = m₁ := howed
    exact hv
  | false =>
    refine ⟨fun ⟨v, m₁, hv, howed⟩ ↦ ?_, fun ⟨w, hw⟩ ↦ ⟨_, m, ⟨rfl, rfl⟩, w, m', hw, rfl⟩⟩
    obtain ⟨rfl, rfl⟩ := hv
    obtain ⟨w, m₂, hw, rfl⟩ : Settles key [⟨x, down, n.span⟩] m₁ m' := howed
    exact ⟨w, hw⟩

/-- Components are produced one after the other. -/
theorem Expr.produces_make {x y z : Expr} : (Expr.make n x y z).Produces key calls m v m' ↔
      ∃ a b c, ProducesAll key calls [x, y, z] m [a, b, c] m' ∧
        v = .ofComponents n.type ⟨a.float?.getD 0, b.float?.getD 0, c.float?.getD 0⟩ := by
  simp only [Produces, ProducesAll, anyEager, due]
  grind

/-- So are the operands of an operation that evaluates both. -/
theorem Expr.produces_binary {op : BinaryOp} {left right : Expr}
    (h : (op.isShortCircuit && !right.isPure) = false) :
    (Expr.binary n op left right).Produces key calls m v m' ↔
      ∃ a b, ProducesAll key calls [left, right] m [a, b] m' ∧ op.compute? a b = some v := by
  simp only [Produces, ProducesAll, anyEager, due]
  grind

end

end Wirescript
