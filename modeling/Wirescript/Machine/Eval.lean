import Wirescript.Machine.Memory

/-!
# Evaluation of expressions

The value of an expression that has no effects, given what the cells hold. A value that the note of
an expression names is taken without looking further. Both operands of a short-circuit operator are
evaluated; by then it has no effects to skip.
-/

namespace Wirescript

variable {κ : Type} [DecidableEq κ] (key : Slot → κ)

/-- The value, or the fault that there is none. -/
def Expr.valued (e : Expr) : Option Value → Except Fault Value
  | some value => .ok value
  | none => .error (.internal (.cannotEvaluate e))

/-- A value as another type. Only vectors and rotations are converted. -/
def Value.converted (type : Ty) : Value → Value
  | .vector3 v => if type = .rotation then .rotation v else .vector3 v
  | .rotation v => if type = .vector3 then .vector3 v else .rotation v
  | other => other

mutual

def Expr.eval (m : Memory κ) (e : Expr) : Except Fault Value :=
  match e.constant with
  | some value => .ok value
  | none =>
    match e with
    | .literal _ value => .ok value
    | .read _ x => .ok (m.load key x)
    | .unary n op operand => do
      let v ← operand.eval m
      (Expr.unary n op operand).valued (op.compute? v)
    | .binary n op left right => do
      let l ← left.eval m
      let r ← right.eval m
      (Expr.binary n op left right).valued (op.compute? l r)
    | .make n x y z => do
      let x ← x.eval m
      let y ← y.eval m
      let z ← z.eval m
      return .ofComponents n.type ⟨x.float?.getD 0, y.float?.getD 0, z.float?.getD 0⟩
    | .convert n operand => do
      let v ← operand.eval m
      return v.converted n.type
    | .call n callee arguments =>
      match callee.builtin?.bind Builtin.evaluator with
      | none => .error (.internal (.cannotEvaluate (.call n callee arguments)))
      | some evaluator => do
        let values ← Expr.evalAll m arguments
        (Expr.call n callee arguments).valued (evaluator.compute? values)
    | .step n x yieldsNew down =>
      .error (.internal (.cannotEvaluate (.step n x yieldsNew down)))
    | .segment n items => .error (.internal (.cannotEvaluate (.segment n items)))
    | .assign n x value => .error (.internal (.cannotEvaluate (.assign n x value)))
    | .compound n x op value => .error (.internal (.cannotEvaluate (.compound n x op value)))
    | .error n => .error (.internal (.cannotEvaluate (.error n)))
    | .statement n body => .error (.internal (.cannotEvaluate (.statement n body)))

def Expr.evalAll (m : Memory κ) : List Expr → Except Fault (List Value)
  | [] => .ok []
  | e :: rest => do
    let v ← e.eval m
    return v :: (← Expr.evalAll m rest)

end

end Wirescript
