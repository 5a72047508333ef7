import Wirescript.Tree.Basic

/-!
# Substitution in trees

Replaces the symbols of a tree and leaves its form alone: variables, labels and routines go through
a function each. Notes stay as they are. What takes the place of a return can be chosen too, since a
copy of a body inside another one must not return.
-/

namespace Wirescript

/-- What takes the place of symbols and returns. -/
structure Substitution where
  var : Variable → Variable := id
  label : Label → Label := id
  routine : Routine → Routine := id
  ret : Span → Stmt := .ret
  retValue : Span → Expr → Stmt := .retValue

def Substitution.callee (σ : Substitution) : Callee → Callee
  | .routine r => .routine (σ.routine r)
  | .builtin b t => .builtin b t

mutual

def Expr.substitute (σ : Substitution) : Expr → Expr
  | .literal n value => .literal n value
  | .read n x => .read n (σ.var x)
  | .unary n op operand => .unary n op (operand.substitute σ)
  | .binary n op left right => .binary n op (left.substitute σ) (right.substitute σ)
  | .make n x y z => .make n (x.substitute σ) (y.substitute σ) (z.substitute σ)
  | .call n callee arguments => .call n (σ.callee callee) (Expr.substituteAll σ arguments)
  | .convert n operand => .convert n (operand.substitute σ)
  | .step n x yieldsNew down => .step n (σ.var x) yieldsNew down
  | .segment n items => .segment n (Expr.substituteAll σ items)
  | .assign n x value => .assign n (σ.var x) (value.substitute σ)
  | .compound n x op value => .compound n (σ.var x) op (value.substitute σ)
  | .error n => .error n
  | .statement n body => .statement n (body.substitute σ)

def Expr.substituteAll (σ : Substitution) : List Expr → List Expr
  | [] => []
  | e :: rest => e.substitute σ :: Expr.substituteAll σ rest

def Stmt.substitute (σ : Substitution) : Stmt → Stmt
  | .block s items => .block s (Stmt.substituteAll σ items)
  | .declare s nameSpan x => .declare s nameSpan (σ.var x)
  | .define s nameSpan x value => .define s nameSpan (σ.var x) (value.substitute σ)
  | .assign s x value => .assign s (σ.var x) (value.substitute σ)
  | .compound s x op value => .compound s (σ.var x) op (value.substitute σ)
  | .ifThen s condition body => .ifThen s (condition.substitute σ) (body.substitute σ)
  | .ifElse s condition body alternative =>
    .ifElse s (condition.substitute σ) (body.substitute σ) (alternative.substitute σ)
  | .whileLoop s condition body => .whileLoop s (condition.substitute σ) (body.substitute σ)
  | .doWhile s body condition => .doWhile s (body.substitute σ) (condition.substitute σ)
  | .on s event arguments body =>
    .on s event (Expr.substituteAll σ arguments) (body.substitute σ)
  | .label s l => .label s (σ.label l)
  | .goto s target => .goto s (σ.label target)
  | .gotoIf s target condition sense =>
    .gotoIf s (σ.label target) (condition.substitute σ) sense
  | .gotoOn s target event arguments =>
    .gotoOn s (σ.label target) event (Expr.substituteAll σ arguments)
  | .rollback s target => .rollback s (σ.label target)
  | .ret s => σ.ret s
  | .retValue s value => σ.retValue s (value.substitute σ)
  | .call s callee arguments result =>
    .call s (σ.callee callee) (Expr.substituteAll σ arguments) (result.map σ.var)
  | .expression s e => .expression s (e.substitute σ)
  | .hint s h => .hint s h
  | .nop s => .nop s

def Stmt.substituteAll (σ : Substitution) : List Stmt → List Stmt
  | [] => []
  | s :: rest => s.substitute σ :: Stmt.substituteAll σ rest

end

end Wirescript
