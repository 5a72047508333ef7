import Wirescript.Tree.Basic

/-!
# Collecting from trees

Several questions about a tree have a list for an answer, in the order in which the tree is read:
which routines it calls, which variables it mentions, which it may write. A `Visitor` says what a
single node adds, and `visit` collects it from the node and everything below.
-/

namespace Wirescript

/-- What the nodes of a tree add to a list. -/
structure Visitor (α : Type) where
  expr : Expr → List α := fun _ ↦ []
  stmt : Stmt → List α := fun _ ↦ []
  /-- What a statement adds after everything below it. -/
  last : Stmt → List α := fun _ ↦ []

mutual

def Expr.visit {α : Type} (v : Visitor α) (e : Expr) : List α :=
  v.expr e ++ match e with
    | .literal _ _ | .read _ _ | .step _ _ _ _ | .error _ => []
    | .unary _ _ operand => operand.visit v
    | .binary _ _ left right => left.visit v ++ right.visit v
    | .make _ x y z => x.visit v ++ y.visit v ++ z.visit v
    | .call _ _ arguments => Expr.visitAll v arguments
    | .convert _ operand => operand.visit v
    | .segment _ items => Expr.visitAll v items
    | .assign _ _ value => value.visit v
    | .compound _ _ _ value => value.visit v
    | .statement _ body => body.visit v

def Expr.visitAll {α : Type} (v : Visitor α) : List Expr → List α
  | [] => []
  | e :: rest => e.visit v ++ Expr.visitAll v rest

def Stmt.visit {α : Type} (v : Visitor α) (s : Stmt) : List α :=
  v.stmt s ++ (match s with
    | .block _ items => Stmt.visitAll v items
    | .declare _ _ _ | .label _ _ | .goto _ _ | .rollback _ _ | .ret _ | .hint _ _ | .nop _ => []
    | .define _ _ _ value => value.visit v
    | .assign _ _ value => value.visit v
    | .compound _ _ _ value => value.visit v
    | .ifThen _ condition body => condition.visit v ++ body.visit v
    | .ifElse _ condition body alternative =>
      condition.visit v ++ body.visit v ++ alternative.visit v
    | .whileLoop _ condition body => condition.visit v ++ body.visit v
    | .doWhile _ body condition => body.visit v ++ condition.visit v
    | .on _ _ arguments body => Expr.visitAll v arguments ++ body.visit v
    | .gotoIf _ _ condition _ => condition.visit v
    | .gotoOn _ _ _ arguments => Expr.visitAll v arguments
    | .retValue _ value => value.visit v
    | .call _ _ arguments _ => Expr.visitAll v arguments
    | .expression _ e => e.visit v) ++ v.last s

def Stmt.visitAll {α : Type} (v : Visitor α) : List Stmt → List α
  | [] => []
  | s :: rest => s.visit v ++ Stmt.visitAll v rest

end

/-! ### Calls -/

/-- The routines that a tree calls, once for each call. -/
def callVisitor : Visitor Routine where
  expr
    | .call _ callee _ => callee.routine?.toList
    | _ => []
  stmt
    | .call _ callee _ _ => callee.routine?.toList
    | _ => []

/-- The routines that a body calls, once for each call, in order. -/
def Stmt.callSites (body : Stmt) : List Routine := body.visit callVisitor

/-! ### Writes -/

/-- A variable and all that it is a component of. -/
def Variable.enclosing : Variable → List Variable
  | .slot s => [.slot s]
  | .component base axis origin => .component base axis origin :: base.enclosing

/-- The variables that a call may write because they are passed by reference. -/
def byReference (callee : Callee) (arguments : List Expr) : List Variable :=
  (callee.parameterModifiers.zip arguments).flatMap fun (m, a) ↦
    if m.byReference then (a.read?.map Variable.enclosing).getD [] else []

def writeVisitor : Visitor Variable where
  expr
    | .step _ x _ _ | .assign _ x _ | .compound _ x _ _ => x.enclosing
    | .call _ callee arguments => byReference callee arguments
    | _ => []
  stmt
    | .declare _ _ x | .define _ _ x _ | .assign _ x _ | .compound _ x _ _ => x.enclosing
    | .call _ callee arguments result =>
      (result.map Variable.enclosing).getD [] ++ byReference callee arguments
    | .gotoOn _ _ _ arguments => (arguments.filterMap Expr.read?).flatMap Variable.enclosing
    | _ => []

/-- Every variable that a body may write. A write to a component is also one to its base. -/
def Stmt.writes (body : Stmt) : List Variable := body.visit writeVisitor

/-! ### Mentions -/

/-- The variables of a signature: the parameters and the slot of the result. -/
def Routine.formals (r : Routine) : List Variable := r.parameters ++ r.returnSlot.toList

/-- A call mentions the variables of the signature it refers to. -/
def Callee.formals (c : Callee) : List Variable := (c.routine?.map Routine.formals).getD []

def mentionVisitor : Visitor Variable where
  expr
    | .read _ x | .step _ x _ _ | .assign _ x _ | .compound _ x _ _ => [x]
    | .call _ callee _ => callee.formals
    | _ => []
  stmt
    | .declare _ _ x | .define _ _ x _ | .assign _ x _ | .compound _ x _ _ => [x]
    | .call _ callee _ _ => callee.formals
    | _ => []
  last
    | .call _ _ _ (some x) => [x]
    | _ => []

/-- The variables that a body mentions, in order. -/
def Stmt.mentions (body : Stmt) : List Variable := body.visit mentionVisitor

end Wirescript
