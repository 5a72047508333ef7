import Wirescript.Flat.Flow
import Wirescript.Notice
import Wirescript.Supply
import Wirescript.Tree.Build
import Wirescript.Tree.Revised

/-!
# Lowering

Turns structured control flow into labels and jumps. What comes out is one flat list of statements:
no blocks inside it, no conditionals, loops or event handlers, and no compound assignments. On the
way constants are folded, a jump on a known condition is taken or left out, and what cannot be
reached is dropped.

Notes are derived again only above something that changed, so each step answers with a `Revised`
node. Statements have no notes, but an expression may hold one, so they are revised too.
-/

namespace Wirescript

/-- Lowering makes up labels, and may stop. -/
abbrev Lower := StateT LabelSupply (Except Fault)

namespace Lower

def label (kind : String) : Lower Label := modifyGet (·.fresh kind)

/-- The outcome for an operator whose operands have been lowered. `kept` has the note it came with,
and `derived` has one made from the operands. A known value takes the place of the expression, and
a note that names one is believed as long as no operand changed. -/
def settle (note : Note) (changed : Bool) (kept derived : Expr) : Revised Expr :=
  match (if changed then none else note.constant).or derived.constant with
  | some value => .new (Build.literal value note.span)
  | none => .choose changed kept derived

/-- Replaces a call by its value, if its callee can be evaluated and all arguments are known. -/
def foldCall (note : Note) (callee : Callee) (arguments : Revised (List Expr)) :
    Except Fault (Revised Expr) :=
  let kept := arguments.map (.call note callee)
  match callee.builtin? with
  | none => .ok kept
  | some b =>
    match b.evaluator, b.parameters.find? (·.modifiers.byReference) with
    | none, _ => .ok kept
    | some _, some p => .error (.constantByReference b.name p.name)
    | some evaluator, none =>
      match (arguments.node.mapM Expr.constant).bind evaluator.compute? with
      | some value => .ok (.new (Build.literal value note.span))
      | none => .ok kept

/-- A jump when the condition equals `sense`. If the condition is known it is a plain jump or
nothing. -/
def jumpIf (condition : Expr) (target : Label) (sense : Bool) (span : Span) : Stmt :=
  match condition.constant.bind Value.bool? with
  | some value => if value = sense then .goto span target else .nop span
  | none => .gotoIf span target condition sense

/-- A branch of a conditional, between marks for the placement of its blocks. -/
def grouped (body : Stmt) : List Stmt :=
  [.hint body.span .enterBlock, body, .hint body.span .exitBlock]

mutual

def expr : Expr → Lower (Revised Expr)
  | .literal n value => return .same (.literal n value)
  | .read n x => return .same (.read n x)
  | .unary n op operand => do
    let o ← expr operand
    return settle n o.changed (.unary n op o.node) (Build.unary op o.node n.span)
  | .binary n op left right => do
    let l ← expr left
    let r ← expr right
    return settle n (l.changed || r.changed) (.binary n op l.node r.node)
      (Build.binary op l.node r.node n.span)
  | .make n x y z => do
    let x ← expr x
    let y ← expr y
    let z ← expr z
    return settle n (x.changed || y.changed || z.changed) (.make n x.node y.node z.node)
      (Build.make n.type x.node y.node z.node n.span)
  | .call n callee arguments => do
    foldCall n callee (← exprs arguments)
  | .convert n operand => do
    let o ← expr operand
    return settle n o.changed (.convert n o.node) (Build.convert o.node n.type n.span)
  | .step n x yieldsNew down => return .same (.step n x yieldsNew down)
  | .segment n items => return (← exprs items).map (.segment n)
  | .assign n x value => return (← expr value).map (.assign n x)
  | .compound n x op value => do
    let v ← expr value
    return .new (Build.assign x (Build.combined x op v.node n.span) n.span)
  | .error n => return .same (.error n)
  | .statement n body => return (← stmt body).map (.statement n)

def exprs : List Expr → Lower (Revised (List Expr))
  | [] => return .same []
  | e :: rest => return .map₂ List.cons (← expr e) (← exprs rest)

def stmt : Stmt → Lower (Revised Stmt)
  | .block s items => return (← stmts items).map (.block s)
  | .declare s nameSpan x => return .same (.declare s nameSpan x)
  | .define s nameSpan x value => return (← expr value).map (.define s nameSpan x)
  | .assign s x value => return (← expr value).map (.assign s x)
  | .compound s x op value => do
    let v ← expr value
    return .new (.assign s x (Build.combined x op v.node s))
  | .ifThen s condition body => do
    let c ← expr condition
    let b ← stmt body
    let after ← label "end"
    return .new (.block s ([jumpIf c.node after false s] ++ grouped b.node ++ [.label s after]))
  | .ifElse s condition body alternative => do
    let c ← expr condition
    let b ← stmt body
    let a ← stmt alternative
    let after ← label "end"
    let otherwise ← label "else"
    return .new (.block s ([jumpIf c.node otherwise false s] ++ grouped b.node
      ++ [.goto s after, .label s otherwise] ++ grouped a.node ++ [.label s after]))
  | .whileLoop s condition body => do
    let c ← expr condition
    let b ← stmt body
    let again ← label "continue"
    let leave ← label "break"
    return .new (.block s [.label s again, jumpIf c.node leave false s, b.node, .goto s again,
      .label s leave])
  | .doWhile s body condition => do
    let b ← stmt body
    let c ← expr condition
    let top ← label "body"
    let again ← label "continue"
    let leave ← label "break"
    return .new (.block s [.label s top, b.node, .label s again, jumpIf c.node top true s,
      .label s leave])
  | .on s event arguments body => do
    let a ← exprs arguments
    let b ← stmt body
    let handler ← label "event"
    let after ← label "end"
    return .new (.block s [.gotoOn s handler event a.node, .goto s after, .label s handler, b.node,
      .rollback s after, .label s after])
  | .label s l => return .same (.label s l)
  | .goto s target => return .same (.goto s target)
  | .gotoIf s target condition sense => do
    let c ← expr condition
    return .new (jumpIf c.node target sense s)
  | .gotoOn s target event arguments => return (← exprs arguments).map (.gotoOn s target event)
  | .rollback s target => return .same (.rollback s target)
  | .ret s => return .same (.ret s)
  | .retValue s value => return (← expr value).map (.retValue s)
  | .call s callee arguments result =>
    return (← exprs arguments).map fun arguments ↦ .call s callee arguments result
  | .expression s e => return (← expr e).map (.expression s)
  | .hint s h => return .same (.hint s h)
  | .nop s => return .same (.nop s)

def stmts : List Stmt → Lower (Revised (List Stmt))
  | [] => return .same []
  | s :: rest => return .map₂ List.cons (← stmt s) (← stmts rest)

end

end Lower

/-- Adds the return that a routine without a result ends with, if control can get there. -/
def closeFlat (routine : Routine) (span : Span) (statements : List Stmt) :
    Except Fault (List Stmt) := do
  if routine.returnType.isVoid then
    return if (← Flow.build statements).fallsThrough then statements ++ [.ret span] else statements
  else
    return statements

/-- Drops the statements that control cannot reach. Marks stay, so that they remain balanced. -/
def dropUnreachable (statements : List Stmt) : Except Fault (List Stmt) := do
  let reachable := (← Flow.build statements).reachable
  return (statements.zip reachable).filterMap fun (s, live) ↦
    if live || s.isHint then some s else none

/-- A lowered body. -/
structure Lowered where
  span : Span
  statements : List Stmt
  /-- How many statements could not be reached. -/
  dropped : Nat
  deriving Inhabited

namespace Lowered

def body (l : Lowered) : Stmt := .block l.span l.statements

def notice (l : Lowered) (routine : Routine) : Notice :=
  .lowered routine.name l.statements.length l.dropped

end Lowered

/-- Lowers the body of a routine. -/
def lower (routine : Routine) (body : Stmt) : Except Fault Lowered := do
  let (lowered, _) ← (Lower.stmt body).run { scope := routine.name }
  let statements ← closeFlat routine body.span lowered.node.flatten
  let live ← dropUnreachable statements
  return ⟨body.span, live, statements.length - live.length⟩

end Wirescript
