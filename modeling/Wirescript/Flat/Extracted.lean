import Wirescript.Builtin.Catalog
import Wirescript.Fault
import Wirescript.Notice
import Wirescript.Supply
import Wirescript.Tree.Build
import Wirescript.Tree.Revised

/-!
# Extraction of effects

Values travel along data wires, which are read whenever a block asks, and effects happen along
execution wires only. So every effect inside an expression becomes a statement of its own: calls
that need an execution wire, assignments, counting up and down, and short-circuit operators whose
right operand has an effect. An expression splits into the statements that run before its value is
read, the value, and the statements that run after.

What is done with an expression depends on what it is for: a call whose result is stored needs no
temporary, a count for its effect alone needs no value. `Plan` holds the three uses of one
expression, so that the recursion follows the tree whichever use comes from above.
-/

namespace Wirescript

/-- What extraction has made up so far for a routine. -/
structure Extractor where
  routine : Nat
  temporaries : NameSupply := { stem := "#tmp" }
  labels : LabelSupply
  deriving Inhabited

def Extractor.ofRoutine (routine : Routine) : Extractor where
  routine := routine.id
  labels := { scope := routine.name }

/-- What has been made up is kept when extraction stops. -/
abbrev Extract := ExceptT Fault (StateM Extractor)

/-- An expression without its effects. -/
structure Split where
  before : List Stmt := []
  value : Revised Expr
  after : List Stmt := []
  deriving Inhabited

/-- Operands without their effects. -/
structure Operands where
  before : List Stmt := []
  values : Revised (List Expr)
  after : List Stmt := []
  deriving Inhabited

namespace Split

/-- Something has to run before the value is read. -/
def hasBefore (s : Split) : Bool := !s.before.isEmpty

def hasEffects (s : Split) : Bool := !s.before.isEmpty || !s.after.isEmpty

/-- All effects, for an expression whose value is not wanted. -/
def effects (s : Split) : List Stmt := s.before ++ s.after

/-- The effects around a statement that reads the value. -/
def around (s : Split) (use : Expr → Stmt) : List Stmt := s.before ++ use s.value.node :: s.after

end Split

/-- No later effect can change the value: it is known, or in a temporary, which is written once. -/
def Expr.isStable (e : Expr) : Bool :=
  e.constant.isSome || e.read?.any Variable.isTemporary

namespace Extract

def temporary (type : Ty) : Extract Variable := modifyGet fun s ↦
  let (name, rest) := s.temporaries.fresh
  (.slot ⟨.extracted s.routine s.temporaries.next, name, type, .temporary, {}⟩,
    { s with temporaries := rest })

def label (kind : String) : Extract Label := modifyGet fun s ↦
  let (l, rest) := s.labels.fresh kind
  (l, { s with labels := rest })

/-- The variable counted up, or down, by one. -/
def step (x : Variable) (down : Bool) (span : Span) : Stmt :=
  .assign span x (Build.stepped x down span)

/-- Has everything run before the value is read, where `needed` says that something else runs before
that. Unless the value is stable it is read into a temporary. -/
def ahead (needed : Bool) (s : Split) : Extract Split := do
  if needed then
    if s.value.node.isStable then
      return ⟨s.before ++ s.after, s.value, []⟩
    else
      let span := s.value.node.span
      let x ← temporary s.value.node.type
      return ⟨s.before ++ .assign span x s.value.node :: s.after, .new (Build.read x span), []⟩
  else
    return s

/-- Operands that are evaluated from left to right. One that stands to the left of something that
runs before is read ahead of that. -/
def gather : List Split → Extract Operands
  | [] => return { values := .same [] }
  | s :: rest => do
    let s ← ahead (rest.any Split.hasBefore) s
    let r ← gather rest
    return ⟨s.before ++ r.before, .map₂ List.cons s.value r.values, s.after ++ r.after⟩

/-- The value for a statement that reads it last of all. -/
def settled (s : Split) : Extract Split := ahead (!s.after.isEmpty) s

/-- A short-circuit operator whose right operand has effects: a jump skips them once the left
operand decides. -/
def shortCircuit (op : BinaryOp) (left right : Split) (span : Span) : Extract Split := do
  let x ← temporary .bool
  let skip ← label "skip"
  let read := Build.read x span
  return {
    before := left.around (.assign span x) ++ .gotoIf span skip read (decide (op = .or))
      :: (right.around (.assign span x) ++ [.label span skip])
    value := .new read }

/-- Stores values to consecutive elements of an array, the first one at `start`. -/
def elementStores (array : Expr) (start : Float32) (items : Extract Operands) (span : Span) :
    Extract (List Stmt) := do
  let some element := array.type.element?
    | throw (.internal (.storeIntoNonArray array))
  match Builtin.resolve "set" [array.type, .float, element.toTy] .none with
  | .error _ => throw (.internal (.noElementStore array.type))
  | .ok set => do
    let o ← items
    let stores := o.values.node.zipIdx.map fun (value, i) ↦
      Stmt.call span set [array, Build.float (start + Float32.ofNat i) span, value] none
    return o.before ++ stores ++ o.after

/-- The uses of an expression. -/
structure Plan where
  /-- As an operand of something else. -/
  value : Extract Split
  /-- To be stored by a statement with the given span. -/
  store : Variable → Span → Extract (List Stmt)
  /-- For its effects alone. -/
  discard : Extract (List Stmt)
  /-- The items, if the expression is a literal list. -/
  items? : Option (Extract Operands) := none

namespace Plan

/-- Storing reads the value, and discarding leaves its effects. -/
def ofValue (value : Extract Split) : Plan where
  value := value
  store x span := return (← value).around (.assign span x)
  discard := return (← value).effects

/-- An expression whose effects alone take less than its value. -/
def ofEffects (effects : Extract (List Stmt)) (value : Extract Split) : Plan where
  value := value
  store := (ofValue value).store
  discard := effects

/-- An expression that has no effects. -/
def plain (e : Expr) : Plan := ofValue (pure { value := .same e })

/-- The items of the only argument list that is stored element by element: a literal list stored to
a range that begins at a known index. -/
def range? (callee : Callee) (arguments : List Expr) (plans : List Plan) :
    Option (Expr × Float32 × Extract Operands) :=
  match arguments, plans with
  | [array, start, _], [_, _, values] =>
    if callee.builtin?.any (·.name == "setRange") then
      match start.constantFloat?, values.items? with
      | some index, some items => some (array, index, items)
      | _, _ => none
    else
      none
  | _, _ => none

/-- The operands of a list of plans. All of them are split before any of them is gathered. -/
def operands (plans : List Plan) : Extract Operands := do
  gather (← plans.mapM Plan.value)

/-- A call as a statement. -/
def callStatement (callee : Callee) (arguments : List Expr) (plans : List Plan)
    (result : Option Variable) (span : Span) : Extract (List Stmt) := do
  match range? callee arguments plans with
  | some (array, start, items) => elementStores array start items span
  | none =>
    let o ← operands plans
    return o.before ++ .call span callee o.values.node result :: o.after

/-- A call as an operand. One that needs an execution wire runs before and leaves its result in a
temporary. -/
def callValue (note : Note) (callee : Callee) (plans : List Plan) : Extract Split := do
  let o ← operands plans
  if callee.needsStatement then
    if callee.returnType.isVoid then
      return {
        before := o.before ++ .call note.span callee o.values.node none :: o.after
        value := .new (Build.statement (.nop note.span)) }
    else
      let x ← temporary callee.returnType
      return {
        before := o.before ++ .call note.span callee o.values.node (some x) :: o.after
        value := .new (Build.read x note.span) }
  else
    return ⟨o.before,
      .choose o.values.changed (.call note callee o.values.node)
        (Build.call callee o.values.node note.span),
      o.after⟩

/-- A literal list as an operand. -/
def segmentValue (note : Note) (plans : List Plan) : Extract Split := do
  let o ← operands plans
  let some element := note.type.element?
    | throw (.internal .noElementType)
  return ⟨o.before,
    .choose o.values.changed (.segment note o.values.node)
      (Build.segment element o.values.node note.span),
    o.after⟩

end Plan

mutual

def expr : Expr → Plan
  | .literal n value => .plain (.literal n value)
  | .read n x => .plain (.read n x)
  | .unary n op operand => .ofValue do
    let o ← (expr operand).value
    return ⟨o.before,
      .choose o.value.changed (.unary n op o.value.node) (Build.unary op o.value.node n.span),
      o.after⟩
  | .binary n op left right => .ofValue do
    let l ← (expr left).value
    let r ← (expr right).value
    if op.isShortCircuit && r.hasEffects then
      shortCircuit op l r n.span
    else
      let l ← ahead r.hasBefore l
      return ⟨l.before ++ r.before,
        .choose (l.value.changed || r.value.changed) (.binary n op l.value.node r.value.node)
          (Build.binary op l.value.node r.value.node n.span),
        l.after ++ r.after⟩
  | .make n x y z => .ofValue do
    let x ← (expr x).value
    let y ← (expr y).value
    let z ← (expr z).value
    let x ← ahead (y.hasBefore || z.hasBefore) x
    let y ← ahead z.hasBefore y
    return ⟨x.before ++ (y.before ++ z.before),
      .choose (x.value.changed || y.value.changed || z.value.changed)
        (.make n x.value.node y.value.node z.value.node)
        (Build.make n.type x.value.node y.value.node z.value.node n.span),
      x.after ++ (y.after ++ z.after)⟩
  | .call n callee arguments =>
    let plans := exprs arguments
    let value := Plan.callValue n callee plans
    { value := value
      store := fun x span ↦
        if callee.needsStatement && !callee.returnType.isVoid then
          Plan.callStatement callee arguments plans (some x) span
        else (Plan.ofValue value).store x span
      discard := Plan.callStatement callee arguments plans none n.span }
  | .convert n operand => .ofValue do
    let o ← (expr operand).value
    return ⟨o.before,
      .choose o.value.changed (.convert n o.value.node) (Build.convert o.value.node n.type n.span),
      o.after⟩
  | .step n x yieldsNew down =>
    let value := Revised.new (Build.read x n.span)
    let effects := [step x down n.span]
    .ofEffects (pure effects) <| pure <|
      if yieldsNew then { before := effects, value := value }
      else { value := value, after := effects }
  | .segment n items =>
    let plans := exprs items
    let value := Plan.segmentValue n plans
    { value := value
      discard := (Plan.ofValue value).discard
      store := fun x span ↦ elementStores (Build.read x span) 0 (Plan.operands plans) span
      items? := some (Plan.operands plans) }
  | .assign n x value =>
    let effects := (expr value).store x n.span
    .ofEffects effects do
      return { before := ← effects, value := .new (Build.read x n.span) }
  | .compound n x op value =>
    .ofValue (throw (.internal (.unextractableCompound (.compound n x op value))))
  | .error n => .plain (.error n)
  | .statement n body =>
    let effects := stmt body
    .ofEffects effects do
      return { before := ← effects, value := .new (Build.statement (.nop n.span)) }

def exprs : List Expr → List Plan
  | [] => []
  | e :: rest => expr e :: exprs rest

def stmt : Stmt → Extract (List Stmt)
  | .block _ items => stmts items
  | .declare s nameSpan x => return [.declare s nameSpan x]
  | .define s nameSpan x value =>
    match value with
    | .segment .. | .call .. => return .declare s nameSpan x :: (← (expr value).store x s)
    | _ => return (← (expr value).value).around (.define s nameSpan x)
  | .assign s x value => (expr value).store x s
  | .compound s x op value => throw (.internal (.unextractable (.compound s x op value)))
  | .ifThen s condition body => throw (.internal (.unextractable (.ifThen s condition body)))
  | .ifElse s condition body alternative =>
    throw (.internal (.unextractable (.ifElse s condition body alternative)))
  | .whileLoop s condition body =>
    throw (.internal (.unextractable (.whileLoop s condition body)))
  | .doWhile s body condition => throw (.internal (.unextractable (.doWhile s body condition)))
  | .on s event arguments body =>
    throw (.internal (.unextractable (.on s event arguments body)))
  | .label s l => return [.label s l]
  | .goto s target => return [.goto s target]
  | .gotoIf s target condition sense => do
    let c ← settled (← (expr condition).value)
    return c.around fun condition ↦ .gotoIf s target condition sense
  | .gotoOn s target event arguments => return [.gotoOn s target event arguments]
  | .rollback s target => return [.rollback s target]
  | .ret s => return [.ret s]
  | .retValue s value => do
    let v ← settled (← (expr value).value)
    return v.around (.retValue s)
  | .call s callee arguments result =>
    Plan.callStatement callee arguments (exprs arguments) result s
  | .expression _ e => (expr e).discard
  | .hint s h => return [.hint s h]
  | .nop s => return [.nop s]

def stmts : List Stmt → Extract (List Stmt)
  | [] => return []
  | s :: rest => return (← stmt s) ++ (← stmts rest)

end

end Extract

/-- A body whose effects are all statements. -/
structure Extracted where
  span : Span
  statements : List Stmt
  /-- How many temporaries were made up. -/
  temporaries : Nat
  deriving Inhabited

namespace Extracted

def body (e : Extracted) : Stmt := .block e.span e.statements

def notice (e : Extracted) (routine : Routine) : Notice :=
  .extracted routine.name e.statements.length e.temporaries

end Extracted

/-- Extracts the effects from the flat body of a routine. -/
def extract (routine : Routine) (body : Stmt) : Except Fault Extracted :=
  let (outcome, supply) := (Extract.stmt body).run (.ofRoutine routine)
  outcome.map fun statements ↦ ⟨body.span, statements, supply.temporaries.next⟩

end Wirescript
