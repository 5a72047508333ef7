import Wirescript.Block.Catalog
import Wirescript.Emission.Monad

/-!
# Emission of expressions

An expression becomes blocks that compute it and the wires between them. There are two ways to ask
for a vector or a rotation: whole, or as its three components. A constant, three components put
together and a variable have components at hand, and anything else is taken apart by a block. So
each expression has a `Source`, which answers both.
-/

namespace Wirescript

/-- The two ways to ask for the value of an expression. -/
structure Source where
  whole : Emit Feed
  parts : Emit (Triple Feed)

namespace Emit

/-! ### Single blocks -/

/-- Places a block and wires its inputs in order. -/
def operator (shape : BlockShape) (inputs : List Feed) : Emit Block := do
  let block ← place shape
  feedAll block 0 inputs
  return block

/-- The first output of a block with the given inputs. -/
def compute (shape : BlockShape) (inputs : List Feed) : Emit Feed := do
  let block ← operator shape inputs
  return some (← block.outputAt 0)

/-- A block that holds a value. Nothing is placed for the null object. -/
def constant : Value → Emit Feed
  | .float v => literal Catalog.number (some (.float v))
  | .vector3 v => literal Catalog.vector (some (.vector v))
  | .rotation v => literal Catalog.rotation (some (.rotation v))
  | .bool true => literal Catalog.truthTrue none
  | .bool false => literal Catalog.truthFalse none
  | .null => return none
where
  literal (shape : BlockShape) (value : Option BlockValue) : Emit Feed := do
    let block ← place shape
    match value with
    | some v => setValue block 0 v
    | none => pure ()
    return some (← block.outputAt 0)

def number (value : Float32) : Emit Feed := constant (.float value)

def negation (input : Feed) : Emit Feed := compute Catalog.not [input]

/-- Puts three components together. -/
def make (type : Ty) (components : Triple Feed) : Emit Feed :=
  compute (Catalog.makeFor type) components.toList

/-- Takes a value apart. -/
def breakApart (type : Ty) (source : Feed) : Emit (Triple Terminal) := do
  let block ← operator (Catalog.breakFor type) [source]
  return ⟨← block.outputAt 0, ← block.outputAt 1, ← block.outputAt 2⟩

/-- One thing for each axis, in order. -/
def eachAxis (f : Axis → Emit Feed) : Emit (Triple Feed) :=
  return ⟨← f .x, ← f .y, ← f .z⟩

/-! ### Variables -/

/-- The value of an inline variable: what was assigned to it last. -/
def inlineFeed (x : Variable) (span : Span) : Emit Feed := do
  let s ← get
  match s.inlines.get? x with
  | none => complain (.readBeforeAssigned x.name) span
  | some value =>
    let reads := value.reads + 1
    set { s with inlines := s.inlines.insert x { value with reads := reads } }
    if s.options.inlineReuse < reads then
      complain (.tooManyReads x.name s.options.inlineReuse) span
    else
      return value.feed

/-- A block that reads a cell. -/
def cellFeed (x : Variable) : Emit Feed := do
  match x.type.wire?.bind Catalog.variableBlock? with
  | none => breach (.noVariableBlock x)
  | some shape =>
    let block ← place shape
    setValue block 0 (.text x.storageName)
    return some (← block.outputAt 0)

/-- One component of a variable, whose whole value is `source`. Blocks that take a variable apart
are shared until the limit is reached, and a new one serves at least once. -/
def component (x : Variable) (source : Emit Feed) (axis : Axis) : Emit Feed := do
  if x.isInline then
    let outputs ← breakApart x.type (← source)
    return some (outputs.get axis)
  else
    let s ← get
    match (s.breaks.get? x).bind (·.take? axis s.options.breakReuse) with
    | some (t, cache) =>
      set { s with breaks := s.breaks.insert x cache }
      return some t
    | none =>
      let outputs ← breakApart x.type (← source)
      let fresh : BreakCache := { outputs := outputs, uses := (Triple.splat 0).set axis 1 }
      modify fun s ↦ { s with breaks := s.breaks.insert x fresh }
      return some (outputs.get axis)

def read (span : Span) : Variable → Emit Feed
  | .slot s => if (Variable.slot s).isInline then inlineFeed (.slot s) span else cellFeed (.slot s)
  | .component base axis _ => component base (read span base) axis

/-- One component of a variable. -/
def readAxis (x : Variable) (span : Span) (axis : Axis) : Emit Feed := component x (read span x) axis

/-! ### Operators -/

/-- How a binary operator is computed. -/
inductive Recipe where
  | block (shape : BlockShape)
  /-- The opposite of what a block says. -/
  | negated (shape : BlockShape)
  /-- One block that takes the operands the other way round. -/
  | swapped (shape : BlockShape)
  /-- A block for each axis, put together to a value of a type. A number stands for all axes. -/
  | perAxis (shape : BlockShape) (type : Ty)
  | rotationsEqual
  | rotationsDiffer
  deriving DecidableEq, Repr, Inhabited

/-- How an operator is computed on numbers. -/
def numberRecipe? : BinaryOp → Option Recipe
  | .add => some (.block Catalog.addNumbers)
  | .subtract => some (.block Catalog.subtractNumbers)
  | .multiply => some (.block Catalog.multiply)
  | .divide => some (.block Catalog.divide)
  | .modulo => some (.block Catalog.modulo)
  | .equals => some (.block Catalog.equalNumbers)
  | .notEquals => some (.negated Catalog.equalNumbers)
  | .less => some (.block Catalog.lessThan)
  | .greater => some (.block Catalog.greaterThan)
  | .lessOrEqual => some (.negated Catalog.greaterThan)
  | .greaterOrEqual => some (.negated Catalog.lessThan)
  | .and | .or => none

/-- How an operator is computed on vectors. -/
def vectorRecipe? : BinaryOp → Option Recipe
  | .add => some (.block Catalog.addVectors)
  | .subtract => some (.block Catalog.subtractVectors)
  | .equals => some (.block Catalog.equalVectors)
  | .notEquals => some (.negated Catalog.equalVectors)
  | .multiply => some (.perAxis Catalog.multiply .vector3)
  | .divide => some (.perAxis Catalog.divide .vector3)
  | .modulo => some (.perAxis Catalog.modulo .vector3)
  | _ => none

/-- How an operator is computed on rotations. -/
def rotationRecipe? : BinaryOp → Option Recipe
  | .multiply => some (.block Catalog.combineRotations)
  | .add => some (.perAxis Catalog.addNumbers .rotation)
  | .subtract => some (.perAxis Catalog.subtractNumbers .rotation)
  | .equals => some .rotationsEqual
  | .notEquals => some .rotationsDiffer
  | _ => none

/-- How an operator is computed on operands of two types. -/
def recipe? (op : BinaryOp) (left right : Ty) : Option Recipe :=
  match left, right, op with
  | .float, .float, op => numberRecipe? op
  | .bool, .bool, .and => some (.block Catalog.and)
  | .bool, .bool, .or => some (.block Catalog.or)
  | .bool, .bool, .equals => some (.block Catalog.equalTruths)
  | .bool, .bool, .notEquals => some (.negated Catalog.equalTruths)
  | .object, .object, .equals => some (.block Catalog.equalObjects)
  | .object, .object, .notEquals => some (.negated Catalog.equalObjects)
  | .vector3, .vector3, op => vectorRecipe? op
  | .vector3, .float, .multiply => some (.block Catalog.scaleVector)
  | .vector3, .float, .divide => some (.perAxis Catalog.divide .vector3)
  | .vector3, .float, .modulo => some (.perAxis Catalog.modulo .vector3)
  | .float, .vector3, .multiply => some (.swapped Catalog.scaleVector)
  | .vector3, .rotation, .multiply => some (.block Catalog.rotateVector)
  | .rotation, .rotation, op => rotationRecipe? op
  | _, _, _ => none

/-- The components of an operand. A number stands for all three. -/
def operandParts (type : Ty) (operand : Source) : Emit (Triple Feed) := do
  if type.isVectorLike then operand.parts else return .splat (← operand.whole)

/-- Two rotations are equal when all their components are. -/
def rotationsEqual (left right : Source) : Emit Feed := do
  let l ← left.parts
  let r ← right.parts
  let x ← compute Catalog.equalNumbers [l.x, r.x]
  let y ← compute Catalog.equalNumbers [l.y, r.y]
  let xy ← compute Catalog.and [x, y]
  let z ← compute Catalog.equalNumbers [l.z, r.z]
  compute Catalog.and [xy, z]

def pair (shape : BlockShape) (left right : Source) : Emit Feed := do
  let l ← left.whole
  let r ← right.whole
  compute shape [l, r]

def cook (recipe : Recipe) (leftType rightType : Ty) (left right : Source) : Emit Feed :=
  match recipe with
  | .block shape => pair shape left right
  | .negated shape => do negation (← pair shape left right)
  | .swapped shape => do
    let l ← left.whole
    let r ← right.whole
    compute shape [r, l]
  | .perAxis shape type => do
    let l ← operandParts leftType left
    let r ← operandParts rightType right
    make type (← eachAxis fun axis ↦ compute shape [l.get axis, r.get axis])
  | .rotationsEqual => rotationsEqual left right
  | .rotationsDiffer => do negation (← rotationsEqual left right)

def binary (op : BinaryOp) (leftType rightType : Ty) (left right : Source) : Emit Feed :=
  match recipe? op leftType rightType with
  | some recipe => cook recipe leftType rightType left right
  | none => breach (.noBinaryBlock op leftType rightType)

def unary (op : UnaryOp) (type : Ty) (operand : Source) : Emit Feed :=
  match op, type with
  | .identity, _ => operand.whole
  | .not, _ => do negation (← operand.whole)
  | .negate, .float => do compute Catalog.negate [← operand.whole]
  | .negate, .vector3 => do
    let value ← operand.whole
    let factor ← number (-1)
    compute Catalog.scaleVector [value, factor]
  | .negate, .rotation => do
    let components ← operand.parts
    make .rotation (← eachAxis fun axis ↦ compute Catalog.negate [components.get axis])
  | .negate, other => breach (.noUnaryBlock .negate other)

/-- The value as another type. Vectors and rotations have the same components. -/
def convert (source target : Ty) (operand : Source) : Emit Feed :=
  if source = target then operand.whole
  else if source.isVectorLike && target.isVectorLike then do make target (← operand.parts)
  else breach (.noConversion source target)

/-! ### Built-in functions -/

/-- The values of the arguments whose parameters are not outputs. -/
def inputs : List (Parameter × Source) → Emit (List Feed)
  | [] => return []
  | (p, argument) :: rest => do
    if p.modifiers.out then inputs rest
    else
      let value ← argument.whole
      return value :: (← inputs rest)

/-- The block behind a built-in function. -/
def builtinBlock (shape : BlockShape) (b : Builtin) (arguments : List Source) : Emit Block := do
  operator shape (← inputs (b.parameters.zip arguments))

/-- A block that selects the element some positions after the one that `base` points at. -/
def element (array : Ty) (base index : Feed) : Emit Terminal := do
  match array.wire?.bind Catalog.listElement? with
  | none => breach (.noListBlock array)
  | some shape =>
    let block ← operator shape [base, index]
    block.output "Element"

/-- A reference to the block at a fixed position. -/
def blockAt (arguments : List Expr) (span : Span) : Emit Feed := do
  unless (← get).options.blockQuery do
    complain (.unsupported "querying blocks at a fixed position") span
  match arguments with
  | [position] =>
    match position.constant with
    | some (.vector3 v) =>
      let block ← place Catalog.blockReference
      setValue block 0 (.vector v)
      return some (← block.outputAt 0)
    | _ => complain .notConstant position.span
  | _ => breach (.emissionArguments .blockAt)

/-- A pointer to an element of an array. -/
def elementOf (arguments : List Expr) (sources : List Source) : Emit Feed := do
  match arguments, sources with
  | [array, _], [base, index] =>
    let base ← base.whole
    let index ← index.whole
    return some (← element array.type base index)
  | _, _ => breach (.emissionArguments .elementOf)

/-- A call inside an expression. -/
def callData (callee : Callee) (arguments : List Expr) (sources : List Source) (span : Span) :
    Emit Feed :=
  match callee with
  | .routine r => breach (.callAsData r.name)
  | .builtin b type =>
    match b.emission with
    | .passive shape =>
      if b.isStatement then breach (.statementAsData b.name)
      else do
        let block ← builtinBlock shape b sources
        if type.isVoid then return none else return some (← block.outputAt 0)
    | .elementOf => elementOf arguments sources
    | .blockAt => blockAt arguments span
    | .active _ | .inspection | .elementStore | .rangeStore => breach (.statementAsData b.name)

end Emit

namespace Source

/-- The source of an expression from what its form says. A value that the note names comes first, and
components that the form does not have at hand come from taking the whole apart. -/
def ofForm (note : Note) (form : Emit Feed) (components : Option (Emit (Triple Feed)) := none) :
    Source :=
  let whole := match note.constant with
    | some value => Emit.constant value
    | none => form
  { whole := whole
    parts := match note.constant.bind Value.components? with
      | some v => Emit.eachAxis fun axis ↦ Emit.number (v.get axis)
      | none => components.getD do
        let outputs ← Emit.breakApart note.type (← whole)
        return outputs.map some }

end Source

mutual

def Expr.source : Expr → Source
  | .literal n value => .ofForm n (Emit.constant value)
  | .read n x => .ofForm n (Emit.read n.span x)
      (if x.isInline then none else some (Emit.eachAxis (Emit.readAxis x n.span)))
  | .unary n op operand => .ofForm n (Emit.unary op operand.type operand.source)
  | .binary n op left right =>
    .ofForm n (Emit.binary op left.type right.type left.source right.source)
  | .make n x y z =>
    let components : Emit (Triple Feed) :=
      return ⟨← x.source.whole, ← y.source.whole, ← z.source.whole⟩
    .ofForm n (do Emit.make n.type (← components)) (some components)
  | .call n callee arguments =>
    .ofForm n (Emit.callData callee arguments (Expr.sources arguments) n.span)
  | .convert n operand => .ofForm n (Emit.convert operand.type n.type operand.source)
  | .step n x yieldsNew down => .ofForm n (Emit.breach (.notData (.step n x yieldsNew down)))
  | .segment n items => .ofForm n (Emit.breach (.notData (.segment n items)))
  | .assign n x value => .ofForm n (Emit.breach (.notData (.assign n x value)))
  | .compound n x op value => .ofForm n (Emit.breach (.notData (.compound n x op value)))
  | .error n => .ofForm n (Emit.breach (.notData (.error n)))
  | .statement n body => .ofForm n (Emit.breach (.notData (.statement n body)))

def Expr.sources : List Expr → List Source
  | [] => []
  | e :: rest => e.source :: Expr.sources rest

end

end Wirescript
