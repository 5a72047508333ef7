import Wirescript.Tree.Basic

/-!
# Expressions with derived notes

Each function here builds one form of expression and derives its type and its value from the parts.
Passes that make up new expressions use these, so that what they make up looks like the script.
-/

namespace Wirescript.Build

def literal (value : Value) (span : Span) : Expr :=
  .literal ⟨value.type, span, some value⟩ value

def float (value : Float32) (span : Span) : Expr := literal (.float value) span

def read (x : Variable) (span : Span) : Expr := .read ⟨x.type, span, none⟩ x

def unary (op : UnaryOp) (operand : Expr) (span : Span) : Expr :=
  .unary ⟨op.resultType operand.type, span, operand.constant.bind op.compute?⟩ op operand

/-- The value of an operation on operands that may be known. The left operand of a short-circuit
operator is enough if it decides. -/
def binaryConstant (op : BinaryOp) : Option Value → Option Value → Option Value
  | some l, some r => op.compute? l r
  | some (.bool l), none => if op.decidedBy l then some (.bool l) else none
  | _, _ => none

def binary (op : BinaryOp) (left right : Expr) (span : Span) : Expr :=
  .binary ⟨op.resultType left.type right.type, span,
    binaryConstant op left.constant right.constant⟩ op left right

/-- The value of three components that are all known numbers. -/
def makeConstant (type : Ty) : Option Value → Option Value → Option Value → Option Value
  | some (.float x), some (.float y), some (.float z) => some (.ofComponents type ⟨x, y, z⟩)
  | _, _, _ => none

def make (type : Ty) (x y z : Expr) (span : Span) : Expr :=
  .make ⟨type, span, makeConstant type x.constant y.constant z.constant⟩ x y z

def call (callee : Callee) (arguments : List Expr) (span : Span) : Expr :=
  .call ⟨callee.returnType, span, none⟩ callee arguments

/-- The value as another type: vectors and rotations have the same components, and a value of the
type asked for is itself. -/
def convertConstant (type : Ty) : Value → Option Value
  | .vector3 v =>
    if type = .rotation then some (.rotation v)
    else if type = .vector3 then some (.vector3 v) else none
  | .rotation v =>
    if type = .vector3 then some (.vector3 v)
    else if type = .rotation then some (.rotation v) else none
  | value => if value.type = type then some value else none

def convert (operand : Expr) (type : Ty) (span : Span) : Expr :=
  .convert ⟨type, span, operand.constant.bind (convertConstant type)⟩ operand

def step (x : Variable) (yieldsNew down : Bool) (span : Span) : Expr :=
  .step ⟨x.type, span, none⟩ x yieldsNew down

def segment (element : ElementTy) (items : List Expr) (span : Span) : Expr :=
  .segment ⟨.segment element, span, none⟩ items

def assign (x : Variable) (value : Expr) (span : Span) : Expr :=
  .assign ⟨x.type, span, none⟩ x value

def compound (x : Variable) (op : BinaryOp) (value : Expr) (span : Span) : Expr :=
  .compound ⟨x.type, span, none⟩ x op value

def error (span : Span) : Expr := .error ⟨.error, span, none⟩

def statement (body : Stmt) : Expr := .statement ⟨.void, body.span, none⟩ body

/-- The variable counted up, or down, by one. -/
def stepped (x : Variable) (down : Bool) (span : Span) : Expr :=
  binary (if down then .subtract else .add) (read x span) (float 1 span) span

/-- The variable combined with a value, as a compound assignment stores it. -/
def combined (x : Variable) (op : BinaryOp) (value : Expr) (span : Span) : Expr :=
  binary op (read x span) value span

end Wirescript.Build
