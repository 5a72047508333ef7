import Wirescript.Event
import Wirescript.Routine
import Wirescript.Span

/-!
# Scripts as trees

Expressions and statements of a script in which every name is resolved. Each expression carries a
`Note`: its type, its place in the source and its value if that is known. The note is part of the
node and may say something else than the node's children would give; `Tree.Build` derives it from
the children.

Statements cover both the structured forms that a script is written in and the labels and jumps
that they become. A form with an optional part is two constructors, so that trees nest through
lists only and every pass is a recursion on expressions, statements and lists of either.
-/

namespace Wirescript

/-- What is known about an expression besides its form. -/
structure Note where
  type : Ty
  span : Span
  constant : Option Value := none
  deriving DecidableEq, Repr, Inhabited

mutual

/-- An expression. -/
inductive Expr where
  | literal (note : Note) (value : Value)
  | read (note : Note) (x : Variable)
  | unary (note : Note) (op : UnaryOp) (operand : Expr)
  | binary (note : Note) (op : BinaryOp) (left right : Expr)
  /-- A vector or a rotation from its components; the type of the note tells which. -/
  | make (note : Note) (x y z : Expr)
  | call (note : Note) (callee : Callee) (arguments : List Expr)
  /-- A value as another type, the one of the note. -/
  | convert (note : Note) (operand : Expr)
  /-- A variable counted up, or down, by one. The value is the new one or the old one. -/
  | step (note : Note) (x : Variable) (yieldsNew down : Bool)
  /-- A literal list. -/
  | segment (note : Note) (items : List Expr)
  | assign (note : Note) (x : Variable) (value : Expr)
  | compound (note : Note) (x : Variable) (op : BinaryOp) (value : Expr)
  | error (note : Note)
  /-- Runs a statement and has no value. -/
  | statement (note : Note) (body : Stmt)

/-- A statement. -/
inductive Stmt where
  | block (span : Span) (items : List Stmt)
  | declare (span nameSpan : Span) (x : Variable)
  /-- A declaration with an initial value. -/
  | define (span nameSpan : Span) (x : Variable) (value : Expr)
  | assign (span : Span) (x : Variable) (value : Expr)
  | compound (span : Span) (x : Variable) (op : BinaryOp) (value : Expr)
  | ifThen (span : Span) (condition : Expr) (body : Stmt)
  | ifElse (span : Span) (condition : Expr) (body alternative : Stmt)
  | whileLoop (span : Span) (condition : Expr) (body : Stmt)
  | doWhile (span : Span) (body : Stmt) (condition : Expr)
  | on (span : Span) (event : Event) (arguments : List Expr) (body : Stmt)
  | label (span : Span) (label : Label)
  | goto (span : Span) (target : Label)
  /-- Jumps when the condition equals `sense`, and falls through otherwise. -/
  | gotoIf (span : Span) (target : Label) (condition : Expr) (sense : Bool)
  /-- Falls through at once, and jumps each time the event fires. -/
  | gotoOn (span : Span) (target : Label) (event : Event) (arguments : List Expr)
  /-- Ends what an event started. Names the label where control went on meanwhile, which counts as
  a jump there when reachability is asked for and is never wired. -/
  | rollback (span : Span) (target : Label)
  | ret (span : Span)
  | retValue (span : Span) (value : Expr)
  /-- A call for its effects; its result, if kept, goes to a variable. -/
  | call (span : Span) (callee : Callee) (arguments : List Expr) (result : Option Variable)
  | expression (span : Span) (expression : Expr)
  | hint (span : Span) (hint : Hint)
  | nop (span : Span)

end

instance : Inhabited Expr := ⟨.error default⟩

instance : Inhabited Stmt := ⟨.nop default⟩

namespace Expr

def note : Expr → Note
  | .literal n _ | .read n _ | .unary n _ _ | .binary n _ _ _ | .make n _ _ _ | .call n _ _
  | .convert n _ | .step n _ _ _ | .segment n _ | .assign n _ _ | .compound n _ _ _ | .error n
  | .statement n _ => n

/-- The same form under another note. -/
def withNote (n : Note) : Expr → Expr
  | .literal _ value => .literal n value
  | .read _ x => .read n x
  | .unary _ op operand => .unary n op operand
  | .binary _ op left right => .binary n op left right
  | .make _ x y z => .make n x y z
  | .call _ callee arguments => .call n callee arguments
  | .convert _ operand => .convert n operand
  | .step _ x yieldsNew down => .step n x yieldsNew down
  | .segment _ items => .segment n items
  | .assign _ x value => .assign n x value
  | .compound _ x op value => .compound n x op value
  | .error _ => .error n
  | .statement _ body => .statement n body

def type (e : Expr) : Ty := e.note.type

def span (e : Expr) : Span := e.note.span

/-- The value of the expression, if the note has it. -/
def constant (e : Expr) : Option Value := e.note.constant

/-- The variable that the expression is a plain mention of. -/
def read? : Expr → Option Variable
  | .read _ x => some x
  | _ => none

/-- The number that the expression is known to be. -/
def constantFloat? (e : Expr) : Option Float32 := e.constant.bind Value.float?

end Expr

namespace Stmt

def span : Stmt → Span
  | .block s _ | .declare s _ _ | .define s _ _ _ | .assign s _ _ | .compound s _ _ _
  | .ifThen s _ _ | .ifElse s _ _ _ | .whileLoop s _ _ | .doWhile s _ _ | .on s _ _ _ | .label s _
  | .goto s _ | .gotoIf s _ _ _ | .gotoOn s _ _ _ | .rollback s _ | .ret s | .retValue s _
  | .call s _ _ _ | .expression s _ | .hint s _ | .nop s => s

/-- Control never goes on to the next statement. -/
def endsFlow : Stmt → Bool
  | .goto .. | .rollback .. | .ret .. | .retValue .. => true
  | _ => false

def isHint : Stmt → Bool
  | .hint .. => true
  | _ => false

/-- The items of a block; any other statement is its own only item. -/
def items : Stmt → List Stmt
  | .block _ items => items
  | other => [other]

mutual

/-- The statements in order, with blocks inside blocks opened up. -/
def flatten : Stmt → List Stmt
  | .block _ items => flattenAll items
  | other => [other]

@[inherit_doc flatten]
def flattenAll : List Stmt → List Stmt
  | [] => []
  | s :: rest => s.flatten ++ flattenAll rest

end

end Stmt

end Wirescript
