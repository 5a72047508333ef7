import Wirescript.Tree.Render

/-!
# Outlines of trees

A tree as nested lists of words, with everything that a node holds: the tag of its form, its place,
its note and its parts. The rendered text of a statement is meant for people and leaves out types,
places and values; an outline is meant for tools that compare trees.
-/

namespace Wirescript

/-- Nested lists of words. -/
inductive Outline where
  | word (text : String)
  | flag (value : Bool)
  /-- Stands for a part that is not there. -/
  | absent
  | list (items : List Outline)
  deriving Inhabited

namespace Outline

def ofOption {α : Type} (f : α → String) : Option α → Outline
  | some a => .word (f a)
  | none => .absent

/-- An expression begins with its tag and its note. -/
def expr (tag : String) (n : Note) (parts : List Outline) : Outline :=
  .list (.word tag :: .word n.type.render :: .word n.span.render :: ofOption Value.render n.constant
    :: parts)

/-- A statement begins with its tag and its place. -/
def stmt (tag : String) (span : Span) (parts : List Outline) : Outline :=
  .list (.word tag :: .word span.render :: parts)

def ofVariable (x : Variable) : Outline := .word x.signature

end Outline

mutual

def Expr.outline : Expr → Outline
  | .literal n value => .expr "lit" n [.word value.render]
  | .read n x => .expr "var" n [.ofVariable x]
  | .unary n op operand => .expr "un" n [.word op.symbol, operand.outline]
  | .binary n op left right => .expr "bin" n [.word op.symbol, left.outline, right.outline]
  | .make n x y z => .expr "make" n [x.outline, y.outline, z.outline]
  | .call n callee arguments =>
    .expr "call" n [.word callee.signature, .list (Expr.outlines arguments)]
  | .convert n operand => .expr "conv" n [operand.outline]
  | .step n x yieldsNew down => .expr "inc" n [.ofVariable x, .flag yieldsNew, .flag down]
  | .segment n items => .expr "seg" n [.list (Expr.outlines items)]
  | .assign n x value => .expr "set" n [.ofVariable x, value.outline]
  | .compound n x op value => .expr "cset" n [.ofVariable x, .word op.symbol, value.outline]
  | .error n => .expr "error" n []
  | .statement n body => .expr "stmt" n [body.outline]

def Expr.outlines : List Expr → List Outline
  | [] => []
  | e :: rest => e.outline :: Expr.outlines rest

def Stmt.outline : Stmt → Outline
  | .block s items => .stmt "block" s (Stmt.outlines items)
  | .declare s nameSpan x =>
    .stmt "declare" s [.ofVariable x, .absent, .word nameSpan.render]
  | .define s nameSpan x value =>
    .stmt "declare" s [.ofVariable x, value.outline, .word nameSpan.render]
  | .assign s x value => .stmt "assign" s [.ofVariable x, value.outline]
  | .compound s x op value =>
    .stmt "compound" s [.ofVariable x, .word op.symbol, value.outline]
  | .ifThen s condition body => .stmt "if" s [condition.outline, body.outline, .absent]
  | .ifElse s condition body alternative =>
    .stmt "if" s [condition.outline, body.outline, alternative.outline]
  | .whileLoop s condition body => .stmt "while" s [condition.outline, body.outline]
  | .doWhile s body condition => .stmt "do" s [body.outline, condition.outline]
  | .on s event arguments body =>
    .stmt "event" s [.word event.name, .list (Expr.outlines arguments), body.outline]
  | .label s l => .stmt "label" s [.word l.name]
  | .goto s target => .stmt "goto" s [.word target.name]
  | .gotoIf s target condition sense =>
    .stmt "goto_if" s [.word target.name, condition.outline, .flag sense]
  | .gotoOn s target event arguments =>
    .stmt "goto_event" s [.word target.name, .word event.name, .list (Expr.outlines arguments)]
  | .rollback s target => .stmt "rollback" s [.word target.name]
  | .ret s => .stmt "return" s []
  | .retValue s value => .stmt "return" s [value.outline]
  | .call s callee arguments result =>
    .stmt "call" s [.word callee.signature, .list (Expr.outlines arguments),
      .ofOption Variable.signature result]
  | .expression s e => .stmt "expr" s [e.outline]
  | .hint s h => .stmt "hint" s [.word h.render]
  | .nop s => .stmt "nop" s []

def Stmt.outlines : List Stmt → List Outline
  | [] => []
  | s :: rest => s.outline :: Stmt.outlines rest

end

end Wirescript
