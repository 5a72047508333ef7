import Wirescript.Tree.Basic

/-!
# Trees as text

One line for a statement, whatever is inside it. An operation inside an operation is put in
brackets; nothing else is.
-/

namespace Wirescript

/-- Joins items with a comma between. -/
def commaSeparated (items : List String) : String := ", ".intercalate items

/-- The sign of a step. -/
def stepSign (down : Bool) : String := if down then "--" else "++"

/-- An operand: in brackets if it is an operation of two operands. -/
def bracketed (e : Expr) (text : String) : String :=
  match e with
  | .binary .. => "(" ++ text ++ ")"
  | _ => text

mutual

def Expr.render : Expr → String
  | .literal _ value => value.render
  | .read _ x => x.name
  | .unary _ op operand => op.symbol ++ bracketed operand operand.render
  | .binary _ op left right =>
    bracketed left left.render ++ " " ++ op.symbol ++ " " ++ bracketed right right.render
  | .make n x y z =>
    (if n.type = .rotation then "rot" else "vec")
      ++ "(" ++ commaSeparated [x.render, y.render, z.render] ++ ")"
  | .call _ callee arguments =>
    callee.name ++ "(" ++ commaSeparated (Expr.renderAll arguments) ++ ")"
  | .convert n operand => "(" ++ n.type.render ++ ")" ++ operand.render
  | .step _ x yieldsNew down =>
    if yieldsNew then stepSign down ++ x.name else x.name ++ stepSign down
  | .segment _ items => "[" ++ commaSeparated (Expr.renderAll items) ++ "]"
  | .assign _ x value => "(" ++ x.name ++ " = " ++ value.render ++ ")"
  | .compound _ x op value => "(" ++ x.name ++ " " ++ op.symbol ++ "= " ++ value.render ++ ")"
  | .error _ => "<error>"
  | .statement _ body => "\x7b " ++ body.render ++ " \x7d"

def Expr.renderAll : List Expr → List String
  | [] => []
  | e :: rest => e.render :: Expr.renderAll rest

def Stmt.render : Stmt → String
  | .block _ items => "\x7b " ++ Stmt.renderItems items ++ "\x7d"
  | .declare _ _ x => x.type.render ++ " " ++ x.name
  | .define _ _ x value => x.type.render ++ " " ++ x.name ++ " = " ++ value.render
  | .assign _ x value => x.name ++ " = " ++ value.render
  | .compound _ x op value => x.name ++ " " ++ op.symbol ++ "= " ++ value.render
  | .ifThen _ condition body => "if (" ++ condition.render ++ ") " ++ body.render
  | .ifElse _ condition body alternative =>
    "if (" ++ condition.render ++ ") " ++ body.render ++ " else " ++ alternative.render
  | .whileLoop _ condition body => "while (" ++ condition.render ++ ") " ++ body.render
  | .doWhile _ body condition => "do " ++ body.render ++ " while (" ++ condition.render ++ ")"
  | .on _ event _ body => "on " ++ event.name ++ " " ++ body.render
  | .label _ l => l.definition
  | .goto _ target => "goto " ++ target.name
  | .gotoIf _ target condition sense =>
    "goto " ++ target.name ++ (if sense then " if " else " unless ") ++ condition.render
  | .gotoOn _ target event _ => "goto " ++ target.name ++ " on " ++ event.name
  | .rollback _ target => "rollback " ++ target.name
  | .ret _ => "return"
  | .retValue _ value => "return " ++ value.render
  | .call _ callee arguments result =>
    (match result with
      | some x => x.name ++ " = "
      | none => "")
      ++ "call " ++ callee.name ++ "(" ++ commaSeparated (Expr.renderAll arguments) ++ ")"
  | .expression _ e => e.render
  | .hint _ h => h.render
  | .nop _ => "nop"

def Stmt.renderItems : List Stmt → String
  | [] => ""
  | s :: rest => s.render ++ "; " ++ Stmt.renderItems rest

end

end Wirescript
