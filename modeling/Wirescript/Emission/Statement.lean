import Wirescript.Emission.Call
import Wirescript.Emission.Sensor

/-!
# Emission of statements

Every statement becomes a handle: where execution enters and leaves the blocks that were placed for
it. Jumps stay names here and are wired when the routine is complete.
-/

namespace Wirescript

/-- The statement stores to an element of an array, so that the next one can start there. -/
def Stmt.storesElement : Stmt → Bool
  | .call _ (.builtin b _) _ _ => b.name == "set" || b.name == "setRange"
  | _ => false

namespace Emit

/-- A branch on a condition. -/
def gotoIf (condition : Expr) (target : Label) (sense : Bool) : Emit Handle := do
  let value ← valueOf condition
  let block ← place Catalog.branch
  feed value (← block.input "Condition")
  let (jump, fall) := if sense then ("True", "False") else ("False", "True")
  let entry ← block.before
  let onward ← block.output fall
  let away ← block.output jump
  return .branch entry [onward] target [away]

/-- Stores the result of a routine and leaves it. -/
def returnValue (routine : Routine) (span : Span) (value : Expr) : Emit Handle := do
  match routine.returnSlot with
  | none => breach (.noReturnSlot (.retValue span value))
  | some slot =>
    let h ← assign slot value
    return .multi [h, .ret]

def hint : Hint → Emit Handle
  | .enterBlock => do
    modify fun s ↦ { s with placement := s.placement.enterStatement }
    return .pass
  | .exitBlock => do
    modify fun s ↦ { s with placement := s.placement.exitStatement }
    return .pass
  | .enterHighlight => do
    modify fun s ↦ { s with highlightDepth := s.highlightDepth + 1 }
    return .pass
  | .exitHighlight => do
    modify fun s ↦ { s with highlightDepth := s.highlightDepth - 1 }
    return .pass

/-- Forgets the element that was stored last, unless the statement may go on from there. -/
def forgetElement (s : Stmt) : Emit Unit :=
  if s.storesElement then return else modify fun st ↦ { st with cursor := none }

mutual

def stmt (routine : Routine) (s : Stmt) : Emit Handle := do
  forgetElement s
  match s with
  | .block _ items => return .multi (← stmts routine items)
  | .declare _ _ _ => return .pass
  | .define _ _ x value => assign x value
  | .assign _ x value => assign x value
  | .label _ l => return .label l
  | .goto _ target => return .goto target
  | .rollback _ _ => return .rollback
  | .gotoIf _ target condition sense => gotoIf condition target sense
  | .gotoOn span target event arguments => gotoOn event arguments target span
  | .ret _ => return .ret
  | .retValue span value => returnValue routine span value
  | .call span callee arguments result => call callee arguments result span
  | .expression _ e => effect routine e
  | .hint _ h => hint h
  | .nop _ => return .pass
  | .compound span x op value => breach (.unemittable (.compound span x op value))
  | .ifThen span condition body => breach (.unemittable (.ifThen span condition body))
  | .ifElse span condition body alternative =>
    breach (.unemittable (.ifElse span condition body alternative))
  | .whileLoop span condition body => breach (.unemittable (.whileLoop span condition body))
  | .doWhile span body condition => breach (.unemittable (.doWhile span body condition))
  | .on span event arguments body => breach (.unemittable (.on span event arguments body))

/-- Statements of a block. One that there is a complaint about is left out. -/
def stmts (routine : Routine) : List Stmt → Emit (List Handle)
  | [] => return []
  | s :: rest => do
    let h ← attempt (stmt routine s)
    return h :: (← stmts routine rest)

/-- An expression for its effects. One without effects places nothing. -/
def effect (routine : Routine) : Expr → Emit Handle
  | .call n callee arguments => call callee arguments none n.span
  | .step n x _ down => assign x (Build.stepped x down n.span)
  | .assign _ x value => assign x value
  | .statement _ body => stmt routine body
  | _ => return .pass

end

end Emit

end Wirescript
