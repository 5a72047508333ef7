import Wirescript.Emission.Assignment

/-!
# Emission of event handlers

A sensor block waits for an event. Execution goes through it at once, and its firing output leads to
the handler each time the event happens, past blocks that store what the sensor reports.
-/

namespace Wirescript.Emit

/-- The block that waits for an event, and the name of the output that fires. -/
def sensor : Event → BlockShape × String
  | .play => (Catalog.playSensor, "On Play")
  | .lateUpdate => (Catalog.lateUpdate, "After Physics")
  | .boxArt => (Catalog.boxArtSensor, "On Screenshot")
  | .touch => (Catalog.touchSensor, "Touched")
  | .swipe => (Catalog.swipeSensor, "Swiped")
  | .button => (Catalog.button, "Button")

/-- A setting of a sensor: a constant that is a whole number up to 255. -/
def setting (argument : Expr) : Emit BlockValue :=
  match argument.constantFloat? with
  | none => complain .notConstant argument.span
  | some value =>
    match Number.byte? value with
    | none => complain (.outOfRange value 0 255) argument.span
    | some n => return .byte n

/-- The settings of a sensor and the variables that take its reports. -/
def eventArguments (event : Event) :
    List (EventParameter × Expr) → Emit (List BlockValue × List Variable)
  | [] => return ([], [])
  | (p, argument) :: rest => do
    match p.kind with
    | .setting =>
      let value ← setting argument
      let (settings, outputs) ← eventArguments event rest
      return (value :: settings, outputs)
    | .output =>
      match argument.read? with
      | none => breach (.eventReference argument event)
      | some x =>
        let (settings, outputs) ← eventArguments event rest
        return (settings, x :: outputs)

def setValues (block : Block) : Nat → List BlockValue → Emit Unit
  | _, [] => return
  | slot, value :: rest => do
    setValue block slot value
    setValues block (slot + 1) rest

/-- Stores the reports of a sensor, which are its outputs from a position on. -/
def storeReports (block : Block) (span : Span) : Nat → Chain → List Variable → Emit Chain
  | _, chain, [] => return chain
  | output, chain, x :: rest => do
    let h ← store span x (some (← block.outputAt output))
    storeReports block span (output + 1) (← append chain h) rest

/-- A sensor that jumps to a label each time the event happens. -/
def gotoOn (event : Event) (arguments : List Expr) (target : Label) (span : Span) :
    Emit Handle := do
  unless event.parameters.length = arguments.length do
    complain (.argumentCount event.name event.parameters.length arguments.length) span
  let (settings, outputs) ← eventArguments event (event.parameters.zip arguments)
  let (shape, firing) := sensor event
  let block ← place shape
  setValues block 0 settings
  let chain ← storeReports block span 2 {} outputs
  let fired ← block.output firing
  let jumps ← match chain.entry with
    | some entry => do
      connect fired entry
      pure chain.exits
    | none => pure [fired]
  let entry ← block.before
  let exit ← block.after
  return .branch entry [exit] target jumps

end Wirescript.Emit
