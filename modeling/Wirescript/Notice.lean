import Wirescript.Netlist.Terminal

/-!
# Notices

What the passes record of their work, in order, for whoever wants to follow a compilation. Notices
never affect a result, and those of a pass that stops with a fault are kept.
-/

namespace Wirescript

inductive Level where
  | warn
  | debug
  | trace
  deriving DecidableEq, Repr, Inhabited

def Level.name : Level → String
  | .warn => "WARN"
  | .debug => "DEBUG"
  | .trace => "TRACE"

inductive Notice where
  | analyzed (routines sites recursive : Nat)
  | lowered (routine : String) (statements removed : Nat)
  | extracted (routine : String) (statements temporaries : Nat)
  /-- All routines were lowered and extracted. -/
  | flattened (statements : Nat)
  | inlinedInto (routine : String) (sites statements : Nat)
  /-- All routines were inlined, and those that nothing calls dropped. -/
  | inlined (routines dropped statements : Nat)
  | renamed (count routines : Nat)
  | resolved (routine : String) (label : Label) (target : Option Terminal)
  | emptyLoop (routine : String) (label : Label)
  | emitted (routine : String) (blocks : Nat)
  | emittedAll (routines blocks diagnostics : Nat)
  | compiled (entry : String) (routines diagnostics : Nat)
  deriving Repr, Inhabited

namespace Notice

def level : Notice → Level
  | .resolved .. => .trace
  | .emptyLoop .. => .warn
  | _ => .debug

def text : Notice → String
  | .analyzed routines sites recursive =>
    s!"analyzed {routines} functions: {sites} call sites, {recursive} recursive"
  | .lowered routine statements removed =>
    s!"lowered '{routine}': {statements} statements, {removed} unreachable removed"
  | .extracted routine statements temporaries =>
    s!"extracted '{routine}': {statements} statements, {temporaries} temporaries"
  | .flattened statements => s!"lowered and extracted: {statements} statements"
  | .inlinedInto routine sites statements =>
    s!"inlined into '{routine}': {sites} call sites, {statements} statements"
  | .inlined routines dropped statements =>
    s!"inlined {routines} functions, dropped {dropped} uncalled, {statements} statements"
  | .renamed count routines => s!"renamed {count} variables across {routines} functions"
  | .resolved routine label target =>
    let destination := match target with
      | some t => "Some(" ++ t.describe ++ ")"
      | none => "None"
    s!"'{routine}': {label.name} -> {destination}"
  | .emptyLoop routine label => s!"label '{label.name}' in '{routine}' only jumps back to itself"
  | .emitted routine blocks => s!"emitted '{routine}': {blocks} blocks"
  | .emittedAll routines blocks diagnostics =>
    s!"emitted {routines} functions, {blocks} blocks, {diagnostics} diagnostics"
  | .compiled entry routines diagnostics =>
    s!"compiled '{entry}': {routines} functions emitted, {diagnostics} diagnostics"

def render (n : Notice) : String := n.level.name ++ " " ++ n.text

end Notice

end Wirescript
