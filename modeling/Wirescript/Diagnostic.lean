import Wirescript.Number.Shortest
import Wirescript.Span
import Wirescript.Ty

/-!
# Diagnostics

What is wrong with a script, as far as its author can mend it. A diagnostic never stops a pass; a
`Fault` does. Each complaint is a constructor, and its wording is in one place.
-/

namespace Wirescript

inductive Severity where
  | error
  | warning
  deriving DecidableEq, Repr, Inhabited

/-- The causes of diagnostics. -/
inductive Complaint where
  | notConstant
  /-- A number is no whole number between two bounds. -/
  | outOfRange (value : Float32) (least most : Nat)
  | emptyLoop (label : String)
  | alreadyDeclared (name : String)
  | argumentCount (name : String) (expected given : Nat)
  | unsupported (feature : String)
  | tooManyReads (name : String) (limit : Nat)
  | readBeforeAssigned (name : String)
  | cannotInspect (type : Ty)
  | unknownFunction (name : String)
  | noOverload (name : String) (given : List Ty)
  /-- A complaint of somebody else's wording. -/
  | other (text : String)
  deriving DecidableEq, Repr, Inhabited

def Complaint.message : Complaint → String
  | .notConstant => "Value must be constant"
  | .outOfRange value least most =>
    s!"Value {Number.render value} is out of range; expected a whole number from {least} to {most}"
  | .emptyLoop label => s!"Loop at '{label}' does nothing and cannot be built; it is left out"
  | .alreadyDeclared name => s!"'{name}' is already declared"
  | .argumentCount name expected given =>
    s!"'{name}' requires {expected} arguments but was given {given}"
  | .unsupported feature => s!"The target builder does not support {feature}"
  | .tooManyReads name limit =>
    s!"Inline variable '{name}' is read more than {limit} times; declare it as a regular variable"
  | .readBeforeAssigned name => s!"Inline variable '{name}' is read before it is assigned"
  | .cannotInspect type => s!"Values of type {type.render} cannot be inspected"
  | .unknownFunction name => s!"Unknown function '{name}'"
  | .noOverload name given =>
    let types := ", ".intercalate (given.map Ty.render)
    s!"No overload of '{name}' accepts ({types})"
  | .other text => text

/-- A complaint at a place in the source. -/
structure Diagnostic where
  severity : Severity
  complaint : Complaint
  span : Span
  deriving DecidableEq, Repr, Inhabited

namespace Diagnostic

def error (complaint : Complaint) (span : Span) : Diagnostic := ⟨.error, complaint, span⟩

def warning (complaint : Complaint) (span : Span) : Diagnostic := ⟨.warning, complaint, span⟩

def isError (d : Diagnostic) : Bool := decide (d.severity = .error)

def message (d : Diagnostic) : String := d.complaint.message

def render (d : Diagnostic) : String :=
  let kind := match d.severity with
    | .error => "error"
    | .warning => "warning"
  s!"{kind} at {d.span.render}: {d.message}"

end Diagnostic

/-- The diagnostics of one compilation, in the order in which they were found. -/
abbrev Diagnostics := List Diagnostic

def Diagnostics.hasErrors (ds : Diagnostics) : Bool := ds.any Diagnostic.isError

end Wirescript
