import Wirescript.Diagnostic
import Wirescript.Table
import Wirescript.Tree.Basic

/-!
# Scopes

The lexical scopes of a routine. The root scope holds the parameters and what the body declares at
its top; each block inside opens a scope of its own. Scopes are numbered in the order in which they
are opened, so the parent of a scope has a smaller number. A name that is declared twice in one
scope keeps its first meaning and is reported.
-/

namespace Wirescript

structure Scope where
  span : Span
  /-- The scope around this one; the root has none. -/
  parent : Option Nat
  symbols : Table String Variable := {}
  deriving Inhabited

/-- The scopes of a routine, by number. The root is number 0. -/
structure ScopeTree where
  scopes : List Scope
  deriving Inhabited

namespace ScopeTree

/-- Opens a scope inside another one; its number is the number of scopes before. -/
def push (t : ScopeTree) (span : Span) (parent : Nat) : ScopeTree :=
  ⟨t.scopes ++ [{ span := span, parent := some parent }]⟩

/-- Follows parents from a scope for at most the given number of steps. -/
def outwardFrom (t : ScopeTree) : Nat → Option Nat → List Nat
  | 0, _ => []
  | _ + 1, none => []
  | steps + 1, some id => id :: t.outwardFrom steps (t.scopes[id]?.bind Scope.parent)

/-- A scope and all scopes around it, from the inside out. -/
def outward (t : ScopeTree) (id : Nat) : List Nat := t.outwardFrom t.scopes.length (some id)

/-- What a name means in a scope: the nearest declaration from the inside out. -/
def lookup? (t : ScopeTree) (id : Nat) (name : String) : Option Variable :=
  (t.outward id).findSome? fun i ↦ t.scopes[i]?.bind (·.symbols.get? name)

/-- The innermost scope around a place in the source. Of scopes that are equally short the one that
was opened last counts, and a place outside all of them belongs to the root. -/
def scopeAt (t : ScopeTree) (offset : Nat) : Nat :=
  let root := (t.scopes.head?.map fun s ↦ s.span.length).getD 0
  let best := (t.scopes.zipIdx.drop 1).foldl (fun (best, length) (s, id) ↦
    if s.span.covers offset && decide (s.span.length ≤ length) then (id, s.span.length)
    else (best, length)) (0, root)
  best.1

end ScopeTree

/-- Scopes under construction, and what was declared twice so far. -/
structure Scoping where
  tree : ScopeTree
  diagnostics : Diagnostics := []
  deriving Inhabited

namespace Scoping

/-- Declares a variable in a scope. The span is where it is reported, if its name is taken. -/
def declare (st : Scoping) (scope : Nat) (x : Variable) (span : Span) : Scoping :=
  match st.tree.scopes[scope]? with
  | none => st
  | some s =>
    if s.symbols.contains x.name then
      { st with diagnostics := st.diagnostics ++ [.error (.alreadyDeclared x.name) span] }
    else
      let s := { s with symbols := s.symbols.insert x.name x }
      { st with tree := ⟨st.tree.scopes.set scope s⟩ }

mutual

/-- Adds what a statement declares and the scopes that it opens. -/
def stmt (scope : Nat) (st : Scoping) : Stmt → Scoping
  | .block s items =>
    stmts st.tree.scopes.length { st with tree := st.tree.push s scope } items
  | .declare _ nameSpan x | .define _ nameSpan x _ => st.declare scope x nameSpan
  | .ifThen _ _ body => stmt scope st body
  | .ifElse _ _ body alternative => stmt scope (stmt scope st body) alternative
  | .whileLoop _ _ body => stmt scope st body
  | .doWhile _ body _ => stmt scope st body
  | .on _ _ _ body => stmt scope st body
  | _ => st

def stmts (scope : Nat) (st : Scoping) : List Stmt → Scoping
  | [] => st
  | s :: rest => stmts scope (stmt scope st s) rest

end

/-- The scopes of a routine. The items of a body that is a block stand in the root scope. -/
def ofBody (routine : Routine) (body : Stmt) : Scoping :=
  let root : Scoping := { tree := ⟨[{ span := body.span, parent := none }]⟩ }
  let withParameters := routine.parameters.foldl (fun st x ↦ st.declare 0 x body.span) root
  stmts 0 withParameters body.items

end Scoping

end Wirescript
