import Wirescript.Symbol
import Wirescript.Table

/-!
# Names made up by the compiler

Labels are numbered by kind and carry the name of the routine they belong to, so that they stay
apart when one body is copied into another. Temporaries are numbered in one sequence.
-/

namespace Wirescript

/-- Makes up labels inside a scope. -/
structure LabelSupply where
  scope : String
  counts : Table String Nat := {}
  deriving Inhabited

/-- The next label of a kind: the scope, the kind, and a number that counts the kind from one. -/
def LabelSupply.fresh (s : LabelSupply) (kind : String) : Label × LabelSupply :=
  let n := (s.counts.get? kind).getD 0 + 1
  (⟨s!"{s.scope}.{kind}{n}"⟩, { s with counts := s.counts.insert kind n })

/-- Makes up names in one sequence, numbered from zero. -/
structure NameSupply where
  stem : String
  next : Nat := 0
  deriving Inhabited

def NameSupply.fresh (s : NameSupply) : String × NameSupply :=
  (s!"{s.stem}{s.next}", { s with next := s.next + 1 })

end Wirescript
