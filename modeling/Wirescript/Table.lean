/-!
# Tables

A finite map that remembers the order in which its keys were first put in. Several answers of the
compiler follow that order, and tables are small, so a list of pairs is all there is to it.
-/

namespace Wirescript

/-- A finite map in the order of first insertion. -/
structure Table (κ ν : Type) where
  entries : List (κ × ν) := []
  deriving Repr, Inhabited

namespace Table

variable {κ ν : Type} [DecidableEq κ]

/-- The value stored first at a key in a list of pairs. -/
def find? : List (κ × ν) → κ → Option ν
  | [], _ => none
  | (k, v) :: rest, key => if k = key then some v else find? rest key

/-- Replaces the value at a key where it stands, or adds the key at the end. -/
def put : List (κ × ν) → κ → ν → List (κ × ν)
  | [], key, value => [(key, value)]
  | (k, v) :: rest, key, value =>
    if k = key then (k, value) :: rest else (k, v) :: put rest key value

def get? (t : Table κ ν) (key : κ) : Option ν := find? t.entries key

def contains (t : Table κ ν) (key : κ) : Bool := (t.get? key).isSome

def insert (t : Table κ ν) (key : κ) (value : ν) : Table κ ν := ⟨put t.entries key value⟩

def keys (t : Table κ ν) : List κ := t.entries.map Prod.fst

def size (t : Table κ ν) : Nat := t.entries.length

theorem find?_put (entries : List (κ × ν)) (key other : κ) (value : ν) :
    find? (put entries key value) other = if key = other then some value else find? entries other := by
  induction entries with
  | nil => simp [put, find?]
  | cons entry rest ih =>
    obtain ⟨k, v⟩ := entry
    by_cases hk : k = key
    · subst hk
      by_cases ho : k = other <;> simp [put, find?, ho]
    · by_cases ho : k = other
      · subst ho
        simp [put, find?, hk, Ne.symm hk]
      · simp [put, find?, hk, ho, ih]

@[simp] theorem get?_insert_self (t : Table κ ν) (key : κ) (value : ν) :
    (t.insert key value).get? key = some value := by
  simp [get?, insert, find?_put]

theorem get?_insert_of_ne (t : Table κ ν) {key other : κ} (value : ν) (h : key ≠ other) :
    (t.insert key value).get? other = t.get? other := by
  simp [get?, insert, find?_put, h]

end Table

end Wirescript
