import Wirescript.Proofs.Cells
import Wirescript.Proofs.Flow

/-!
# Variables that are assigned before they are read

A flat body is read along its paths: control goes on to the next statement, or to where a jump goes.
`Stmt.Arrives` says where a path can be and which variables it has assigned on the way, and a body is
definite if a path never consults a variable that it has not assigned. The parameters of a routine
are given, except those that it only returns.

Storing to a component of a vector builds the new value from the old one, which may be a vector or a
rotation. So it consults the vector, even if all components are stored to before it is read, and it
does not assign it: a vector is assigned when all of it is.
-/

namespace Wirescript

variable {D : List Slot} {code rest : List Stmt}

/-- The slot that an assignment to the variable replaces as a whole. -/
def Variable.whole : Variable → List Slot
  | .slot s => [s]
  | .component _ _ _ => []

theorem Variable.eq_of_mem_whole {x : Variable} {s : Slot} (h : s ∈ x.whole) : x = .slot s := by
  cases x with
  | slot s' => rw [List.mem_singleton.1 h]
  | component base axis origin => cases h

/-! ### What a statement consults and assigns -/

/-- The variables that parameters are copied back to. -/
def targets (arguments : List (Variable × Expr)) : List Variable :=
  arguments.flatMap fun (p, a) ↦ if p.modifiers.byReference then a.read?.toList else []

/-- The variables that are read when arguments are passed. -/
def passed (arguments : List (Variable × Expr)) : List Variable :=
  arguments.flatMap fun (p, a) ↦ if p.modifiers.out then [] else a.reads

/-- The slots of the parameters that are written when arguments are passed. -/
def filled (arguments : List (Variable × Expr)) : List Slot :=
  arguments.flatMap fun (p, _) ↦ if p.modifiers.out then [] else p.whole

/-- The variables that a result is kept in, which are none if the routine has no slot for it. -/
def keptIn (result slot : Option Variable) : List Variable :=
  if slot.isSome then result.toList else []

namespace Stmt

/-- The variables that a flat statement stores to. -/
def stores : Stmt → List Variable
  | .define _ _ x _ | .assign _ x _ => [x]
  | .call _ (.routine r) arguments result =>
    targets (r.parameters.zip arguments) ++ keptIn result r.returnSlot
  | .call _ (.builtin _ _) _ result => result.toList
  | _ => []

/-- The variables that the values in a flat statement depend on. -/
def loads : Stmt → List Variable
  | .define _ _ _ value | .assign _ _ value | .retValue _ value | .gotoIf _ _ value _ => value.reads
  | .call _ (.routine r) arguments _ => passed (r.parameters.zip arguments)
  | .call _ (.builtin _ _) arguments _ => Expr.allReads arguments
  | _ => []

/-- The slots whose values matter to a flat statement. -/
def consulted (s : Stmt) : List Slot :=
  (s.loads ++ s.stores.filter Variable.isComponent).map Variable.root

/-- The slots that a flat statement assigns as a whole. -/
def assigned (s : Stmt) : List Slot := s.stores.flatMap Variable.whole

/-! ### Paths -/

/-- A path through the code, with some slots given at its start, can be where the remaining code is,
and it has assigned the given slots and those of the list. -/
inductive Arrives (code : List Stmt) (given : List Slot) : List Stmt → List Slot → Prop
  | start : Arrives code given code given
  | next {s : Stmt} {rest : List Stmt} {D : List Slot} (h : Arrives code given (s :: rest) D)
      (hs : s.endsFlow = false) : Arrives code given rest (D ++ s.assigned)
  | jump {s : Stmt} {rest there : List Stmt} {D : List Slot} {l : Label}
      (h : Arrives code given (s :: rest) D) (hs : s.target? = some l)
      (hthere : from? l code = some there) : Arrives code given there (D ++ s.assigned)

variable {given : List Slot}

section

variable (h : Arrives code given rest D)

include h

theorem Arrives.suffix : rest <:+ code := by
  induction h with
  | start => exact List.suffix_refl _
  | next _ _ ih => exact (List.suffix_cons _ _).trans ih
  | jump _ _ hthere _ => exact from?_suffix hthere

/-- What has been assigned was given, or a statement of the code assigns it. -/
theorem Arrives.mem {x : Slot} (hx : x ∈ D) : x ∈ given ∨ ∃ s ∈ code, x ∈ s.assigned := by
  induction h with
  | start => exact .inl hx
  | next h _ ih | jump h _ _ ih =>
    rcases List.mem_append.1 hx with hx | hx
    · exact ih hx
    · exact .inr ⟨_, h.suffix.subset (.head _), hx⟩

/-- What is given stays assigned. -/
theorem Arrives.given_subset : given ⊆ D := by
  induction h with
  | start => exact .refl _
  | next _ _ ih | jump _ _ _ ih => exact List.subset_append_of_subset_left _ ih

end

/-- Where a statement goes on its own, without an event. -/
def goesTo? : Stmt → Option Label
  | .goto _ l | .gotoIf _ l _ _ => some l
  | _ => none

theorem target?_of_goesTo? {s : Stmt} {l : Label} (h : s.goesTo? = some l) : s.target? = some l := by
  cases s <;> first | exact h | cases h

/-- Control goes from one place in the code to another, without an event that interrupts it. -/
abbrev Leads (code start rest : List Stmt) : Prop := Way goesTo? code start rest

/-- The routine ends before the remaining code: there is none, or it begins with a return. -/
def Leaves : List Stmt → Prop
  | [] | .ret _ :: _ | .retValue _ _ :: _ => True
  | _ => False

/-- The remaining code begins with a statement that ends what an event started. -/
def RollsBack : List Stmt → Prop
  | .rollback _ _ :: _ => True
  | _ => False

end Stmt

/-- The cells of the parameters that a call fills. -/
def Routine.given (r : Routine) : List Slot :=
  (r.parameters.filter fun p ↦ !p.modifiers.out).map Variable.root

/-- The cells of a routine that a call consults when the routine has ended. -/
def Routine.exits (r : Routine) : List Slot :=
  (r.parameters.filter fun p ↦ p.modifiers.byReference).map Variable.root ++
    r.returnSlot.toList.map Variable.root

/-- On every path through the body of a routine, a variable that is not global is assigned before it
is read, and the parameters that are only returned are assigned before the routine ends. A routine
with a slot for its result returns one on every path. -/
structure Routine.Definite (r : Routine) (code : List Stmt) : Prop where
  reads {s : Stmt} {rest : List Stmt} {D : List Slot}
    (h : Stmt.Arrives code r.given (s :: rest) D) (x : Slot) (hx : x ∈ s.consulted) :
    x.role = .global ∨ x ∈ D
  outs {rest : List Stmt} {D : List Slot} (h : Stmt.Arrives code r.given rest D)
    (hleaves : Stmt.Leaves rest) (p : Variable) (hp : p ∈ r.parameters)
    (hout : p.modifiers.out = true) : p.root ∈ D
  returns (hresult : r.returnSlot.isSome = true) {rest : List Stmt} {D : List Slot}
    (h : Stmt.Arrives code r.given rest D) (hleaves : Stmt.Leaves rest) :
    ∃ span value rest', rest = .retValue span value :: rest'

/-! ### Code without jumps -/

/-- The parameters that are only returned have been assigned, among the given slots. -/
def Routine.filledBy (r : Routine) (D : List Slot) : Bool :=
  r.parameters.all fun p ↦ !p.modifiers.out || decide (p.root ∈ D)

/-- Checks code without jumps for a routine, when some slots have been assigned. -/
def Routine.clear (r : Routine) : List Slot → List Stmt → Bool
  | D, [] => r.filledBy D && r.returnSlot.isNone
  | D, s :: rest =>
    s.target?.isNone && s.consulted.all (fun x ↦ decide (x.role = .global ∨ x ∈ D)) &&
      match s with
      | .ret _ => r.filledBy D && r.returnSlot.isNone
      | .retValue _ _ => r.filledBy D
      | _ => r.clear (D ++ s.assigned) rest

section Clear

variable {r : Routine} {s : Stmt}

theorem Routine.clear_cons (h : r.clear D (s :: rest) = true) :
    s.target? = none ∧ (∀ x ∈ s.consulted, x.role = .global ∨ x ∈ D) ∧
      (s.endsFlow = false → r.clear (D ++ s.assigned) rest = true) := by
  rw [clear.eq_def] at h
  simp only [Bool.and_eq_true, Option.isNone_iff_eq_none, List.all_eq_true, decide_eq_true_eq] at h
  refine ⟨h.1.1, h.1.2, fun hs ↦ ?_⟩
  have hrest := h.2
  cases s <;> first | exact hrest | cases hs

theorem Routine.clear_of_leaves (h : r.clear D rest = true) (hleaves : Stmt.Leaves rest) :
    r.filledBy D = true ∧
      (r.returnSlot.isSome = true → ∃ span value rest', rest = .retValue span value :: rest') := by
  unfold Stmt.Leaves at hleaves
  split at hleaves
  · simp_all [clear]
  · simp_all [clear]
  · rename_i span value rest
    simp only [clear, Bool.and_eq_true] at h
    exact ⟨h.2, fun _ ↦ ⟨span, value, rest, rfl⟩⟩
  · exact hleaves.elim

theorem Stmt.Arrives.clear (h : Stmt.Arrives code r.given rest D)
    (hcode : r.clear r.given code = true) : r.clear D rest = true := by
  induction h with
  | start => exact hcode
  | next _ hs ih => exact (Routine.clear_cons ih).2.2 hs
  | jump _ hs _ ih =>
    rw [(Routine.clear_cons ih).1] at hs
    cases hs

/-- Code that passes the check is definite. -/
theorem Routine.Definite.of_clear (h : r.clear r.given code = true) : r.Definite code where
  reads harrives := (Routine.clear_cons (harrives.clear h)).2.1
  outs harrives hleaves p hp hout := by
    have hfilled := (Routine.clear_of_leaves (harrives.clear h) hleaves).1
    have hpair := List.all_eq_true.1 hfilled p hp
    simpa [hout] using hpair
  returns hresult _ _ harrives hleaves :=
    (Routine.clear_of_leaves (harrives.clear h) hleaves).2 hresult

end Clear

end Wirescript
