import Wirescript.Machine.Run
import Wirescript.Proofs.Outcome

/-!
# What running flat code means

The machine is a program in a monad that carries cells, a count of steps and faults. Proofs about it
are easier on relations between memories: `Stmt.Step` says what one statement does, given what calls
do, and `Runs` chains steps from one place of a body to its end. Both are proved to be what the
machine does. `Exec.runs_of_loop` reads a run off a loop that has ended well, for any meaning of
calls; `Runs.exists_loop` finds the loop for a run, with as many steps as it takes, when calls take
none.
-/

namespace Wirescript

variable {bodies : Bodies} {callee : Callee} {c : Control} {e : Expr} {l : Label}
  {arguments : List Expr} {code rest : List Stmt} {limit : Nat} {result : Option Variable}
  {r routine : Routine} {st : Stmt} {u : Unit} {v : Value} {x : Variable}

variable {κ : Type}

/-! ### Outcomes of the machine -/

namespace Exec

variable [DecidableEq κ] {key : Slot → κ} {s s' : Machine κ}

theorem yields_eval : Yields (eval key e) s v s' ↔ e.eval key s.memory = .ok v ∧ s' = s := by
  rw [eval, yields_get_bind, yields_lift]

theorem yields_load : Yields (load key x) s v s' ↔ v = s.memory.load key x ∧ s' = s := by
  rw [load, yields_get_bind, yields_pure]

theorem yields_store : Yields (store key x v) s u s' ↔
      ∃ m', s.memory.store key x v = .ok m' ∧ s' = ⟨m', s.steps⟩ := by
  rw [store, yields_get_bind, yields_bind]
  simp only [yields_lift, yields_modify]
  constructor
  · rintro ⟨m', _, ⟨hm', rfl⟩, rfl⟩
    exact ⟨m', hm', rfl⟩
  · rintro ⟨m', hm', rfl⟩
    exact ⟨m', s, ⟨hm', rfl⟩, rfl⟩

theorem yields_assign : Yields (assign key x e) s u s' ↔
      ∃ v m', e.eval key s.memory = .ok v ∧ s.memory.store key x v = .ok m' ∧
        s' = ⟨m', s.steps⟩ := by
  simp only [assign, yields_bind, yields_eval, yields_store]
  constructor
  · rintro ⟨v, _, ⟨hv, rfl⟩, m', hm', rfl⟩
    exact ⟨v, m', hv, hm', rfl⟩
  · rintro ⟨v, m', hv, hm', rfl⟩
    exact ⟨v, s, ⟨hv, rfl⟩, m', hm', rfl⟩

/-- Calls that change the memory in a given way and take no steps. -/
def ofCalls (calls : Routine → Memory κ → Except Fault (Memory κ)) (r : Routine) : Exec κ Unit := do
  let memory ← calls r (← get).memory
  modify ({ · with memory := memory })

omit [DecidableEq κ] in
theorem yields_ofCalls {calls : Routine → Memory κ → Except Fault (Memory κ)} :
    Yields (ofCalls calls r) s u s' ↔
      ∃ m', calls r s.memory = .ok m' ∧ s' = ⟨m', s.steps⟩ := by
  rw [ofCalls, yields_get_bind, yields_bind]
  simp only [yields_lift, yields_modify]
  constructor
  · rintro ⟨m', _, ⟨hm', rfl⟩, rfl⟩
    exact ⟨m', hm', rfl⟩
  · rintro ⟨m', hm', rfl⟩
    exact ⟨m', s, ⟨hm', rfl⟩, rfl⟩

end Exec

/-! ### What one statement does -/

variable [DecidableEq κ] (key : Slot → κ)

/-- The value of the expression is stored in the variable. -/
def Assigns (x : Variable) (e : Expr) (m m' : Memory κ) : Prop :=
  ∃ v, e.eval key m = .ok v ∧ m.store key x v = .ok m'

/-- The arguments are written to the parameters, from left to right. -/
def Passes : List (Variable × Expr) → Memory κ → Memory κ → Prop
  | [], m, m' => m' = m
  | (parameter, argument) :: rest, m, m' =>
    ∃ m₁, (if parameter.modifiers.out then m₁ = m else Assigns key parameter argument m m₁) ∧
      Passes rest m₁ m'

/-- Parameters that were passed by reference are copied back to the arguments. -/
def PassesBack : List (Variable × Expr) → Memory κ → Memory κ → Prop
  | [], m, m' => m' = m
  | (parameter, argument) :: rest, m, m' =>
    ∃ m₁, (if parameter.modifiers.byReference then
        ∃ target, argument.read? = some target ∧
          m.store key target (m.load key parameter) = .ok m₁
      else m₁ = m) ∧ PassesBack rest m₁ m'

/-- A result is kept in a variable, if there are both. -/
def Keeps (result slot : Option Variable) (m m' : Memory κ) : Prop :=
  match result, slot with
  | some x, some slot => m.store key x (m.load key slot) = .ok m'
  | _, _ => m' = m

/-- What a call does to the memory, given what the bodies of routines do. -/
def Calls (calls : Routine → Memory κ → Memory κ → Prop) (callee : Callee) (arguments : List Expr)
    (result : Option Variable) (m m' : Memory κ) : Prop :=
  match callee with
  | .routine r =>
    ∃ m₁ m₂ m₃, Passes key (r.parameters.zip arguments) m m₁ ∧ calls r m₁ m₂ ∧
      PassesBack key (r.parameters.zip arguments) m₂ m₃ ∧ Keeps key result r.returnSlot m₃ m'
  | .builtin b _ =>
    ∃ evaluator values value, b.evaluator = some evaluator ∧
      Expr.evalAll key m arguments = .ok values ∧ evaluator.compute? values = some value ∧
      match result with
      | some x => m.store key x value = .ok m'
      | none => m' = m

/-- What an expression that stands as a statement does to the memory. -/
def Expr.Affects (calls : Routine → Memory κ → Memory κ → Prop) (e : Expr) (m m' : Memory κ) :
    Prop :=
  match e with
  | .step _ x _ down =>
    ∃ v, (if down then BinaryOp.subtract else .add).compute? (m.load key x) (.float 1) = some v ∧
      m.store key x v = .ok m'
  | .assign _ x value => Assigns key x value m m'
  | .call _ callee arguments => Calls key calls callee arguments none m m'
  | other => m' = m ∧ ∃ v, other.eval key m = .ok v

/-- What a statement does to the memory, and where control goes after it. -/
def Stmt.Step (calls : Routine → Memory κ → Memory κ → Prop) (routine : Routine) (s : Stmt)
    (m : Memory κ) (c : Control) (m' : Memory κ) : Prop :=
  match s with
  | .define _ _ x value | .assign _ x value => c = .next ∧ Assigns key x value m m'
  | .expression _ e => c = .next ∧ e.Affects key calls m m'
  | .call _ callee arguments result => c = .next ∧ Calls key calls callee arguments result m m'
  | .goto _ target => c = .jump target ∧ m' = m
  | .gotoIf _ target condition sense =>
    ∃ v, condition.eval key m = .ok v ∧
      c = (if v.bool? = some sense then .jump target else .next) ∧ m' = m
  | .rollback _ _ | .ret _ => c = .stop ∧ m' = m
  | .retValue _ value =>
    c = .stop ∧
      match routine.returnSlot with
      | some slot => Assigns key slot value m m'
      | none => m' = m
  | .declare .. | .label .. | .hint .. | .nop _ => c = .next ∧ m' = m
  | .gotoOn .. | .block .. | .compound .. | .ifThen .. | .ifElse .. | .whileLoop .. | .doWhile ..
  | .on .. => False

variable {key}

section Forms

variable {calls : Routine → Memory κ → Memory κ → Prop} {m : Memory κ} {span : Span}

theorem Stmt.step_label : (Stmt.label span l).Step key calls routine m .next m := ⟨rfl, rfl⟩

theorem Stmt.step_hint {h : Hint} : (Stmt.hint span h).Step key calls routine m .next m :=
  ⟨rfl, rfl⟩

theorem Stmt.step_goto : (Stmt.goto span l).Step key calls routine m (.jump l) m := ⟨rfl, rfl⟩

theorem Stmt.step_ret : (Stmt.ret span).Step key calls routine m .stop m := ⟨rfl, rfl⟩

end Forms

section Monotone

variable {calls calls' : Routine → Memory κ → Memory κ → Prop} {m m' : Memory κ}
  (hcalls : ∀ r m m', calls r m m' → calls' r m m')

include hcalls

theorem Calls.mono (h : Calls key calls callee arguments result m m') :
    Calls key calls' callee arguments result m m' := by
  cases callee with
  | routine r =>
    obtain ⟨m₁, m₂, m₃, h₁, h₂, h₃, h₄⟩ := h
    exact ⟨m₁, m₂, m₃, h₁, hcalls r m₁ m₂ h₂, h₃, h₄⟩
  | builtin b t => exact h

theorem Expr.Affects.mono (h : e.Affects key calls m m') : e.Affects key calls' m m' := by
  cases e
  case call => exact Calls.mono hcalls h
  all_goals exact h

/-- A step needs calls to do no more than they are known to do. -/
theorem Stmt.Step.mono {s : Stmt} (h : s.Step key calls routine m c m') :
    s.Step key calls' routine m c m' := by
  cases s
  case expression | call => exact ⟨h.1, h.2.mono hcalls⟩
  all_goals exact h

end Monotone

namespace Exec

variable {invoke : Routine → Exec κ Unit} {s s' : Machine κ}

theorem yields_pass {arguments : List (Variable × Expr)} : Yields (pass key arguments) s u s' ↔
      ∃ m', Passes key arguments s.memory m' ∧ s' = ⟨m', s.steps⟩ := by
  induction arguments generalizing s with
  | nil => simp [pass, Passes]
  | cons entry rest ih =>
    obtain ⟨parameter, -⟩ := entry
    simp only [Passes]
    rw [pass]
    by_cases hout : parameter.modifiers.out = true
    · simp only [hout, if_true, ih]
      constructor
      · rintro ⟨m', h, rfl⟩
        exact ⟨m', ⟨_, rfl, h⟩, rfl⟩
      · rintro ⟨m', ⟨_, rfl, h⟩, rfl⟩
        exact ⟨m', h, rfl⟩
    · simp only [hout, if_false, Bool.false_eq_true, yields_bind, yields_assign, ih, Assigns]
      constructor
      · rintro ⟨_, _, ⟨v, m₁, hv, hm₁, rfl⟩, m', h, rfl⟩
        exact ⟨m', ⟨m₁, ⟨v, hv, hm₁⟩, h⟩, rfl⟩
      · rintro ⟨m', ⟨m₁, ⟨v, hv, hm₁⟩, h⟩, rfl⟩
        exact ⟨(), _, ⟨v, m₁, hv, hm₁, rfl⟩, m', h, rfl⟩

theorem yields_passBack {arguments : List (Variable × Expr)} :
    Yields (passBack key arguments) s u s' ↔
      ∃ m', PassesBack key arguments s.memory m' ∧ s' = ⟨m', s.steps⟩ := by
  induction arguments generalizing s with
  | nil => simp [passBack, PassesBack]
  | cons entry rest ih =>
    obtain ⟨parameter, argument⟩ := entry
    simp only [PassesBack]
    rw [passBack]
    by_cases href : parameter.modifiers.byReference = true
    · rcases hread : argument.read? with - | target
      · simp [href]
      · simp only [href, if_true, yields_bind, yields_load, yields_store, ih, Option.some.injEq]
        constructor
        · rintro ⟨v, _, ⟨rfl, rfl⟩, _, _, ⟨m₁, hm₁, rfl⟩, m', h, rfl⟩
          exact ⟨m', ⟨m₁, ⟨target, rfl, hm₁⟩, h⟩, rfl⟩
        · rintro ⟨m', ⟨m₁, ⟨_, rfl, hm₁⟩, h⟩, rfl⟩
          exact ⟨_, s, ⟨rfl, rfl⟩, (), _, ⟨m₁, hm₁, rfl⟩, m', h, rfl⟩
    · simp only [href, if_false, Bool.false_eq_true, ih]
      constructor
      · rintro ⟨m', h, rfl⟩
        exact ⟨m', ⟨_, rfl, h⟩, rfl⟩
      · rintro ⟨m', ⟨_, rfl, h⟩, rfl⟩
        exact ⟨m', h, rfl⟩

/-- A call of a routine passes the arguments, runs the body, and brings back what it left. -/
theorem yields_callRoutine : Yields (callRoutine key invoke r arguments result) s u s' ↔
      ∃ m₁ m₂ m₃, Passes key (r.parameters.zip arguments) s.memory m₁ ∧
        Yields (invoke r) ⟨m₁, s.steps⟩ () ⟨m₂, s'.steps⟩ ∧
        PassesBack key (r.parameters.zip arguments) m₂ m₃ ∧
        Keeps key result r.returnSlot m₃ s'.memory := by
  unfold callRoutine
  simp only [yields_bind, yields_pass, yields_passBack]
  have hkeep : ∀ s₃ : Machine κ, Yields (match result, r.returnSlot with
        | some x, some slot => do store key x (← load key slot)
        | _, _ => return) s₃ u s' ↔
      s'.steps = s₃.steps ∧ Keeps key result r.returnSlot s₃.memory s'.memory := by
    rintro ⟨m₃, n₃⟩
    rcases s' with ⟨m', n'⟩
    rcases result with - | x <;> rcases r.returnSlot with - | slot
    case some.some =>
      simp only [yields_bind, yields_load, yields_store]
      constructor
      · rintro ⟨_, _, ⟨rfl, rfl⟩, _, h, h'⟩
        cases h'
        exact ⟨rfl, h⟩
      · rintro ⟨rfl, h⟩
        exact ⟨_, _, ⟨rfl, rfl⟩, _, h, rfl⟩
    all_goals simp [Keeps, and_comm]
  constructor
  · rintro ⟨_, _, ⟨m₁, h₁, rfl⟩, _, ⟨m₂, n₂⟩, h₂, _, _, ⟨m₃, h₃, rfl⟩, h₄⟩
    obtain ⟨rfl, h₄⟩ := (hkeep _).1 h₄
    exact ⟨m₁, m₂, m₃, h₁, h₂, h₃, h₄⟩
  · rintro ⟨m₁, m₂, m₃, h₁, h₂, h₃, h₄⟩
    exact ⟨(), _, ⟨m₁, h₁, rfl⟩, (), _, h₂, (), _, ⟨m₃, h₃, rfl⟩, (hkeep _).2 ⟨rfl, h₄⟩⟩

theorem yields_callBuiltin {b : Builtin} : Yields (callBuiltin key b arguments result) s u s' ↔
      s'.steps = s.steps ∧ ∃ evaluator values value, b.evaluator = some evaluator ∧
        Expr.evalAll key s.memory arguments = .ok values ∧
        evaluator.compute? values = some value ∧
        match result with
        | some x => s.memory.store key x value = .ok s'.memory
        | none => s'.memory = s.memory := by
  rcases s' with ⟨m', n'⟩
  rw [callBuiltin]
  rcases b.evaluator with - | evaluator
  · simp
  · rw [yields_get_bind, yields_bind]
    simp only [yields_lift]
    constructor
    · rintro ⟨values, _, ⟨hvalues, rfl⟩, h⟩
      rcases hvalue : evaluator.compute? values with - | value <;> simp only [hvalue] at h
      · cases h
      · rcases result with - | x
        · obtain ⟨-, h⟩ := yields_pure.1 h
          cases h
          exact ⟨rfl, _, values, value, rfl, hvalues, hvalue, rfl⟩
        · obtain ⟨m₁, hm₁, h⟩ := yields_store.1 h
          cases h
          exact ⟨rfl, _, values, value, rfl, hvalues, hvalue, hm₁⟩
    · rintro ⟨rfl, _, values, value, h, hvalues, hvalue, hresult⟩
      cases h
      refine ⟨values, s, ⟨hvalues, rfl⟩, ?_⟩
      simp only [hvalue]
      rcases result with - | x
      · obtain rfl : m' = s.memory := hresult
        exact rfl
      · exact yields_store.2 ⟨m', hresult, rfl⟩

/-- What the machine does at a call, with the calls that it makes. -/
theorem calls_of_yields (h : Yields (call key invoke callee arguments result) s u s') :
    Calls key (fun r m m' ↦ Yields (invoke r) ⟨m, s.steps⟩ () ⟨m', s'.steps⟩) callee arguments
      result s.memory s'.memory := by
  cases callee with
  | routine r => exact yields_callRoutine.1 h
  | builtin b t => exact (yields_callBuiltin.1 h).2

theorem affects_of_yields (h : Yields (effect key invoke e) s u s') :
    e.Affects key (fun r m m' ↦ Yields (invoke r) ⟨m, s.steps⟩ () ⟨m', s'.steps⟩)
      s.memory s'.memory := by
  cases e
  case step n x yieldsNew down =>
    obtain ⟨_, _, h₁, h⟩ := yields_bind.1 h
    obtain ⟨rfl, rfl⟩ := yields_load.1 h₁
    split at h
    · next v hv =>
      obtain ⟨m', hm', rfl⟩ := yields_store.1 h
      exact ⟨v, hv, hm'⟩
    · cases h
  case assign n x value =>
    obtain ⟨v, m', hv, hm', rfl⟩ := yields_assign.1 h
    exact ⟨v, hv, hm'⟩
  case call n callee arguments => exact calls_of_yields h
  all_goals
    simp only [effect, yields_bind, yields_eval] at h
    obtain ⟨v, _, ⟨hv, rfl⟩, -, rfl⟩ := h
    exact ⟨rfl, v, hv⟩

/-- What the machine does at a statement, with the calls that it makes. -/
theorem step_of_yields (h : Yields (stmt key invoke routine st) s c s') :
    st.Step key (fun r m m' ↦ Yields (invoke r) ⟨m, s.steps⟩ () ⟨m', s'.steps⟩) routine
      s.memory c s'.memory := by
  cases st
  case define | assign =>
    obtain ⟨_, _, h₁, h⟩ := yields_bind.1 h
    obtain ⟨v, m', hv, hm', rfl⟩ := yields_assign.1 h₁
    cases h
    exact ⟨rfl, v, hv, hm'⟩
  case expression =>
    obtain ⟨_, _, h₁, h⟩ := yields_bind.1 h
    cases h
    exact ⟨rfl, affects_of_yields h₁⟩
  case call =>
    obtain ⟨_, _, h₁, h⟩ := yields_bind.1 h
    cases h
    exact ⟨rfl, calls_of_yields h₁⟩
  case gotoIf =>
    simp only [stmt, yields_bind, yields_eval] at h
    obtain ⟨v, _, ⟨hv, rfl⟩, rfl, rfl⟩ := h
    exact ⟨v, hv, rfl, rfl⟩
  case retValue =>
    simp only [Stmt.Step]
    rw [stmt] at h
    rcases hslot : routine.returnSlot with - | slot <;> simp only [hslot] at h ⊢
    · cases h
      exact ⟨rfl, rfl⟩
    · obtain ⟨_, _, h₁, h⟩ := yields_bind.1 h
      obtain ⟨v, m', hv, hm', rfl⟩ := yields_assign.1 h₁
      cases h
      exact ⟨rfl, v, hv, hm'⟩
  case goto | rollback | ret | declare | label | hint | nop =>
    cases h
    exact ⟨rfl, rfl⟩
  all_goals cases h

end Exec

/-- The computation ends well after a number of steps, whenever the limit leaves it that many and
calls may nest deeper than that. -/
def Takes {α : Type} (x : Nat → Nat → Exec κ α) (m : Memory κ) (a : α) (m' : Memory κ) : Prop :=
  ∃ count, ∀ limit depth n, n + count ≤ limit → count < depth →
    Yields (x limit depth) ⟨m, n⟩ a ⟨m', n + count⟩

section

variable {α β : Type} {x : Nat → Nat → Exec κ α} {m m' : Memory κ} {a : α}

omit [DecidableEq κ] in
theorem Takes.of_yields (h : ∀ limit depth n, Yields (x limit depth) ⟨m, n⟩ a ⟨m', n⟩) :
    Takes x m a m' :=
  ⟨0, fun limit depth n _ _ ↦ h limit depth n⟩

omit [DecidableEq κ] in
theorem Takes.map (h : Takes x m a m') (b : β) :
    Takes (fun limit depth ↦ do let _ ← x limit depth; return b) m b m' := by
  obtain ⟨count, h⟩ := h
  exact ⟨count, fun limit depth n hn hdepth ↦
    (h limit depth n hn hdepth).bind rfl⟩

end

namespace Exec

variable {calls : Routine → Memory κ → Memory κ → Prop} {invoke : Nat → Nat → Routine → Exec κ Unit}
  {m m' : Memory κ}
  (hcalls : ∀ r m m', calls r m m' → Takes (fun limit depth ↦ invoke limit depth r) m () m')

include hcalls

/-- The machine makes a call, which takes as many steps as the body. -/
theorem takes_call (h : Calls key calls callee arguments result m m') :
    Takes (fun limit depth ↦ call key (invoke limit depth) callee arguments result) m () m' := by
  cases callee with
  | routine r =>
    obtain ⟨m₁, m₂, m₃, h₁, h₂, h₃, h₄⟩ := h
    obtain ⟨count, hcount⟩ := hcalls r m₁ m₂ h₂
    exact ⟨count, fun limit depth n hn hdepth ↦
      yields_callRoutine.2 ⟨m₁, m₂, m₃, h₁, hcount limit depth n hn hdepth, h₃, h₄⟩⟩
  | builtin b t => exact .of_yields fun limit depth n ↦ yields_callBuiltin.2 ⟨rfl, h⟩

theorem takes_effect (h : e.Affects key calls m m') :
    Takes (fun limit depth ↦ effect key (invoke limit depth) e) m () m' := by
  cases e
  case step k x yieldsNew down =>
    obtain ⟨v, hv, hm'⟩ := h
    refine .of_yields fun limit depth n ↦ (yields_load.2 ⟨rfl, rfl⟩).bind ?_
    simp only [hv]
    exact yields_store.2 ⟨m', hm', rfl⟩
  case assign k x value =>
    obtain ⟨v, hv, hm'⟩ := h
    exact .of_yields fun limit depth n ↦ yields_assign.2 ⟨v, m', hv, hm', rfl⟩
  case call k callee arguments => exact takes_call hcalls h
  all_goals
    obtain ⟨rfl, v, hv⟩ := h
    refine .of_yields fun limit depth n ↦ ?_
    simp only [effect, yields_bind, yields_eval, yields_pure]
    exact ⟨v, _, ⟨hv, rfl⟩, trivial, rfl⟩

/-- The machine takes a step. -/
theorem takes_stmt (h : st.Step key calls routine m c m') :
    Takes (fun limit depth ↦ stmt key (invoke limit depth) routine st) m c m' := by
  cases st
  case define | assign =>
    obtain ⟨rfl, v, hv, hm'⟩ := h
    exact .of_yields fun limit depth n ↦
      yields_bind.2 ⟨(), _, yields_assign.2 ⟨v, m', hv, hm', rfl⟩, rfl⟩
  case expression =>
    obtain ⟨rfl, h⟩ := h
    exact (takes_effect hcalls h).map Control.next
  case call =>
    obtain ⟨rfl, h⟩ := h
    exact (takes_call hcalls h).map Control.next
  case gotoIf =>
    obtain ⟨v, hv, rfl, rfl⟩ := h
    refine .of_yields fun limit depth n ↦ ?_
    simp only [stmt, yields_bind, yields_eval, yields_pure]
    exact ⟨v, _, ⟨hv, rfl⟩, rfl, rfl⟩
  case retValue =>
    obtain ⟨rfl, h⟩ := h
    refine .of_yields fun limit depth n ↦ ?_
    rw [stmt]
    rcases hslot : routine.returnSlot with - | slot <;> simp only [hslot] at h ⊢
    · obtain rfl := h
      exact rfl
    · obtain ⟨v, hv, hm'⟩ := h
      exact yields_bind.2 ⟨(), _, yields_assign.2 ⟨v, m', hv, hm', rfl⟩, rfl⟩
  case goto | rollback | ret | declare | label | hint | nop =>
    obtain ⟨rfl, rfl⟩ := h
    exact .of_yields fun limit depth n ↦ rfl
  all_goals exact h.elim

end Exec

/-! ### Steps one after another -/

/-- From the statements that are still to run, steps lead from one memory to the end of the body in
another. A jump goes on where the body has the label. -/
inductive Runs {μ : Type} (step : Stmt → μ → Control → μ → Prop) (code : List Stmt) :
    List Stmt → μ → μ → Prop
  | done (m : μ) : Runs step code [] m m
  | next {s : Stmt} {rest : List Stmt} {m m₁ m' : μ} (hstep : step s m .next m₁)
      (hrest : Runs step code rest m₁ m') : Runs step code (s :: rest) m m'
  | stop {s : Stmt} {rest : List Stmt} {m m' : μ} (hstep : step s m .stop m') :
      Runs step code (s :: rest) m m'
  | jump {s : Stmt} {rest there : List Stmt} {m m₁ m' : μ} {l : Label}
      (hstep : step s m (.jump l) m₁) (hthere : Stmt.from? l code = some there)
      (hrest : Runs step code there m₁ m') : Runs step code (s :: rest) m m'

omit [DecidableEq κ] in
theorem Exec.yields_tick {s s' : Machine κ} :
    Yields (tick limit) s u s' ↔ s.steps + 1 ≤ limit ∧ s' = ⟨s.memory, s.steps + 1⟩ := by
  rw [tick, yields_bind]
  simp only [yields_modify, yields_get_bind]
  constructor
  · rintro ⟨_, _, rfl, h⟩
    by_cases hlimit : limit < s.steps + 1
    · rw [if_pos hlimit] at h
      exact absurd h not_yields_throw
    · rw [if_neg hlimit] at h
      exact ⟨by omega, (yields_pure.1 h).2⟩
  · rintro ⟨hlimit, rfl⟩
    refine ⟨(), _, rfl, ?_⟩
    rw [if_neg (by simpa using hlimit)]
    exact rfl

/-- A step of the loop: the statement is counted and run, and control goes where it says. -/
theorem Exec.yields_loop_cons {invoke : Routine → Exec κ Unit} {fuel : Nat} {s s' : Machine κ} :
    Yields (loop key limit invoke routine code (fuel + 1) (st :: rest)) s u s' ↔
      s.steps + 1 ≤ limit ∧ ∃ c s₁,
        Yields (stmt key invoke routine st) ⟨s.memory, s.steps + 1⟩ c s₁ ∧
        match c with
        | .next => Yields (loop key limit invoke routine code fuel rest) s₁ u s'
        | .stop => s' = s₁
        | .jump l => ∃ there, Stmt.from? l code = some there ∧
            Yields (loop key limit invoke routine code fuel there) s₁ u s' := by
  rw [loop]
  simp only [yields_tick, yields_bind]
  constructor
  · rintro ⟨_, _, ⟨hlimit, rfl⟩, c, s₁, hc, h⟩
    refine ⟨hlimit, c, s₁, hc, ?_⟩
    cases c with
    | next => exact h
    | stop => exact (yields_pure.1 h).2
    | jump l =>
      simp only at h ⊢
      split at h
      · cases h
      · next there hthere => exact ⟨there, hthere, h⟩
  · rintro ⟨hlimit, c, s₁, hc, h⟩
    refine ⟨(), _, ⟨hlimit, rfl⟩, c, s₁, hc, ?_⟩
    cases c with
    | next => exact h
    | stop => exact yields_pure.2 ⟨rfl, h⟩
    | jump l =>
      obtain ⟨there, hthere, h⟩ := h
      simp only [hthere]
      exact h

/-- A loop that ends well is a run, whatever calls do. -/
theorem Exec.runs_of_loop {invoke : Routine → Exec κ Unit} {fuel : Nat} {s s' : Machine κ}
    (h : Yields (loop key limit invoke routine code fuel rest) s u s') :
    Runs (Stmt.Step key (fun r m m' ↦ ∃ n n', Yields (invoke r) ⟨m, n⟩ () ⟨m', n'⟩) routine) code
      rest s.memory s'.memory := by
  induction fuel generalizing rest s with
  | zero =>
    cases rest with
    | nil =>
      obtain ⟨-, rfl⟩ := yields_pure.1 h
      exact .done _
    | cons st rest => cases h
  | succ fuel ih =>
    cases rest with
    | nil =>
      obtain ⟨-, rfl⟩ := yields_pure.1 h
      exact .done _
    | cons st rest =>
      obtain ⟨-, c, s₁, hc, h⟩ := yields_loop_cons.1 h
      have hcalls (r : Routine) (m m' : Memory κ)
          (h : Yields (invoke r) ⟨m, s.steps + 1⟩ () ⟨m', s₁.steps⟩) :
          ∃ n n', Yields (invoke r) ⟨m, n⟩ () ⟨m', n'⟩ := ⟨_, _, h⟩
      have hstep := (step_of_yields hc).mono hcalls
      cases c with
      | next => exact .next hstep (ih h)
      | stop =>
        obtain rfl : s' = s₁ := h
        exact .stop hstep
      | jump l =>
        obtain ⟨there, hthere, h⟩ := h
        exact .jump hstep hthere (ih h)

/-- Every run is a loop of the machine that ends well, with as many steps as it takes. -/
theorem Runs.exists_loop {calls : Routine → Memory κ → Memory κ → Prop}
    {invoke : Nat → Nat → Routine → Exec κ Unit} {m m' : Memory κ}
    (hcalls : ∀ r m m', calls r m m' → Takes (fun limit depth ↦ invoke limit depth r) m () m')
    (h : Runs (Stmt.Step key calls routine) code rest m m') :
    ∃ count, ∀ limit depth fuel n, count ≤ fuel → n + count ≤ limit → count ≤ depth →
      Yields (Exec.loop key limit (invoke limit depth) routine code fuel rest) ⟨m, n⟩ ()
        ⟨m', n + count⟩ := by
  induction h with
  | done m => exact ⟨0, fun limit depth fuel n _ _ _ ↦ by cases fuel <;> exact rfl⟩
  | next hstep _ ih =>
    obtain ⟨taken, hstmt⟩ := Exec.takes_stmt hcalls hstep
    obtain ⟨count, ih⟩ := ih
    refine ⟨1 + taken + count, fun limit depth fuel n hfuel hlimit hdepth ↦ ?_⟩
    obtain ⟨fuel, rfl⟩ : ∃ k, fuel = k + 1 := ⟨fuel - 1, by omega⟩
    refine Exec.yields_loop_cons.2 ⟨by show n + 1 ≤ limit; omega, _, _,
      hstmt limit depth (n + 1) (by omega) (by omega), ?_⟩
    have hrest := ih limit depth fuel (n + 1 + taken) (by omega) (by omega) (by omega)
    rwa [show n + 1 + taken + count = n + (1 + taken + count) by omega] at hrest
  | stop hstep =>
    obtain ⟨taken, hstmt⟩ := Exec.takes_stmt hcalls hstep
    refine ⟨1 + taken, fun limit depth fuel n hfuel hlimit hdepth ↦ ?_⟩
    obtain ⟨fuel, rfl⟩ : ∃ k, fuel = k + 1 := ⟨fuel - 1, by omega⟩
    have hlast := hstmt limit depth (n + 1) (by omega) (by omega)
    rw [show n + 1 + taken = n + (1 + taken) by omega] at hlast
    exact Exec.yields_loop_cons.2 ⟨by show n + 1 ≤ limit; omega, _, _, hlast, rfl⟩
  | jump hstep hthere _ ih =>
    obtain ⟨taken, hstmt⟩ := Exec.takes_stmt hcalls hstep
    obtain ⟨count, ih⟩ := ih
    refine ⟨1 + taken + count, fun limit depth fuel n hfuel hlimit hdepth ↦ ?_⟩
    obtain ⟨fuel, rfl⟩ : ∃ k, fuel = k + 1 := ⟨fuel - 1, by omega⟩
    refine Exec.yields_loop_cons.2 ⟨by show n + 1 ≤ limit; omega, _, _,
      hstmt limit depth (n + 1) (by omega) (by omega), _, hthere, ?_⟩
    have hrest := ih limit depth fuel (n + 1 + taken) (by omega) (by omega) (by omega)
    rwa [show n + 1 + taken + count = n + (1 + taken + count) by omega] at hrest

/-- A run needs steps to do no more than they are known to do. -/
theorem Runs.mono {μ : Type} {step step' : Stmt → μ → Control → μ → Prop} {m m' : μ}
    (h : Runs step code rest m m') (hstep : ∀ s m c m', step s m c m' → step' s m c m') :
    Runs step' code rest m m' := by
  induction h with
  | done m => exact .done m
  | next h _ ih => exact .next (hstep _ _ _ _ h) ih
  | stop h => exact .stop (hstep _ _ _ _ h)
  | jump h hthere _ ih => exact .jump (hstep _ _ _ _ h) hthere ih

/-! ### Whole programs -/

variable (key) in
/-- What running a routine of a program does, with calls that nest down to a depth. -/
def Performs (bodies : Bodies) : Nat → Routine → Memory κ → Memory κ → Prop
  | 0, _, _, _ => False
  | depth + 1, r, m, m' =>
    ∃ body, bodies.get? r = some body ∧
      Runs (Stmt.Step key (Performs bodies depth) r) body.flatten body.flatten m m'

/-- What the machine does when it runs a routine. -/
theorem Exec.performs_of_invoke {depth : Nat} {s s' : Machine κ}
    (h : Yields (invoke key limit bodies depth r) s u s') :
    Performs key bodies depth r s.memory s'.memory := by
  induction depth generalizing r s s' u with
  | zero => cases h
  | succ depth ih =>
    rw [invoke] at h
    rcases hbody : bodies.get? r with - | body <;> simp only [hbody] at h
    · cases h
    · refine ⟨body, hbody, (Exec.runs_of_loop h).mono fun s m c m' hstep ↦ hstep.mono ?_⟩
      rintro r m m' ⟨n, n', hcall⟩
      exact ih hcall

/-- The machine runs a routine, unless it is stopped for having taken too many steps. -/
theorem Performs.takes {least : Nat} {m m' : Memory κ} (h : Performs key bodies least r m m') :
    Takes (fun limit depth ↦ Exec.invoke key limit bodies depth r) m () m' := by
  induction least generalizing r m m' with
  | zero => exact h.elim
  | succ least ih =>
    obtain ⟨body, hbody, hruns⟩ := h
    obtain ⟨count, hloop⟩ := hruns.exists_loop fun r m m' hcall ↦ ih hcall
    refine ⟨count, fun limit depth n hlimit hdepth ↦ ?_⟩
    obtain ⟨depth, rfl⟩ : ∃ k, depth = k + 1 := ⟨depth - 1, by omega⟩
    show Yields (Exec.invoke key limit bodies (depth + 1) r) _ _ _
    rw [Exec.invoke]
    simp only [hbody]
    exact hloop limit depth (limit + 1) n (by omega) hlimit (by omega)

end Wirescript
