import Wirescript.Proofs.Vocabulary

/-!
# Running flat code with events

What a routine does can be told from the memory it leaves and, where events interrupt it, from the
order in which it stores to variables that others can see. A `Trail` is a memory with that record. A
`Scene` says how the memory is laid out, which stores are recorded, and which events occur, counted
by the jumps for events that a run comes to.

`Stmt.Acts` runs one statement. When the event of a jump occurs, the code at its label runs first,
until a return, a rollback or the end of the body ends it, and then control goes on behind the jump
(`Goes.fork`). Otherwise a statement does what the machine does, except that a return whose value
cannot be evaluated returns nothing in its place: where calls are replaced by bodies, nobody
evaluates a result that is not asked for. Whole programs run by `Follows`. A run is a function of the
trail it starts from, and it changes no cell that no routine it gets to has a variable in.
-/

namespace Wirescript

open List

variable {callee : Callee} {e : Expr} {arguments : List (Variable × Expr)} {code rest : List Stmt}
  {depth n : Nat} {result slot : Option Variable} {τ : Type} {v : Value} {x : Variable}

/-- How memory is laid out, which stores are recorded and which events occur. The machine copies
parameters back before it keeps the result of a call; calls of `early` routines keep it first. -/
structure Scene (κ : Type) where
  key : Slot → κ
  watched : Slot → Bool := fun _ ↦ false
  fires : Nat → Bool := fun _ ↦ false
  early : Routine → Bool := fun _ ↦ false

/-- A memory with the record of a run: what was stored to watched variables, and how many jumps for
events were made. -/
structure Trail (κ : Type) where
  memory : Memory κ := {}
  log : List (Slot × Value) := []
  events : Nat := 0

section Relations

variable {κ : Type} [DecidableEq κ] (S : Scene κ)

/-- What a store to the variable that leaves the memory is recorded as. -/
def Variable.record (x : Variable) (m : Memory κ) : List (Slot × Value) :=
  if S.watched x.root then [(x.root, m.load S.key (.slot x.root))] else []

namespace Trail

/-- Stores a value. -/
def store (t : Trail κ) (x : Variable) (v : Value) : Except Fault (Trail κ) :=
  (t.memory.store S.key x v).map fun m ↦ ⟨m, t.log ++ x.record S m, t.events⟩

/-- The value of the expression is stored in the variable. -/
def Assigns (x : Variable) (e : Expr) (t t' : Trail κ) : Prop :=
  ∃ v, e.eval S.key t.memory = .ok v ∧ t.store S x v = .ok t'

/-- The arguments are written to the parameters, from left to right. -/
def Passes : List (Variable × Expr) → Trail κ → Trail κ → Prop
  | [], t, t' => t' = t
  | (parameter, argument) :: rest, t, t' =>
    ∃ t₁, (if parameter.modifiers.out then t₁ = t else Assigns S parameter argument t t₁) ∧
      Passes rest t₁ t'

/-- Parameters that were passed by reference are copied back to the arguments. -/
def PassesBack : List (Variable × Expr) → Trail κ → Trail κ → Prop
  | [], t, t' => t' = t
  | (parameter, argument) :: rest, t, t' =>
    ∃ t₁, (if parameter.modifiers.byReference then
        ∃ target, argument.read? = some target ∧
          t.store S target (t.memory.load S.key parameter) = .ok t₁
      else t₁ = t) ∧ PassesBack rest t₁ t'

/-- A result is kept in a variable, if there are both. -/
def Keeps (result slot : Option Variable) (t t' : Trail κ) : Prop :=
  match result, slot with
  | some x, some slot => t.store S x (t.memory.load S.key slot) = .ok t'
  | _, _ => t' = t

/-- How a call ends when the body has been run. -/
def Concludes (r : Routine) (arguments : List Expr) (result : Option Variable) (t t' : Trail κ) :
    Prop :=
  ∃ t₁, if S.early r then
      Keeps S result r.returnSlot t t₁ ∧ PassesBack S (r.parameters.zip arguments) t₁ t'
    else PassesBack S (r.parameters.zip arguments) t t₁ ∧ Keeps S result r.returnSlot t₁ t'

/-- What a call does, given what the bodies of routines do. -/
def Calls (calls : Routine → Trail κ → Trail κ → Prop) (callee : Callee) (arguments : List Expr)
    (result : Option Variable) (t t' : Trail κ) : Prop :=
  match callee with
  | .routine r =>
    ∃ t₁ t₂, Passes S (r.parameters.zip arguments) t t₁ ∧ calls r t₁ t₂ ∧
      Concludes S r arguments result t₂ t'
  | .builtin b _ =>
    ∃ evaluator values value, b.evaluator = some evaluator ∧
      Expr.evalAll S.key t.memory arguments = .ok values ∧
      evaluator.compute? values = some value ∧
      match result with
      | some x => t.store S x value = .ok t'
      | none => t' = t

end Trail

/-- Where control goes after a statement. An event sends it to a label and back. -/
inductive Turn where
  | next
  | jump (target : Label)
  | fork (target : Label)
  | stop

/-- The value that a return gives, which is nothing if it cannot be evaluated. -/
def Expr.answer (e : Expr) (m : Memory κ) : Value := (e.eval S.key m).toOption.getD .null

/-- What a flat statement does, and where control goes after it. -/
def Stmt.Acts (calls : Routine → Trail κ → Trail κ → Prop) (routine : Routine) (s : Stmt)
    (t : Trail κ) (c : Turn) (t' : Trail κ) : Prop :=
  match s with
  | .define _ _ x value | .assign _ x value => c = .next ∧ t.Assigns S x value t'
  | .call _ callee arguments result => c = .next ∧ t.Calls S calls callee arguments result t'
  | .goto _ target => c = .jump target ∧ t' = t
  | .gotoIf _ target condition sense =>
    ∃ v, condition.eval S.key t.memory = .ok v ∧
      c = (if v.bool? = some sense then .jump target else .next) ∧ t' = t
  | .gotoOn _ target _ _ =>
    c = (if S.fires t.events then .fork target else .next) ∧ t' = { t with events := t.events + 1 }
  | .rollback _ _ | .ret _ => c = .stop ∧ t' = t
  | .retValue _ value =>
    c = .stop ∧
      match routine.returnSlot with
      | some slot => t.store S slot (value.answer S t.memory) = .ok t'
      | none => t' = t
  | .declare .. | .label .. | .hint .. | .nop _ => c = .next ∧ t' = t
  | .block .. | .compound .. | .ifThen .. | .ifElse .. | .whileLoop .. | .doWhile .. | .on ..
  | .expression .. => False

/-- Running flat code from a place on, with the number of statements that are run. -/
inductive Goes {τ : Type} (step : Stmt → τ → Turn → τ → Prop) (code : List Stmt) :
    Nat → List Stmt → τ → τ → Prop
  | done (t : τ) : Goes step code 0 [] t t
  | next {n : Nat} {s : Stmt} {rest : List Stmt} {t t₁ t' : τ} (hstep : step s t .next t₁)
      (hrest : Goes step code n rest t₁ t') : Goes step code (n + 1) (s :: rest) t t'
  | stop {s : Stmt} {rest : List Stmt} {t t' : τ} (hstep : step s t .stop t') :
      Goes step code 1 (s :: rest) t t'
  | jump {n : Nat} {s : Stmt} {rest there : List Stmt} {t t₁ t' : τ} {l : Label}
      (hstep : step s t (.jump l) t₁) (hthere : Stmt.from? l code = some there)
      (hrest : Goes step code n there t₁ t') : Goes step code (n + 1) (s :: rest) t t'
  | fork {n n' : Nat} {s : Stmt} {rest there : List Stmt} {t t₁ t₂ t' : τ} {l : Label}
      (hstep : step s t (.fork l) t₁) (hthere : Stmt.from? l code = some there)
      (hevent : Goes step code n' there t₁ t₂) (hrest : Goes step code n rest t₂ t') :
      Goes step code (n' + n + 1) (s :: rest) t t'

/-- The flat code of routines. -/
abbrev Listing := Routine → Option (List Stmt)

/-- What running a routine of a program does, with calls that nest down to a depth. -/
def Follows (program : Listing) : Nat → Routine → Trail κ → Trail κ → Prop
  | 0, _, _, _ => False
  | depth + 1, r, t, t' =>
    ∃ code n, program r = some code ∧
      Goes (Stmt.Acts S (Follows program depth) r) code n code t t'

/-- What running a routine of a program does, with calls that nest as deep as need be. -/
def Completes (program : Listing) (r : Routine) (t t' : Trail κ) : Prop :=
  ∃ depth, Follows S program depth r t t'

end Relations

variable {κ : Type} [DecidableEq κ] {S : Scene κ}
  {calls calls' : Routine → Trail κ → Trail κ → Prop} {routine r : Routine} {t t' t₁ t₂ : Trail κ}
  {s : Stmt} {c c₁ c₂ : Turn} {program : Listing} {step : Stmt → τ → Turn → τ → Prop}

theorem Trail.store_eq_ok : t.store S x v = .ok t' ↔
      ∃ m, t.memory.store S.key x v = .ok m ∧ t' = ⟨m, t.log ++ x.record S m, t.events⟩ := by
  rw [Trail.store]
  cases t.memory.store S.key x v with
  | error e => simp [Except.map]
  | ok m => simp [Except.map, eq_comm]

/-- A store changes the cell of the variable only. -/
theorem Trail.get?_store_of_ne (h : t.store S x v = .ok t') {k : κ} (hk : S.key x.root ≠ k) :
    t'.memory.get? k = t.memory.get? k := by
  obtain ⟨m, hm, rfl⟩ := Trail.store_eq_ok.1 h
  exact Memory.get?_store_of_ne hm hk

/-! ### More calls and deeper calls -/

theorem Trail.Calls.mono {arguments : List Expr} (h : t.Calls S calls callee arguments result t')
    (hcalls : ∀ r t t', calls r t t' → calls' r t t') :
    t.Calls S calls' callee arguments result t' := by
  cases callee with
  | routine r =>
    obtain ⟨t₁, t₂, h₁, h₂, h₃⟩ := h
    exact ⟨t₁, t₂, h₁, hcalls r t₁ t₂ h₂, h₃⟩
  | builtin b t => exact h

theorem Stmt.Acts.mono (h : s.Acts S calls routine t c t')
    (hcalls : ∀ r t t', calls r t t' → calls' r t t') : s.Acts S calls' routine t c t' := by
  cases s
  case call => exact ⟨h.1, h.2.mono hcalls⟩
  all_goals exact h

theorem Goes.mono {step' : Stmt → τ → Turn → τ → Prop} {t t' : τ} (h : Goes step code n rest t t')
    (hstep : ∀ s t c t', step s t c t' → step' s t c t') : Goes step' code n rest t t' := by
  induction h with
  | done t => exact .done t
  | next hs _ ih => exact .next (hstep _ _ _ _ hs) ih
  | stop hs => exact .stop (hstep _ _ _ _ hs)
  | jump hs hthere _ ih => exact .jump (hstep _ _ _ _ hs) hthere ih
  | fork hs hthere _ _ ihevent ihrest => exact .fork (hstep _ _ _ _ hs) hthere ihevent ihrest

/-- A run of a body takes the steps of its statements only. -/
theorem Goes.within {t t' : τ} (h : Goes step code n rest t t') (hrest : rest <:+ code) :
    Goes (fun s t c t' ↦ s ∈ code ∧ step s t c t') code n rest t t' := by
  have hmem {s : Stmt} {rest : List Stmt} (h : s :: rest <:+ code) : s ∈ code :=
    h.subset (.head _)
  induction h with
  | done t => exact .done t
  | next hs _ ih => exact .next ⟨hmem hrest, hs⟩ (ih ((suffix_cons _ _).trans hrest))
  | stop hs => exact .stop ⟨hmem hrest, hs⟩
  | jump hs hthere _ ih => exact .jump ⟨hmem hrest, hs⟩ hthere (ih (Stmt.from?_suffix hthere))
  | fork hs hthere _ _ ihevent ihrest =>
    exact .fork ⟨hmem hrest, hs⟩ hthere (ihevent (Stmt.from?_suffix hthere))
      (ihrest ((suffix_cons _ _).trans hrest))

theorem Follows.mono {depth' : Nat} (hdepth : depth ≤ depth') (h : Follows S program depth r t t') :
    Follows S program depth' r t t' := by
  induction depth generalizing depth' r t t' with
  | zero => exact h.elim
  | succ depth ih =>
    obtain ⟨depth', rfl⟩ : ∃ n, depth' = n + 1 := ⟨depth' - 1, by omega⟩
    obtain ⟨code, n, hcode, hgoes⟩ := h
    have hdeeper (q : Routine) (t t' : Trail κ) (hq : Follows S program depth q t t') :
        Follows S program depth' q t t' := ih (by omega) hq
    exact ⟨code, n, hcode, hgoes.mono fun s t c t' hs ↦ hs.mono hdeeper⟩

/-- A program with more routines does what the program does. -/
theorem Follows.mono_program {program' : Listing}
    (hprogram : ∀ r code, program r = some code → program' r = some code)
    (h : Follows S program depth r t t') : Follows S program' depth r t t' := by
  induction depth generalizing r t t' with
  | zero => exact h.elim
  | succ depth ih =>
    obtain ⟨code, n, hcode, hgoes⟩ := h
    exact ⟨code, n, hprogram r code hcode, hgoes.mono fun s t c t' hs ↦ hs.mono fun _ _ _ ↦ ih⟩

/-- A call nests to some depth. -/
theorem Trail.Calls.exists_depth {arguments : List Expr}
    (h : t.Calls S (Completes S program) callee arguments result t') :
    ∃ depth, t.Calls S (Follows S program depth) callee arguments result t' := by
  cases callee with
  | routine r =>
    obtain ⟨t₁, t₂, h₁, ⟨depth, h₂⟩, h₃⟩ := h
    exact ⟨depth, t₁, t₂, h₁, h₂, h₃⟩
  | builtin b t => exact ⟨0, h⟩

theorem Stmt.Acts.exists_depth (h : s.Acts S (Completes S program) routine t c t') :
    ∃ depth, s.Acts S (Follows S program depth) routine t c t' := by
  cases s
  case call span callee arguments result =>
    obtain ⟨depth, hcalls⟩ := h.2.exists_depth
    exact ⟨depth, h.1, hcalls⟩
  all_goals exact ⟨0, h⟩

theorem Goes.exists_depth (h : Goes (Stmt.Acts S (Completes S program) routine) code n rest t t') :
    ∃ depth, Goes (Stmt.Acts S (Follows S program depth) routine) code n rest t t' := by
  -- parts of a run are run to the depth of the deepest one
  have hact {depth depth' : Nat} {s : Stmt} {t t' : Trail κ} {c : Turn} (hle : depth ≤ depth')
      (h : s.Acts S (Follows S program depth) routine t c t') :
      s.Acts S (Follows S program depth') routine t c t' := h.mono fun _ _ _ ↦ Follows.mono hle
  have hgoes {depth depth' n : Nat} {rest : List Stmt} {t t' : Trail κ} (hle : depth ≤ depth')
      (h : Goes (Stmt.Acts S (Follows S program depth) routine) code n rest t t') :
      Goes (Stmt.Acts S (Follows S program depth') routine) code n rest t t' :=
    h.mono fun _ _ _ _ hs ↦ hact hle hs
  induction h with
  | done t => exact ⟨0, .done t⟩
  | next hs _ ih =>
    obtain ⟨depth, hs⟩ := hs.exists_depth
    obtain ⟨depth', hrest⟩ := ih
    exact ⟨max depth depth', .next (hact (Nat.le_max_left ..) hs)
      (hgoes (Nat.le_max_right ..) hrest)⟩
  | stop hs =>
    obtain ⟨depth, hs⟩ := hs.exists_depth
    exact ⟨depth, .stop hs⟩
  | jump hs hthere _ ih =>
    obtain ⟨depth, hs⟩ := hs.exists_depth
    obtain ⟨depth', hrest⟩ := ih
    exact ⟨max depth depth', .jump (hact (Nat.le_max_left ..) hs) hthere
      (hgoes (Nat.le_max_right ..) hrest)⟩
  | fork hs hthere _ _ ihevent ihrest =>
    obtain ⟨depth, hs⟩ := hs.exists_depth
    obtain ⟨depth', hevent⟩ := ihevent
    obtain ⟨depth'', hrest⟩ := ihrest
    exact ⟨max depth (max depth' depth''), .fork (hact (by omega) hs) hthere
      (hgoes (by omega) hevent) (hgoes (by omega) hrest)⟩

/-- A run of the body is a run of the routine. -/
theorem Goes.exists_follows (hcode : program r = some code)
    (h : Goes (Stmt.Acts S (Completes S program) r) code n code t t') :
    Completes S program r t t' := by
  obtain ⟨depth, hgoes⟩ := h.exists_depth
  exact ⟨depth + 1, code, n, hcode, hgoes⟩

/-! ### Runs are functions -/

theorem Trail.Assigns.unique (h₁ : t.Assigns S x e t₁) (h₂ : t.Assigns S x e t₂) : t₁ = t₂ := by
  obtain ⟨v, hv, ht₁⟩ := h₁
  obtain ⟨w, hw, ht₂⟩ := h₂
  obtain rfl : v = w := Except.ok.inj (hv.symm.trans hw)
  exact Except.ok.inj (ht₁.symm.trans ht₂)

theorem Trail.Passes.unique (h₁ : t.Passes S arguments t₁) (h₂ : t.Passes S arguments t₂) :
    t₁ = t₂ := by
  induction arguments generalizing t with
  | nil => exact h₁.trans h₂.symm
  | cons entry rest ih =>
    obtain ⟨parameter, argument⟩ := entry
    obtain ⟨u₁, hfirst₁, h₁⟩ := h₁
    obtain ⟨u₂, hfirst₂, h₂⟩ := h₂
    obtain rfl : u₁ = u₂ := by
      by_cases hout : parameter.modifiers.out = true
      · rw [if_pos hout] at hfirst₁ hfirst₂
        exact hfirst₁.trans hfirst₂.symm
      · rw [if_neg hout] at hfirst₁ hfirst₂
        exact hfirst₁.unique hfirst₂
    exact ih h₁ h₂

theorem Trail.PassesBack.unique (h₁ : t.PassesBack S arguments t₁)
    (h₂ : t.PassesBack S arguments t₂) : t₁ = t₂ := by
  induction arguments generalizing t with
  | nil => exact h₁.trans h₂.symm
  | cons entry rest ih =>
    obtain ⟨parameter, argument⟩ := entry
    obtain ⟨u₁, hfirst₁, h₁⟩ := h₁
    obtain ⟨u₂, hfirst₂, h₂⟩ := h₂
    obtain rfl : u₁ = u₂ := by
      by_cases href : parameter.modifiers.byReference = true
      · rw [if_pos href] at hfirst₁ hfirst₂
        obtain ⟨target, htarget, hstore⟩ := hfirst₁
        obtain ⟨target', htarget', hstore'⟩ := hfirst₂
        obtain rfl : target = target' := Option.some.inj (htarget.symm.trans htarget')
        exact Except.ok.inj (hstore.symm.trans hstore')
      · rw [if_neg href] at hfirst₁ hfirst₂
        exact hfirst₁.trans hfirst₂.symm
    exact ih h₁ h₂

theorem Trail.Keeps.unique (h₁ : t.Keeps S result slot t₁) (h₂ : t.Keeps S result slot t₂) :
    t₁ = t₂ := by
  rcases result with - | x
  · exact h₁.trans h₂.symm
  · rcases slot with - | slot
    · exact h₁.trans h₂.symm
    · exact Except.ok.inj (h₁.symm.trans h₂)

theorem Trail.Concludes.unique {arguments : List Expr} (h₁ : t.Concludes S r arguments result t₁)
    (h₂ : t.Concludes S r arguments result t₂) : t₁ = t₂ := by
  obtain ⟨u₁, h₁⟩ := h₁
  obtain ⟨u₂, h₂⟩ := h₂
  by_cases hearly : S.early r = true
  · rw [if_pos hearly] at h₁ h₂
    obtain rfl := h₁.1.unique h₂.1
    exact h₁.2.unique h₂.2
  · rw [if_neg hearly] at h₁ h₂
    obtain rfl := h₁.1.unique h₂.1
    exact h₁.2.unique h₂.2

/-- Calls that do one thing only. -/
def Functional (calls : Routine → Trail κ → Trail κ → Prop) : Prop :=
  ∀ r t t₁ t₂, calls r t t₁ → calls r t t₂ → t₁ = t₂

theorem Trail.Calls.unique (hcalls : Functional calls) {arguments : List Expr}
    (h₁ : t.Calls S calls callee arguments result t₁)
    (h₂ : t.Calls S calls callee arguments result t₂) : t₁ = t₂ := by
  cases callee with
  | routine r =>
    obtain ⟨u₁, u₂, hpass, hcall, hend⟩ := h₁
    obtain ⟨u₁', u₂', hpass', hcall', hend'⟩ := h₂
    obtain rfl := hpass.unique hpass'
    obtain rfl := hcalls r _ _ _ hcall hcall'
    exact hend.unique hend'
  | builtin b t =>
    obtain ⟨evaluator, values, value, hevaluator, hvalues, hvalue, h₁⟩ := h₁
    obtain ⟨evaluator', values', value', hevaluator', hvalues', hvalue', h₂⟩ := h₂
    cases hevaluator.symm.trans hevaluator'
    cases hvalues.symm.trans hvalues'
    cases hvalue.symm.trans hvalue'
    cases result with
    | none => exact h₁.trans h₂.symm
    | some x => exact Except.ok.inj (h₁.symm.trans h₂)

/-- A statement does one thing only. -/
theorem Stmt.Acts.unique (hcalls : Functional calls) (h₁ : s.Acts S calls routine t c₁ t₁)
    (h₂ : s.Acts S calls routine t c₂ t₂) : c₁ = c₂ ∧ t₁ = t₂ := by
  cases s
  case define | assign => exact ⟨h₁.1.trans h₂.1.symm, h₁.2.unique h₂.2⟩
  case call => exact ⟨h₁.1.trans h₂.1.symm, h₁.2.unique hcalls h₂.2⟩
  case gotoIf =>
    obtain ⟨v, hv, rfl, rfl⟩ := h₁
    obtain ⟨w, hw, rfl, rfl⟩ := h₂
    obtain rfl : v = w := Except.ok.inj (hv.symm.trans hw)
    exact ⟨rfl, rfl⟩
  case retValue span value =>
    obtain ⟨rfl, h₁⟩ := h₁
    obtain ⟨rfl, h₂⟩ := h₂
    refine ⟨rfl, ?_⟩
    rcases hslot : routine.returnSlot with - | slot <;> simp only [hslot] at h₁ h₂
    · exact h₁.trans h₂.symm
    · exact Except.ok.inj (h₁.symm.trans h₂)
  case goto | gotoOn | rollback | ret | declare | label | hint | nop =>
    exact ⟨h₁.1.trans h₂.1.symm, h₁.2.trans h₂.2.symm⟩
  all_goals exact h₁.elim

theorem Goes.unique {n₁ n₂ : Nat} {t t₁ t₂ : τ}
    (hstep : ∀ s t c₁ c₂ t₁ t₂, step s t c₁ t₁ → step s t c₂ t₂ → c₁ = c₂ ∧ t₁ = t₂)
    (h₁ : Goes step code n₁ rest t t₁) (h₂ : Goes step code n₂ rest t t₂) : t₁ = t₂ := by
  induction h₁ generalizing n₂ t₂ with
  | done t =>
    cases h₂
    rfl
  | next hs _ ih =>
    cases h₂ with
    | next hs' hrest' =>
      obtain ⟨-, rfl⟩ := hstep _ _ _ _ _ _ hs hs'
      exact ih hrest'
    | stop hs' | jump hs' | fork hs' => cases (hstep _ _ _ _ _ _ hs hs').1
  | stop hs =>
    cases h₂ with
    | stop hs' => exact (hstep _ _ _ _ _ _ hs hs').2
    | next hs' | jump hs' | fork hs' => cases (hstep _ _ _ _ _ _ hs hs').1
  | jump hs hthere _ ih =>
    cases h₂ with
    | jump hs' hthere' hrest' =>
      obtain ⟨hc, rfl⟩ := hstep _ _ _ _ _ _ hs hs'
      cases hc
      cases hthere.symm.trans hthere'
      exact ih hrest'
    | next hs' | stop hs' | fork hs' => cases (hstep _ _ _ _ _ _ hs hs').1
  | fork hs hthere _ _ ihevent ihrest =>
    cases h₂ with
    | fork hs' hthere' hevent' hrest' =>
      obtain ⟨hc, rfl⟩ := hstep _ _ _ _ _ _ hs hs'
      cases hc
      cases hthere.symm.trans hthere'
      obtain rfl := ihevent hevent'
      exact ihrest hrest'
    | next hs' | stop hs' | jump hs' => cases (hstep _ _ _ _ _ _ hs hs').1

/-- A program started from one trail ends in one trail, whatever depth it is given. -/
theorem Follows.unique {depth' : Nat} (h₁ : Follows S program depth r t t₁)
    (h₂ : Follows S program depth' r t t₂) : t₁ = t₂ := by
  have hsame (n : Nat) : Functional (Follows S program n) := by
    induction n with
    | zero => exact fun _ _ _ _ h ↦ h.elim
    | succ n ih =>
      rintro r t t₁ t₂ ⟨code, n₁, hcode, hgoes⟩ ⟨code', n₂, hcode', hgoes'⟩
      cases hcode.symm.trans hcode'
      exact hgoes.unique (fun _ _ _ _ _ _ h h' ↦ h.unique ih h') hgoes'
  exact hsame (max depth depth') r t t₁ t₂ (h₁.mono (Nat.le_max_left ..))
    (h₂.mono (Nat.le_max_right ..))

/-! ### Cells that a run leaves alone -/

section Spares

variable {V : Vocabulary} {k : κ}

theorem Trail.Passes.spares (h : t.Passes S arguments t')
    (hk : ∀ p a, (p, a) ∈ arguments → S.key p.root ≠ k) : t'.memory.get? k = t.memory.get? k := by
  induction arguments generalizing t with
  | nil =>
    obtain rfl : t' = t := h
    rfl
  | cons entry rest ih =>
    obtain ⟨parameter, argument⟩ := entry
    obtain ⟨t₁, hfirst, h⟩ := h
    rw [ih h fun p a hmem ↦ hk p a (mem_cons_of_mem _ hmem)]
    split at hfirst
    · rw [hfirst]
    · obtain ⟨v, -, hstore⟩ := hfirst
      exact Trail.get?_store_of_ne hstore (hk parameter argument (.head _))

theorem Trail.PassesBack.spares (h : t.PassesBack S arguments t')
    (hk : ∀ p a x, (p, a) ∈ arguments → p.modifiers.byReference = true → a.read? = some x →
      S.key x.root ≠ k) : t'.memory.get? k = t.memory.get? k := by
  induction arguments generalizing t with
  | nil =>
    obtain rfl : t' = t := h
    rfl
  | cons entry rest ih =>
    obtain ⟨parameter, argument⟩ := entry
    obtain ⟨t₁, hfirst, h⟩ := h
    rw [ih h fun p a x hmem ↦ hk p a x (mem_cons_of_mem _ hmem)]
    by_cases href : parameter.modifiers.byReference = true
    · rw [if_pos href] at hfirst
      obtain ⟨target, htarget, hstore⟩ := hfirst
      exact Trail.get?_store_of_ne hstore
        (hk parameter argument target (.head _) href htarget)
    · rw [if_neg href] at hfirst
      rw [hfirst]

theorem Trail.Keeps.spares (h : t.Keeps S result slot t') (hk : ∀ x ∈ result, S.key x.root ≠ k) :
    t'.memory.get? k = t.memory.get? k := by
  rcases result with - | x
  · rw [show t' = t from h]
  · rcases slot with - | slot
    · rw [show t' = t from h]
    · exact Trail.get?_store_of_ne h (hk x rfl)

theorem Expr.Within.of_read? (h : e.Within V) (hx : e.read? = some x) : V.var x := by
  cases e <;> simp only [Expr.read?, reduceCtorEq, Option.some.injEq] at hx
  subst hx
  exact h.2

theorem Trail.Concludes.spares {arguments : List Expr} (h : t.Concludes S r arguments result t')
    (harguments : Expr.AllWithin V arguments) (hresult : ∀ x ∈ result, V.var x)
    (hvar : ∀ x, V.var x → S.key x.root ≠ k) : t'.memory.get? k = t.memory.get? k := by
  have hkeeps {t t' : Trail κ} (h : t.Keeps S result r.returnSlot t') :
      t'.memory.get? k = t.memory.get? k := h.spares fun x hx ↦ hvar x (hresult x hx)
  have hback {t t' : Trail κ} (h : t.PassesBack S (r.parameters.zip arguments) t') :
      t'.memory.get? k = t.memory.get? k := h.spares fun p a x hmem _ hx ↦
    hvar x ((Expr.allWithin_iff.1 harguments a (of_mem_zip hmem).2).of_read? hx)
  obtain ⟨t₁, h⟩ := h
  split at h
  · rw [hback h.2, hkeeps h.1]
  · rw [hkeeps h.2, hback h.1]

theorem Trail.Calls.spares {arguments : List Expr} (h : t.Calls S calls callee arguments result t')
    (harguments : Expr.AllWithin V arguments) (hresult : ∀ x ∈ result, V.var x)
    (hvar : ∀ x, V.var x → S.key x.root ≠ k)
    (hparameter : ∀ r, callee = .routine r → ∀ p ∈ r.parameters, S.key p.root ≠ k)
    (hcalls : ∀ r, callee = .routine r →
      ∀ t t', calls r t t' → t'.memory.get? k = t.memory.get? k) :
    t'.memory.get? k = t.memory.get? k := by
  cases callee with
  | routine r =>
    obtain ⟨t₁, t₂, hpass, hcall, hend⟩ := h
    have hpass' : t₁.memory.get? k = t.memory.get? k := hpass.spares fun p a hmem ↦
      hparameter r rfl p (of_mem_zip hmem).1
    rw [hend.spares harguments hresult hvar, hcalls r rfl t₁ t₂ hcall, hpass']
  | builtin b type =>
    obtain ⟨-, -, value, -, -, -, h⟩ := h
    cases result with
    | none => rw [show t' = t from h]
    | some x => exact Trail.get?_store_of_ne h (hvar x (hresult x rfl))

/-- The statement is a call of the routine. -/
def Stmt.Invokes (s : Stmt) (r : Routine) : Prop :=
  ∃ span arguments result, s = .call span (.routine r) arguments result

/-- A statement changes the cells of the variables that it mentions, of the parameters of the
routine that it calls, and what that changes. -/
theorem Stmt.Acts.spares (h : s.Acts S calls routine t c t') (hs : s.Settled V)
    (hvar : ∀ x, V.var x → S.key x.root ≠ k) (hslot : ∀ x ∈ routine.returnSlot, S.key x.root ≠ k)
    (hparameter : ∀ r, s.Invokes r → ∀ p ∈ r.parameters, S.key p.root ≠ k)
    (hcalls : ∀ r, s.Invokes r → ∀ t t', calls r t t' → t'.memory.get? k = t.memory.get? k) :
    t'.memory.get? k = t.memory.get? k := by
  cases s
  case define | assign =>
    obtain ⟨-, v, -, hstore⟩ := h
    exact Trail.get?_store_of_ne hstore (hvar _ hs.1)
  case call span callee arguments result =>
    refine h.2.spares hs.2.1 hs.2.2 hvar (fun r hr ↦ ?_) fun r hr ↦ ?_
    · exact hparameter r ⟨span, arguments, result, by rw [hr]⟩
    · exact hcalls r ⟨span, arguments, result, by rw [hr]⟩
  case gotoIf =>
    obtain ⟨-, -, -, rfl⟩ := h
    rfl
  case retValue span value =>
    obtain ⟨-, h⟩ := h
    rcases hreturn : routine.returnSlot with - | slot <;> simp only [hreturn] at h
    · rw [h]
    · exact Trail.get?_store_of_ne h (hslot slot hreturn)
  case goto | gotoOn | rollback | ret | declare | label | hint | nop => rw [h.2]
  all_goals exact hs.elim

theorem Goes.spares {step : Stmt → Trail κ → Turn → Trail κ → Prop} (h : Goes step code n rest t t')
    (hstep : ∀ s t c t', step s t c t' → t'.memory.get? k = t.memory.get? k) :
    t'.memory.get? k = t.memory.get? k := by
  induction h with
  | done t => rfl
  | next hs _ ih | jump hs _ _ ih => rw [ih, hstep _ _ _ _ hs]
  | stop hs => exact hstep _ _ _ _ hs
  | fork hs _ _ _ ihevent ihrest => rw [ihrest, ihevent, hstep _ _ _ _ hs]

/-- A routine changes no cell but those of its variables and of the routines that it gets to, where
`next` says what routines a routine gets to, and `V` what the bodies of known routines are made
of. -/
theorem Follows.spares {V : Routine → Vocabulary} {known : Routine → Prop}
    {next : Routine → Routine → Prop}
    (hprogram : ∀ r code, known r → program r = some code → Stmt.AllSettled (V r) code)
    (hnext : ∀ r code, known r → program r = some code → ∀ s ∈ code, ∀ q, s.Invokes q →
      next r q ∧ known q) (htrans : ∀ r q q', next r q → next q q' → next r q')
    (h : Follows S program depth r t t') (hr : known r)
    (hown : ∀ q, q = r ∨ (next r q ∧ known q) → ∀ x, (V q).var x ∨ x ∈ q.formals →
      S.key x.root ≠ k) : t'.memory.get? k = t.memory.get? k := by
  induction depth generalizing r t t' with
  | zero => exact h.elim
  | succ depth ih =>
    obtain ⟨code, n, hcode, hgoes⟩ := h
    refine (hgoes.within (suffix_refl _)).spares fun s t c t' hacts ↦ ?_
    obtain ⟨hs, hstep⟩ := hacts
    refine hstep.spares (hprogram r code hr hcode s hs) (fun x hx ↦ hown r (.inl rfl) x (.inl hx))
      (fun x hx ↦ hown r (.inl rfl) x (.inr ?_)) (fun q hq p hp ↦ ?_) fun q hq t t' hcall ↦ ?_
    · exact mem_append_right _ (Option.mem_toList.2 hx)
    · exact hown q (.inr (hnext r code hr hcode s hs q hq)) p (.inr (mem_append_left _ hp))
    · obtain ⟨hrq, hq⟩ := hnext r code hr hcode s hs q hq
      refine ih hcall hq fun q' hq' ↦ hown q' (.inr ?_)
      rcases hq' with rfl | ⟨hqq', hq'⟩
      · exact ⟨hrq, hq⟩
      · exact ⟨htrans r q q' hrq hqq', hq'⟩

end Spares

/-! ### The machine -/

section Machine

variable {key : Slot → κ} {m m' : Memory κ}

/-- A memory with the record of a run in which nothing is watched. -/
def Trail.ofMemory (m : Memory κ) : Trail κ where
  memory := m

theorem Trail.store_ofMemory (h : m.store key x v = .ok m') :
    (Trail.ofMemory m).store { key := key } x v = .ok (.ofMemory m') :=
  Trail.store_eq_ok.2 ⟨m', h, rfl⟩

theorem Assigns.trail (h : Assigns key x e m m') :
    (Trail.ofMemory m).Assigns { key := key } x e (.ofMemory m') := by
  obtain ⟨v, hv, hstore⟩ := h
  exact ⟨v, hv, Trail.store_ofMemory hstore⟩

theorem Passes.trail (h : Passes key arguments m m') :
    (Trail.ofMemory m).Passes { key := key } arguments (.ofMemory m') := by
  induction arguments generalizing m with
  | nil => exact congrArg Trail.ofMemory h
  | cons entry rest ih =>
    obtain ⟨parameter, argument⟩ := entry
    obtain ⟨m₁, hfirst, h⟩ := h
    refine ⟨.ofMemory m₁, ?_, ih h⟩
    by_cases hout : parameter.modifiers.out = true
    · rw [if_pos hout] at hfirst ⊢
      exact congrArg Trail.ofMemory hfirst
    · rw [if_neg hout] at hfirst ⊢
      exact hfirst.trail

theorem PassesBack.trail (h : PassesBack key arguments m m') :
    (Trail.ofMemory m).PassesBack { key := key } arguments (.ofMemory m') := by
  induction arguments generalizing m with
  | nil => exact congrArg Trail.ofMemory h
  | cons entry rest ih =>
    obtain ⟨parameter, argument⟩ := entry
    obtain ⟨m₁, hfirst, h⟩ := h
    refine ⟨.ofMemory m₁, ?_, ih h⟩
    by_cases href : parameter.modifiers.byReference = true
    · rw [if_pos href] at hfirst ⊢
      obtain ⟨target, htarget, hstore⟩ := hfirst
      exact ⟨target, htarget, Trail.store_ofMemory hstore⟩
    · rw [if_neg href] at hfirst ⊢
      exact congrArg Trail.ofMemory hfirst

theorem Keeps.trail (h : Keeps key result slot m m') :
    (Trail.ofMemory m).Keeps { key := key } result slot (.ofMemory m') := by
  rcases result with - | x
  · exact congrArg Trail.ofMemory h
  · rcases slot with - | slot
    · exact congrArg Trail.ofMemory h
    · exact Trail.store_ofMemory h

variable {does : Routine → Memory κ → Memory κ → Prop}

theorem Calls.trail {arguments : List Expr} (h : Calls key does callee arguments result m m')
    (hcalls : ∀ r m m', does r m m' → calls r (.ofMemory m) (.ofMemory m')) :
    (Trail.ofMemory m).Calls { key := key } calls callee arguments result (.ofMemory m') := by
  cases callee with
  | routine r =>
    obtain ⟨m₁, m₂, m₃, hpass, hcall, hback, hkeep⟩ := h
    exact ⟨_, _, hpass.trail, hcalls r m₁ m₂ hcall, _, hback.trail, hkeep.trail⟩
  | builtin b type =>
    obtain ⟨evaluator, values, value, hevaluator, hvalues, hvalue, h⟩ := h
    refine ⟨evaluator, values, value, hevaluator, hvalues, hvalue, ?_⟩
    cases result with
    | none => exact congrArg Trail.ofMemory h
    | some x => exact Trail.store_ofMemory h

/-- Control of the machine, which knows no events. -/
def Control.turn : Control → Turn
  | .next => .next
  | .jump l => .jump l
  | .stop => .stop

theorem Stmt.Step.acts {V : Vocabulary} {c : Control} (h : s.Step key does routine m c m')
    (hs : s.Settled V) (hcalls : ∀ r m m', does r m m' → calls r (.ofMemory m) (.ofMemory m')) :
    s.Acts { key := key } calls routine (.ofMemory m) c.turn (.ofMemory m') := by
  cases s
  case define | assign =>
    obtain ⟨rfl, h⟩ := h
    exact ⟨rfl, h.trail⟩
  case call =>
    obtain ⟨rfl, h⟩ := h
    exact ⟨rfl, h.trail hcalls⟩
  case gotoIf span target condition sense =>
    obtain ⟨v, hv, rfl, rfl⟩ := h
    refine ⟨v, hv, ?_, rfl⟩
    split <;> rfl
  case retValue span value =>
    obtain ⟨rfl, h⟩ := h
    refine ⟨rfl, ?_⟩
    rcases hslot : routine.returnSlot with - | slot <;> simp only [hslot] at h ⊢
    · exact congrArg Trail.ofMemory h
    · obtain ⟨v, hv, hstore⟩ := h
      have hanswer : value.answer { key := key } m = v := by rw [Expr.answer, hv]; rfl
      show Trail.store _ _ slot (value.answer _ m) = _
      rw [hanswer]
      exact Trail.store_ofMemory hstore
  case goto | rollback | ret | declare | label | hint | nop =>
    obtain ⟨rfl, rfl⟩ := h
    exact ⟨rfl, rfl⟩
  case gotoOn => exact h.elim
  all_goals exact hs.elim

omit [DecidableEq κ] in
theorem Runs.goes {step : Stmt → Memory κ → Control → Memory κ → Prop}
    {step' : Stmt → Trail κ → Turn → Trail κ → Prop} (h : Runs step code rest m m')
    (hrest : rest <:+ code)
    (hstep : ∀ s ∈ code, ∀ m c m', step s m c m' → step' s (.ofMemory m) c.turn (.ofMemory m')) :
    ∃ n, Goes step' code n rest (.ofMemory m) (.ofMemory m') := by
  induction h with
  | done m => exact ⟨0, .done _⟩
  | next hs _ ih =>
    obtain ⟨n, hn⟩ := ih ((suffix_cons _ _).trans hrest)
    exact ⟨n + 1, .next (hstep _ (hrest.subset (.head _)) _ _ _ hs) hn⟩
  | stop hs => exact ⟨1, .stop (hstep _ (hrest.subset (.head _)) _ _ _ hs)⟩
  | jump hs hthere _ ih =>
    obtain ⟨n, hn⟩ := ih (Stmt.from?_suffix hthere)
    exact ⟨n + 1, .jump (hstep _ (hrest.subset (.head _)) _ _ _ hs) hthere hn⟩

/-- The flat code of bodies. -/
def Bodies.listing (bodies : Bodies) : Listing := fun r ↦ (bodies.get? r).map Stmt.flatten

/-- What the machine does is a run. -/
theorem Performs.follows {bodies : Bodies} {V : Routine → Vocabulary}
    (hbodies : ∀ r code, bodies.listing r = some code → Stmt.AllSettled (V r) code)
    (h : Performs key bodies depth r m m') :
    Follows { key := key } bodies.listing depth r (.ofMemory m) (.ofMemory m') := by
  induction depth generalizing r m m' with
  | zero => exact h.elim
  | succ depth ih =>
    obtain ⟨body, hbody, hruns⟩ := h
    have hcode : bodies.listing r = some body.flatten := by rw [Bodies.listing, hbody]; rfl
    obtain ⟨n, hgoes⟩ := hruns.goes (suffix_refl _) fun s hs m c m' hstep ↦
      hstep.acts (hbodies r _ hcode s hs) fun q m m' hq ↦ ih hq
    exact ⟨body.flatten, n, hcode, hgoes⟩

end Machine

end Wirescript
