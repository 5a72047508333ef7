import Wirescript.Proofs.Naming

/-!
# Memory by name and memory by symbol

A level finds a cell by its name. A script means one cell for each variable, whatever the variables
are called. After a program has been given its names the two are the same: a run in which cells are
found by storage name and a run of the program before, in which a cell is found by the variable
itself, take the same steps, stop with the same fault at the same place, and leave the same values.

`Naming.Mirrors` says that two memories hold the same in corresponding cells, and `Naming.TracksBy`
that two computations of the machine keep it so and have the same outcome. The machine is read once,
form by form, as a pair of such computations. All this asks of the names is that they tell apart what
is kept in different cells, whatever the cells are.
-/

namespace Wirescript

open Wirescript.Expr
open List

variable {e : Expr} {es : List Expr} {r : Routine} {s : Slot}

/-! ### Faults under the names -/

/-- What the machine complains about, with the variables under their new names. -/
def Breach.renamed (st : Naming) : Breach → Breach
  | .cannotEvaluate e => .cannotEvaluate (e.substitute st.substitution)
  | .cannotStep x => .cannotStep (st.variableOf x)
  | .takesFloat x => .takesFloat (st.variableOf x)
  | .holdsNoVector x value => .holdsNoVector (st.variableOf x) value
  | .notFlat s => .notFlat (s.substitute st.substitution)
  | other => other

@[inherit_doc Breach.renamed]
def Fault.renamed (st : Naming) : Fault → Fault
  | .internal breach => .internal (breach.renamed st)
  | other => other

namespace Naming

open Memory (storageKey)

variable {st : Naming} {covered : Slot → Prop} {α β κ : Type} [DecidableEq κ] {key : Slot → κ}

/-! ### Memories -/

/-- The names of slots of a kind tell the slots apart that have different cells. -/
def Separates (st : Naming) (key : Slot → κ) (covered : Slot → Prop) : Prop :=
  ∀ s s', covered s → covered s' →
    (storageKey (st.image s) = storageKey (st.image s') ↔ key s = key s')

/-- What is found under the name of a slot in one memory is found in the cell of the slot in the
other. -/
def Mirrors (st : Naming) (key : Slot → κ) (covered : Slot → Prop) (m : Memory String)
    (μ : Memory κ) : Prop :=
  ∀ s, covered s → m.get? (storageKey (st.image s)) = μ.get? (key s)

section Memories

variable {m : Memory String} {μ : Memory κ} {x : Variable} {v : Value}
  (h : st.Mirrors key covered m μ)

include h

theorem Mirrors.load (hx : covered x.root) : m.load storageKey (st.variableOf x) = μ.load key x := by
  have hmoves := st.moves x
  refine Memory.load_like hmoves.1 ?_
  show m.load storageKey (.slot (st.substitution.var x).root) = _
  rw [hmoves.2, Memory.load, h x.root hx]
  rfl

theorem Mirrors.insert (hst : st.Separates key covered) (hs : covered s) (v : Value) :
    st.Mirrors key covered (m.insert (storageKey (st.image s)) v) (μ.insert (key s) v) := by
  intro s' hs'
  have hkeys := hst s s' hs hs'
  by_cases heq : key s = key s'
  · rw [hkeys.2 heq, heq, Table.get?_insert_self, Table.get?_insert_self]
  · rw [Table.get?_insert_of_ne _ _ heq, Table.get?_insert_of_ne _ _ (mt hkeys.1 heq)]
    exact h s' hs'

/-- Corresponding stores succeed together or fail together. -/
theorem Mirrors.store (hst : st.Separates key covered) (hx : covered x.root) (v : Value) :
    (∃ m' μ', m.store storageKey (st.variableOf x) v = .ok m' ∧ μ.store key x v = .ok μ' ∧
        st.Mirrors key covered m' μ') ∨
      ∃ f : Fault, m.store storageKey (st.variableOf x) v = .error (f.renamed st) ∧
        μ.store key x v = .error f := by
  induction x generalizing v with
  | slot s => exact .inl ⟨_, _, rfl, rfl, h.insert hst hx v⟩
  | component base axis origin ih =>
    have hload : m.load storageKey (st.variableOf base) = μ.load key base := h.load hx
    rw [Naming.variableOf, Memory.store, Memory.store, hload]
    cases v.float? with
    | none => exact .inr ⟨_, rfl, rfl⟩
    | some number =>
      cases μ.load key base with
      | vector3 w | rotation w => exact ih hx _
      | bool b | float f | null => exact .inr ⟨_, rfl, rfl⟩

end Memories

/-! ### Values -/

/-- All variables of an expression have cells of a kind. -/
def Mentioned (covered : Slot → Prop) (xs : List Variable) : Prop := ∀ x ∈ xs, covered x.root

theorem Mentioned.mono {xs : List Variable} {kind : Slot → Prop} (h : Mentioned covered xs)
    (hkind : ∀ s, covered s → kind s) : Mentioned kind xs := fun x hx ↦ hkind _ (h x hx)

theorem mentioned_append {xs ys : List Variable} :
    Mentioned covered (xs ++ ys) ↔ Mentioned covered xs ∧ Mentioned covered ys :=
  forall_mem_append

section Values

variable {m : Memory String} {μ : Memory κ} (h : st.Mirrors key covered m μ)

include h

theorem Mirrors.eval (he : Mentioned covered (e.visit mentionVisitor)) :
    (e.substitute st.substitution).eval storageKey m =
      (e.eval key μ).mapError (Fault.renamed st) :=
  eval_mapError (fun _ ↦ rfl) fun x hx ↦ h.load (he x (e.reads_subset hx))

theorem Mirrors.evalAll (hes : Mentioned covered (visitAll mentionVisitor es)) :
    evalAll storageKey m (substituteAll st.substitution es) =
      (evalAll key μ es).mapError (Fault.renamed st) :=
  evalAll_mapError (fun _ ↦ rfl) fun x hx ↦ h.load (hes x (allReads_subset es hx))

end Values

/-! ### Computations of the machine -/

/-- The machines hold the same in corresponding cells and have run as many statements. -/
structure Reflects (st : Naming) (key : Slot → κ) (covered : Slot → Prop) (m : Machine String)
    (μ : Machine κ) : Prop where
  memory : st.Mirrors key covered m.memory μ.memory
  steps : m.steps = μ.steps

/-- Started in corresponding states, the two computations have the same outcome, up to names in a
fault, and end in corresponding states. -/
def TracksBy (st : Naming) (key : Slot → κ) (covered : Slot → Prop) (x : Exec String α)
    (y : Exec κ α) : Prop :=
  ∀ m μ, st.Reflects key covered m μ →
    (x.run m).1 = (y.run μ).1.mapError (Fault.renamed st) ∧
      st.Reflects key covered (x.run m).2 (y.run μ).2

/-- The second computation has a cell for each variable. -/
def Tracks (st : Naming) (covered : Slot → Prop) (x : Exec String α) (y : Exec Slot α) : Prop :=
  st.TracksBy id covered x y

section Computations

variable {x : Exec String α} {y : Exec κ α}

theorem TracksBy.pure (a : α) : st.TracksBy key covered (pure a) (pure a) := fun _ _ h ↦ ⟨rfl, h⟩

theorem TracksBy.throw (f : Fault) :
    st.TracksBy key covered (throw (f.renamed st) : Exec String α) (throw f) :=
  fun _ _ h ↦ ⟨rfl, h⟩

theorem TracksBy.bind {f : α → Exec String β} {g : α → Exec κ β} (hx : st.TracksBy key covered x y)
    (hf : ∀ a, st.TracksBy key covered (f a) (g a)) : st.TracksBy key covered (x >>= f) (y >>= g) := by
  intro m μ h
  obtain ⟨houtcome, hstate⟩ := hx m μ h
  rcases hxm : x.run m with ⟨a, m'⟩
  rcases hyμ : y.run μ with ⟨b, μ'⟩
  rw [hxm, hyμ] at houtcome hstate
  obtain rfl : a = b.mapError (Fault.renamed st) := houtcome
  cases b with
  | error e =>
    rw [run_bind_of_error hxm, run_bind_of_error hyμ]
    exact ⟨rfl, hstate⟩
  | ok a =>
    rw [run_bind_of_ok hxm, run_bind_of_ok hyμ]
    exact hf a m' μ' hstate

theorem TracksBy.ite {c : Prop} [Decidable c] {x' : Exec String α} {y' : Exec κ α}
    (h : st.TracksBy key covered x y) (h' : st.TracksBy key covered x' y') :
    st.TracksBy key covered (if c then x else x') (if c then y else y') := by
  split
  · exact h
  · exact h'

/-- What is computed from the cells without changing them. -/
theorem tracks_get {f : Machine String → Except Fault α} {g : Machine κ → Except Fault α}
    (h : ∀ m μ, st.Reflects key covered m μ → f m = (g μ).mapError (Fault.renamed st)) :
    st.TracksBy key covered (do liftM (f (← get))) (do liftM (g (← get))) := by
  intro m μ hm
  exact ⟨h m μ hm, hm⟩

theorem tracks_eval (he : Mentioned covered (e.visit mentionVisitor)) :
    st.TracksBy key covered (Exec.eval storageKey (e.substitute st.substitution))
      (Exec.eval key e) :=
  tracks_get fun _ _ h ↦ h.memory.eval he

theorem tracks_evalAll (hes : Mentioned covered (visitAll mentionVisitor es)) :
    st.TracksBy key covered
      (do evalAll storageKey (← get).memory (substituteAll st.substitution es))
      (do evalAll key (← get).memory es) :=
  tracks_get fun _ _ h ↦ h.memory.evalAll hes

theorem tracks_load {x : Variable} (hx : covered x.root) :
    st.TracksBy key covered (Exec.load storageKey (st.variableOf x)) (Exec.load key x) :=
  fun _ _ h ↦ ⟨congrArg Except.ok (h.memory.load hx), h⟩

theorem tracks_tick (limit : Nat) : st.TracksBy key covered (Exec.tick limit) (Exec.tick limit) := by
  intro m μ h
  have hrun {κ : Type} (m : Machine κ) : (Exec.tick limit).run m =
      (if limit < m.steps + 1 then .error (.internal .stepLimit) else .ok (),
        { m with steps := m.steps + 1 }) := by
    have hmodify : (modify fun m ↦ { m with steps := m.steps + 1 } : Exec κ Unit).run m =
        (.ok (), { m with steps := m.steps + 1 }) := rfl
    rw [Exec.tick, run_bind_of_ok hmodify, run_get_bind]
    split <;> rfl
  rw [hrun, hrun]
  refine ⟨?_, h.memory, congrArg (· + 1) h.steps⟩
  rw [h.steps]
  split <;> rfl

/-- Parameters with their arguments, under the names. -/
def pairsOf (st : Naming) (pairs : List (Variable × Expr)) : List (Variable × Expr) :=
  pairs.map fun pair ↦ (st.variableOf pair.1, pair.2.substitute st.substitution)

theorem zip_pairsOf (st : Naming) (ps : List Variable) (es : List Expr) :
    (ps.map st.variableOf).zip (substituteAll st.substitution es) = st.pairsOf (ps.zip es) := by
  induction ps generalizing es with
  | nil => rfl
  | cons p ps ih =>
    cases es with
    | nil => rfl
    | cons e es => exact congrArg (List.cons _) (ih es)

section Separates

variable (hst : st.Separates key covered)

include hst

theorem tracks_store {x : Variable} (hx : covered x.root) (v : Value) :
    st.TracksBy key covered (Exec.store storageKey (st.variableOf x) v) (Exec.store key x v) := by
  intro m μ h
  have hrun {κ : Type} [DecidableEq κ] (key : Slot → κ) (x : Variable) (m : Machine κ) :
      (Exec.store key x v).run m = match m.memory.store key x v with
        | .ok memory => (.ok (), { m with memory := memory })
        | .error f => (.error f, m) := by
    rw [Exec.store, run_get_bind]
    cases m.memory.store key x v <;> rfl
  rw [hrun, hrun]
  rcases h.memory.store hst hx v with ⟨m', μ', hm', hμ', hmirrors⟩ | ⟨f, hm', hμ'⟩
  · rw [hm', hμ']
    exact ⟨rfl, hmirrors, h.steps⟩
  · rw [hm', hμ']
    exact ⟨rfl, h⟩

theorem tracks_assign {x : Variable} (hx : covered x.root)
    (he : Mentioned covered (e.visit mentionVisitor)) :
    st.TracksBy key covered (Exec.assign storageKey (st.variableOf x) (e.substitute st.substitution))
      (Exec.assign key x e) :=
  (tracks_eval he).bind fun v ↦ tracks_store hst hx v

/-! ### Calls -/

/-- The variables of parameters and arguments. -/
def PairsMentioned (covered : Slot → Prop) (pairs : List (Variable × Expr)) : Prop :=
  ∀ pair ∈ pairs, covered pair.1.root ∧ Mentioned covered (pair.2.visit mentionVisitor)

variable {pairs : List (Variable × Expr)}

theorem tracks_pass (hpairs : PairsMentioned covered pairs) :
    st.TracksBy key covered (Exec.pass storageKey (st.pairsOf pairs)) (Exec.pass key pairs) := by
  induction pairs with
  | nil => exact .pure ()
  | cons pair rest ih =>
    obtain ⟨⟨hp, ha⟩, hrest⟩ := forall_mem_cons.1 hpairs
    obtain ⟨p, a⟩ := pair
    show st.TracksBy key covered (Exec.pass storageKey
      ((st.variableOf p, a.substitute st.substitution) :: st.pairsOf rest)) _
    rw [Exec.pass, st.modifiers_variableOf]
    exact .ite (ih hrest) ((tracks_assign hst hp ha).bind fun _ ↦ ih hrest)

theorem tracks_passBack (hpairs : PairsMentioned covered pairs) :
    st.TracksBy key covered (Exec.passBack storageKey (st.pairsOf pairs))
      (Exec.passBack key pairs) := by
  induction pairs with
  | nil => exact .pure ()
  | cons pair rest ih =>
    obtain ⟨⟨hp, ha⟩, hrest⟩ := forall_mem_cons.1 hpairs
    obtain ⟨p, a⟩ := pair
    show st.TracksBy key covered (Exec.passBack storageKey
      ((st.variableOf p, a.substitute st.substitution) :: st.pairsOf rest)) _
    rw [Exec.passBack, st.modifiers_variableOf, read?_substitute]
    refine .ite ?_ (ih hrest)
    rcases htarget : a.read? with - | target
    · exact (TracksBy.throw (.internal .runReference)).bind fun _ ↦ ih hrest
    · have htarget' : covered target.root := ha target (mem_mentions_of_read? htarget)
      exact (tracks_load hp).bind fun v ↦ (tracks_store hst htarget' v).bind fun _ ↦ ih hrest

variable {invoke : Routine → Exec String Unit} {invoke' : Routine → Exec κ Unit}
  {arguments : List Expr} {result : Option Variable}

theorem tracks_callRoutine (hinvoke : st.TracksBy key covered (invoke (st.routineOf r)) (invoke' r))
    (hr : Mentioned covered r.formals)
    (harguments : Mentioned covered (visitAll mentionVisitor arguments))
    (hresult : Mentioned covered result.toList) : st.TracksBy key covered
      (Exec.callRoutine storageKey invoke (st.routineOf r)
        (substituteAll st.substitution arguments) (result.map st.variableOf))
      (Exec.callRoutine key invoke' r arguments result) := by
  obtain ⟨hparameters, hslot⟩ := mentioned_append.1 hr
  have hpairs : PairsMentioned covered (r.parameters.zip arguments) := fun pair hpair ↦
    ⟨hparameters _ (of_mem_zip hpair).1, fun x hx ↦
      harguments x (mem_visitAll (of_mem_zip hpair).2 hx)⟩
  unfold Exec.callRoutine
  rw [show (st.routineOf r).parameters = r.parameters.map st.variableOf from rfl, zip_pairsOf]
  refine (tracks_pass hst hpairs).bind fun _ ↦ hinvoke.bind fun _ ↦
    (tracks_passBack hst hpairs).bind fun _ ↦ ?_
  rw [show (st.routineOf r).returnSlot = r.returnSlot.map st.variableOf from rfl]
  rcases result with - | x
  · exact .pure ()
  · rcases hslot' : r.returnSlot with - | slot
    · exact .pure ()
    · rw [hslot'] at hslot
      exact (tracks_load (hslot slot (.head _))).bind fun v ↦
        tracks_store hst (hresult x (.head _)) v

theorem tracks_callBuiltin (b : Builtin)
    (harguments : Mentioned covered (visitAll mentionVisitor arguments))
    (hresult : Mentioned covered result.toList) : st.TracksBy key covered
      (Exec.callBuiltin storageKey b (substituteAll st.substitution arguments)
        (result.map st.variableOf))
      (Exec.callBuiltin key b arguments result) := by
  unfold Exec.callBuiltin
  rcases b.evaluator with - | evaluator
  · exact .throw (.internal (.noEvaluator b.name))
  · refine (tracks_evalAll harguments).bind fun values ↦ ?_
    rcases evaluator.compute? values with - | value
    · exact .throw (.internal (.evaluatorFailed b.name))
    · rcases result with - | x
      · exact .pure ()
      · exact tracks_store hst (hresult x (.head _)) value

/-- A routine can be called: its runs correspond, and its signature is mentioned. -/
def Callable (st : Naming) (key : Slot → κ) (covered : Slot → Prop) (invoke : Routine → Exec String Unit)
    (invoke' : Routine → Exec κ Unit) : Prop :=
  ∀ r, Mentioned covered r.formals → st.TracksBy key covered (invoke (st.routineOf r)) (invoke' r)

variable {callee : Callee} (hinvoke : st.Callable key covered invoke invoke')

include hinvoke

theorem tracks_call (hcallee : Mentioned covered callee.formals)
    (harguments : Mentioned covered (visitAll mentionVisitor arguments))
    (hresult : Mentioned covered result.toList) :
    st.TracksBy key covered (Exec.call storageKey invoke (st.substitution.callee callee)
        (substituteAll st.substitution arguments) (result.map st.variableOf))
      (Exec.call key invoke' callee arguments result) := by
  cases callee with
  | routine r => exact tracks_callRoutine hst (hinvoke r hcallee) hcallee harguments hresult
  | builtin b type => exact tracks_callBuiltin hst b harguments hresult

/-! ### Statements -/

theorem tracks_effect (he : Mentioned covered (e.visit mentionVisitor)) :
    st.TracksBy key covered (Exec.effect storageKey invoke (e.substitute st.substitution))
      (Exec.effect key invoke' e) := by
  have heval : st.TracksBy key covered
      (do let _ ← Exec.eval storageKey (e.substitute st.substitution))
      (do let _ ← Exec.eval key e) := (tracks_eval he).bind fun _ ↦ .pure ()
  cases e
  case step n x yieldsNew down =>
    have hx : covered x.root := he x (.head _)
    refine (tracks_load hx).bind fun v ↦ ?_
    rcases BinaryOp.compute? (if down then .subtract else .add) v (.float 1) with - | value
    · exact .throw (.internal (.cannotStep x))
    · exact tracks_store hst hx value
  case assign n x value =>
    obtain ⟨hx, hvalue⟩ := mentioned_append.1 he
    exact tracks_assign hst (hx x (.head _)) hvalue
  case call n callee arguments =>
    obtain ⟨hcallee, harguments⟩ := mentioned_append.1 he
    have hnone : Mentioned covered (none : Option Variable).toList := fun _ h ↦
      absurd h not_mem_nil
    show st.TracksBy key covered (Exec.call storageKey invoke (st.substitution.callee callee)
      (substituteAll st.substitution arguments) ((none : Option Variable).map st.variableOf)) _
    exact tracks_call hst hinvoke hcallee harguments hnone
  all_goals exact heval

theorem tracks_stmt (hr : Mentioned covered r.formals) {s : Stmt} (hs : Mentioned covered s.mentions) :
    st.TracksBy key covered
      (Exec.stmt storageKey invoke (st.routineOf r) (s.substitute st.substitution))
      (Exec.stmt key invoke' r s) := by
  rw [Stmt.mentions, Stmt.visit.eq_def] at hs
  obtain ⟨hbody, hlast⟩ := mentioned_append.1 hs
  obtain ⟨hown, hbelow⟩ := mentioned_append.1 hbody
  cases s
  case define span nameSpan x value | assign span x value =>
    exact (tracks_assign hst (hown x (.head _)) hbelow).bind fun _ ↦ .pure _
  case expression span e => exact (tracks_effect hst hinvoke hbelow).bind fun _ ↦ .pure _
  case call span callee arguments result =>
    have hresult : Mentioned covered result.toList := by
      rcases result with - | x
      · exact fun _ h ↦ absurd h not_mem_nil
      · exact hlast
    exact (tracks_call hst hinvoke hown hbelow hresult).bind fun _ ↦ .pure _
  case goto => exact .pure _
  case gotoIf span target condition sense => exact (tracks_eval hbelow).bind fun _ ↦ .pure _
  case rollback | ret => exact .pure _
  case gotoOn => exact .throw (.internal .uninterpretedEvent)
  case retValue span value =>
    have hslot := (mentioned_append.1 hr).2
    have hnamed : (st.routineOf r).returnSlot = r.returnSlot.map st.variableOf := rfl
    simp only [Exec.stmt, hnamed]
    rcases hreturn : r.returnSlot with - | slot
    · exact .pure _
    · rw [hreturn] at hslot
      exact (tracks_assign hst (hslot slot (.head _)) hbelow).bind fun _ ↦ .pure _
  case declare | label | hint | nop => exact .pure _
  all_goals exact .throw (.internal (.notFlat _))

variable {code rest : List Stmt}

theorem tracks_loop (hr : Mentioned covered r.formals) (hcode : ∀ s ∈ code, Mentioned covered s.mentions)
    (limit fuel : Nat) (hrest : rest ⊆ code) :
    st.TracksBy key covered (Exec.loop storageKey limit invoke (st.routineOf r)
        (code.map (Stmt.substitute st.substitution)) fuel
        (rest.map (Stmt.substitute st.substitution)))
      (Exec.loop key limit invoke' r code fuel rest) := by
  induction fuel generalizing rest with
  | zero =>
    cases rest with
    | nil => exact .pure ()
    | cons s rest => exact .throw (.internal .stepLimit)
  | succ fuel ih =>
    cases rest with
    | nil => exact .pure ()
    | cons s rest =>
      obtain ⟨hs, hrest⟩ := cons_subset.1 hrest
      refine (tracks_tick limit).bind fun _ ↦
        (tracks_stmt hst hinvoke hr (hcode s hs)).bind fun c ↦ ?_
      cases c with
      | next => exact ih hrest
      | stop => exact .pure ()
      | jump target =>
        simp only [st.from?_map_named]
        rcases hthere : Stmt.from? target code with - | there
        · exact .throw (.internal (.noLabel target r.name))
        · exact ih (Stmt.from?_suffix hthere).subset

end Separates

end Computations

/-! ### Programs -/

section Programs

variable {bodies : Bodies} {q : Routine} {x y : Variable} (hst : st.Sound)

include hst

theorem variableOf_inj (hx : st.Covers x.root) (hy : st.Covers y.root)
    (h : st.variableOf x = st.variableOf y) : x = y := by
  induction x generalizing y with
  | slot s =>
    cases y with
    | slot s' => exact congrArg _ (image_inj hst hx hy (Variable.slot.inj h))
    | component => cases h
  | component base axis origin ih =>
    cases y with
    | slot s' => cases h
    | component base' axis' origin' =>
      obtain ⟨hbase, haxis, horigin⟩ := Variable.component.inj h
      rw [ih (y := base') hx hy hbase, haxis, horigin]

theorem map_variableOf_inj {xs ys : List Variable} (hxs : Mentioned st.Covers xs)
    (hys : Mentioned st.Covers ys)
    (h : xs.map st.variableOf = ys.map st.variableOf) : xs = ys := by
  induction xs generalizing ys with
  | nil => exact (map_eq_nil_iff.1 h.symm).symm
  | cons x xs ih =>
    obtain ⟨y, ys, rfl, hxy, hrest⟩ := map_eq_cons_iff.1 h.symm
    obtain ⟨hx, hxs⟩ := forall_mem_cons.1 hxs
    obtain ⟨hy, hys⟩ := forall_mem_cons.1 hys
    rw [variableOf_inj hst hx hy hxy.symm, ih hxs hys hrest.symm]

/-- Routines whose signatures have been given names stay apart. -/
theorem routineOf_inj (hr : Mentioned st.Covers r.formals) (hq : Mentioned st.Covers q.formals)
    (h : st.routineOf r = st.routineOf q) : r = q := by
  obtain ⟨hrp, hrs⟩ := mentioned_append.1 hr
  obtain ⟨hqp, hqs⟩ := mentioned_append.1 hq
  have hparameters : r.parameters = q.parameters :=
    map_variableOf_inj hst hrp hqp (congrArg Routine.parameters h)
  have hslots : r.returnSlot.map st.variableOf = q.returnSlot.map st.variableOf :=
    congrArg Routine.returnSlot h
  have hslot : r.returnSlot.toList = q.returnSlot.toList := by
    refine map_variableOf_inj hst hrs hqs ?_
    rw [← Option.toList_map, ← Option.toList_map, hslots]
  obtain ⟨id, name, parameters, returnType, modifiers, returnSlot⟩ := r
  obtain ⟨id', name', parameters', returnType', modifiers', returnSlot'⟩ := q
  obtain ⟨rfl, rfl, -, rfl, rfl, -⟩ := Routine.mk.inj h
  obtain rfl : parameters = parameters' := hparameters
  obtain rfl : returnSlot = returnSlot' := by
    rcases returnSlot with - | a <;> rcases returnSlot' with - | b <;> simp_all
  rfl

variable (bodies) in
/-- The bodies under the names have the code of the bodies under the names. -/
theorem get?_named (hkeys : ∀ q ∈ bodies.keys, Mentioned st.Covers q.formals)
    (hr : Mentioned st.Covers r.formals) :
    (⟨bodies.entries.map fun (r, body) ↦ (st.routineOf r, body.substitute st.substitution)⟩ :
      Bodies).get? (st.routineOf r) = (bodies.get? r).map (Stmt.substitute st.substitution) :=
  Table.find?_map fun entry hentry heq ↦
    routineOf_inj hst (hkeys entry.1 (mem_map_of_mem hentry)) hr heq

end Programs

end Naming

namespace Bodies

/-- The slot is the cell of a variable that the program mentions. -/
def HasCell (bodies : Bodies) (s : Slot) : Prop := ∃ x ∈ Naming.mentions bodies, x.root = s

variable {bodies : Bodies}

theorem mentioned_formals (h : r ∈ bodies.keys) : Naming.Mentioned bodies.HasCell r.formals := by
  intro x hx
  obtain ⟨entry, hentry, rfl⟩ := mem_map.1 h
  exact ⟨x, mem_flatMap.2 ⟨entry, hentry, mem_append_left _ hx⟩, rfl⟩

theorem mentioned_mentions {body s : Stmt} (h : (r, body) ∈ bodies.entries) (hs : s ∈ body.flatten)
    : Naming.Mentioned bodies.HasCell s.mentions := by
  intro x hx
  exact ⟨x, mem_flatMap.2 ⟨_, h, mem_append_right _
    (Stmt.visit_subset mentionVisitor hs hx)⟩, rfl⟩

/-- The slot is global, or the program mentions it. -/
def Mentions (bodies : Bodies) (s : Slot) : Prop := s.role = .global ∨ bodies.HasCell s

theorem Mentions.covers (h : bodies.Mentions s) : (Naming.ofBodies bodies).Covers s := by
  rcases h with hglobal | ⟨x, hx, rfl⟩
  · exact .inl hglobal
  · exact Naming.covers_ofBodies hx

/-- Runs of the program under its names, down to any depth. -/
theorem callable_invoke {κ : Type} [DecidableEq κ] {key : Slot → κ} {covered : Slot → Prop}
    (hst : (Naming.ofBodies bodies).Separates key covered) (hcells : ∀ s, bodies.HasCell s → covered s)
    (hcovered : ∀ s, covered s → bodies.Mentions s) (limit depth : Nat) :
    (Naming.ofBodies bodies).Callable key covered
      (Exec.invoke Memory.storageKey limit bodies.named.bodies depth)
      (Exec.invoke key limit bodies depth) := by
  induction depth with
  | zero => exact fun _ _ ↦ .throw (.internal .stepLimit)
  | succ depth ih =>
    intro r hr
    have hget : bodies.named.bodies.get? ((Naming.ofBodies bodies).routineOf r) =
        (bodies.get? r).map (Stmt.substitute (Naming.ofBodies bodies).substitution) :=
      Naming.get?_named bodies (Naming.sound_ofBodies bodies)
        (fun q hq ↦ (mentioned_formals hq).mono fun _ h ↦ Mentions.covers (.inr h))
        (hr.mono fun s hs ↦ (hcovered s hs).covers)
    rw [Exec.invoke, Exec.invoke, hget]
    rcases hbody : bodies.get? r with - | body
    · exact .throw (.missingCallee r.name)
    · have hcode (s : Stmt) (hs : s ∈ body.flatten) : Naming.Mentioned covered s.mentions :=
        (mentioned_mentions (Table.mem_of_get? hbody) hs).mono hcells
      simp only [Option.map_some, Stmt.flatten_substitute_naming]
      exact Naming.tracks_loop hst ih hr hcode limit (limit + 1) (.refl _)

end Bodies

/-! ### What is mentioned under the names -/

namespace Naming

variable {bodies : Bodies}

theorem formals_routineOf (st : Naming) (r : Routine) :
    (st.routineOf r).formals = r.formals.map st.variableOf := by
  rw [Routine.formals, Routine.formals, map_append, ← Option.toList_map]
  rfl

theorem formals_callee (st : Naming) (callee : Callee) :
    (st.substitution.callee callee).formals = callee.formals.map st.variableOf := by
  cases callee with
  | routine r => exact st.formals_routineOf r
  | builtin b type => rfl

theorem relates_mentionVisitor (st : Naming) :
    Visitor.Relates (fun xs ys ↦ xs = ys.map st.variableOf) st.substitution mentionVisitor
      mentionVisitor := by
  refine st.relates (fun e ↦ ?_) (fun s ↦ ?_) fun s ↦ ?_
  · cases e
    case call n callee arguments => exact st.formals_callee callee
    all_goals rfl
  · cases s
    case call span callee arguments result => exact st.formals_callee callee
    all_goals rfl
  · cases s
    case call span callee arguments result => cases result <;> rfl
    all_goals rfl

theorem mentions_named (bodies : Bodies) :
    mentions bodies.named.bodies = (mentions bodies).map (ofBodies bodies).variableOf := by
  show (bodies.entries.map _).flatMap _ = (bodies.entries.flatMap _).map _
  rw [flatMap_map, map_flatMap]
  refine flatMap_congr fun entry _ ↦ ?_
  rw [map_append]
  exact congr (congrArg _ (formals_routineOf _ _)) ((relates_mentionVisitor _).visitStmt _)

/-- The cells under the names are those of the program, each under its name. -/
theorem exists_of_hasCell_named (h : bodies.named.bodies.HasCell s) :
    ∃ c, bodies.HasCell c ∧ s = (ofBodies bodies).image c := by
  obtain ⟨x, hx, rfl⟩ := h
  rw [mentions_named] at hx
  obtain ⟨y, hy, rfl⟩ := mem_map.1 hx
  exact ⟨y.root, ⟨y, hy, rfl⟩, ((ofBodies bodies).moves y).2⟩

end Naming

namespace Bodies

variable {bodies : Bodies}

/-- Names are as good as cells: one for each variable, and one for all globals of one name. -/
theorem separates_home (hlocal : ∀ s, bodies.HasCell s → s.role ≠ .global → Unmarked s.name) :
    (Naming.ofBodies bodies).Separates Slot.home bodies.Mentions := by
  have hunmarked {s : Slot} (hs : bodies.Mentions s) (hrole : s.role ≠ .global) : Unmarked s.name :=
    hlocal s (hs.resolve_left hrole) hrole
  exact fun s s' hs hs' ↦ Naming.storageKey_image_inj (Naming.sound_ofBodies bodies) hs.covers
    hs'.covers (hunmarked hs) (hunmarked hs')

theorem separates (hlocal : ∀ s, bodies.HasCell s → s.role ≠ .global → Unmarked s.name)
    (hglobal : ∀ s s', bodies.HasCell s → bodies.HasCell s' → s.role = .global →
      s'.role = .global → Memory.storageKey s = Memory.storageKey s' → s = s') :
    (Naming.ofBodies bodies).Separates id bodies.HasCell := by
  intro s s' hs hs'
  refine (separates_home hlocal s s' (.inr hs) (.inr hs')).trans ⟨fun hhome ↦ ?_, congrArg _⟩
  rcases Slot.home_eq_home hhome with heq | ⟨hrole, hrole'⟩
  · exact heq
  · rw [Slot.home, Slot.home, if_pos hrole, if_pos hrole', Sum.inl.injEq] at hhome
    exact hglobal s s' hs hs' hrole hrole' hhome

/-- **Names stand for symbols.** Let no variable but a global have a name that is marked like the
storage of a global, and let different globals have different storage names. Once the program has
been given its names, different variables anywhere in it have different storage names, and each of its
routines runs, with cells found by storage name, as it did before with a cell for each variable: after
any number of steps both have stopped with the same fault, up to the names in it, or neither has, and
corresponding cells hold the same. -/
theorem named_runs_alike (bodies : Bodies)
    (hlocal : ∀ s, bodies.HasCell s → s.role ≠ .global → Unmarked s.name)
    (hglobal : ∀ s s', bodies.HasCell s → bodies.HasCell s' → s.role = .global →
      s'.role = .global → Memory.storageKey s = Memory.storageKey s' → s = s') :
    (∀ s s', bodies.named.bodies.HasCell s → bodies.named.bodies.HasCell s' →
        Memory.storageKey s = Memory.storageKey s' → s = s') ∧
      bodies.named.bodies.keys = bodies.keys.map (Naming.ofBodies bodies).routineOf ∧
      ∀ r ∈ bodies.keys, ∀ limit depth, (Naming.ofBodies bodies).Tracks bodies.HasCell
          (Exec.invoke Memory.storageKey limit bodies.named.bodies depth
            ((Naming.ofBodies bodies).routineOf r))
          (Exec.invoke id limit bodies depth r) := by
  have hst := separates hlocal hglobal
  refine ⟨fun s s' hs hs' hkey ↦ ?_, ?_, fun r hr limit depth ↦ ?_⟩
  · obtain ⟨c, hc, rfl⟩ := Naming.exists_of_hasCell_named hs
    obtain ⟨c', hc', rfl⟩ := Naming.exists_of_hasCell_named hs'
    exact congrArg _ ((hst c c' hc hc').1 hkey)
  · show (bodies.entries.map _).map _ = (bodies.entries.map _).map _
    rw [map_map, map_map]
    rfl
  · exact callable_invoke hst (fun _ h ↦ h) (fun _ h ↦ .inr h) limit depth r (mentioned_formals hr)

/-- The flags of a program in which three variables could be given one name. -/
def twinFlag (id : Nat) (name : String) : Slot := ⟨.declared id, name, .bool, .scoped, {}⟩

def twinEntry : Routine := .declare 0 "main" [] .void {}

def twinCallee : Routine := .declare 1 "f" [] .void {}

/-- `x = true; x_1 = true; f()` with a variable of its own for `x` in `f() { x = false }`. -/
def twins : Bodies :=
  let set (s : Slot) (b : Bool) : Stmt :=
    .assign default (.slot s) (Build.literal (.bool b) default)
  ⟨[(twinEntry, .block default [set (twinFlag 0 "x") true, set (twinFlag 1 "x_1") true,
      .call default (.routine twinCallee) [] none]),
    (twinCallee, .block default [set (twinFlag 2 "x") false])]⟩

theorem mem_of_hasCell_twins (h : twins.HasCell s) :
    s ∈ [twinFlag 0 "x", twinFlag 1 "x_1", twinFlag 2 "x"] := by
  obtain ⟨x, hx, rfl⟩ := h
  have hall : (Naming.mentions twins).map Variable.root =
      [twinFlag 0 "x", twinFlag 1 "x_1", twinFlag 2 "x"] := by decide +kernel
  exact hall ▸ mem_map_of_mem hx

/-- The variable of the callee has neither of the names that the entry uses, and keeps its value. -/
theorem named_runs_alike_twins : (Naming.ofBodies twins).taken = ["x", "x_1", "x_2"] ∧
      ((Exec.invoke Memory.storageKey 10 twins.named.bodies 2
          ((Naming.ofBodies twins).routineOf twinEntry)).run {}).2.memory.get? "x_2" =
        ((Exec.invoke id 10 twins 2 twinEntry).run {}).2.memory.get? (twinFlag 2 "x") := by
  refine ⟨by decide +kernel, ?_⟩
  have hroles : ∀ s ∈ [twinFlag 0 "x", twinFlag 1 "x_1", twinFlag 2 "x"],
      s.role ≠ .global ∧ Unmarked s.name := by decide +kernel
  obtain ⟨-, -, htracks⟩ := named_runs_alike twins
    (fun s hs _ ↦ (hroles s (mem_of_hasCell_twins hs)).2)
    (fun s s' hs _ hrole ↦ absurd hrole (hroles s (mem_of_hasCell_twins hs)).1)
  have hentry : twinEntry ∈ twins.keys := by decide +kernel
  have hcell : twins.HasCell (twinFlag 2 "x") := ⟨.slot (twinFlag 2 "x"), by decide +kernel, rfl⟩
  have hcells := (htracks twinEntry hentry 10 2 {} {} ⟨fun _ _ ↦ rfl, rfl⟩).2.memory _ hcell
  have hkey : Memory.storageKey ((Naming.ofBodies twins).image (twinFlag 2 "x")) = "x_2" := by
    decide +kernel
  rwa [hkey] at hcells

end Bodies

end Wirescript
