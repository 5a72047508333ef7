import Wirescript.Proofs.Handles

/-!
# Passing arguments

Parameters are cells, and a call writes them one after another: an argument is evaluated when the
parameters before it have been written. The machine does so (`Exec.pass`), and the blocks that are
emitted ahead of a call do so too, since each of them pulls its value when execution gets to it
(`Emit.exists_setters`). So the arguments are passed at once exactly as far as no argument reads a
parameter that was written before it (`Routine.passes_at_once`). A routine that calls itself with its
own parameters in another order does not get them in that order (`Routine.passes_in_turn`).
-/

namespace Wirescript

open List

variable {κ : Type} [DecidableEq κ] {key : Slot → κ} {m m' : Memory κ}
  {entries : List (Variable × Expr)} {s s' : Emitter}

/-- The second argument does not read the parameter that the first one is written to, and it is
written to another cell. -/
def Undisturbed (key : Slot → κ) (first second : Variable × Expr) : Prop :=
  first.1.modifiers.out = false → second.1.modifiers.out = false →
    key second.1.root ≠ key first.1.root ∧ ∀ x ∈ second.2.reads, key x.root ≠ key first.1.root

/-- Every parameter that is no output holds what its argument was before all of them were written,
and every other cell is as it was. -/
structure SetAtOnce (key : Slot → κ) (entries : List (Variable × Expr)) (m m' : Memory κ) :
    Prop where
  set (p : Variable) (a : Expr) (v : Value) (h : (p, a) ∈ entries) (hp : p.modifiers.out = false)
    (hv : a.eval key m = .ok v) : m'.get? (key p.root) = some v
  same (k : κ) (hk : ∀ entry ∈ entries, entry.1.modifiers.out = false → key entry.1.root ≠ k) :
    m'.get? k = m.get? k

/-! ### The machine -/

theorem exists_setAtOnce (hcells : ∀ entry ∈ entries, ∃ slot, entry.1 = .slot slot)
    (hapart : entries.Pairwise (Undisturbed key))
    (hvalues : ∀ entry ∈ entries, entry.1.modifiers.out = false → ∃ v, entry.2.eval key m = .ok v) :
    ∃ m', Passes key entries m m' ∧ SetAtOnce key entries m m' := by
  induction entries generalizing m with
  | nil => exact ⟨m, rfl, fun _ _ _ h ↦ absurd h not_mem_nil, fun _ _ ↦ rfl⟩
  | cons entry rest ih =>
    obtain ⟨p, a⟩ := entry
    obtain ⟨⟨slot, rfl⟩, hslots⟩ := forall_mem_cons.1 hcells
    obtain ⟨hfirst, hapart⟩ := pairwise_cons.1 hapart
    obtain ⟨hv, hvalues⟩ := forall_mem_cons.1 hvalues
    by_cases hout : (Variable.slot slot).modifiers.out = true
    · obtain ⟨m', hpasses, hset⟩ := ih hslots hapart hvalues
      refine ⟨m', ⟨m, by rw [if_pos hout], hpasses⟩, fun q b v h hq hv ↦ ?_, fun k hk ↦ ?_⟩
      · rcases mem_cons.1 h with h | h
        · cases h
          exact absurd hout (by simp [hq])
        · exact hset.set q b v h hq hv
      · exact hset.same k (forall_mem_cons.1 hk).2
    · rw [Bool.not_eq_true] at hout
      obtain ⟨v, hv⟩ := hv hout
      -- the other arguments do not see the write
      have heval (entry : Variable × Expr) (h : entry ∈ rest) (hq : entry.1.modifiers.out = false) :
          entry.2.eval key (m.insert (key slot) v) = entry.2.eval key m :=
        Expr.eval_congr fun x hx ↦
          Table.get?_insert_of_ne m v ((hfirst entry h hout hq).2 x hx).symm
      obtain ⟨m', hpasses, hset⟩ := ih hslots hapart fun entry h hq ↦
        heval entry h hq ▸ hvalues entry h hq
      refine ⟨m', ⟨m.insert (key slot) v, ?_, hpasses⟩, fun q b w h hq hw ↦ ?_, fun k hk ↦ ?_⟩
      · rw [if_neg (by simp [hout])]
        exact ⟨v, hv, rfl⟩
      · rcases mem_cons.1 h with h | h
        · cases h
          cases hv.symm.trans hw
          rw [hset.same _ fun entry hentry hq ↦ (hfirst entry hentry hout hq).1]
          exact Table.get?_insert_self ..
        · exact hset.set q b w h hq ((heval _ h hq).trans hw)
      · obtain ⟨hslot, hk⟩ := forall_mem_cons.1 hk
        rw [hset.same k hk]
        exact Table.get?_insert_of_ne m v (hslot hout)

/-! ### The blocks -/

/-- Execution gets from one block to another along wires, where it is known what the blocks on the
way do when they are entered, and where execution leaves them. -/
inductive Reaches (wires : List Wire) (act : Terminal → Memory κ → Terminal → Memory κ → Prop) :
    Terminal → Memory κ → Terminal → Memory κ → Prop
  | refl (t : Terminal) (m : Memory κ) : Reaches wires act t m t m
  | step {t u t' t'' : Terminal} {m m₁ m' : Memory κ} (hact : act t m u m₁) (hw : ⟨u, t'⟩ ∈ wires)
      (h : Reaches wires act t' m₁ t'' m') : Reaches wires act t m t'' m'

/-- A block that sets a parameter to an argument. -/
structure Setter where
  entry : Variable × Expr
  enter : Terminal
  leave : Terminal

/-- The blocks and wires of one state are part of another one. -/
def Emitter.Within (s s' : Emitter) : Prop :=
  s.placement.blocks <+: s'.placement.blocks ∧ s.netlist.wires <+: s'.netlist.wires

theorem Emitter.Within.trans {s'' : Emitter} (h : s.Within s') (h' : s'.Within s'') : s.Within s'' :=
  ⟨h.1.trans h'.1, h.2.trans h'.2⟩

/-- The block is the one that the assignment of the argument to the parameter emits, with the blocks
that compute the argument. -/
def Setter.Emitted (w : Setter) (s : Emitter) : Prop :=
  ∃ s₁ s₂, Yields (Emit.assign w.entry.1 w.entry.2) s₁ (.basic w.enter [w.leave]) s₂ ∧ s₂.Within s

/-- When it is entered, the block stores what the argument is then. -/
def Setter.Obeys (key : Slot → κ) (act : Terminal → Memory κ → Terminal → Memory κ → Prop)
    (w : Setter) : Prop :=
  ∀ m m', Assigns key w.entry.1 w.entry.2 m m' → act w.enter m w.leave m'

namespace Emit

theorem within_of_builds {x : Emit Handle} {h : Handle} (hx : (Steady.free s).Builds x)
    (hyields : Yields x s h s') : s.Within s' := by
  obtain ⟨-, -, hbuilt⟩ := hx [] s (.refl _ s)
  rw [hyields] at hbuilt
  exact ⟨hbuilt.2.2.blocks, hbuilt.2.2.wires⟩

/-- The assignment to a cell is one block that runs. -/
theorem exists_basic_of_assign {slot : Slot} {a : Expr} {h : Handle}
    (hslot : (Variable.slot slot).isInline = false) (hyields : Yields (assign (.slot slot) a) s h s') :
    (∃ enter leave, h = .basic enter [leave]) ∧ s.Within s' := by
  refine ⟨?_, within_of_builds (meets_assign _ fun _ _ ↦ trivial) hyields⟩
  obtain ⟨_, _, -, hyields⟩ := yields_bind.1 hyields
  rw [store, if_neg (by simp [hslot]), setCell] at hyields
  split at hyields
  · cases hyields
  · obtain ⟨_, _, -, hyields⟩ := yields_bind.1 hyields
    obtain ⟨_, _, -, hyields⟩ := yields_bind.1 hyields
    obtain ⟨_, _, -, hyields⟩ := yields_bind.1 hyields
    obtain ⟨_, _, -, hyields⟩ := yields_bind.1 hyields
    obtain ⟨enter, _, -, hyields⟩ := yields_bind.1 hyields
    obtain ⟨leave, _, -, hyields⟩ := yields_bind.1 hyields
    exact ⟨enter, leave, (yields_pure.1 hyields).1⟩

/-- Where a handle is joined to a chain, wires lead from the end of the chain. -/
theorem within_of_append {c c' : Chain} {t : Terminal} {exits : List Terminal}
    (h : Yields (append c (.basic t exits)) s c' s') : c' = ⟨c.entry.or (some t), exits⟩ ∧
      s.Within s' ∧ ∀ u ∈ c.exits, ⟨u, t⟩ ∈ s'.netlist.wires := by
  cases h
  refine ⟨rfl, ⟨prefix_refl _, ?_⟩, fun u hu ↦ ?_⟩
  all_goals rw [Netlist.wires_connectAll]
  · exact prefix_append _ _
  · exact mem_append_right _ (mem_map_of_mem hu)

/-- The chain ahead of a call sets the parameters that are no outputs, in order. -/
theorem exists_setters (key : Slot → κ) {s₁ s₂ : Emitter} {c c₁ c' : Chain} {gate : Terminal}
    {exits : List Terminal}
    (hcells : ∀ entry ∈ entries, ∃ slot, entry.1 = .slot slot ∧ entry.1.isInline = false)
    (h : Yields (passArguments c entries) s c₁ s₁) (hgate : s₁.Within s₂)
    (happend : Yields (append c₁ (.basic gate exits)) s₂ c' s') :
    s.Within s' ∧ ∃ (setters : List Setter) (first : Terminal),
      setters.map Setter.entry = entries.filter (!·.1.modifiers.out) ∧
      (∀ w ∈ setters, w.Emitted s') ∧ c'.entry = c.entry.or (some first) ∧
      (∀ u ∈ c.exits, ⟨u, first⟩ ∈ s'.netlist.wires) ∧
      ∀ act m m', (∀ w ∈ setters, w.Obeys key act) → Passes key entries m m' →
        Reaches s'.netlist.wires act first m gate m' := by
  induction entries generalizing c s with
  | nil =>
    cases h
    obtain ⟨rfl, hwithin, hwires⟩ := within_of_append happend
    refine ⟨hgate.trans hwithin, [], gate, rfl, forall_mem_nil _, rfl, hwires, ?_⟩
    intro act m m' _ hpasses
    obtain rfl : m' = m := hpasses
    exact .refl gate m'
  | cons entry rest ih =>
    obtain ⟨p, a⟩ := entry
    obtain ⟨⟨slot, rfl, hinline⟩, hslots⟩ := forall_mem_cons.1 hcells
    rw [passArguments] at h
    split at h
    · next hout =>
      obtain ⟨hwithin, setters, first, hmap, hemitted, hentry, hwires, hreaches⟩ := ih hslots h
      refine ⟨hwithin, setters, first, by simp [hmap, hout], hemitted, hentry, hwires, ?_⟩
      rintro act m m' hact ⟨m₁, hskip, hpasses⟩
      rw [if_pos hout] at hskip
      exact hskip ▸ hreaches act m₁ m' hact hpasses
    · next hout =>
      obtain ⟨hd, s_a, hassign, h⟩ := yields_bind.1 h
      obtain ⟨c₂, s_b, hjoin, h⟩ := yields_bind.1 h
      obtain ⟨⟨enter, leave, rfl⟩, hgrows⟩ := exists_basic_of_assign hinline hassign
      obtain ⟨rfl, hjoined, hwires⟩ := within_of_append hjoin
      obtain ⟨hwithin, setters, next, hmap, hemitted, hentry, hleave, hreaches⟩ := ih hslots h
      have hafter := hjoined.trans hwithin
      refine ⟨hgrows.trans hafter, ⟨(.slot slot, a), enter, leave⟩ :: setters, enter,
        by simp [hmap, hout], forall_mem_cons.2 ⟨⟨s, s_a, hassign, hafter⟩, hemitted⟩, ?_,
        fun u hu ↦ hwithin.2.subset (hwires u hu), ?_⟩
      · rw [hentry, Option.or_assoc]
        rfl
      · rintro act m m' hact ⟨m₁, hset, hpasses⟩
        rw [if_neg hout] at hset
        obtain ⟨hfirst, hact⟩ := forall_mem_cons.1 hact
        exact .step (hfirst m m₁ hset) (hleave leave (mem_singleton_self _))
          (hreaches act m₁ m' hact hpasses)

end Emit

/-- A call passes its arguments at once, if no argument reads a parameter that is written before it.
So it is for the machine: the callee starts with every parameter that is no output set to what its
argument was, and with all other cells as they were. And so it is for the blocks that are emitted
ahead of the gate into the callee: one for each such parameter, and execution gets to the gate with
that memory if every one of them stores what its argument is when execution gets there. -/
theorem Routine.passes_at_once {r : Routine} {arguments : List Expr} {m : Memory κ}
    (hcells : ∀ p ∈ r.parameters, ∃ slot, p = .slot slot ∧ p.isInline = false)
    (hapart : (r.parameters.zip arguments).Pairwise (Undisturbed key))
    (hvalues : ∀ entry ∈ r.parameters.zip arguments, entry.1.modifiers.out = false →
      ∃ v, entry.2.eval key m = .ok v) :
    ∃ m', SetAtOnce key (r.parameters.zip arguments) m m' ∧
      (∀ result, ∃ after : Exec κ Unit, ∀ invoke steps,
        (Exec.callRoutine key invoke r arguments result).run ⟨m, steps⟩ =
          (invoke r >>= fun _ ↦ after).run ⟨m', steps⟩) ∧
      ∀ s c s₁ gate exits s₂ c' s',
        Yields (Emit.passArguments {} (r.parameters.zip arguments)) s c s₁ →
        Yields (Emit.gate r) s₁ (.basic gate exits) s₂ →
        Yields (Emit.append c (.basic gate exits)) s₂ c' s' →
        ∃ (setters : List Setter) (first : Terminal),
          setters.map Setter.entry = (r.parameters.zip arguments).filter (!·.1.modifiers.out) ∧
          (∀ w ∈ setters, w.Emitted s') ∧ c'.entry = some first ∧
          ∀ act, (∀ w ∈ setters, w.Obeys key act) →
            Reaches s'.netlist.wires act first m gate m' := by
  have hzip (entry) (hentry : entry ∈ r.parameters.zip arguments) :=
    hcells entry.1 (of_mem_zip hentry).1
  obtain ⟨m', hpasses, hset⟩ := exists_setAtOnce
    (fun entry hentry ↦ (hzip entry hentry).imp fun _ ↦ And.left) hapart hvalues
  refine ⟨m', hset, fun result ↦ ?_, ?_⟩
  · exact ⟨_, fun invoke steps ↦ run_bind_of_ok (a := ()) (Exec.yields_pass.2 ⟨m', hpasses, rfl⟩)⟩
  · intro s c s₁ gate exits s₂ c' s' hpass hgate happend
    have hwithin : s₁.Within s₂ := Emit.within_of_builds (Emit.meets_gate trivial) hgate
    obtain ⟨-, setters, first, hmap, hemitted, hentry, -, hreaches⟩ :=
      Emit.exists_setters key hzip hpass hwithin happend
    exact ⟨setters, first, hmap, hemitted, hentry, fun act hact ↦ hreaches act m m' hact hpasses⟩

/-! ### A routine that turns its parameters round -/

def turnedA : Slot := ⟨.declared 1, "a", .float, .parameter, {}⟩

def turnedB : Slot := ⟨.declared 2, "b", .float, .parameter, {}⟩

/-- `f(a, b)` -/
def turning : Routine := .declare 1 "f" [.slot turnedA, .slot turnedB] .void {}

/-- While `f(1, 2)` runs. -/
def amidTurn : Memory String := (Table.insert {} "a" (.float 1)).insert "b" (.float 2)

/-- `f(b, 3)`, called by `f` itself. -/
theorem Routine.passes_at_once_shifted : ∃ m', SetAtOnce Memory.storageKey (turning.parameters.zip
      [Build.read (.slot turnedB) default, Build.float 3 default]) amidTurn m' := by
  have hcells : ∀ p ∈ turning.parameters, ∃ slot, p = .slot slot ∧ p.isInline = false :=
    forall_mem_cons.2 ⟨⟨turnedA, rfl, rfl⟩, forall_mem_singleton.2 ⟨turnedB, rfl, rfl⟩⟩
  have hapart : (turning.parameters.zip [Build.read (.slot turnedB) default,
      Build.float 3 default]).Pairwise (Undisturbed Memory.storageKey) := by
    refine pairwise_pair.2 fun _ _ ↦ ⟨by decide +kernel, forall_mem_nil _⟩
  have hvalues : ∀ entry ∈ turning.parameters.zip [Build.read (.slot turnedB) default,
      Build.float 3 default], entry.1.modifiers.out = false →
      ∃ v, entry.2.eval Memory.storageKey amidTurn = .ok v :=
    forall_mem_cons.2 ⟨fun _ ↦ ⟨_, rfl⟩, forall_mem_singleton.2 fun _ ↦ ⟨_, rfl⟩⟩
  exact (Routine.passes_at_once hcells hapart hvalues).imp fun _ ↦ And.left

/-- `f(b, a)`, called by `f` itself: `b` does not get what `a` was. -/
theorem Routine.passes_in_turn :
    (Build.read (.slot turnedA) default).eval Memory.storageKey amidTurn = .ok (.float 1) ∧
      ((Exec.callRoutine Memory.storageKey (fun _ ↦ pure ()) turning
        [Build.read (.slot turnedB) default, Build.read (.slot turnedA) default] none).run
          ⟨amidTurn, 0⟩).2.memory.get? "b" = some (.float 2) :=
  ⟨rfl, by decide +kernel⟩

end Wirescript
