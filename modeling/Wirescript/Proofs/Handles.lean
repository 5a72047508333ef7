import Wirescript.Proofs.Emission
import Wirescript.Proofs.Jumps

/-!
# What emission of statements leaves open

A block that runs must be entered from somewhere. Emission of a statement wires the blocks it places
to one another, and leaves open only where execution enters the first of them; the handle says where
that is. `Emitter.Leaves` states this for the blocks placed since a state, and `Emit.Steady.Meets`
carries it through the computations that emit assignments, calls, branches and sensors.
-/

namespace Wirescript

open Wirescript.Expr
open List
open Option

variable {b : Block} {shape : BlockShape} {c : Chain} {x : Emit Handle} {s s' s₀ : Emitter}
  {f : Emitter → Emitter} {array value : Expr} {h : Handle} {arguments : List Expr}
  {ts : List Terminal} {r : Routine} {span : Span}

/-- The terminals that call a routine. -/
def Emitter.callers (s : Emitter) (r : Routine) : List Terminal := (s.calls.get? r).getD []

/-- From one state on, every block that was placed can be reached: it is one that never runs, or a
wire leads to where execution enters it, or it is still open. -/
structure Emitter.Leaves (shapes : BlockShape → Prop) (s₀ : Emitter) (opens : List Terminal)
    (s : Emitter) : Prop where
  blocks : s₀.placement.blocks <+: s.placement.blocks
  wires : s₀.netlist.wires <+: s.netlist.wires
  entries : s.entries = s₀.entries
  errors : s.diagnostics.hasErrors = s₀.diagnostics.hasErrors
  callers (r : Routine) : s₀.callers r ⊆ s.callers r
  fed (id : Nat) (b : PlacedBlock) (hid : s₀.placement.blocks.length ≤ id)
    (hb : s.placement.blocks[id]? = some b) : shapes b.shape ∨
      ∃ t, (Block.mk id b.shape).before = .ok t ∧ (t ∈ opens ∨ ∃ w ∈ s.netlist.wires, w.target = t)

namespace Emitter.Leaves

variable {shapes : BlockShape → Prop} {opens opens' : List Terminal}

theorem refl (shapes : BlockShape → Prop) (s : Emitter) : Leaves shapes s [] s where
  blocks := prefix_refl _
  wires := prefix_refl _
  entries := rfl
  errors := rfl
  callers _ := .refl _
  fed id b hid hb := by
    rw [getElem?_eq_none hid] at hb
    cases hb

variable (hl : Leaves shapes s₀ opens s)

include hl

theorem still {F : Terminal → Prop} (hs : s.Still F s') : Leaves shapes s₀ opens s' where
  blocks := hs.blocks ▸ hl.blocks
  wires := hl.wires.trans hs.wires.isPrefix
  entries := hs.entries.trans hl.entries
  errors := hs.diagnostics ▸ hl.errors
  callers r := by
    have hcallers : s'.callers r = s.callers r := by rw [Emitter.callers, Emitter.callers, hs.calls]
    rw [hcallers]
    exact hl.callers r
  fed id b hid hb := by
    rw [hs.blocks] at hb
    refine (hl.fed id b hid hb).imp_right ?_
    rintro ⟨t, ht, hopen⟩
    refine ⟨t, ht, hopen.imp_right ?_⟩
    rintro ⟨w, hw, rfl⟩
    exact ⟨w, hs.wires.isPrefix.subset hw, rfl⟩

/-- A terminal is open no longer once a wire leads there. -/
theorem connect (wires : List Wire) (hopens : ∀ t ∈ opens, t ∈ opens' ∨ ∃ w ∈ wires, w.target = t) :
    Leaves shapes s₀ opens' { s with netlist := s.netlist.connectAll wires } where
  blocks := hl.blocks
  wires := by
    rw [Netlist.wires_connectAll]
    exact hl.wires.trans (prefix_append _ _)
  entries := hl.entries
  errors := hl.errors
  callers := hl.callers
  fed id b hid hb := by
    refine (hl.fed id b hid hb).imp_right ?_
    rintro ⟨t, ht, hopen⟩
    refine ⟨t, ht, ?_⟩
    rw [Netlist.wires_connectAll]
    rcases hopen with hopen | ⟨w, hw, rfl⟩
    · refine (hopens t hopen).imp_right ?_
      rintro ⟨w, hw, rfl⟩
      exact ⟨w, mem_append_right _ hw, rfl⟩
    · exact .inr ⟨w, mem_append_left _ hw, rfl⟩

theorem mono (hopens : opens ⊆ opens') :
    Leaves shapes s₀ opens' s := hl.connect [] fun _ ht ↦ .inl (hopens ht)

/-- Another block is placed. -/
theorem placed (shape : BlockShape)
    (hshape : shapes shape ∨ ∃ t ∈ opens', (Block.mk s.placement.blocks.length shape).before = .ok
      t) (hopens : opens ⊆ opens') : Leaves shapes s₀ opens' (s.placed shape) := by
  have hwires : (s.placed shape).netlist.wires = s.netlist.wires := by
    unfold Emitter.placed
    split <;> rfl
  refine ⟨hl.blocks.trans (prefix_append _ _), hwires ▸ hl.wires, hl.entries, hl.errors,
    hl.callers, fun id b hid hb ↦ ?_⟩
  rw [hwires]
  rw [Emitter.placed, Placement.place, getElem?_append] at hb
  split at hb
  · exact (hl.mono hopens).fed id b hid hb
  · next hle =>
    obtain ⟨hlt, rfl⟩ := List.getElem?_eq_some_iff.1 hb
    obtain rfl : id = s.placement.blocks.length := by
      have hlt : id - s.placement.blocks.length < 1 := hlt
      omega
    rw [getElem_singleton]
    refine hshape.imp_right ?_
    rintro ⟨t, ht, hbefore⟩
    exact ⟨t, hbefore, .inl ht⟩

/-- A terminal that calls a routine is recorded. -/
theorem called (r : Routine) (entrance : Terminal) :
    Leaves shapes s₀ opens (s.calling r entrance) where
  blocks := hl.blocks
  wires := hl.wires
  entries := hl.entries
  errors := hl.errors
  callers r' := by
    refine List.Subset.trans (hl.callers r') ?_
    by_cases heq : r = r'
    · simp [Emitter.callers, Emitter.calling, heq]
    · simp [Emitter.callers, Emitter.calling, Table.get?_insert_of_ne _ _ heq]
  fed := hl.fed

end Emitter.Leaves

/-! ### Handles that run straight through -/

/-- Where execution enters. -/
def Handle.entry? : Handle → Option Terminal
  | .basic entry _ | .branch entry _ _ _ => some entry
  | _ => none

/-- Where execution enters a handle, and where it leaves for the next one. -/
def Handle.ends : Handle → List Terminal
  | .basic entry exits | .branch entry exits _ _ => entry :: exits
  | _ => []

def Chain.ends (c : Chain) : List Terminal := c.entry.toList ++ c.exits

theorem Handle.entry?_subset_ends (h : Handle) : h.entry?.toList ⊆ h.ends := by
  cases h <;> simp [ends, entry?]

theorem Chain.ends_toHandle (c : Chain) : c.toHandle.ends ⊆ c.ends := by
  unfold toHandle
  split
  · next entry hentry => simp [Handle.ends, ends, hentry]
  · exact nil_subset _

/-- Control runs through, and leaves somewhere if it enters. -/
def Handle.Simple : Handle → Prop
  | .pass => True
  | .basic _ exits => exits ≠ []
  | _ => False

/-- Execution leaves a chain that it enters. -/
def Chain.Sound (c : Chain) : Prop := ∀ entry ∈ c.entry, c.exits ≠ []

theorem Chain.sound_empty : Chain.Sound {} := nofun

theorem Chain.Sound.simple (h : c.Sound) : c.toHandle.Simple := by
  unfold toHandle
  split
  · next entry hentry => exact h entry hentry
  · trivial

theorem Chain.entry?_toHandle (c : Chain) : c.toHandle.entry? = c.entry := by
  unfold toHandle
  split
  · next entry hentry => exact hentry.symm
  · next hentry => exact hentry.symm

/-- The terminals are of blocks that have been placed since a state. -/
def Emitter.Owns (s₀ s : Emitter) (ts : List Terminal) : Prop :=
  ∀ t ∈ ts, s₀.placement.blocks.length ≤ t.block ∧ t.block < s.placement.blocks.length

theorem Emitter.Owns.mono {ts' : List Terminal} (h : s₀.Owns s ts)
    (hs : s.placement.blocks <+: s'.placement.blocks) (hts : ts' ⊆ ts) : s₀.Owns s' ts' :=
  fun t ht ↦ ⟨(h t (hts ht)).1, Nat.lt_of_lt_of_le (h t (hts ht)).2 hs.length_le⟩

/-- The blocks that need no way in are of some shapes, and a property of the emitter is kept by all
that emission of statements does that call some routines: data is wired, blocks that were placed
since a state are joined, and calls from such blocks are recorded. -/
structure Emit.Stable (shapes : BlockShape → Prop) (fed : Terminal → Prop) (sites : Routine → Prop)
    (s₀ : Emitter) (I : Emitter → Prop) : Prop extends Supply shapes fed where
  still {s s' : Emitter} (h : s.Still fed s') (hs : I s) : I s'
  place {s : Emitter} (shape : BlockShape) (hs : I s) : I (s.placed shape)
  join {s : Emitter} {wires : List Wire} (h : ∀ w ∈ wires, s₀.Owns s [w.source, w.target])
    (hs : I s) : I { s with netlist := s.netlist.connectAll wires }
  calling {s : Emitter} (r : Routine) (entrance : Terminal) (hr : sites r)
    (h : s₀.Owns s [entrance]) (hs : I s) : I (s.calling r entrance)

theorem Emit.stable_true {shapes : BlockShape → Prop}
    (h : ∀ shape : BlockShape, shape.kind ≠ .active → shapes shape) :
    Stable shapes (fun _ ↦ True) (fun _ ↦ True) s₀ fun _ ↦ True :=
  ⟨.all h, fun _ _ ↦ trivial, fun _ _ ↦ trivial, fun _ _ ↦ trivial, fun _ _ _ _ _ ↦ trivial⟩

/-- What all that leads to which emission of statements does that call some routines and hold some
hints. -/
structure Emit.Steady extends Frame where
  base : Emitter
  sites : Routine → Prop
  marks : Hint → Prop
  any (s : Emitter) (shape : BlockShape) : rel s (s.placed shape)
  join {s : Emitter} {wires : List Wire} (h : ∀ w ∈ wires, base.Owns s [w.source, w.target]) :
    rel s { s with netlist := s.netlist.connectAll wires }
  calling {s : Emitter} (r : Routine) (entrance : Terminal) (hr : sites r)
    (h : base.Owns s [entrance]) : rel s (s.calling r entrance)
  hint (s : Emitter) (h : Hint) (hh : marks h) : rel s ((Emit.hint h).run s).2

namespace Emit

variable {α β : Type} {S : Steady} {I P : Emitter → Prop} {Q : α → Emitter → Prop}
  {R : β → Emitter → Prop} {opens : List Terminal}

/-- A property is kept. -/
def Stable.steady {shapes : BlockShape → Prop} {fed : Terminal → Prop} {sites : Routine → Prop}
    (h : Stable shapes fed sites s₀ I) : Steady where
  shapes := shapes
  fed := fed
  supply := h.toSupply
  rel s s' := I s → I s'
  trans hs hs' hI := hs' (hs hI)
  quiet hs := h.still hs.toStill
  place _ shape _ := h.place shape
  group {s s'} hs hI := h.still (s'.still_outside fed) (hs (h.still (s.still_inside fed) hI))
  share {_ s'} _ _ hs _ hI := h.still (s := s') ⟨rfl, .refl, rfl, rfl, rfl, rfl⟩ (hs hI)
  base := s₀
  sites := sites
  marks _ := True
  any _ shape := h.place shape
  join hw := h.join hw
  calling := h.calling
  hint _ m _ := by cases m <;> exact h.still ⟨rfl, .refl, rfl, rfl, rfl, rfl⟩

/-- Anything may be done. -/
abbrev Steady.free (s₀ : Emitter) : Steady := (@stable_true s₀ _ fun _ _ ↦ trivial).steady

/-- What emission of a statement does unless it stops because of the statement. What it leads to is
known even then, and the blocks are kept. -/
def Steady.Meets (S : Steady) (P : Emitter → Prop) (x : Emit α) (Q : α → Emitter → Prop) : Prop :=
  ∀ s, P s → s.placement.blocks <+: (x.run s).2.placement.blocks ∧ S.rel s (x.run s).2 ∧
    Outcome Stop.Local (fun a ↦ Q a (x.run s).2) (x.run s).1

namespace Steady

theorem Meets.pure {a : α} (h : ∀ s, P s → Q a s) : S.Meets P (pure a) Q :=
  fun s hs ↦ ⟨prefix_refl _, S.quiet .refl, h s hs⟩

theorem Meets.modify {Q : PUnit → Emitter → Prop}
    (hblocks : ∀ s, (f s).placement.blocks = s.placement.blocks)
    (h : ∀ s, P s → S.rel s (f s) ∧ Q ⟨⟩ (f s)) : S.Meets P (modify f) Q :=
  fun s hs ↦ ⟨(hblocks s).symm ▸ prefix_refl _, h s hs⟩

section

variable {x : Emit α} {f : α → Emit β} (hx : S.Meets P x Q)

include hx

theorem Meets.bind (hf : ∀ a, S.Meets (Q a) (f a) R) : S.Meets P (x >>= f) R := by
  intro s hs
  obtain ⟨hgrows, hrel, hrun⟩ := hx s hs
  rcases hx' : x.run s with ⟨e | a, s'⟩
  · rw [hx'] at hgrows hrel hrun
    rw [run_bind_of_error hx']
    exact ⟨hgrows, hrel, hrun⟩
  · rw [hx'] at hgrows hrel hrun
    rw [run_bind_of_ok hx']
    obtain ⟨hgrows', hrel', hrun'⟩ := hf a s' hrun
    exact ⟨hgrows.trans hgrows', S.trans hrel hrel', hrun'⟩

theorem Meets.before {P' : Emitter → Prop} (h : ∀ s, P' s → P s) :
    S.Meets P' x Q := fun s hs ↦ hx s (h s hs)

/-- What a computation leads to may be used. -/
theorem Meets.along {T : Emitter → Prop}
    (h : ∀ s s', S.rel s s' → s.placement.blocks <+: s'.placement.blocks → T s → T s') :
    S.Meets (fun s ↦ T s ∧ P s) x fun a s ↦ T s ∧ Q a s := by
  rintro s ⟨hT, hs⟩
  obtain ⟨hgrows, hrel, hrun⟩ := hx s hs
  exact ⟨hgrows, hrel, hrun.mono (fun _ ↦ id) fun a ha ↦ ⟨h _ _ hrel hgrows hT, ha⟩⟩

theorem Meets.after {Q' : α → Emitter → Prop} (h : ∀ a s, Q a s → Q' a s) : S.Meets P x Q' := by
  intro s hs
  obtain ⟨hgrows, hrel, hrun⟩ := hx s hs
  exact ⟨hgrows, hrel, hrun.mono (fun _ ↦ id) fun a ↦ h a _⟩

/-- Terminals of blocks that have been placed stay such. -/
theorem Meets.owning : S.Meets (fun s ↦ s₀.Owns s ts ∧ P s) x fun a s ↦ s₀.Owns s ts ∧ Q a s :=
  hx.along fun _ _ _ hgrows howns ↦ howns.mono hgrows (.refl _)

end

/-- What a step without effects gives is known. -/
theorem Meets.lift {x : Except Fault α} {f : α → Emit β} (h : ∀ f, x = .error f → f.Local)
    (hf : ∀ a, x = .ok a → S.Meets P (f a) R) : S.Meets P (liftM x >>= f) R := by
  cases x with
  | error f => exact fun s hs ↦ ⟨prefix_refl _, S.quiet .refl, h f rfl⟩
  | ok a => exact hf a rfl

theorem Meets.input {name : String} {f : Terminal → Emit β}
    (hf : ∀ t, b.input name = .ok t → S.Meets P (f t) R) :
    S.Meets P (liftM (b.input name) >>= f) R :=
  .lift (fun _ ↦ Block.local_of_input) hf

theorem Meets.output {name : String} {f : Terminal → Emit β}
    (hf : ∀ t, b.output name = .ok t → S.Meets P (f t) R) :
    S.Meets P (liftM (b.output name) >>= f) R :=
  .lift (fun _ ↦ Block.local_of_output) hf

theorem Meets.breach {b : Breach} : S.Meets P (breach b : Emit α) Q :=
  fun _ _ ↦ ⟨prefix_refl _, S.quiet .refl, trivial⟩

theorem Meets.complain {c : Complaint} : S.Meets P (complain c span : Emit α) Q :=
  fun _ _ ↦ ⟨prefix_refl _, S.quiet .refl, rfl⟩

/-- The relation holds, and what is left open stays so. -/
def Preserves (S : Steady) (s s' : Emitter) : Prop :=
  S.rel s s' ∧
    ∀ s₀ opens, Emitter.Leaves S.shapes s₀ opens s → Emitter.Leaves S.shapes s₀ opens s'

theorem Preserves.blocks (h : S.Preserves s s') :
    s.placement.blocks <+: s'.placement.blocks := (h.2 s [] (.refl S.shapes s)).blocks

theorem Preserves.owns (h : S.Preserves s s') (hs : s₀.Owns s ts) :
    s₀.Owns s' ts := hs.mono h.blocks (.refl _)

/-- What blocks for data lead to. -/
abbrev frame (S : Steady) : Frame where
  shapes := S.shapes
  fed := S.fed
  supply := S.supply
  rel := S.Preserves
  trans h h' := ⟨S.trans h.1 h'.1, fun s₀ opens hs ↦ h'.2 s₀ opens (h.2 s₀ opens hs)⟩
  quiet hs := ⟨S.quiet hs, fun _ _ h ↦ h.still hs.toStill⟩
  place s shape h :=
    ⟨S.place s shape h, fun _ _ hs ↦ hs.placed shape (.inl h) (.refl _)⟩
  group {s s'} h := ⟨S.group h.1, fun s₀ opens hs ↦
    (h.2 s₀ opens (hs.still (s.still_inside S.fed))).still (s'.still_outside S.fed)⟩
  share x cache h hx := ⟨S.share x cache h.1 hx, fun s₀ opens hs ↦
    (h.2 s₀ opens hs).still (F := S.fed) ⟨rfl, .refl, rfl, rfl, rfl, rfl⟩⟩

/-- What is open of the blocks that have been placed so far. -/
abbrev Open (S : Steady) (opens : List Terminal) : Emitter → Prop :=
  Emitter.Leaves S.shapes S.base opens

/-- A block has been placed, and it is open if execution can enter it. -/
def Pending (S : Steady) (opens : List Terminal) (b : Block) (s : Emitter) : Prop :=
  (∀ t : Terminal, t.block = b.id → S.base.Owns s [t]) ∧
    ∀ t, b.before = .ok t → S.Open (t :: opens) s

/-- What a computation leaves that gives a handle which control runs through. -/
def Built (S : Steady) (opens : List Terminal) (h : Handle) (s : Emitter) : Prop :=
  h.Simple ∧ S.base.Owns s h.ends ∧ S.Open (h.entry?.toList ++ opens) s

/-- What a computation leaves that gives a chain. -/
def Chained (S : Steady) (opens : List Terminal) (c : Chain) (s : Emitter) : Prop :=
  c.Sound ∧ S.base.Owns s c.ends ∧ S.Open (c.entry.toList ++ opens) s

/-- What a branch to a label leaves: execution can leave it both ways. -/
def Branched (S : Steady) (opens : List Terminal) (target : Label) (h : Handle) (s : Emitter) :
    Prop :=
  ∃ entry onward jumps, h = .branch entry onward target jumps ∧ onward ≠ [] ∧ jumps ≠ [] ∧
    S.base.Owns s [entry] ∧ S.Open (entry :: opens) s

/-- The computation gives a handle that control runs through. -/
def Builds (S : Steady) (x : Emit Handle) : Prop :=
  ∀ opens, S.Meets (S.Open opens) x (S.Built opens)

theorem Chained.empty (h : S.Open opens s) : S.Chained opens {} s :=
  ⟨Chain.sound_empty, forall_mem_nil _, h⟩

theorem Built.pass (h : S.Open opens s) : S.Built opens .pass s :=
  ⟨trivial, forall_mem_nil _, h⟩

theorem Chained.toHandle (h : S.Chained opens c s) : S.Built opens c.toHandle s := by
  refine ⟨h.1.simple, h.2.1.mono (prefix_refl _) c.ends_toHandle, ?_⟩
  rw [c.entry?_toHandle]
  exact h.2.2

end Steady

/-- A complaint unless a condition holds. -/
theorem meets_unless {c : Prop} [Decidable c] {complaint : Complaint} {f : PUnit → Emit α}
    (hf : S.Meets P (f ⟨⟩) Q) :
    S.Meets P (if c then f ⟨⟩ else complain complaint span >>= f) Q := by
  split
  · exact hf
  · exact .bind (Q := fun _ _ ↦ False) .complain fun _ _ h ↦ h.elim

theorem meets_active (b : Block) : S.Meets (S.Pending opens b) (active b) (S.Built opens) := by
  refine .input fun entry hentry ↦ .output fun exit hexit ↦ .pure ?_
  rintro s ⟨howns, hs⟩
  refine ⟨cons_ne_nil _ _, ?_, hs entry hentry⟩
  exact forall_mem_cons.2 ⟨howns entry (Block.block_of_input hentry) entry (.head _),
    howns exit (Block.block_of_output hexit)⟩

/-- A handle is built that a chain is to be joined with. -/
theorem meets_next (hx : S.Builds x) : S.Meets (S.Chained opens c) x fun h s ↦
    c.Sound ∧ S.base.Owns s c.ends ∧ S.Built (c.entry.toList ++ opens) h s := by
  rintro s ⟨hc, hs⟩
  exact (hx _).owning.after (fun h s' hs' ↦ And.intro hc hs') s hs

section

variable {x : Emit α} {f : α → Emit β} (hx : Keeps S.frame x)

include hx

theorem Keeps.meets (h : ∀ s s', S.Preserves s s' → P s → P s') : S.Meets P x fun _ s ↦ P s := by
  intro s hs
  obtain ⟨hstate, houtcome⟩ := hx s
  exact ⟨hstate.blocks, hstate.1, houtcome.mono (fun _ ↦ id) fun _ _ ↦ h _ _ hstate hs⟩

theorem meets_data : S.Meets (S.Open opens) x fun _ ↦ S.Open opens :=
  hx.meets fun _ _ h ↦ h.2 _ _

theorem meets_pending : S.Meets (S.Pending opens b) x fun _ ↦ S.Pending opens b :=
  hx.meets fun _ _ h hs ↦ ⟨fun t ht ↦ h.owns (hs.1 t ht), fun t ht ↦ h.2 _ _ (hs.2 t ht)⟩

/-- Blocks for data that are placed in between leave the chain as it is. -/
theorem meets_chained (hf : ∀ a, S.Meets (S.Chained opens c) (f a) R) :
    S.Meets (S.Chained opens c) (x >>= f) R :=
  .bind (hx.meets fun _ _ h hs ↦ ⟨hs.1, h.owns hs.2.1, h.2 _ _ hs.2.2⟩) hf

end

/-- A sensor has a way in. -/
theorem before_sensor (event : Event) (id : Nat) :
    (Block.mk id (sensor event).1).before = .ok ⟨id, .input, 0, .void⟩ := by
  cases event <;> rfl

theorem meets_place (shape : BlockShape) {f : Block → Emit α} {Q : α → Emitter → Prop}
    (hf : ∀ id, S.Meets (S.Pending opens ⟨id, shape⟩) (f ⟨id, shape⟩) Q) :
    S.Meets (S.Open opens) (place shape >>= f) Q := by
  intro s hs
  have hgrows : s.placement.blocks <+: (s.placed shape).placement.blocks := prefix_append _ _
  have howns (t : Terminal) (ht : t.block = s.placement.blocks.length) :
      S.base.Owns (s.placed shape) [t] := by
    refine forall_mem_singleton.2 ⟨ht ▸ hs.blocks.length_le, ?_⟩
    simp [ht, Emitter.placed, Placement.place]
  have hpending : S.Pending opens ⟨s.placement.blocks.length, shape⟩ (s.placed shape) :=
    ⟨howns, fun t ht ↦
      hs.placed shape (.inr ⟨t, .head _, ht⟩) (subset_cons_self _ _)⟩
  obtain ⟨hgrows', hrel, hrun⟩ := hf _ (s.placed shape) hpending
  exact ⟨hgrows.trans hgrows', S.trans (S.any s shape) hrel, hrun⟩

/-- A handle is joined to a chain. -/
theorem meets_append :
    S.Meets (fun s ↦ c.Sound ∧ S.base.Owns s c.ends ∧ S.Built (c.entry.toList ++ opens) h s)
      (append c h) (S.Chained opens) := by
  rintro s ⟨hc, howns, hsimple, hends, hs⟩
  match h, hsimple with
  | .pass, _ =>
    exact ⟨prefix_refl _, S.join (forall_mem_nil _), hc, howns,
      hs.connect _ fun t ht ↦ .inl ht⟩
  | .basic entry exits, hexits =>
    obtain ⟨hfirst, hlast⟩ := forall_mem_cons.1 hends
    obtain ⟨hentry, hexit⟩ := forall_mem_append.1 howns
    refine ⟨prefix_refl _, S.join fun w hw ↦ ?_, fun _ _ ↦ hexits,
      forall_mem_append.2 ⟨fun t ht ↦ ?_, hlast⟩, hs.connect _ fun t ht ↦ ?_⟩
    · obtain ⟨source, hsource, rfl⟩ := mem_map.1 hw
      exact forall_mem_cons.2 ⟨hexit source hsource, forall_mem_singleton.2 hfirst⟩
    · rcases or_eq_some_iff.1 (mem_toList.1 ht) with ht | ⟨-, ht⟩
      · exact hentry t (mem_toList.2 ht)
      · exact Option.some.inj ht ▸ hfirst
    rcases hentry : c.entry with - | first
    · rw [hentry] at ht
      exact .inl ht
    · rw [hentry] at ht
      rcases mem_cons.1 ht with rfl | ht
      · obtain ⟨exit, hexit⟩ := exists_mem_of_ne_nil _ (hc first hentry)
        exact .inr ⟨⟨exit, t⟩, mem_map_of_mem hexit, rfl⟩
      · exact .inl ht

theorem meets_setInline (x : Variable) (value : Feed) : S.Builds (setInline x value) :=
  fun _ ↦ .bind (meets_data keeps_modify) fun _ ↦ .pure fun _ ↦ .pass

/-- One more handle is built and joined to a chain. -/
theorem meets_join {f : Chain → Emit α} {Q : α → Emitter → Prop}
    (hx : S.Builds x) (hf : ∀ c, S.Meets (S.Chained opens c) (f c) Q) :
    S.Meets (S.Chained opens c) (do f (← append c (← x))) Q :=
  .bind (meets_next hx) fun _ ↦ .bind meets_append hf

theorem meets_setCell (x : Variable) (value : Feed) : S.Builds (setCell x value) := by
  unfold setCell
  split
  · exact fun _ ↦ .breach
  · next shape hshape =>
    obtain ⟨wire, -, hshape⟩ := bind_eq_some_iff.1 hshape
    obtain ⟨-, w, hw, -, rfl⟩ := Catalog.of_variant? hshape
    exact fun _ ↦ meets_place _ fun id ↦ .bind (meets_pending (keeps_setValue _ _ _)) fun _ ↦
      .input fun t ht ↦
      .bind (meets_pending (keeps_feed _ (S.supply.data t
        (Block.data_of_input (by simpa using hw) (by decide) ht)))) fun _ ↦ meets_active _

theorem meets_store (span : Span) (x : Variable) (value : Feed) :
    S.Builds (store span x value) := by
  induction x generalizing value with
  | slot s =>
    rw [store]
    split
    · exact meets_setInline _ _
    · exact meets_setCell _ _
  | component base axis origin ih =>
    rw [store]
    split
    · exact meets_setInline _ _
    · refine fun _ ↦ .bind (meets_data (keeps_eachAxis fun other ↦ ?_)) fun _ ↦
        .bind (meets_data (keeps_make _ _)) fun whole ↦ ih whole _
      split
      · exact .pure
      · exact keeps_readAxis _ _ _

theorem meets_assign (x : Variable) {e : Expr} (he : e.Uses S.shapes) : S.Builds (assign x e) :=
  fun _ ↦ .bind (meets_data (keeps_valueOf he)) fun _ ↦ meets_store _ _ _ _

/-! ### Stores to arrays -/

theorem meets_setPointer (target : Terminal) (value : Feed) :
    S.Builds (setPointer target value) := by
  unfold setPointer
  split
  · exact fun _ ↦ .breach
  · next shape hshape =>
    obtain ⟨word, w, hw, hpointer, rfl⟩ := Catalog.of_variant? hshape
    have hdata {id : Nat} {name : String} {t : Terminal} (hname : name ≠ "Before")
        (ht : (Block.mk id (.active ("Set Pointer " ++ word)
          [("Variable", w.toPointer), ("Value", w)])).input name = .ok t) : S.fed t :=
      S.supply.data t (Block.data_of_input (by simp [hw, hpointer]) hname ht)
    exact fun _ ↦ meets_place _ fun id ↦ .input fun t ht ↦
      .bind (meets_pending (keeps_connect _ (hdata (by decide) ht))) fun _ ↦
      .input fun t ht ↦
      .bind (meets_pending (keeps_feed _ (hdata (by decide) ht))) fun _ ↦ meets_active _

theorem meets_storeElement {index : Expr} (span : Span)
    (ha : array.Uses S.shapes) (hi : index.Uses S.shapes) (hv : value.Uses S.shapes) :
    S.Builds (storeElement array index value span) := by
  intro opens
  have hdata : Keeps S.frame (inExpression do
      let target ← elementTarget array index
      return (target, ← value.source.whole)) :=
    keeps_inExpression ((keeps_elementTarget (F := S.frame) ha hi).bind fun _ ↦
      (keeps_source (F := S.frame) hv).whole.map)
  have hcursor (h : Handle) (cursor : Option ListCursor) : S.Meets (S.Built opens h) (do
        modify fun s ↦ { s with cursor := cursor }
        return h : Emit Handle) (S.Built opens) := by
    have hquiet : Keeps S.frame (modify fun s ↦ { s with cursor := cursor } : Emit PUnit) :=
      keeps_modify
    exact .bind (hquiet.meets fun _ _ hs h ↦ ⟨h.1, hs.owns h.2.1, hs.2 _ _ h.2.2⟩) fun _ ↦
      .pure fun s hs ↦ hs
  refine .bind (meets_data hdata) fun entry ↦ ?_
  obtain ⟨target, -⟩ := entry
  cases target with
  | cell x => exact .bind (meets_store _ _ _ _) fun h ↦ hcursor _ _
  | pointer t => exact .bind (meets_setPointer _ _ _) fun h ↦ hcursor _ _

theorem meets_storeRange (ha : array.Uses S.shapes) (start : Float32)
    (startSpan span : Span) {items : List Expr}
    (hitems : AllUse S.shapes items) (i : Nat) (c : Chain) :
    S.Meets (S.Chained opens c) (storeRange array start startSpan span i c items)
      (S.Built opens) := by
  induction items generalizing i c with
  | nil => exact .pure fun s hs ↦ hs.toHandle
  | cons item rest ih =>
    obtain ⟨hitem, hrest⟩ := forall_mem_append.1 hitems
    exact meets_join (meets_storeElement span ha (visit_float _ _) hitem) fun c ↦ ih hrest _ c

theorem meets_elementStore (span : Span) (h : AllUse S.shapes arguments) :
    S.Builds (elementStore arguments span) := by
  unfold elementStore
  split
  · simp only [AllUse, Expr.visitAll, append_nil, forall_mem_append] at h
    exact meets_storeElement span h.1 h.2.1 h.2.2
  · exact fun _ ↦ .breach

theorem meets_rangeStore (span : Span) (h : AllUse S.shapes arguments) :
    S.Builds (rangeStore arguments span) := by
  unfold rangeStore
  split
  · simp only [AllUse, Expr.visitAll, append_nil, forall_mem_append] at h
    split
    · exact fun _ ↦ .complain
    · split
      · refine fun _ ↦ .before (meets_storeRange h.1 _ _ _ ?_ _ _) fun s ↦ .empty
        have hitems := h.2.2
        exact (forall_mem_append.1 hitems).2
      · exact fun _ ↦ .breach
  · exact fun _ ↦ .breach

/-! ### Calls of built-in functions -/

theorem meets_storeOutputs (block : Block) (span : Span) (outputs : List (Parameter × Expr))
    (i : Nat) (c : Chain) :
    S.Meets (S.Chained opens c) (storeOutputs block span i c outputs) (S.Built opens) := by
  induction outputs generalizing i c with
  | nil => exact .pure fun s hs ↦ hs.toHandle
  | cons output rest ih =>
    rw [storeOutputs]
    split
    · exact meets_chained (keeps_reference _) fun x ↦ meets_chained keeps_outputAt fun t ↦
        meets_join (meets_store _ _ _) fun c ↦ ih _ c
    · exact ih _ _

theorem meets_passiveCall (hshape : S.shapes shape) (b : Builtin) (type : Ty)
    (h : AllUse S.shapes arguments) (result : Option Variable) (span : Span) :
    S.Builds (passiveCall shape b type arguments result span) := by
  intro opens
  have hblock : Keeps S.frame (inExpression (builtinBlock shape b (sources arguments))) :=
    keeps_inExpression (keeps_builtinBlock (F := S.frame) hshape b (keeps_sources h))
  have hstart (block : Block) (i : Nat) :
      S.Builds (storeOutputs block span i {} (b.parameters.zip arguments)) :=
    fun _ ↦ (meets_storeOutputs block span _ i {}).before fun s ↦ .empty
  unfold passiveCall
  dsimp only
  split
  · exact .pure fun s ↦ .pass
  · refine .bind (meets_data hblock) fun block ↦ ?_
    split
    · exact hstart block 0 _
    · cases result with
      | none => exact hstart block 1 _
      | some x =>
        have hstored : S.Meets (S.Chained opens {}) (do
            let h ← store span x (some (← block.outputAt 0))
            storeOutputs block span 1 (← append {} h) (b.parameters.zip arguments) : Emit Handle)
            (S.Built opens) :=
          meets_chained keeps_outputAt fun t ↦
            meets_join (meets_store _ _ _) fun c ↦ meets_storeOutputs block span _ 1 c
        exact hstored.before fun s ↦ .empty

/-- A block that runs is placed and its inputs are wired. -/
theorem meets_running (h : shape.FedFrom S.fed 1) (inputs : List Feed) : S.Builds (do
      let block ← place shape
      feedAll block 1 inputs
      active block) :=
  fun _ ↦ meets_place shape fun id ↦
    .bind (meets_pending (keeps_feedAll (F := S.frame) h id inputs)) fun _ ↦ meets_active _

theorem meets_activeCall (hshape : shape.FedFrom S.fed 1) (h : AllUse S.shapes arguments) :
    S.Builds (activeCall shape arguments) :=
  fun _ ↦ .bind (meets_data (keeps_values h)) fun _ ↦ meets_running hshape _ _

theorem meets_inspection (h : AllUse S.shapes arguments) :
    S.Builds (inspection arguments) := by
  unfold inspection
  split
  · simp only [AllUse, Expr.visitAll, append_nil] at h
    split
    · exact fun _ ↦ .complain
    · next shape hshape =>
      obtain ⟨wire, -, hshape⟩ := bind_eq_some_iff.1 hshape
      obtain ⟨-, w, hw, -, rfl⟩ := Catalog.of_variant? hshape
      exact fun _ ↦ .bind (meets_data (keeps_valueOf h)) fun _ ↦
        meets_running (BlockShape.fedFrom_active S.supply.data (by simpa using hw)) _ _
  · exact fun _ ↦ .breach

theorem meets_keep {value : Emit Feed} (hvalue : Keeps S.frame value)
    (result : Option Variable) (span : Span) : S.Builds (keep value result span) := by
  refine fun _ ↦ .bind (meets_data (keeps_inExpression hvalue)) fun feed ↦ ?_
  split
  · exact meets_store _ _ _ _
  · exact .pure fun s ↦ .pass

theorem meets_builtinCall (b : Builtin) (type : Ty)
    (hb : ∀ shape ∈ (Callee.builtin b type).passive?, S.shapes shape)
    (hruns : ∀ shape ∈ (Callee.builtin b type).active?, shape.FedFrom S.fed 1)
    (h : AllUse S.shapes arguments) (result : Option Variable) (span : Span) :
    S.Builds (builtinCall b type arguments result span) := by
  unfold builtinCall
  split
  · next shape hshape =>
    exact meets_passiveCall (hb shape (by simp [Callee.passive?, hshape])) b type h _ _
  · next shape hshape =>
    exact meets_activeCall (hruns shape (by simp [Callee.active?, hshape])) h
  · exact meets_keep (keeps_elementOf _ (keeps_sources h)) _ _
  · exact meets_keep (keeps_blockAt _ _) _ _
  · exact meets_inspection h
  · exact meets_elementStore _ h
  · exact meets_rangeStore _ h

/-! ### Calls of routines -/

theorem meets_passArguments {arguments : List (Variable × Expr)}
    (h : ∀ entry ∈ arguments, entry.2.Uses S.shapes) (c : Chain) :
    S.Meets (S.Chained opens c) (passArguments c arguments) (S.Chained opens) := by
  induction arguments generalizing c with
  | nil => exact .pure fun s hs ↦ hs
  | cons entry rest ih =>
    obtain ⟨hentry, hrest⟩ := forall_mem_cons.1 h
    rw [passArguments]
    split
    · exact ih hrest c
    · exact meets_join (meets_assign _ hentry) fun c ↦ ih hrest c

theorem meets_passBack (span : Span) (arguments : List (Variable × Expr)) (c : Chain) :
    S.Meets (S.Chained opens c) (passBack span c arguments) (S.Chained opens) := by
  induction arguments generalizing c with
  | nil => exact .pure fun s hs ↦ hs
  | cons entry rest ih =>
    rw [passBack]
    split
    · exact meets_chained (keeps_reference _) fun x ↦
        meets_join (meets_assign _ (visit_read _ _)) ih
    · exact ih c

theorem meets_gate (hr : S.sites r) : S.Builds (gate r) := by
  have htruth : Keeps S.frame (place Catalog.truthTrue >>= pure) :=
    keeps_place S.frame.passive fun _ ↦ .pure
  refine fun _ ↦ meets_place _ fun id ↦ .bind (meets_pending htruth) fun truth ↦
    .lift (fun _ ↦ Block.local_of_outputAt) fun _ _ ↦ .input fun t ht ↦
    .bind (meets_pending (keeps_connect _ (S.supply.data t
      (Block.data_of_input (by decide) (by decide) ht)))) fun _ ↦
    .output fun entrance hentrance ↦
    .bind (.modify (fun _ ↦ rfl) fun s hs ↦ ⟨S.calling r entrance hr
      (hs.1 entrance (Block.block_of_output hentrance)), hs.1, fun t ht ↦ ?_⟩) fun _ ↦
    meets_active _
  exact (hs.2 t ht).called r entrance

theorem meets_keepResult (r : Routine) (span : Span) (c : Chain) (result : Option Variable) :
    S.Meets (S.Chained opens c) (keepResult r span c result) (S.Chained opens) := by
  cases result with
  | none => exact .pure fun s hs ↦ hs
  | some x =>
    unfold keepResult
    dsimp only
    split
    · exact .breach
    · exact .bind (meets_next (meets_assign x (visit_read _ _))) fun h ↦ meets_append

theorem meets_routineCall (hr : S.sites r) (h : AllUse S.shapes arguments)
    (result : Option Variable) (span : Span) : S.Builds (routineCall r arguments result span) :=
  fun _ ↦ meets_unless (.bind ((meets_passArguments (visit_zip h) {}).before fun _ ↦
    .empty) fun _ ↦ meets_join (meets_gate hr) fun entered ↦
    .bind (meets_passBack span _ entered) fun returned ↦
    .bind (meets_keepResult r span returned result) fun _ ↦ .pure fun _ hs ↦ hs.toHandle)

theorem meets_call (callee : Callee) (hcallee : ∀ shape ∈ callee.passive?, S.shapes shape)
    (hruns : ∀ shape ∈ callee.active?, shape.FedFrom S.fed 1)
    (hsites : ∀ r ∈ callee.routine?, S.sites r)
    (h : AllUse S.shapes arguments) (result : Option Variable) (span : Span) :
    S.Builds (call callee arguments result span) := by
  cases callee with
  | routine r => exact meets_routineCall (hsites r rfl) h result span
  | builtin b type => exact meets_builtinCall b type hcallee hruns h result span

/-! ### Sensors -/

theorem meets_storeReports (block : Block) (span : Span) (xs : List Variable) (i : Nat)
    (c : Chain) :
    S.Meets (S.Chained opens c) (storeReports block span i c xs) (S.Chained opens) := by
  induction xs generalizing i c with
  | nil => exact .pure fun s hs ↦ hs
  | cons x rest ih =>
    exact meets_chained keeps_outputAt fun t ↦ meets_join (meets_store _ _ _) fun c ↦ ih _ c

/-- The firing output leads past the stores of the reports to the label. -/
theorem meets_handler {fired : Terminal} (target : Label) {entry : Terminal}
    (hentry : b.before = .ok entry) (hfired : fired.block = entry.block) (c : Chain) :
    S.Meets (fun s ↦ S.base.Owns s [entry] ∧ S.Chained (entry :: opens) c s) (do
      let jumps ← match c.entry with
        | some entry => do
          connect fired entry
          pure c.exits
        | none => pure [fired]
      let entry ← b.before
      let exit ← b.after
      return .branch entry [exit] target jumps) (S.Branched opens target) := by
  have hdone {jumps : List Terminal} (hjumps : jumps ≠ []) : S.Meets
      (fun s ↦ S.base.Owns s [entry] ∧ S.Open (entry :: opens) s) (do
        let entry ← b.before
        let exit ← b.after
        return .branch entry [exit] target jumps) (S.Branched opens target) := by
    refine .input fun first hfirst ↦ .output fun exit _ ↦ .pure fun s hs ↦ ?_
    cases hentry.symm.trans hfirst
    exact ⟨entry, [exit], jumps, rfl, cons_ne_nil _ _, hjumps, hs⟩
  split
  · next first hfirst =>
    rintro s ⟨howns, hc, hends, hs⟩
    have hwire : ∀ w ∈ [Wire.mk fired first], S.base.Owns s [w.source, w.target] := by
      refine forall_mem_singleton.2 (forall_mem_cons.2 ⟨?_, fun t ht ↦ hends t ?_⟩)
      · exact hfired ▸ howns entry (.head _)
      · simp [Chain.ends, hfirst, mem_singleton.1 ht]
    have hconnect : S.Meets (· = s) (connect fired first) fun _ s ↦ S.base.Owns s [entry] ∧
        S.Open (entry :: opens) s := by
      refine .modify (fun _ ↦ rfl) ?_
      rintro s rfl
      refine ⟨S.join hwire, howns, hs.connect [⟨fired, first⟩] fun t ht ↦ ?_⟩
      rw [hfirst] at ht
      rcases mem_cons.1 ht with rfl | ht
      · exact .inr ⟨_, .head _, rfl⟩
      · exact .inl ht
    exact hconnect.bind (fun _ ↦ hdone (hc first hfirst)) s rfl
  · next hnone =>
    refine .before (hdone (cons_ne_nil fired [])) fun s hs ↦ ⟨hs.1, ?_⟩
    have hleaves := hs.2.2.2
    rw [hnone] at hleaves
    exact hleaves

theorem meets_gotoIf {condition : Expr} (h : condition.Uses S.shapes) (target : Label)
    (sense : Bool) :
    S.Meets (S.Open opens) (gotoIf condition target sense) (S.Branched opens target) := by
  refine .bind (meets_data (keeps_valueOf h)) fun value ↦
    meets_place _ fun id ↦ .input fun t ht ↦
    .bind (meets_pending (keeps_feed _ (S.supply.data t
      (Block.data_of_input (by decide) (by decide) ht)))) fun _ ↦ ?_
  refine .input fun entry hentry ↦ .output fun onward _ ↦ .output fun away _ ↦ .pure fun s hs ↦ ?_
  exact ⟨entry, [onward], [away], rfl, cons_ne_nil _ _, cons_ne_nil _ _,
    hs.1 entry (Block.block_of_input hentry), hs.2 entry hentry⟩

theorem meets_gotoOn (event : Event) (arguments : List Expr) (target : Label) (span : Span) :
    S.Meets (S.Open opens) (gotoOn event arguments target span) (S.Branched opens target) := by
  refine meets_unless (.bind (meets_data (keeps_eventArguments event _)) fun report ↦
    meets_place _ fun id ↦ ?_)
  have hentry := before_sensor event id
  refine .before (P := fun s ↦ S.base.Owns s [⟨id, .input, 0, .void⟩] ∧
    S.Open (⟨id, .input, 0, .void⟩ :: opens) s) ?_
    fun s hs ↦ ⟨hs.1 _ rfl, hs.2 _ hentry⟩
  exact .bind (meets_data (keeps_setValues _ _ _)).owning fun _ ↦
    .bind ((meets_storeReports _ span _ 2 {}).before fun s ↦ .empty).owning fun c ↦
    .output fun fired hfired ↦
    meets_handler target hentry (Block.block_of_output hfired) c

end Emit

/-! ### Statements -/

/-- The block of a built-in function that runs for the statement. -/
def Stmt.active? : Stmt → Option BlockShape
  | .call _ callee _ _ | .expression _ (.call _ callee _) => callee.active?
  | .expression _ (.statement _ s) => s.active?
  | _ => none

/-- The statement is emitted as a whole: it is no block, nor is there one that stands for its value. -/
def Stmt.Whole : Stmt → Prop
  | .block .. => False
  | .expression _ (.statement _ s) => s.Whole
  | _ => True

/-- Where execution enters the parts of a handle. -/
def Handle.entries (h : Handle) : List Terminal := h.parts.filterMap Handle.entry?

theorem Handle.Simple.entries (hs : h.Simple) : h.entries = h.entry?.toList := by
  cases h <;> first | rfl | exact hs.elim

/-- The kind of handle that a statement becomes. -/
def Stmt.Becomes : Stmt → Handle → Prop
  | .label _ l, h => h = .label l
  | .goto _ target, h => h = .goto target
  | .rollback _ _, h => h = .rollback
  | .ret _, h => h = .ret
  | .hint _ _, h => h = .pass
  | .retValue _ _, h => ∃ first : Handle, first.Simple ∧ h = .multi [first, .ret]
  | .gotoIf _ target _ _, h | .gotoOn _ target _ _, h =>
    ∃ entry onward jumps, h = .branch entry onward target jumps ∧ onward ≠ [] ∧ jumps ≠ []
  | _, h => h.Simple

namespace Emit

variable {S : Steady} {opens : List Terminal}

/-- What emission of a statement leaves. -/
def Steady.Emitted (S : Steady) (opens : List Terminal) (s : Stmt) (h : Handle) (st : Emitter) :
    Prop :=
  s.Becomes h ∧ S.base.Owns st h.entries ∧ S.Open (h.entries ++ opens) st

theorem Steady.Built.entered {h : Handle} {st : Emitter} (hst : S.Built opens h st) :
    S.base.Owns st h.entries ∧ S.Open (h.entries ++ opens) st :=
  hst.1.entries ▸ ⟨hst.2.1.mono (prefix_refl _) h.entry?_subset_ends, hst.2.2⟩

theorem meets_forgetElement (s : Stmt) :
    S.Meets (S.Open opens) (forgetElement s) fun _ ↦ S.Open opens := by
  unfold forgetElement
  split
  · exact .pure fun _ hs ↦ hs
  · exact meets_data keeps_modify

theorem meets_hint (span : Span) {m : Hint} (hm : S.marks m) :
    S.Meets (S.Open opens) (hint m) (S.Emitted opens (.hint span m)) := by
  intro s hs
  have hstill : s.Still S.fed ((hint m).run s).2 := by
    cases m <;> exact ⟨rfl, .refl, rfl, rfl, rfl, rfl⟩
  refine ⟨hstill.blocks ▸ prefix_refl _, S.hint s m hm, ?_⟩
  cases m <;> exact ⟨rfl, forall_mem_nil _, hs.still hstill⟩

theorem meets_returnValue (r : Routine) (span : Span) (h : value.Uses S.shapes) :
    S.Meets (S.Open opens) (returnValue r span value) (S.Emitted opens (.retValue span value)) := by
  unfold returnValue
  split
  · exact .breach
  · refine .bind (meets_assign _ h _) fun first ↦ .pure ?_
    rintro st ⟨hsimple, hends, hst⟩
    refine ⟨⟨first, hsimple, rfl⟩, ?_⟩
    have hentries : (Handle.multi [first, .ret]).entries = first.entry?.toList := by
      rw [← hsimple.entries]
      simp [Handle.entries, Handle.parts, Handle.partsOf, Handle.entry?]
    rw [hentries]
    exact ⟨hends.mono (prefix_refl _) first.entry?_subset_ends, hst⟩

/-- Every statement that holds no others becomes a handle of its kind, and nothing but its entries
is left open. -/
theorem meets_stmt (r : Routine) {s : Stmt} (hs : s.Single)
    (h : ∀ shape ∈ s.visit shapeVisitor, S.shapes shape)
    (hruns : ∀ shape ∈ s.active?, shape.FedFrom S.fed 1) (hsites : ∀ q ∈ s.callSites, S.sites q)
    (hmarks : ∀ span m, s = .hint span m → S.marks m) :
    S.Meets (S.Open opens) (stmt r s) (S.Emitted opens s) := by
  have hsimple {x : Emit Handle} (hs : ∀ h : Handle, h.Simple → s.Becomes h)
      (hx : S.Builds x) : S.Meets (S.Open opens) x (S.Emitted opens s) :=
    (hx opens).after fun h st hst ↦ ⟨hs h hst.1, hst.entered⟩
  have hbranch {x : Emit Handle} {target : Label}
      (hs : ∀ h : Handle, (∃ entry onward jumps, h = .branch entry onward target jumps ∧
        onward ≠ [] ∧ jumps ≠ []) → s.Becomes h)
      (hx : S.Meets (S.Open opens) x (S.Branched opens target)) :
      S.Meets (S.Open opens) x (S.Emitted opens s) := by
    refine hx.after ?_
    rintro h st ⟨entry, onward, jumps, rfl, honward, hjumps, hst⟩
    exact ⟨hs _ ⟨entry, onward, jumps, rfl, honward, hjumps⟩, hst⟩
  have hpass (hs : ∀ h : Handle, h.Simple → s.Becomes h) :
      S.Meets (S.Open opens) (pure .pass) (S.Emitted opens s) :=
    hsimple hs fun _ ↦ .pure fun st ↦ .pass
  rw [stmt.eq_def]
  rw [Stmt.visit.eq_def, forall_mem_append] at h
  replace h := h.1
  refine .bind (meets_forgetElement s) fun _ ↦ ?_
  cases s with
  | block | expression => exact hs.elim
  | declare | nop => exact hpass fun _ h ↦ h
  | define _ _ x _ | assign _ x _ => exact hsimple (fun _ h ↦ h) (meets_assign x h)
  | label | goto | rollback | ret => exact .pure fun st hst ↦ ⟨rfl, forall_mem_nil _, hst⟩
  | gotoIf span target condition sense => exact hbranch (fun _ h ↦ h) (meets_gotoIf h target sense)
  | gotoOn span target event arguments =>
    exact hbranch (fun _ h ↦ h) (meets_gotoOn event arguments target span)
  | retValue span value => exact meets_returnValue r span h
  | call span callee arguments result =>
    obtain ⟨hcallee, harguments⟩ := forall_mem_append.1 h
    refine hsimple (fun _ h ↦ h) (meets_call callee
      (fun shape hshape ↦ hcallee shape (mem_toList.2 hshape)) hruns
      (fun q hq ↦ hsites q ?_) harguments _ _)
    simp [Stmt.callSites, Stmt.visit, callVisitor, mem_def.1 hq]
  | hint span m => exact meets_hint span (hmarks span m rfl)
  | compound | ifThen | ifElse | whileLoop | doWhile | on => exact .breach

/-- Nothing but the entries of a statement is left open either where it stands for a value. -/
theorem meets_whole (r : Routine) (s : Stmt) (hs : s.Whole)
    (h : ∀ shape ∈ s.visit shapeVisitor, S.shapes shape)
    (hruns : ∀ shape ∈ s.active?, shape.FedFrom S.fed 1) (hsites : ∀ q, S.sites q)
    (hmarks : ∀ m, S.marks m) : S.Meets (S.Open opens) (stmt r s) fun handle st ↦
      S.base.Owns st handle.entries ∧ S.Open (handle.entries ++ opens) st := by
  have hbuilds {x : Emit Handle} (hx : S.Builds x) :=
    (hx opens).after fun _ _ hst ↦ hst.entered
  cases s with
  | block => exact hs.elim
  | expression span e =>
    rw [stmt]
    refine .bind (meets_forgetElement _) fun _ ↦ ?_
    replace h : e.Uses S.shapes := (forall_mem_append.1 h).1
    cases e with
    | call n callee arguments =>
      obtain ⟨hcallee, harguments⟩ := forall_mem_append.1 h
      exact hbuilds (meets_call callee
        (fun shape hshape ↦ hcallee shape (mem_toList.2 hshape)) hruns
        (fun q _ ↦ hsites q) harguments none n.span)
    | step n x _ down => exact hbuilds (meets_assign x (visit_stepped x down n.span))
    | assign _ x value => exact hbuilds (meets_assign x h)
    | statement _ body => exact meets_whole r body hs h hruns hsites hmarks
    | _ => exact hbuilds fun _ ↦ .pure fun _ ↦ .pass
  | _ =>
    refine (meets_stmt r ?_ h hruns (fun q _ ↦ hsites q) fun _ m _ ↦ hmarks m).after
      fun _ _ hst ↦ hst.2
    trivial

end Emit

end Wirescript
