import Wirescript.Builtin.Catalog
import Wirescript.Emission.Program
import Wirescript.Proofs.Outcome
import Wirescript.Proofs.Visits

/-!
# What emission of data can do

Blocks for data are placed and wired in many ways, and what most proofs need to know about all of
them is little: which states can follow a state, and for what reasons emission can stop. A `Frame` is
such an answer, given for single steps, and every computation that places blocks for data keeps to it.
-/

namespace Wirescript

open Wirescript.Expr
open List

variable {sources : List Source} {wires : List Wire} {i : Nat} {recipe : Emit.Recipe}
  {name : String} {t target : Terminal} {fed : Terminal → Prop} {s s' : Emitter}
  {shape : BlockShape} {span : Span}

/-- Wires were added that lead to terminals of some sort. -/
def Wire.Grow (fed : Terminal → Prop) (wires wires' : List Wire) : Prop :=
  ∃ more, wires' = wires ++ more ∧ ∀ w ∈ more, fed w.target

theorem Wire.Grow.refl : Grow fed wires wires :=
  ⟨[], (append_nil _).symm, forall_mem_nil _⟩

/-- No wire is taken away. -/
theorem Wire.Grow.isPrefix {wires' : List Wire} (h : Grow fed wires wires') : wires <+: wires' := by
  obtain ⟨-, rfl, -⟩ := h
  exact prefix_append _ _

/-- The blocks, the calls, what is done and what was complained about are the same, and only wires
for data were added. -/
structure Emitter.Still (fed : Terminal → Prop) (s s' : Emitter) : Prop where
  blocks : s'.placement.blocks = s.placement.blocks
  wires : Wire.Grow fed s.netlist.wires s'.netlist.wires
  calls : s'.calls = s.calls
  entries : s'.entries = s.entries
  diagnostics : s'.diagnostics = s.diagnostics
  options : s'.options = s.options

/-- Neither are there new groups of blocks, nor is a variable taken apart. -/
structure Emitter.Quiet (fed : Terminal → Prop) (s s' : Emitter) : Prop extends s.Still fed s' where
  placement : s'.placement = s.placement
  breaks : s'.breaks = s.breaks

theorem Emitter.Quiet.refl : s.Quiet fed s := ⟨⟨rfl, .refl, rfl, rfl, rfl, rfl⟩, rfl, rfl⟩

/-- Wires are added in the order in which they are listed. -/
theorem Netlist.wires_connectAll (n : Netlist) (wires : List Wire) :
    (n.connectAll wires).wires = n.wires ++ wires := by
  induction wires generalizing n with
  | nil => exact (append_nil _).symm
  | cons w rest ih =>
    rw [connectAll]
    refine (ih (n.connect w)).trans ?_
    simp [connect]

/-- The state after a group for an expression is opened. -/
def Emitter.inside (s : Emitter) : Emitter := { s with placement := s.placement.enterExpression }

/-- The state after the group is closed. -/
def Emitter.outside (s : Emitter) : Emitter := { s with placement := s.placement.exitExpression }

/-- A group changes neither blocks nor wires. -/
theorem Emitter.still_inside (s : Emitter) (fed : Terminal → Prop) : s.Still fed s.inside :=
  ⟨rfl, .refl, rfl, rfl, rfl, rfl⟩

@[inherit_doc Emitter.still_inside]
theorem Emitter.still_outside (s : Emitter) (fed : Terminal → Prop) : s.Still fed s.outside :=
  ⟨rfl, .refl, rfl, rfl, rfl, rfl⟩

/-- The state after a block is placed. -/
def Emitter.placed (s : Emitter) (shape : BlockShape) : Emitter :=
  { s with
    placement := (s.placement.place shape).2
    netlist := if 0 < s.highlightDepth then s.netlist.highlight s.placement.blocks.length
      else s.netlist }

/-- The fault is about a block or about what the statement is made of, and not about labels. -/
def Fault.Local : Fault → Prop
  | .internal _ | .unknownTerminal _ _ => True
  | .unresolvedLabel _ _ | .missingCallee _ | .constantByReference _ _ => False

/-- Emission stops because of the statement: with an error, or with a fault that is about it. -/
def Stop.Local : Stop → Prop
  | .complaint d => d.isError = true
  | .fault f => f.Local

/-- The block is one for data: it never runs, and no input takes execution. -/
def BlockShape.IsData (shape : BlockShape) : Prop :=
  shape.kind ≠ .active ∧ ∀ t ∈ shape.inputs, t.wire ≠ .void

instance (shape : BlockShape) : Decidable shape.IsData := inferInstanceAs (Decidable (_ ∧ _))

/-- The inputs of a block from a position on are of some sort. -/
def BlockShape.FedFrom (fed : Terminal → Prop) (shape : BlockShape) (i : Nat) : Prop :=
  ∀ id j t, i ≤ j → (Block.mk id shape).inputAt j = .ok t → fed t

/-- A variant of a block is for a type of value. -/
theorem Catalog.of_variant? {shape : String → WireType → BlockShape} {wire : WireType}
    {s : BlockShape} (h : variant? shape wire = some s) :
    ∃ word w, w ≠ .void ∧ w.toPointer ≠ .void ∧ s = shape word w := by
  obtain ⟨word, hword, rfl⟩ := Option.map_eq_some_iff.1 h
  refine ⟨word, wire.toValue, ?_, ?_, rfl⟩
  all_goals
    intro hvoid
    cases wire <;> cases hvoid
    cases hword

/-- The inputs after the first of a block that runs take data. -/
theorem BlockShape.fedFrom_active {inputs outputs : List (String × WireType)}
    (hfed : ∀ t : Terminal, t.wire ≠ .void → fed t) (hinputs : ∀ entry ∈ inputs, entry.2 ≠ .void) :
    (active name inputs outputs).FedFrom fed 1 := by
  intro id j t hj h
  obtain ⟨j, rfl⟩ := Nat.exists_eq_add_of_le' hj
  unfold Block.inputAt at h
  split at h
  · next shape hshape =>
    cases h
    obtain ⟨entry, hentry, rfl⟩ := mem_map.1 (mem_of_getElem? hshape)
    exact hfed _ (hinputs entry hentry)
  · cases h

/-- Which blocks are placed for data, and which inputs are wired to them. -/
structure Emit.Supply (shapes : BlockShape → Prop) (fed : Terminal → Prop) : Prop where
  passive (shape : BlockShape) (h : shape.IsData) : shapes shape
  inputs (shape : BlockShape) (h : shapes shape) : shape.FedFrom fed 0
  data (t : Terminal) (h : t.wire ≠ .void) : fed t

/-- Where every input may be wired, it is enough that no block for data is refused. -/
theorem Emit.Supply.all {shapes : BlockShape → Prop}
    (h : ∀ shape : BlockShape, shape.kind ≠ .active → shapes shape) : Supply shapes fun _ ↦ True :=
  ⟨fun shape hshape ↦ h shape hshape.1, fun _ _ _ _ _ _ _ ↦ trivial, fun _ _ ↦ trivial⟩

theorem Emit.Supply.every : Supply (fun _ ↦ True) fun _ ↦ True := .all fun _ _ ↦ trivial

/-- What placing and wiring blocks can lead to. -/
structure Emit.Layout where
  shapes : BlockShape → Prop
  fed : Terminal → Prop
  supply : Supply shapes fed
  rel : Emitter → Emitter → Prop
  trans {s₁ s₂ s₃ : Emitter} (h : rel s₁ s₂) (h' : rel s₂ s₃) : rel s₁ s₃
  quiet {s s' : Emitter} (h : s.Quiet fed s') : rel s s'
  place (s : Emitter) (shape : BlockShape) (h : shapes shape) : rel s (s.placed shape)

/-- The state after a block that takes a variable apart is used. -/
def Emitter.sharing (s : Emitter) (x : Variable) (cache : BreakCache) : Emitter :=
  { s with breaks := s.breaks.insert x cache }

/-- A component of a variable is read. -/
def Emitter.Serves (c : Slot) (s s' : Emitter) : Prop :=
  ∃ span axis t, Yields (Emit.readAxis (.slot c) span axis) s (some t) s'

/-- What steps of emission can lead to. -/
structure Emit.Frame extends Layout where
  group {s s' : Emitter} (h : rel s.inside s') : rel s s'.outside
  share {s s' : Emitter} (x : Variable) (cache : BreakCache) (h : rel s s')
    (hx : ∀ c, x = .slot c → s.Serves c (s'.sharing x cache)) : rel s (s'.sharing x cache)

namespace Emit

instance : Coe Frame Layout := ⟨Frame.toLayout⟩

variable {F : Layout} {α β : Type} {x : Emit α}

/-- No layout refuses a block for data. -/
theorem Layout.passive (F : Layout) (h : shape.IsData := by decide) :
    F.shapes shape := F.supply.passive shape h

/-- The computation leads to a state that the layout allows, and if it stops it does so because of
the statement. -/
def KeepsAt (F : Layout) (s : Emitter) (x : Emit α) : Prop :=
  F.rel s (x.run s).2 ∧ Outcome Stop.Local (fun _ ↦ True) (x.run s).1

/-- The computation does so from every state. -/
def Keeps (F : Layout) (x : Emit α) : Prop := ∀ s, KeepsAt F s x

/-- What the computation does may depend on the state it starts in. -/
theorem keeps_get_bind {f : Emitter → Emit α} (hf : ∀ s, KeepsAt F s (f s)) :
    Keeps F (get >>= f) := hf

/-- To return a value or to stop leaves the state as it is. -/
theorem Keeps.pure {a : α} : Keeps F (pure a) := fun _ ↦ ⟨F.quiet .refl, trivial⟩

@[inherit_doc Keeps.pure]
theorem Keeps.breach {b : Breach} : Keeps F (breach b : Emit α) := fun _ ↦ ⟨F.quiet .refl, trivial⟩

@[inherit_doc Keeps.pure]
theorem Keeps.complain {c : Complaint} : Keeps F (complain c span : Emit α) :=
  fun _ ↦ ⟨F.quiet .refl, rfl⟩

/-- Computations that keep to a layout do so one after the other. -/
theorem Keeps.bind {f : α → Emit β} (hx : Keeps F x) (hf : ∀ a, Keeps F (f a)) :
    Keeps F (x >>= f) := by
  intro s
  obtain ⟨hstate, houtcome⟩ := hx s
  rcases hrun : x.run s with ⟨e | a, s'⟩
  · rw [KeepsAt, run_bind_of_error hrun]
    rw [hrun] at hstate houtcome
    exact ⟨hstate, houtcome⟩
  · rw [KeepsAt, run_bind_of_ok hrun]
    rw [hrun] at hstate
    exact ⟨F.trans hstate (hf a s').1, (hf a s').2⟩

/-- The state that a computation leaves is one that the layout allows. -/
theorem Keeps.rel_of_yields {a : α} (hx : Keeps F x) (h : Yields x s a s') : F.rel s s' := by
  have hrel := (hx s).1
  rwa [show _ = _ from h] at hrel

@[inherit_doc Keeps.bind]
theorem Keeps.map {f : α → β} (hx : Keeps F x) : Keeps F (do return f (← x)) :=
  hx.bind fun _ ↦ .pure

/-- A complaint unless a condition holds. -/
theorem keepsAt_unless {c : Prop} [Decidable c] {complaint : Complaint} {f : PUnit → Emit α}
    (hf : Keeps F (f ⟨⟩)) :
    KeepsAt F s (if c then f ⟨⟩ else Emit.complain complaint span >>= f) := by
  split
  · exact hf s
  · exact Keeps.complain.bind (fun _ ↦ hf) s

/-- The state may be changed as long as no block is placed and only wires for data are added. -/
theorem keeps_modify {f : Emitter → Emitter} (hf : ∀ s : Emitter, s.Quiet F.fed (f s) := by
      exact fun _ ↦ ⟨⟨rfl, .refl, rfl, rfl, rfl, rfl⟩, rfl, rfl⟩) :
    Keeps F (modify f : Emit PUnit) :=
  fun s ↦ ⟨F.quiet (hf s), trivial⟩

/-- A lookup that may fail leaves the state as it is. -/
theorem keeps_lift {x : Except Fault α} (h : ∀ f, x = .error f → f.Local) :
    Keeps F (liftM x : Emit α) := by
  cases x with
  | error f => exact fun _ ↦ ⟨F.quiet .refl, h f rfl⟩
  | ok a => exact fun _ ↦ ⟨F.quiet .refl, trivial⟩

/-- What comes after a lookup need only be known for what can be found. -/
theorem keeps_lift_bind {x : Except Fault α} (h : ∀ f, x = .error f → f.Local) {f : α → Emit β}
    (hf : ∀ a, x = .ok a → Keeps F (f a)) : Keeps F (liftM x >>= f) := by
  cases x with
  | error f => exact fun _ ↦ ⟨F.quiet .refl, h f rfl⟩
  | ok a => exact hf a rfl

/-! ### Terminals of blocks -/

end Emit

namespace Block

variable {b : Block} {f : Fault}

/-- A terminal belongs to the block that was asked for it. -/
theorem block_of_inputAt (h : b.inputAt i = .ok t) : t.block = b.id := by
  unfold inputAt at h
  split at h <;> cases h
  rfl

@[inherit_doc block_of_inputAt]
theorem block_of_input (h : b.input name = .ok t) : t.block = b.id := by
  unfold input at h
  split at h
  · exact block_of_inputAt h
  · cases h

@[inherit_doc block_of_inputAt]
theorem block_of_output (h : b.output name = .ok t) : t.block = b.id := by
  unfold output outputAt at h
  split at h
  · split at h <;> cases h
    rfl
  · cases h

/-- Only the first input of a block that runs takes execution. -/
theorem data_of_input {id : Nat} {inputs outputs : List (String × WireType)} {input : String}
    (hinputs : ∀ entry ∈ inputs, entry.2 ≠ .void) (hname : input ≠ "Before")
    (h : (Block.mk id (.active name inputs outputs)).input input = .ok t) : t.wire ≠ .void := by
  unfold Block.input at h
  split at h
  · next i hi =>
    obtain ⟨hlt, heq, -⟩ := findIdx?_eq_some_iff_getElem.1 hi
    unfold inputAt at h
    rw [getElem?_eq_getElem hlt] at h
    cases h
    have hmem := getElem_mem hlt
    rcases mem_cons.1 hmem with hfirst | hrest
    · rw [hfirst] at heq
      exact absurd (eq_of_beq heq).symm hname
    · obtain ⟨entry, hentry, heq⟩ := mem_map.1 hrest
      exact heq ▸ hinputs entry hentry
  · cases h

/-- That a block has no such terminal is a fault about the block. -/
theorem local_of_inputAt (h : b.inputAt i = .error f) : f.Local := by
  unfold inputAt at h
  split at h
  · cases h
  · cases h
    trivial

@[inherit_doc local_of_inputAt]
theorem local_of_outputAt (h : b.outputAt i = .error f) : f.Local := by
  unfold outputAt at h
  split at h
  · cases h
  · cases h
    trivial

@[inherit_doc local_of_inputAt]
theorem local_of_input (h : b.input name = .error f) : f.Local := by
  unfold input at h
  split at h
  · exact local_of_inputAt h
  · cases h
    trivial

@[inherit_doc local_of_inputAt]
theorem local_of_output (h : b.output name = .error f) : f.Local := by
  unfold output at h
  split at h
  · exact local_of_outputAt h
  · cases h
    trivial

end Block

namespace Emit

variable {F : Layout} {α : Type}

theorem keeps_outputAt {b : Block} : Keeps F (liftM (b.outputAt i) : Emit Terminal) :=
  keeps_lift fun _ ↦ Block.local_of_outputAt

/-- A block of an allowed shape may be placed, whatever its number is. -/
theorem keeps_place (h : F.shapes shape) {f : Block → Emit α} (hf : ∀ id, Keeps F (f ⟨id, shape⟩)) :
    Keeps F (place shape >>= f) := by
  intro s
  obtain ⟨hstate, houtcome⟩ := hf s.placement.blocks.length (s.placed shape)
  exact ⟨F.trans (F.place s shape h) hstate, houtcome⟩

/-- A layout says nothing about the values that are stored in blocks. -/
theorem keeps_setValue (block : Block) (slot : Nat) (value : BlockValue) :
    Keeps F (setValue block slot value) := keeps_modify

/-- An input may be wired if it is of the allowed sort. -/
theorem keeps_connect (source : Terminal) (h : F.fed target) : Keeps F (connect source target) :=
  keeps_modify fun _ ↦
    ⟨⟨rfl, ⟨[⟨source, target⟩], rfl, forall_mem_singleton.2 h⟩, rfl, rfl, rfl, rfl⟩, rfl, rfl⟩

@[inherit_doc keeps_connect]
theorem keeps_feed (source : Feed) (h : F.fed target) : Keeps F (feed source target) := by
  cases source with
  | none => exact .pure
  | some t => exact keeps_connect t h

/-- Inputs from a position on are wired one by one. -/
theorem keeps_feedAll (h : shape.FedFrom F.fed i) (id : Nat) (sources : List Feed) :
    Keeps F (feedAll ⟨id, shape⟩ i sources) := by
  induction sources generalizing i with
  | nil => exact .pure
  | cons source rest ih =>
    rw [feedAll]
    refine keeps_lift_bind (fun _ ↦ Block.local_of_inputAt) fun t ht ↦
      (keeps_feed _ (h id i t (Nat.le_refl i) ht)).bind fun _ ↦ ih ?_
    exact fun id j t hj ↦ h id j t (Nat.le_of_succ_le hj)

/-- A block of an allowed shape may be wired, too. -/
theorem keeps_operator (h : F.shapes shape) (inputs : List Feed) :
    Keeps F (operator shape inputs) :=
  keeps_place h fun id ↦ (keeps_feedAll (F.supply.inputs shape h) id inputs).map

@[inherit_doc keeps_operator]
theorem keeps_compute (h : F.shapes shape) (inputs : List Feed) : Keeps F (compute shape inputs) :=
  (keeps_operator h inputs).bind fun _ ↦ keeps_outputAt.map

/-- A constant is a block without inputs, or none at all. -/
theorem keeps_literal (h : F.shapes shape) (value : Option BlockValue) :
    Keeps F (constant.literal shape value) := by
  refine keeps_place h fun id ↦ ?_
  cases value with
  | none => exact keeps_outputAt.map
  | some v =>
    exact (keeps_setValue _ _ _).bind fun _ ↦ keeps_outputAt.map

@[inherit_doc keeps_literal]
theorem keeps_constant (value : Value) : Keeps F (constant value) := by
  match value with
  | .float v | .vector3 v | .rotation v => exact keeps_literal F.passive _
  | .bool true | .bool false => exact keeps_literal F.passive _
  | .null => exact .pure

theorem keeps_negation (input : Feed) : Keeps F (negation input) :=
  keeps_compute F.passive _

/-- Vectors are put together and taken apart by blocks for data. -/
theorem keeps_make (type : Ty) (components : Triple Feed) : Keeps F (make type components) := by
  refine keeps_compute (F.passive ?_) _
  unfold Catalog.makeFor
  split <;> decide

@[inherit_doc keeps_make]
theorem keeps_breakApart (type : Ty) (source : Feed) : Keeps F (breakApart type source) := by
  have houtput (b : Block) (i : Nat) : Keeps F (liftM (b.outputAt i) : Emit Terminal) :=
    keeps_outputAt
  refine (keeps_operator (F.passive ?_) _).bind fun b ↦
    (houtput b 0).bind fun _ ↦ (houtput b 1).bind fun _ ↦ (houtput b 2).map
  unfold Catalog.breakFor
  split <;> decide

theorem keeps_eachAxis {f : Axis → Emit Feed} (hf : ∀ axis, Keeps F (f axis)) :
    Keeps F (eachAxis f) :=
  (hf .x).bind fun _ ↦ (hf .y).bind fun _ ↦ (hf .z).map

@[inherit_doc keeps_modify]
theorem keepsAt_set_bind {f : PUnit → Emit α} (hf : Keeps F (f ⟨⟩)) (hs : s.Quiet F.fed s' := by
      exact ⟨⟨rfl, .refl, rfl, rfl, rfl, rfl⟩, rfl, rfl⟩) : KeepsAt F s (set s' >>= f) :=
  ⟨F.trans (F.quiet hs) (hf s').1, (hf s').2⟩

/-- A variable without a cell is read at most as often as is allowed, and there is a complaint
otherwise. -/
theorem keeps_inlineFeed (x : Variable) (span : Span) : Keeps F (inlineFeed x span) := by
  refine keeps_get_bind fun s ↦ ?_
  split
  · exact Keeps.complain s
  · dsimp only
    refine keepsAt_set_bind ?_
    split
    · exact .complain
    · exact .pure

/-- A cell is read by a block for data. -/
theorem keeps_cellFeed (x : Variable) : Keeps F (cellFeed x) := by
  unfold cellFeed
  split
  · exact .breach
  · next shape hshape =>
    obtain ⟨wire, -, hshape⟩ := Option.bind_eq_some_iff.1 hshape
    obtain ⟨-, w, -, -, rfl⟩ := Catalog.of_variant? hshape
    exact keeps_place (F.passive (by simp [BlockShape.IsData, BlockShape.source])) fun _ ↦
      (keeps_setValue _ _ _).bind fun _ ↦ keeps_outputAt.map

variable {F : Frame}

/-- The blocks of an expression may stand in a group of their own. -/
theorem keeps_inExpression {a : Emit α} (ha : Keeps F a) : Keeps F (inExpression a) :=
  fun s ↦ ⟨F.group (ha s.inside).1, (ha s.inside).2⟩

section Component

variable {x : Variable} {a : Emit Feed} {axis : Axis} {cache : BreakCache}

/-- A block that has taken the variable apart is used again as long as that is allowed. -/
theorem run_component_of_some (hx : x.isInline = false)
    (h : (s.breaks.get? x).bind (·.take? axis s.options.breakReuse) = some (t, cache)) :
    (component x a axis).run s = (.ok (some t), s.sharing x cache) := by
  rw [component, if_neg (by simp [hx])]
  refine run_get_bind.trans ?_
  simp only [h]
  rfl

/-- Otherwise the variable is taken apart, by a block that can be used again. -/
theorem run_component_of_none (hx : x.isInline = false)
    (h : (s.breaks.get? x).bind (·.take? axis s.options.breakReuse) = none) :
    (component x a axis).run s = (do
      let outputs ← breakApart x.type (← a)
      modify fun s ↦ s.sharing x { outputs := outputs, uses := (Triple.splat 0).set axis 1 }
      return some (outputs.get axis) : Emit Feed).run s := by
  rw [component, if_neg (by simp [hx])]
  refine run_get_bind.trans ?_
  simp only [h]
  rfl

end Component

/-- In both cases a component was read, and the block may be shared from then on. -/
theorem keeps_component {x : Variable} (hsource : Keeps F (read span x)) (axis : Axis) :
    Keeps F (component x (read span x) axis) := by
  have hserves {s s' : Emitter} {t : Terminal}
      (h : (component x (read span x) axis).run s = (.ok (some t), s')) (c : Slot)
      (hc : x = .slot c) : s.Serves c s' := by
    subst hc
    exact ⟨span, axis, t, h⟩
  intro s
  cases hx : x.isInline with
  | true =>
    rw [component, if_pos hx]
    exact hsource.bind (fun _ ↦ (keeps_breakApart _ _).map) s
  | false =>
    cases htake : (s.breaks.get? x).bind (·.take? axis s.options.breakReuse) with
    | some entry =>
      have hrun := run_component_of_some (a := read span x) hx htake
      rw [KeepsAt, hrun]
      exact ⟨F.share x _ (F.quiet .refl) (hserves hrun), trivial⟩
    | none =>
      have hrun := run_component_of_none (a := read span x) hx htake
      have hparts := hsource.bind (fun feed ↦ keeps_breakApart (F := F) x.type feed) s
      rw [← bind_assoc] at hrun
      rw [KeepsAt] at hparts
      rcases houtputs : (read span x >>= breakApart x.type).run s with ⟨e | outputs, s'⟩
      · rw [houtputs] at hparts
        rw [KeepsAt, hrun, run_bind_of_error houtputs]
        exact hparts
      · rw [houtputs] at hparts
        rw [run_bind_of_ok houtputs] at hrun
        rw [KeepsAt, hrun]
        exact ⟨F.share x _ hparts.1 (hserves hrun), trivial⟩

/-- A variable is read from the outside in: its cell first, and then one component after the other. -/
theorem keeps_read (span : Span) (x : Variable) : Keeps F (read span x) := by
  induction x with
  | slot s =>
    rw [read]
    split
    · exact keeps_inlineFeed _ _
    · exact keeps_cellFeed _
  | component base axis origin ih => exact keeps_component ih axis

theorem keeps_readAxis (x : Variable) (span : Span) (axis : Axis) :
    Keeps F (readAxis x span axis) :=
  keeps_component (keeps_read span x) axis

end Emit

/-- Both ways to ask for the value keep to the frame. -/
structure Source.Keeps (F : Emit.Frame) (source : Source) : Prop where
  whole : Emit.Keeps F source.whole
  parts : Emit.Keeps F source.parts

namespace Emit

variable {F : Frame} {left right operand : Source}

theorem keeps_operandParts (type : Ty) (h : operand.Keeps F) :
    Keeps F (operandParts type operand) := by
  unfold operandParts
  split
  · exact h.parts
  · exact h.whole.map

theorem keeps_rotationsEqual (hl : left.Keeps F) (hr : right.Keeps F) :
    Keeps F (rotationsEqual left right) := by
  have hequal (inputs : List Feed) : Keeps F (compute Catalog.equalNumbers inputs) :=
    keeps_compute F.passive _
  have hand (inputs : List Feed) : Keeps F (compute Catalog.and inputs) := keeps_compute F.passive _
  exact hl.parts.bind fun _ ↦ hr.parts.bind fun _ ↦ (hequal _).bind fun _ ↦ (hequal _).bind fun _ ↦
    (hand _).bind fun _ ↦ (hequal _).bind fun _ ↦ hand _

theorem keeps_pair (hshape : F.shapes shape) (hl : left.Keeps F) (hr : right.Keeps F) :
    Keeps F (pair shape left right) :=
  hl.whole.bind fun _ ↦ hr.whole.bind fun _ ↦ keeps_compute hshape _

/-- The block that computes an operator, one or several times. -/
def Recipe.shape? : Recipe → Option BlockShape
  | .block shape | .negated shape | .swapped shape | .perAxis shape _ => some shape
  | .rotationsEqual | .rotationsDiffer => none

/-- Nothing runs to compute an operator. -/
def Recipe.Passive (recipe : Recipe) : Prop := ∀ shape ∈ recipe.shape?, shape.IsData

instance (recipe : Recipe) : Decidable recipe.Passive :=
  inferInstanceAs (Decidable (∀ _ ∈ _, _))

/-- There is a block for data behind each operator, for all types of operands. -/
theorem passive_of_recipe? {op : BinaryOp} {left right : Ty}
    (h : recipe? op left right = some recipe) : recipe.Passive := by
  have hnumber {recipe : Recipe} (h : numberRecipe? op = some recipe) : recipe.Passive := by
    cases op <;> cases h <;> decide
  have hvector {recipe : Recipe} (h : vectorRecipe? op = some recipe) : recipe.Passive := by
    cases op <;> cases h <;> decide
  have hrotation {recipe : Recipe} (h : rotationRecipe? op = some recipe) : recipe.Passive := by
    cases op <;> cases h <;> decide
  unfold recipe? at h
  split at h
  case h_1 => exact hnumber h
  case h_8 => exact hvector h
  case h_14 => exact hrotation h
  all_goals
    cases h <;> decide

/-- Operators are computed by blocks for data alone. -/
theorem keeps_cook (hrecipe : recipe.Passive) (leftType rightType : Ty) (hl : left.Keeps F)
    (hr : right.Keeps F) : Keeps F (cook recipe leftType rightType left right) := by
  have hshape {shape : BlockShape} (h : recipe.shape? = some shape) : F.shapes shape :=
    F.supply.passive shape (hrecipe shape h)
  match recipe with
  | .block shape => exact keeps_pair (hshape rfl) hl hr
  | .negated shape => exact (keeps_pair (hshape rfl) hl hr).bind keeps_negation
  | .swapped shape =>
    exact hl.whole.bind fun _ ↦ hr.whole.bind fun _ ↦ keeps_compute (hshape rfl) _
  | .perAxis shape type =>
    exact (keeps_operandParts _ hl).bind fun _ ↦ (keeps_operandParts _ hr).bind fun _ ↦
      (keeps_eachAxis fun _ ↦ keeps_compute (hshape rfl) _).bind fun _ ↦
      keeps_make _ _
  | .rotationsEqual => exact keeps_rotationsEqual hl hr
  | .rotationsDiffer => exact (keeps_rotationsEqual hl hr).bind fun _ ↦ keeps_negation _

@[inherit_doc keeps_cook]
theorem keeps_binary (op : BinaryOp) (leftType rightType : Ty) (hl : left.Keeps F)
    (hr : right.Keeps F) : Keeps F (binary op leftType rightType left right) := by
  unfold binary
  split
  · next recipe hrecipe => exact keeps_cook (passive_of_recipe? hrecipe) _ _ hl hr
  · exact .breach

@[inherit_doc keeps_cook]
theorem keeps_unary (op : UnaryOp) (type : Ty) (h : operand.Keeps F) :
    Keeps F (unary op type operand) := by
  have hnegate (inputs : List Feed) : Keeps F (compute Catalog.negate inputs) :=
    keeps_compute F.passive inputs
  unfold unary
  split
  · exact h.whole
  · exact h.whole.bind keeps_negation
  · exact h.whole.bind fun _ ↦ hnegate _
  · exact h.whole.bind fun _ ↦ (keeps_constant _).bind fun _ ↦
      keeps_compute F.passive _
  · exact h.parts.bind fun _ ↦ (keeps_eachAxis fun _ ↦ hnegate _).bind fun _ ↦
      keeps_make _ _
  · exact .breach

@[inherit_doc keeps_cook]
theorem keeps_convert (source target : Ty) (h : operand.Keeps F) :
    Keeps F (convert source target operand) := by
  unfold convert
  split
  · exact h.whole
  · split
    · exact h.parts.bind fun _ ↦ keeps_make _ _
    · exact .breach

end Emit

/-- The block that computes a built-in function. -/
def Callee.passive? : Callee → Option BlockShape
  | .builtin b _ => match b.emission with
    | .passive shape => some shape
    | _ => none
  | .routine _ => none

/-- The block that runs for a call of a built-in function. -/
def Callee.active? : Callee → Option BlockShape
  | .builtin b _ => match b.emission with
    | .active shape => some shape
    | _ => none
  | .routine _ => none

/-- The blocks of the built-in functions that are called. -/
def shapeVisitor : Visitor BlockShape where
  expr
    | .call _ callee _ => callee.passive?.toList
    | _ => []
  stmt
    | .call _ callee _ _ => callee.passive?.toList
    | _ => []

/-- The blocks are those of all the callees. -/
theorem Stmt.mem_shapes_iff {s : Stmt} : shape ∈ s.visit shapeVisitor ↔
    ∃ c ∈ s.visit calleeVisitor, shape ∈ c.passive? := by
  have hnode (n : Expr ⊕ Stmt) : shape ∈ shapeVisitor.node n ↔
      ∃ c ∈ calleeVisitor.node n, shape ∈ c.passive? := by
    rcases n with e | t
    · cases e <;> simp [Visitor.node, shapeVisitor, calleeVisitor]
    · cases t <;> simp [Visitor.node, shapeVisitor, calleeVisitor]
  simp only [Stmt.mem_visit_iff (v := shapeVisitor), Stmt.mem_visit_iff (v := calleeVisitor), hnode]
  constructor
  · rintro ⟨n, hn, c, hc, h⟩
    exact ⟨c, ⟨n, hn, hc⟩, h⟩
  · rintro ⟨c, ⟨n, hn, hc⟩, h⟩
    exact ⟨n, hn, c, hc, h⟩

/-- The callee is a routine, or a built-in function that there is. -/
def Callee.Known : Callee → Prop
  | .builtin b _ => b ∈ Builtin.all
  | .routine _ => True

instance : DecidablePred Callee.Known
  | .builtin b _ => inferInstanceAs (Decidable (b ∈ Builtin.all))
  | .routine _ => inferInstanceAs (Decidable True)

/-- The blocks of the built-in functions take execution through the first input of a block that runs
and nowhere else. -/
theorem Callee.Known.takesData {c : Callee} (h : c.Known) : (∀ shape ∈ c.passive?, shape.IsData) ∧
    ∀ shape ∈ c.active?, ∀ t ∈ shape.inputs.tail, t.wire ≠ .void := by
  have hall : ∀ b ∈ Builtin.all, (∀ shape ∈ (Callee.builtin b .void).passive?, shape.IsData) ∧
      ∀ shape ∈ (Callee.builtin b .void).active?, ∀ t ∈ shape.inputs.tail, t.wire ≠ .void := by
    decide +kernel
  cases c with
  | routine r => exact ⟨by simp [passive?], by simp [active?]⟩
  | builtin b t => exact hall b h

/-- The blocks of the built-in functions that the expression calls are of some shapes. -/
abbrev Expr.Uses (shapes : BlockShape → Prop) (e : Expr) : Prop :=
  ∀ shape ∈ e.visit shapeVisitor, shapes shape

@[inherit_doc Uses]
abbrev Expr.AllUse (shapes : BlockShape → Prop) (es : List Expr) : Prop :=
  ∀ shape ∈ visitAll shapeVisitor es, shapes shape

namespace Emit

variable {F : Frame}

/-- Arguments are evaluated from left to right, but for those that take an output. -/
theorem keeps_inputs {arguments : List (Parameter × Source)}
    (h : ∀ entry ∈ arguments, entry.2.Keeps F) : Keeps F (inputs arguments) := by
  induction arguments with
  | nil => exact .pure
  | cons entry rest ih =>
    obtain ⟨hentry, hrest⟩ := forall_mem_cons.1 h
    rw [inputs]
    split
    · exact ih hrest
    · exact hentry.whole.bind fun _ ↦ (ih hrest).map

theorem keeps_builtinBlock (hshape : F.shapes shape) (b : Builtin) {arguments : List Source}
    (h : ∀ source ∈ arguments, source.Keeps F) : Keeps F (builtinBlock shape b arguments) := by
  refine (keeps_inputs fun entry hentry ↦ ?_).bind fun _ ↦ keeps_operator hshape _
  exact h _ (of_mem_zip hentry).2

/-- An element of an array is selected by a block for data. -/
theorem keeps_element (array : Ty) (base index : Feed) : Keeps F (element array base index) := by
  unfold element
  split
  · exact .breach
  · next shape hshape =>
    obtain ⟨wire, -, hshape⟩ := Option.bind_eq_some_iff.1 hshape
    obtain ⟨word, w, -, hw, rfl⟩ := Catalog.of_variant? hshape
    have hdata : BlockShape.IsData (.passive ("List " ++ word)
        [("Variable", w.toPointer), ("Index", .float)] [("Element", w.toPointer)]) := by
      simp [BlockShape.IsData, BlockShape.passive, hw]
    exact (keeps_operator (F.passive hdata) _).bind fun _ ↦
      keeps_lift fun _ ↦ Block.local_of_output

theorem keeps_blockAt (arguments : List Expr) (span : Span) : Keeps F (blockAt arguments span) := by
  refine keeps_get_bind fun s ↦ keepsAt_unless ?_
  split
  · split
    · exact keeps_place F.passive fun _ ↦
        (keeps_setValue _ _ _).bind fun _ ↦ keeps_outputAt.map
    · exact .complain
  · exact .breach

@[inherit_doc keeps_element]
theorem keeps_elementOf (arguments : List Expr) (h : ∀ source ∈ sources, source.Keeps F) :
    Keeps F (elementOf arguments sources) := by
  unfold elementOf
  split
  · next array _ base index =>
    exact (h base (by simp)).whole.bind fun _ ↦ (h index (by simp)).whole.bind fun _ ↦
      (keeps_element _ _ _).map
  · exact .breach

/-- A call whose value is needed places the block of a built-in function and nothing else that runs.
-/
theorem keeps_callData {callee : Callee} (hcallee : ∀ shape ∈ callee.passive?, F.shapes shape)
    (arguments : List Expr) (h : ∀ source ∈ sources, source.Keeps F) (span : Span) :
    Keeps F (callData callee arguments sources span) := by
  unfold callData
  split
  · exact .breach
  · next b type =>
    split
    · next shape hshape =>
      have hpassive : F.shapes shape := hcallee shape (by simp [Callee.passive?, hshape])
      split
      · exact .breach
      · refine (keeps_builtinBlock hpassive b h).bind fun _ ↦ ?_
        split
        · exact .pure
        · exact keeps_outputAt.map
    · exact keeps_elementOf _ h
    · exact keeps_blockAt _ _
    all_goals exact .breach

/-- A value that is known becomes a constant, and any other one is computed. -/
theorem keeps_ofForm (note : Note) {form : Emit Feed} (hform : Keeps F form)
    {components : Option (Emit (Triple Feed))} (hcomponents : ∀ c ∈ components, Keeps F c) :
    (Source.ofForm note form components).Keeps F := by
  have hwhole : Keeps F (Source.ofForm note form components).whole := by
    unfold Source.ofForm
    split
    · exact keeps_constant _
    · exact hform
  refine ⟨hwhole, ?_⟩
  unfold Source.ofForm
  dsimp only
  split
  · exact keeps_eachAxis fun _ ↦ keeps_constant _
  · cases components with
    | none => exact hwhole.bind fun _ ↦ (keeps_breakApart _ _).map
    | some c => exact hcomponents c rfl

end Emit

mutual

/-- Emission of an expression keeps to every frame that allows the blocks of its built-in
functions. -/
theorem Expr.keeps_source {F : Emit.Frame} {e : Expr} (he : e.Uses F.shapes) :
    e.source.Keeps F := by
  match e with
  | .literal n value =>
    rw [Expr.source]
    exact Emit.keeps_ofForm n (Emit.keeps_constant value) nofun
  | .read n x =>
    refine Emit.keeps_ofForm n (Emit.keeps_read _ _) fun c hc ↦ ?_
    split at hc
    · cases hc
    · cases hc
      exact Emit.keeps_eachAxis fun axis ↦ Emit.keeps_readAxis x n.span axis
  | .unary n op operand =>
    exact Emit.keeps_ofForm n (Emit.keeps_unary _ _ (keeps_source (e := operand) he)) nofun
  | .binary n op left right =>
    have hboth : ∀ shape ∈ left.visit shapeVisitor ++ right.visit shapeVisitor, F.shapes shape := he
    obtain ⟨hl, hr⟩ := forall_mem_append.1 hboth
    exact Emit.keeps_ofForm n
      (Emit.keeps_binary _ _ _ (keeps_source hl) (keeps_source hr)) nofun
  | .make n x y z =>
    have hall : ∀ shape ∈ x.visit shapeVisitor ++ y.visit shapeVisitor ++ z.visit shapeVisitor,
      F.shapes shape := he
    obtain ⟨hxy, hz⟩ := forall_mem_append.1 hall
    obtain ⟨hx, hy⟩ := forall_mem_append.1 hxy
    have hcomponents : Emit.Keeps F (do
        return ⟨← x.source.whole, ← y.source.whole, ← z.source.whole⟩ : Emit (Triple Feed)) :=
      (keeps_source hx).whole.bind fun _ ↦ (keeps_source hy).whole.bind fun _ ↦
        (keeps_source hz).whole.map
    refine Emit.keeps_ofForm n ?_ fun c hc ↦ ?_
    · exact hcomponents.bind fun _ ↦ Emit.keeps_make _ _
    · cases hc
      exact hcomponents
  | .call n callee arguments =>
    obtain ⟨hcallee, harguments⟩ := forall_mem_append.1 he
    exact Emit.keeps_ofForm n (Emit.keeps_callData
      (fun shape hshape ↦ hcallee shape (Option.mem_toList.2 hshape)) arguments
      (keeps_sources harguments) n.span) nofun
  | .convert n operand =>
    exact Emit.keeps_ofForm n (Emit.keeps_convert _ _ (keeps_source (e := operand) he)) nofun
  | .step .. | .segment .. | .assign .. | .compound .. | .error _ | .statement .. =>
    exact Emit.keeps_ofForm _ .breach nofun

@[inherit_doc Expr.keeps_source]
theorem Expr.keeps_sources {F : Emit.Frame} {es : List Expr} (hes : AllUse F.shapes es) :
    ∀ source ∈ Expr.sources es, source.Keeps F := by
  match es with
  | [] =>
    rw [Expr.sources]
    simp
  | e :: rest =>
    obtain ⟨he, hrest⟩ := forall_mem_append.1 hes
    exact forall_mem_cons.2 ⟨keeps_source he, keeps_sources hrest⟩

end

/-! ### Data of statements -/

namespace Emit

variable {shapes : BlockShape → Prop} {F : Frame}

/-- A mention of a variable calls no built-in function. -/
theorem visit_read (x : Variable) (span : Span) : (Build.read x span).Uses shapes := by
  simp [Uses, Build.read, visit, shapeVisitor]

@[inherit_doc visit_read]
theorem visit_stepped (x : Variable) (down : Bool) (span : Span) :
    (Build.stepped x down span).Uses shapes := by
  simp [Uses, Build.stepped, Build.binary, Build.read, Build.float, Build.literal, visit,
    shapeVisitor]

@[inherit_doc visit_read]
theorem visit_float (value : Float32) (span : Span) : (Build.float value span).Uses shapes := by
  simp [Uses, Build.float, Build.literal, visit, shapeVisitor]

theorem visit_zip {parameters : List Variable} {arguments : List Expr}
    (h : AllUse shapes arguments) :
    ∀ entry ∈ parameters.zip arguments, entry.2.Uses shapes := by
  intro entry hentry shape hshape
  exact h shape (Expr.mem_visitAll (of_mem_zip hentry).2 hshape)

/-- The expressions of a statement are evaluated in groups, one after the other. -/
theorem keeps_valueOf {e : Expr} (he : e.Uses F.shapes) : Keeps F (valueOf e) :=
  keeps_inExpression (Expr.keeps_source he).whole

@[inherit_doc keeps_valueOf]
theorem keeps_values {es : List Expr} (h : AllUse F.shapes es) : Keeps F (values es) := by
  induction es with
  | nil => exact .pure
  | cons e rest ih =>
    obtain ⟨he, hrest⟩ := forall_mem_append.1 h
    exact (keeps_valueOf he).bind fun _ ↦ (ih hrest).map

variable {array index : Expr} (ha : array.Uses F.shapes) (hi : index.Uses F.shapes)

include ha hi

theorem keeps_indexed : Keeps F (indexed array index) :=
  (Expr.keeps_source ha).whole.bind fun _ ↦ (Expr.keeps_source hi).whole.bind fun _ ↦
    (keeps_element _ _ _).map

/-- An element that is written is found by its index, or as the one after the element that was written
last. -/
theorem keeps_elementTarget : Keeps F (elementTarget array index) := by
  unfold elementTarget
  split
  · refine keeps_get_bind fun s ↦ ?_
    split
    · have hnext (base : Feed) : Keeps F (do
          let step ← number 1
          return .pointer (← element array.type base step) : Emit ElementTarget) :=
        (keeps_constant _).bind fun _ ↦ (keeps_element _ _ _).map
      split
      · exact Keeps.pure.bind hnext s
      · exact (Expr.keeps_source ha).whole.bind hnext s
    · split
      · exact Keeps.pure s
      · exact keeps_indexed ha hi s
  · exact keeps_indexed ha hi

omit ha hi

theorem keeps_reference (argument : Expr) : Keeps F (reference argument) := by
  unfold reference
  split
  · exact .pure
  · exact .breach

/-- A setting of a sensor is a constant within bounds, and there is a complaint otherwise. -/
theorem keeps_setting (argument : Expr) : Keeps F (setting argument) := by
  unfold setting
  split
  · exact .complain
  · split
    · exact .complain
    · exact .pure

@[inherit_doc keeps_setting]
theorem keeps_eventArguments (event : Event) (arguments : List (EventParameter × Expr)) :
    Keeps F (eventArguments event arguments) := by
  induction arguments with
  | nil => exact .pure
  | cons entry rest ih =>
    rw [eventArguments]
    split
    · exact (keeps_setting _).bind fun _ ↦ ih.map
    · split
      · exact .breach
      · exact ih.map

@[inherit_doc keeps_setValue]
theorem keeps_setValues (block : Block) (slot : Nat) (values : List BlockValue) :
    Keeps F (setValues block slot values) := by
  induction values generalizing slot with
  | nil => exact .pure
  | cons value rest ih => exact (keeps_setValue _ _ _).bind fun _ ↦ ih _

end Emit

/-! ### Statements -/

namespace Assemble

section Attempt

variable {x : Emit Handle} {st st' : Emitter}

/-- An attempt that succeeds gives what was attempted. -/
theorem run_attempt_of_ok {h : Handle} (hx : x.run st = (.ok h, st')) :
    (Emit.attempt x).run st = (.ok h, st') := by
  have hx' : x st = (.ok h, st') := hx
  simp only [Emit.attempt, ExceptT.run, ExceptT.mk, bind, StateT.bind, hx']
  rfl

/-- A fault is handed on. -/
theorem run_attempt_of_fault {f : Fault} (hx : x.run st = (.error (.fault f), st')) :
    (Emit.attempt x).run st = (.error f, st') := by
  have hx' : x st = (.error (.fault f), st') := hx
  simp only [Emit.attempt, ExceptT.run, ExceptT.mk, bind, StateT.bind, hx']
  rfl

/-- A complaint is recorded, and the statement is passed over. -/
theorem run_attempt_of_complaint {d : Diagnostic} (hx : x.run st = (.error (.complaint d), st')) :
    (Emit.attempt x).run st = (.ok .pass, { st' with diagnostics := st'.diagnostics ++ [d] }) := by
  have hx' : x st = (.error (.complaint d), st') := hx
  simp only [Emit.attempt, ExceptT.run, ExceptT.mk, bind, StateT.bind, hx']
  rfl

end Attempt

end Assemble

/-- The state after a terminal is recorded that calls a routine. -/
def Emitter.calling (s : Emitter) (r : Routine) (entrance : Terminal) : Emitter :=
  { s with calls := s.calls.insert r ((s.calls.get? r).getD [] ++ [entrance]) }

end Wirescript
