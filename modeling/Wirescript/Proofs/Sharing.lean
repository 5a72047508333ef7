import Mathlib.Algebra.Order.Floor.Div
import Wirescript.Proofs.Nesting

/-!
# Blocks that take a variable apart are shared

A component of a stored vector or rotation is read from a block that takes the variable apart, and
the block serves further reads until one axis has been read as often as the limit says. Then it is
given up for a new one, with what was left of it on the other axes. Main statement: however the reads
of a routine come, no block serves more reads of an axis than allowed, the blocks are at least as many
as some axis needs by itself, and besides the first one there are only those that single axes force.

The last bound is amortised. Whenever a block is given up, the axis that is read has used it up, so it
is charged to that axis, and an axis pays for a block with as many reads as the limit says
(`Tally.frugal`).

With the limit zero a block serves the read that it was placed for and no other one, on any axis.
-/

namespace Wirescript

open List

/-- Reads of the components of a variable, each with the terminal that served it. -/
abbrev ReadLog := List (Axis × Terminal)

namespace ReadLog

variable {log : ReadLog} {limit node : ℕ} {uses : Axis → ℕ} {axis : Axis} {t : Terminal}

/-- How often an axis was read. -/
def reads (log : ReadLog) (axis : Axis) : ℕ := log.countP (·.1 = axis)

/-- How many of these reads a block served. -/
def readsFrom (log : ReadLog) (node : ℕ) (axis : Axis) : ℕ :=
  log.countP fun e ↦ e.2.block = node ∧ e.1 = axis

/-- The blocks that served. -/
def nodes (log : ReadLog) : Finset ℕ := (log.map (·.2.block)).toFinset

/-- The reads share blocks within a limit, and no more blocks than needed. -/
structure Shared (limit : ℕ) (log : ReadLog) : Prop where
  within (node : ℕ) (axis : Axis) : log.readsFrom node axis ≤ max 1 limit
  enough (axis : Axis) : log.reads axis ⌈/⌉ max 1 limit ≤ log.nodes.card
  /-- An axis that is not read adds nothing. -/
  frugal (h : 1 ≤ limit) (hlog : log ≠ []) : log.nodes.card ≤ 1 + (log.reads .x ⌈/⌉ limit - 1) +
    (log.reads .y ⌈/⌉ limit - 1) + (log.reads .z ⌈/⌉ limit - 1)
  alone (h : limit = 0) : log.nodes.card = log.length

/-- Where the reads stand: the block that serves at present, and how often it has done so. -/
structure Tally (limit : ℕ) (log : ReadLog) (node : ℕ) (uses : Axis → ℕ) : Prop where
  mem : node ∈ log.nodes
  counted (axis : Axis) : uses axis = log.readsFrom node axis
  within (id : ℕ) (axis : Axis) : log.readsFrom id axis ≤ max 1 limit
  enough (axis : Axis) :
    log.reads axis + max 1 limit ≤ log.nodes.card * max 1 limit + uses axis
  /-- Each block but the present one was used up on some axis, and read once more on it. -/
  frugal (h : 1 ≤ limit) : ∃ spent : Axis → ℕ,
    log.nodes.card = 1 + spent .x + spent .y + spent .z ∧ ∀ axis,
      spent axis * limit + uses axis ≤ log.reads axis ∧
      (spent axis = 0 ∨ spent axis * limit < log.reads axis)
  alone (h : limit = 0) : log.nodes.card = log.length

theorem reads_snoc (a : Axis) :
    reads (log ++ [(axis, t)]) a = log.reads a + if axis = a then 1 else 0 := by
  simp [reads, countP_append, countP_singleton]

theorem readsFrom_snoc (id : ℕ) (a : Axis) : readsFrom (log ++ [(axis, t)]) id a =
    log.readsFrom id a + if t.block = id ∧ axis = a then 1 else 0 := by
  simp [readsFrom, countP_append, countP_singleton]

theorem nodes_snoc : nodes (log ++ [(axis, t)]) = insert t.block log.nodes := by
  ext id
  simp [nodes]

theorem readsFrom_of_not_mem {id : ℕ} (h : id ∉ log.nodes) (a : Axis) : log.readsFrom id a = 0 := by
  refine countP_eq_zero.2 fun e he hserved ↦ h ?_
  have hid : e.2.block = id := (of_decide_eq_true hserved).1
  exact mem_toFinset.2 (mem_map.2 ⟨e, he, hid⟩)

/-- The present block serves once more. -/
theorem Tally.take (h : log.Tally limit node uses) (huses : uses axis < limit)
    (ht : t.block = node) :
    Tally limit (log ++ [(axis, t)]) node fun a ↦ uses a + if axis = a then 1 else 0 := by
  have hnodes : nodes (log ++ [(axis, t)]) = log.nodes := by
    rw [nodes_snoc, ht, Finset.insert_eq_of_mem h.mem]
  refine ⟨hnodes ▸ h.mem, fun a ↦ ?_, fun id a ↦ ?_, fun a ↦ ?_, fun hlimit ↦ ?_, fun hlimit ↦ ?_⟩
  · rw [readsFrom_snoc, h.counted]
    simp [ht]
  · have hwithin := h.within id a
    rw [readsFrom_snoc]
    split
    · next hserved =>
      obtain ⟨rfl, rfl⟩ := hserved
      rw [ht, ← h.counted axis]
      omega
    · exact hwithin
  · have henough := h.enough a
    rw [reads_snoc, hnodes]
    omega
  · obtain ⟨spent, hcard, hspent⟩ := h.frugal hlimit
    refine ⟨spent, hnodes ▸ hcard, fun a ↦ ?_⟩
    have hspent := hspent a
    rw [reads_snoc]
    omega
  · omega

/-- The first block is placed, or one for an axis on which the present one is used up. -/
theorem Tally.renew (h : log = [] ∨ ∃ node uses, log.Tally limit node uses ∧ limit ≤ uses axis)
    (ht : t.block ∉ log.nodes) :
    Tally limit (log ++ [(axis, t)]) t.block fun a ↦ if axis = a then 1 else 0 := by
  have hcard : (nodes (log ++ [(axis, t)])).card = log.nodes.card + 1 := by
    rw [nodes_snoc, Finset.card_insert_of_notMem ht]
  refine ⟨?_, fun a ↦ ?_, fun id a ↦ ?_, fun a ↦ ?_, fun hlimit ↦ ?_, fun hlimit ↦ ?_⟩
  · rw [nodes_snoc]
    exact Finset.mem_insert_self _ _
  · rw [readsFrom_snoc, readsFrom_of_not_mem ht]
    simp
  · rw [readsFrom_snoc]
    split
    · next hserved =>
      obtain ⟨rfl, rfl⟩ := hserved
      rw [readsFrom_of_not_mem ht]
      omega
    · rcases h with rfl | ⟨node, uses, h, -⟩
      · simp [readsFrom]
      · exact h.within id a
  · rw [reads_snoc, hcard, Nat.succ_mul]
    rcases h with rfl | ⟨node, uses, h, -⟩
    · simp [reads]
      omega
    · have henough := h.enough a
      have hwithin := h.within node a
      rw [← h.counted a] at hwithin
      omega
  · rw [hcard]
    rcases h with rfl | ⟨node, uses, h, hspent⟩
    · refine ⟨fun _ ↦ 0, by simp [nodes], fun a ↦ ?_⟩
      simp [reads]
    · obtain ⟨spent, hnodes, hreads⟩ := h.frugal hlimit
      -- the block that is given up is charged to the axis that is read
      refine ⟨fun a ↦ spent a + if axis = a then 1 else 0, ?_, fun a ↦ ?_⟩
      · rw [hnodes]
        cases axis <;> simp <;> omega
      · have hreads := hreads a
        rw [reads_snoc]
        by_cases heq : axis = a
        · subst heq
          simp only [if_true, Nat.add_mul]
          omega
        · simp only [heq, if_false, Nat.add_zero]
          omega
  · rw [hcard, List.length_append]
    rcases h with rfl | ⟨node, uses, h, -⟩
    · rfl
    · rw [h.alone hlimit]
      rfl

end ReadLog

/-! ### Reads in the course of emission -/

/-- What is known of a variable that was taken apart stays, and so do the blocks. -/
structure Emitter.Spares (c : Slot) (s s' : Emitter) : Prop where
  blocks : s.placement.blocks <+: s'.placement.blocks
  breaks : s'.breaks.get? (.slot c) = s.breaks.get? (.slot c)
  options : s'.options = s.options

/-- The reads of the components of a variable between two states, among other steps. -/
inductive Emitter.Reads (c : Slot) (s : Emitter) : ReadLog → Emitter → Prop
  | nil : Reads c s [] s
  | other {log : ReadLog} {s₁ s₂ : Emitter} (h : Reads c s log s₁) (hs : s₁.Spares c s₂) :
      Reads c s log s₂
  | read {log : ReadLog} {s₁ s₂ : Emitter} {span : Span} {axis : Axis} {t : Terminal}
      (h : Reads c s log s₁) (hread : Yields (Emit.readAxis (.slot c) span axis) s₁ (some t) s₂) :
      Reads c s (log ++ [(axis, t)]) s₂

variable {c : Slot} {log : ReadLog} {limit : ℕ} {s s' : Emitter}

theorem Emitter.Reads.trans {log' : ReadLog} {s'' : Emitter} (h : s.Reads c log s')
    (h' : s'.Reads c log' s'') : s.Reads c (log ++ log') s'' := by
  induction h' with
  | nil => rwa [append_nil]
  | other _ hs ih => exact ih.other hs
  | read _ hread ih =>
    rw [← append_assoc]
    exact ih.read hread

namespace Emit

/-- Placing and wiring blocks leaves the variables that were taken apart alone. -/
def sparing (c : Slot) : Layout where
  shapes _ := True
  fed _ := True
  supply := .every
  rel := Emitter.Spares c
  trans h h' := ⟨h.blocks.trans h'.blocks, h'.breaks.trans h.breaks, h'.options.trans h.options⟩
  quiet h := ⟨h.blocks ▸ prefix_refl _, h.breaks ▸ rfl, h.options⟩
  place _ _ _ := ⟨prefix_append _ _, rfl, rfl⟩

/-- A new block takes the value apart. -/
theorem of_yields_breakApart {type : Ty} {source : Feed} {outputs : Triple Terminal}
    (h : Yields (breakApart type source) s outputs s') :
    (∀ axis, (outputs.get axis).block = s.placement.blocks.length) ∧
      (s'.placement.blocks[s.placement.blocks.length]?).map (·.shape) =
        some (Catalog.breakFor type) := by
  obtain ⟨block, s₁, hblock, h⟩ := yields_bind.1 h
  obtain ⟨_, _, hplace, hblock⟩ := yields_bind.1 hblock
  cases hplace
  obtain ⟨_, _, hfeed, hblock⟩ := yields_bind.1 hblock
  cases hblock
  have hfed : (Catalog.breakFor type).FedFrom (sparing default).fed 0 := fun _ _ _ _ _ ↦ trivial
  have hblocks : (s.placed (Catalog.breakFor type)).placement.blocks <+: s₁.placement.blocks :=
    ((keeps_feedAll hfed _ _).rel_of_yields hfeed).blocks
  obtain ⟨more, hmore⟩ := hblocks
  have hdone : outputs = (Triple.mk 0 1 2).map (⟨s.placement.blocks.length, .output, ·, .float⟩) ∧
      s' = s₁ := by
    unfold Catalog.breakFor at h
    split at h
    all_goals
      cases h
      exact ⟨rfl, rfl⟩
  obtain ⟨rfl, rfl⟩ := hdone
  refine ⟨fun axis ↦ by cases axis <;> rfl, ?_⟩
  rw [← hmore]
  simp [Emitter.placed, Placement.place]

/-- A read of a stored variable: the block that took it apart last serves, or a new one does. -/
theorem of_yields_readAxis {span : Span} {axis : Axis} {t : Terminal}
    (hc : (Variable.slot c).isInline = false)
    (h : Yields (readAxis (.slot c) span axis) s (some t) s') :
    (∃ cache, s.breaks.get? (.slot c) = some cache ∧ cache.uses.get axis < s.options.breakReuse ∧
      t = cache.outputs.get axis ∧ s' = s.sharing (.slot c)
        { cache with uses := cache.uses.set axis (cache.uses.get axis + 1) }) ∨
    (∀ cache ∈ s.breaks.get? (.slot c), s.options.breakReuse ≤ cache.uses.get axis) ∧
      ∃ s₁ outputs, s.Spares c s₁ ∧ t = Triple.get outputs axis ∧
        (∀ axis, (outputs.get axis).block = t.block) ∧ s.placement.blocks.length ≤ t.block ∧
        (s₁.placement.blocks[t.block]?).map (·.shape) = some (Catalog.breakFor c.type) ∧
        s' = s₁.sharing (.slot c) { outputs := outputs, uses := (Triple.splat 0).set axis 1 } := by
  cases htake : (s.breaks.get? (.slot c)).bind (·.take? axis s.options.breakReuse) with
  | some entry =>
    obtain ⟨cache, hcache, hentry⟩ := Option.bind_eq_some_iff.1 htake
    have hrun := run_component_of_some (a := read span (.slot c)) hc htake
    cases hrun.symm.trans h
    unfold BreakCache.take? at hentry
    split at hentry
    · next hlt =>
      cases hentry
      exact .inl ⟨cache, hcache, hlt, rfl, rfl⟩
    · cases hentry
  | none =>
    have hrun := run_component_of_none (a := read span (.slot c)) hc htake
    obtain ⟨feed, s₁, hread, h⟩ := yields_bind.1 (hrun.symm.trans h)
    obtain ⟨outputs, s₂, hbreak, h⟩ := yields_bind.1 h
    cases h
    obtain ⟨hnode, hshape⟩ := of_yields_breakApart hbreak
    rw [read, if_neg (by simp [hc])] at hread
    have hs₁ := (keeps_cellFeed (F := sparing c) _).rel_of_yields hread
    have hs₂ := (keeps_breakApart (F := sparing c) _ _).rel_of_yields hbreak
    refine .inr ⟨fun cache hcache ↦ ?_, s₂, outputs, (sparing c).trans hs₁ hs₂, rfl,
      fun a ↦ (hnode a).trans (hnode axis).symm, hnode axis ▸ hs₁.blocks.length_le, ?_, rfl⟩
    · rw [hcache] at htake
      simpa [BreakCache.take?] using htake
    · rw [hnode axis]
      exact hshape

end Emit

/-- The reads so far are counted by what is known of the variable. -/
structure Emitter.Counts (c : Slot) (limit : ℕ) (log : ReadLog) (s : Emitter) : Prop where
  options : s.options.breakReuse = limit
  nodes (id : ℕ) (h : id ∈ log.nodes) :
    (s.placement.blocks[id]?).map (·.shape) = some (Catalog.breakFor c.type)
  empty (h : s.breaks.get? (.slot c) = none) : log = []
  tally (cache : BreakCache) (h : s.breaks.get? (.slot c) = some cache) :
    ∃ node, (∀ axis, (cache.outputs.get axis).block = node) ∧ log.Tally limit node cache.uses.get

namespace Emitter.Counts

theorem other (h : s.Counts c limit log) (hs : s.Spares c s') : s'.Counts c limit log where
  options := hs.options ▸ h.options
  nodes id hid := by
    obtain ⟨more, hmore⟩ := hs.blocks
    have hnode := h.nodes id hid
    obtain ⟨b, hb, -⟩ := Option.map_eq_some_iff.1 hnode
    rw [← hmore, getElem?_append_left (List.getElem?_eq_some_iff.1 hb).1]
    exact hnode
  empty hnone := h.empty (hs.breaks ▸ hnone)
  tally cache hcache := h.tally cache (hs.breaks ▸ hcache)

/-- A read of a component keeps the count. -/
theorem read {span : Span} {axis : Axis} {t : Terminal} (h : s.Counts c limit log)
    (hc : (Variable.slot c).isInline = false)
    (hread : Yields (Emit.readAxis (.slot c) span axis) s (some t) s') :
    s'.Counts c limit (log ++ [(axis, t)]) := by
  have hknown {s₁ : Emitter} {cache : BreakCache} (hs : s.Spares c s₁)
      (hshape : (s₁.placement.blocks[t.block]?).map (·.shape) = some (Catalog.breakFor c.type))
      (hnode : ∀ a, (cache.outputs.get a).block = t.block)
      (htally : (log ++ [(axis, t)]).Tally limit t.block cache.uses.get) :
      (s₁.sharing (.slot c) cache).Counts c limit (log ++ [(axis, t)]) := by
    have h₁ := h.other hs
    have hget : (s₁.sharing (.slot c) cache).breaks.get? (.slot c) = some cache :=
      Table.get?_insert_self _ _ _
    refine ⟨h₁.options, fun id hid ↦ ?_, fun hnone ↦ ?_, fun cache' hcache' ↦ ?_⟩
    · rw [ReadLog.nodes_snoc, Finset.mem_insert] at hid
      rcases hid with rfl | hid
      exacts [hshape, h₁.nodes id hid]
    · cases hnone.symm.trans hget
    · cases hcache'.symm.trans hget
      exact ⟨t.block, hnode, htally⟩
  rcases Emit.of_yields_readAxis hc hread with
    ⟨cache, hcache, hlt, rfl, rfl⟩ | ⟨hspent, s₁, outputs, hs, ht, hnode, hnew, hshape, rfl⟩
  · obtain ⟨node, hnode, htally⟩ := h.tally cache hcache
    obtain rfl := hnode axis
    refine hknown ⟨prefix_refl _, rfl, rfl⟩ (h.nodes _ htally.mem) hnode ?_
    convert htally.take (h.options ▸ hlt) rfl using 2 with a
    cases axis <;> cases a <;> rfl
  · have hfresh : t.block ∉ log.nodes := by
      intro hmem
      obtain ⟨b, hb, -⟩ := Option.map_eq_some_iff.1 (h.nodes _ hmem)
      have hlt := (List.getElem?_eq_some_iff.1 hb).1
      omega
    refine hknown hs hshape hnode ?_
    convert ReadLog.Tally.renew ?_ hfresh using 2 with a
    · cases axis <;> cases a <;> rfl
    · cases hcache : s.breaks.get? (.slot c) with
      | none => exact .inl (h.empty hcache)
      | some cache =>
        obtain ⟨node, -, htally⟩ := h.tally cache hcache
        exact .inr ⟨node, _, htally, h.options ▸ hspent cache hcache⟩

end Emitter.Counts

/-- Whatever the reads of a variable are, they are counted. -/
theorem Emitter.Reads.counts (hc : (Variable.slot c).isInline = false)
    (hs : s.breaks.get? (.slot c) = none) (h : s.Reads c log s') :
    s'.Counts c s.options.breakReuse log := by
  induction h with
  | nil => exact ⟨rfl, by simp [ReadLog.nodes], fun _ ↦ rfl, fun _ h ↦ by cases hs.symm.trans h⟩
  | other _ hother ih => exact ih.other hother
  | read _ hread ih => exact ih.read hc hread

/-- All that emission of statements does to a variable that is taken apart is to read it. -/
def Emit.reading (c : Slot) : Trace where
  rel _ s s' := ∃ log, s.Reads c log s'
  trans := by
    rintro _ _ s s' s'' ⟨log, h⟩ ⟨log', h'⟩
    exact ⟨log ++ log', h.trans h'⟩
  quiet h := ⟨[], .other .nil ((sparing c).quiet h)⟩
  place s shape := ⟨[], .other .nil ((sparing c).place s shape trivial)⟩
  group {s s'} h := by
    obtain ⟨log, h⟩ := h
    have hinside : s.Reads c [] s.inside := .other .nil ⟨prefix_refl _, rfl, rfl⟩
    exact ⟨[] ++ log, (hinside.trans h).other ⟨prefix_refl _, rfl, rfl⟩⟩
  share {s s'} x cache h hx := by
    by_cases heq : x = .slot c
    · obtain ⟨span, axis, t, hread⟩ := hx c heq
      exact ⟨[(axis, t)], .read .nil hread⟩
    · obtain ⟨log, h⟩ := h
      exact ⟨log, h.other ⟨prefix_refl _, Table.get?_insert_of_ne _ _ heq, rfl⟩⟩
  calling _ _ _ := ⟨[], .other .nil ⟨prefix_refl _, rfl, rfl⟩⟩
  more _ _ _ _ := ⟨[], .other .nil ⟨prefix_refl _, rfl, rfl⟩⟩
  hint _ m := by cases m <;> exact ⟨[], .other .nil ⟨prefix_refl _, rfl, rfl⟩⟩

end Wirescript
