import Wirescript.Proofs.Entered

/-!
# Statements that are left out

Emission of a statement may stop half way, with blocks placed and some of them joined. What was done
stays, and the statement is left out. A `Trial` is a record of what was done for one statement, and
`Wired` says from such records alone which wires lead where: a statement joins its own blocks, the
handles of a routine are connected in order, and calls lead to where routines begin. From this it
follows that nothing outside leads into a statement that there was a complaint about, and that the
others are wired as if it were not there.
-/

namespace Wirescript

open List

variable {a : Anchor} {s st st' : Emitter} {r : Routine}

/-- A statement as it was emitted: the states before and after, and the handle that stands for it. -/
structure Trial where
  start : Emitter
  handle : Handle
  stop : Emitter

namespace Trial

/-- There was a complaint about the statement. -/
def Complained (t : Trial) : Prop := t.stop.diagnostics ≠ t.start.diagnostics

/-- The terminal is of a block that was placed for the statement. -/
def Owns (t : Trial) (x : Terminal) : Prop :=
  t.start.placement.blocks.length ≤ x.block ∧ x.block < t.stop.placement.blocks.length

/-- The wires that were made for the statement alone. -/
def wires (t : Trial) : List Wire := t.stop.netlist.wires.drop t.start.netlist.wires.length

/-- The terminals of the statement that call a routine. -/
def calls (t : Trial) (r : Routine) : List Terminal :=
  (t.stop.callers r).drop (t.start.callers r).length

end Trial

/-- The statements of routines as they were emitted, in order. -/
abbrev Records := List (Routine × List Trial)

variable {log : Records}

namespace Assemble

/-- What is done for the statements of a routine, one after another. -/
def trials (r : Routine) : Connector → List Stmt → Emitter → List Trial
  | _, [], _ => []
  | c, s :: rest, st =>
    match (Emit.attempt (Emit.stmt r s)).run st with
    | (.ok h, st') => ⟨st, h, st'⟩ :: trials r (c.push h).1 rest
        { st' with netlist := st'.netlist.connectAll (c.push h).2 }
    | (.error _, _) => []

/-- What is done for the statements of routines, one routine after another. -/
def records : List (Routine × Stmt) → Emitter → Records
  | [], _ => []
  | (r, body) :: rest, st =>
    (r, trials r { routine := r.name } body.items st.restarted) ::
      records rest ((routine r body).run st).2

end Assemble

theorem Connector.pushAll_cons (c : Connector) (h : Handle) (rest : List Handle) :
    c.pushAll (h :: rest) =
      (((c.push h).1.pushAll rest).1, (c.push h).2 ++ ((c.push h).1.pushAll rest).2) := rfl

/-- Where execution enters a routine that has some handles, and the wires that connect them. -/
def Connector.wiring (routine : String) (handles : List Handle) :
    Except Fault (Option Terminal) × List Wire :=
  let joined := pushAll { routine } handles
  (joined.1.finish.1, joined.2 ++ joined.1.finish.2.wires)

@[inherit_doc Connector.wiring]
def Trial.wiring (e : Routine × List Trial) : Except Fault (Option Terminal) × List Wire :=
  Connector.wiring e.1.name (e.2.map handle)

/-- The wires of a program that was emitted so: a statement makes them for itself, or they connect
the handles of a routine, or lead from a call to where the routine begins. -/
inductive Records.Wired (records : Records) : Wire → Prop
  | own {e : Routine × List Trial} {t : Trial} {w : Wire} (he : e ∈ records) (ht : t ∈ e.2)
      (hw : w ∈ t.wires) : Wired records w
  | joint {e : Routine × List Trial} {w : Wire} (he : e ∈ records) (hw : w ∈ (Trial.wiring e).2) :
      Wired records w
  | call {e e' : Routine × List Trial} {t : Trial} {w : Wire} (he : e ∈ records) (ht : t ∈ e.2)
      (he' : e' ∈ records) (hsource : w.source ∈ t.calls e'.1)
      (htarget : (Trial.wiring e').1 = .ok (some w.target)) : Wired records w

/-! ### One statement -/

/-- Since a state, execution was wired only between blocks that were placed since then, and calls
were recorded only for such blocks. -/
structure Emitter.Apart (s₀ s : Emitter) : Prop where
  wires : ∃ more, s.netlist.wires = s₀.netlist.wires ++ more ∧
    ∀ w ∈ more, w.target.wire = .void → s₀.Owns s [w.source, w.target]
  callers (r : Routine) : ∃ more, s.callers r = s₀.callers r ++ more ∧ s₀.Owns s more
  keys (h : s₀.calls.keys.Nodup) : s.calls.keys.Nodup
  entries : s.entries = s₀.entries

namespace Emitter.Apart

variable {s₀ s' : Emitter}

theorem refl (s : Emitter) : s.Apart s where
  wires := ⟨[], (append_nil _).symm, forall_mem_nil _⟩
  callers _ := ⟨[], (append_nil _).symm, forall_mem_nil _⟩
  keys h := h
  entries := rfl

/-- More wires are made, and those for execution between the blocks of the statement. -/
theorem wired (h : s₀.Apart s) {more : List Wire} (hwires : s'.netlist.wires = s.netlist.wires ++ more)
    (hmore : ∀ w ∈ more, w.target.wire = .void → s₀.Owns s' [w.source, w.target])
    (hblocks : s.placement.blocks <+: s'.placement.blocks) (hcalls : s'.calls = s.calls)
    (hentries : s'.entries = s.entries) : s₀.Apart s' where
  wires := by
    obtain ⟨before, hbefore, hall⟩ := h.wires
    refine ⟨before ++ more, by rw [hwires, hbefore, append_assoc], ?_⟩
    refine forall_mem_append.2 ⟨fun w hw hvoid ↦ ?_, hmore⟩
    exact (hall w hw hvoid).mono hblocks (.refl _)
  callers r := by
    obtain ⟨before, hbefore, hall⟩ := h.callers r
    exact ⟨before, by rw [Emitter.callers, hcalls]; exact hbefore, hall.mono hblocks (.refl _)⟩
  keys h₀ := hcalls ▸ h.keys h₀
  entries := hentries.trans h.entries

theorem stable (s₀ : Emitter) : Emit.Stable (fun shape ↦ ∀ t ∈ shape.inputs, t.wire ≠ .void)
    (fun t ↦ t.wire ≠ .void) (fun _ ↦ True) s₀
    fun s ↦ s₀.Apart s ∧ s.diagnostics = s₀.diagnostics where
  passive _ h := h.2
  inputs shape h id j t _ ht := by
    unfold Block.inputAt at ht
    split at ht
    · next input hinput =>
      cases ht
      exact h input (mem_of_getElem? hinput)
    · cases ht
  data _ h := h
  still h hs := by
    obtain ⟨more, hwires, hmore⟩ := h.wires
    refine ⟨hs.1.wired hwires (fun w hw hvoid ↦ absurd hvoid (hmore w hw)) ?_ h.calls h.entries,
      h.diagnostics.trans hs.2⟩
    exact h.blocks ▸ prefix_refl _
  place {s} shape hs := by
    have hwires : (s.placed shape).netlist.wires = s.netlist.wires ++ [] := by
      unfold Emitter.placed
      split <;> simp [Netlist.highlight]
    exact ⟨hs.1.wired hwires (forall_mem_nil _) (prefix_append _ _) rfl rfl, hs.2⟩
  join {s wires} h hs :=
    ⟨hs.1.wired (Netlist.wires_connectAll _ wires) (fun w hw _ ↦ h w hw) (prefix_refl _) rfl rfl,
      hs.2⟩
  calling {s} r entrance _ h hs := by
    refine ⟨⟨hs.1.wires, fun q ↦ ?_, fun h₀ ↦ Table.nodup_keys_insert (hs.1.keys h₀) _ _,
      hs.1.entries⟩, hs.2⟩
    obtain ⟨before, hbefore, hall⟩ := hs.1.callers q
    by_cases heq : r = q
    · subst heq
      refine ⟨before ++ [entrance], ?_, forall_mem_append.2 ⟨hall, h⟩⟩
      rw [← append_assoc, ← hbefore]
      simp [Emitter.callers, calling]
    · refine ⟨before, ?_, hall⟩
      rw [← hbefore, Emitter.callers, calling, Table.get?_insert_of_ne _ _ heq]
      rfl

end Emitter.Apart

/-- The statement is emitted as a whole, and it calls no built-in functions other than there are. So
only the first input of a block that runs for it takes execution. -/
structure Stmt.TakesData (s : Stmt) : Prop where
  whole : s.Whole
  known : ∀ c ∈ s.visit calleeVisitor, c.Known

theorem Stmt.exists_of_active? (s : Stmt) {shape : BlockShape} (h : shape ∈ s.active?) :
    ∃ c ∈ s.visit calleeVisitor, shape ∈ c.active? := by
  cases s with
  | call span callee arguments result => exact ⟨callee, .head _, h⟩
  | expression span e =>
    cases e with
    | call n callee arguments => exact ⟨callee, .head _, h⟩
    | statement n body =>
      obtain ⟨c, hc, h⟩ := exists_of_active? body h
      exact ⟨c, mem_append_left _ hc, h⟩
    | _ => cases h
  | _ => cases h

/-- What is known of a statement that was emitted. -/
structure Trial.Proper (t : Trial) : Prop where
  blocks : t.start.placement.blocks <+: t.stop.placement.blocks
  apart : t.start.Apart t.stop
  entered (x : Terminal) (h : x ∈ t.handle.entries) : t.Owns x
  pass (h : t.Complained) : t.handle = .pass

namespace Trial.Proper

variable {t : Trial}

theorem wires (h : t.Proper) : t.stop.netlist.wires = t.start.netlist.wires ++ t.wires := by
  obtain ⟨more, hmore, -⟩ := h.apart.wires
  rw [Trial.wires, hmore, drop_left]

/-- The statement wires execution between its own blocks. -/
theorem execution (h : t.Proper) {w : Wire} (hw : w ∈ t.wires) (hvoid : w.target.wire = .void) :
    t.Owns w.source ∧ t.Owns w.target := by
  obtain ⟨more, hmore, hall⟩ := h.apart.wires
  rw [Trial.wires, hmore, drop_left] at hw
  obtain ⟨hsource, htarget⟩ := forall_mem_cons.1 (hall w hw hvoid)
  exact ⟨hsource, htarget _ (.head _)⟩

theorem callers (h : t.Proper) (r : Routine) :
    t.stop.callers r = t.start.callers r ++ t.calls r ∧ ∀ x ∈ t.calls r, t.Owns x := by
  obtain ⟨more, hmore, hall⟩ := h.apart.callers r
  rw [Trial.calls, hmore, drop_left]
  exact ⟨rfl, hall⟩

end Trial.Proper

theorem Emit.proper_attempt (r : Routine) {s : Stmt} (hs : s.TakesData) {h : Handle}
    (hrun : Yields (Emit.attempt (Emit.stmt r s)) st h st') : (Trial.mk st h st').Proper := by
  have hpassive : ∀ shape ∈ s.visit shapeVisitor, ∀ t ∈ shape.inputs, t.wire ≠ .void := by
    intro shape hshape
    obtain ⟨c, hc, hshape⟩ := Stmt.mem_shapes_iff.1 hshape
    exact ((hs.known c hc).takesData.1 shape hshape).2
  have hruns : ∀ shape ∈ s.active?, shape.FedFrom (fun t ↦ t.wire ≠ .void) 1 := by
    intro shape hshape id j t hj ht
    obtain ⟨c, hc, hshape⟩ := s.exists_of_active? hshape
    unfold Block.inputAt at ht
    split at ht
    · next input hinput =>
      cases ht
      obtain ⟨j, rfl⟩ := Nat.exists_eq_add_of_le' hj
      exact (hs.known c hc).takesData.2 shape hshape input
        (mem_of_getElem? (getElem?_tail.trans hinput))
    · cases ht
  obtain ⟨hblocks, hrel, houtcome⟩ := Emit.meets_whole (S := (Emitter.Apart.stable st).steady) r s
    hs.whole hpassive hruns (fun _ ↦ trivial) (fun _ ↦ trivial) st (.refl _ st)
  obtain ⟨hapart, hsame⟩ := hrel ⟨.refl st, rfl⟩
  rcases hstmt : (Emit.stmt r s).run st with ⟨(d | f) | handle, stop⟩
  all_goals rw [hstmt] at hblocks hapart hsame houtcome
  · cases hrun.symm.trans (Assemble.run_attempt_of_complaint hstmt)
    exact ⟨hblocks, ⟨hapart.wires, hapart.callers, hapart.keys, hapart.entries⟩,
      forall_mem_nil _, fun _ ↦ rfl⟩
  · cases hrun.symm.trans (Assemble.run_attempt_of_fault hstmt)
  · cases hrun.symm.trans (Assemble.run_attempt_of_ok hstmt)
    exact ⟨hblocks, hapart, houtcome.1, absurd hsame⟩

/-! ### The statements of a routine -/

/-- The blocks of one statement are placed before those of the other. -/
def Trial.Before (t t' : Trial) : Prop :=
  t.stop.placement.blocks.length ≤ t'.start.placement.blocks.length

/-- Statements were emitted one after another between two states, and joined. -/
structure Assemble.Tried (c : Connector) (s : Emitter) (ts : List Trial) (c' : Connector)
    (s' : Emitter) : Prop where
  connector : c' = (c.pushAll (ts.map Trial.handle)).1
  wires (w : Wire) : w ∈ s'.netlist.wires ↔ w ∈ s.netlist.wires ∨ (∃ t ∈ ts, w ∈ t.wires) ∨
    w ∈ (c.pushAll (ts.map Trial.handle)).2
  callers (r : Routine) (x : Terminal) :
    x ∈ s'.callers r ↔ x ∈ s.callers r ∨ ∃ t ∈ ts, x ∈ t.calls r
  keys (h : s.calls.keys.Nodup) : s'.calls.keys.Nodup
  entries : s'.entries = s.entries
  blocks : s.placement.blocks.length ≤ s'.placement.blocks.length
  proper (t : Trial) (h : t ∈ ts) : t.Proper ∧
    s.placement.blocks.length ≤ t.start.placement.blocks.length ∧
    t.stop.placement.blocks.length ≤ s'.placement.blocks.length
  order : ts.Pairwise Trial.Before

theorem Assemble.tried_join (r : Routine) {code : List Stmt} (hcode : ∀ s ∈ code, s.TakesData)
    {c c' : Connector} (h : Yields (join r c code) st c' st') :
    Tried c st (trials r c code st) c' st' := by
  induction code generalizing c st with
  | nil =>
    cases h
    exact ⟨rfl, by simp [trials, Connector.pushAll], by simp [trials], id, rfl, Nat.le_refl _,
      forall_mem_nil _, .nil⟩
  | cons s rest ih =>
    obtain ⟨hs, hrest⟩ := forall_mem_cons.1 hcode
    obtain ⟨handle, st₁, hattempt, h⟩ := yields_bind.1 h
    replace h : Yields (join r (c.push handle).1 rest)
      { st₁ with netlist := st₁.netlist.connectAll (c.push handle).2 } c' st' := h
    have hone := Emit.proper_attempt r hs hattempt
    have hlater := ih hrest h
    rw [trials, show _ = _ from hattempt]
    dsimp only
    generalize trials r (c.push handle).1 rest _ = later at hlater
    refine ⟨hlater.connector, fun w ↦ ?_, fun q x ↦ ?_, fun hst ↦ hlater.keys (hone.apart.keys hst),
      hlater.entries.trans hone.apart.entries, Nat.le_trans hone.blocks.length_le hlater.blocks,
      forall_mem_cons.2 ⟨⟨hone, Nat.le_refl _, hlater.blocks⟩, fun t ht ↦ ?_⟩,
      pairwise_cons.2 ⟨fun t ht ↦ (hlater.proper t ht).2.1, hlater.order⟩⟩
    · rw [hlater.wires, Netlist.wires_connectAll, hone.wires]
      simp [Connector.pushAll_cons, or_assoc, or_left_comm]
    · have hcallers : Emitter.callers { st₁ with
          netlist := st₁.netlist.connectAll (c.push handle).2 } q = st₁.callers q := rfl
      rw [hlater.callers, hcallers, (hone.callers q).1]
      simp [or_assoc]
    · obtain ⟨hproper, hstart, hstop⟩ := hlater.proper t ht
      exact ⟨hproper, Nat.le_trans hone.blocks.length_le hstart, hstop⟩

/-! ### Where connected handles are entered -/

namespace Connector

variable {parts : List Handle} {c : Connector} {t : Terminal}

theorem pushAll_append_pass (before after : List Handle) (c : Connector) :
    c.pushAll (before ++ .pass :: after) = c.pushAll (before ++ after) := by
  induction before generalizing c with
  | nil => rfl
  | cons h before ih => simp [pushAll_cons, ih]

theorem exists_entry_of_next? {rest : List Handle}
    (h : Destination.next? rest = some (.terminal t)) : ∃ part ∈ rest, part.entry? = some t := by
  obtain ⟨part, hpart, hd⟩ := Destination.exists_of_next? h
  exact ⟨part, hpart, by cases part <;> cases hd <;> rfl⟩

theorem Settled.exists_entry_of_target? (hc : Settled parts c) (h : c.target? a = some t) :
    ∃ part ∈ parts, part.entry? = some t := by
  obtain ⟨b, -, hfinds⟩ := hc.finds a
  unfold target? at h
  generalize c.resolve a = outcome at h hfinds
  rcases outcome with f | t' | - | l
  all_goals cases h
  obtain ⟨rest, hrest, hnext⟩ := hfinds
  obtain ⟨part, hpart, hentry⟩ := exists_entry_of_next? hnext
  exact ⟨part, hrest.suffix.subset hpart, hentry⟩

theorem of_yields_closeAt {target : Option Terminal} {s s' : Closing}
    (h : Yields (c.closeAt a) s target s') : target = c.target? a ∧ s'.wires = s.wires := by
  obtain ⟨r, _, hr, -⟩ := yields_bind.1 h
  obtain ⟨hr, -⟩ := yields_lift.1 hr
  obtain ⟨s₁, hs₁, hwires, -⟩ := yields_closeAt hr s
  cases hs₁.symm.trans h
  rw [target?, hr]
  exact ⟨rfl, hwires⟩

theorem of_yields_closeJumps {entries : List (Label × List Terminal)} {s s' : Closing}
    (h : Yields (c.closeJumps entries) s () s') :
    ∀ w ∈ s'.wires, w ∈ s.wires ∨ ∃ a, c.target? a = some w.target := by
  induction entries generalizing s with
  | nil =>
    obtain ⟨-, rfl⟩ := yields_pure.1 h
    exact fun w hw ↦ .inl hw
  | cons entry rest ih =>
    obtain ⟨l, sources⟩ := entry
    obtain ⟨target, s₁, hclose, h⟩ := yields_bind.1 h
    obtain ⟨rfl, hwires⟩ := of_yields_closeAt hclose
    intro w hw
    rcases ih h w hw with hw | hw
    · rcases mem_append.1 hw with hw | hw
      · exact .inl (hwires ▸ hw)
      · refine .inr ⟨.label l, ?_⟩
        rcases htarget : c.target? (.label l) with - | t
        · simp [htarget] at hw
        · simp only [htarget] at hw
          obtain ⟨-, -, rfl⟩ := mem_map.1 hw
          rfl
    · exact .inr hw

/-- Wires between handles lead to where one of them is entered, and so does the way into the
routine. -/
theorem entries_of_wiring {routine : String} {handles : List Handle} {entry : Option Terminal}
    (h : (wiring routine handles).1 = .ok entry) :
    (∀ w ∈ (wiring routine handles).2, ∃ h ∈ handles, w.target ∈ h.entries) ∧
      ∀ t ∈ entry, ∃ h ∈ handles, t ∈ h.entries := by
  have hpushed := (Pushed.nil routine).pushAll handles
  have hsettled := hpushed.joined.settle
  have hhandle {t : Terminal} (ht : ∃ part ∈ handles.flatMap Handle.parts, part.entry? = some t) :
      ∃ h ∈ handles, t ∈ h.entries := by
    obtain ⟨part, hpart, hentry⟩ := ht
    obtain ⟨h, hh, hpart⟩ := mem_flatMap.1 hpart
    exact ⟨h, hh, mem_filterMap.2 ⟨part, hpart, hentry⟩⟩
  have hfinish : Yields (do
      closeJumps { (pushAll { routine } handles).1.settle .finish with pending := [] }
        (pushAll { routine } handles).1.jumps.entries
      closeAt { (pushAll { routine } handles).1.settle .finish with pending := [] } .entry) {} entry
      (pushAll { routine } handles).1.finish.2 := Prod.ext h rfl
  obtain ⟨_, s, hjumps, hentry⟩ := yields_bind.1 hfinish
  obtain ⟨rfl, hwires⟩ := of_yields_closeAt hentry
  refine ⟨forall_mem_append.2 ⟨fun w hw ↦ ?_, fun w hw ↦ ?_⟩, fun t ht ↦ ?_⟩
  · obtain ⟨e, he, hwire⟩ := mem_filterMap.1 (hpushed.counted.wires.mem_iff.1 hw)
    obtain ⟨⟨source, rest⟩, hleaving, rfl⟩ := mem_map.1 he
    have hnext : Destination.next? rest = some (.terminal w.target) := by
      unfold wire? at hwire
      split at hwire
      · next hsome =>
        cases hwire
        exact (Prod.ext_iff.1 hsome).2
      · cases hwire
    obtain ⟨part, hpart, hentry⟩ := exists_entry_of_next? hnext
    refine hhandle ⟨part, ?_, hentry⟩
    rcases mem_or_goto_of_mem_leaving hleaving hpart with hpart | ⟨l, rfl, -⟩
    · exact hpart
    · cases hentry
  · rw [hwires] at hw
    rcases of_yields_closeJumps hjumps w hw with hw | ⟨a, ha⟩
    · cases hw
    · exact hhandle (hsettled.exists_entry_of_target? ha)
  · exact hhandle (hsettled.exists_entry_of_target? ht)

end Connector

/-! ### Programs -/

namespace Assemble

/-- Routines were emitted as recorded. -/
structure Logged (records : Records) (s : Emitter) : Prop where
  wires (w : Wire) : w ∈ s.netlist.wires ↔
    ∃ e ∈ records, (∃ t ∈ e.2, w ∈ t.wires) ∨ w ∈ (Trial.wiring e).2
  callers (r : Routine) (x : Terminal) :
    x ∈ s.callers r ↔ ∃ e ∈ records, ∃ t ∈ e.2, x ∈ t.calls r
  entries (r : Routine) (entry : Option Terminal) : s.entries.get? r = some entry ↔
    ∃ e ∈ records, e.1 = r ∧ (Trial.wiring e).1 = .ok entry
  connected (e : Routine × List Trial) (h : e ∈ records) : ∃ entry, (Trial.wiring e).1 = .ok entry
  keys : s.calls.keys.Nodup
  proper (t : Trial) (h : t ∈ records.flatMap Prod.snd) : t.Proper ∧
    t.stop.placement.blocks.length ≤ s.placement.blocks.length
  order : (records.flatMap Prod.snd).Pairwise Trial.Before

theorem logged_routine {body : Stmt} (hbody : ∀ s ∈ body.items, s.TakesData) (hst : Logged log st)
    (hr : r ∉ log.map Prod.fst) (h : Yields (routine r body) st () st') :
    Logged (log ++ [(r, trials r { routine := r.name } body.items st.restarted)]) st' := by
  obtain ⟨_, _, hmodify, h⟩ := yields_bind.1 h
  cases hmodify
  obtain ⟨_, _, hget, h⟩ := yields_bind.1 h
  cases hget
  obtain ⟨c, st₁, hjoin, h⟩ := yields_bind.1 h
  have hj := tried_join r hbody (show Yields _ st.restarted c st₁ from hjoin)
  generalize trials r { routine := r.name } body.items st.restarted = ts at hj
  obtain ⟨entry, st₂, hclose, h⟩ := yields_bind.1 h
  cases h
  have hwiring : Trial.wiring (r, ts) = (c.finish.1,
      (Connector.pushAll { routine := r.name } (ts.map Trial.handle)).2 ++ c.finish.2.wires) := by
    rw [hj.connector]
    rfl
  rcases hfinish : c.finish with ⟨f | entry', closing⟩
  · rw [close, hfinish] at hclose
    cases hclose
  rw [close, hfinish] at hclose
  cases hclose
  rw [hfinish] at hwiring
  have hlast (P : Routine × List Trial → Prop) :
      (∃ e ∈ log ++ [(r, ts)], P e) ↔ (∃ e ∈ log, P e) ∨ P (r, ts) := by
    simp
  refine ⟨fun w ↦ ?_, fun q x ↦ ?_, fun q out ↦ ?_, ?_, hj.keys hst.keys, ?_, ?_⟩
  · have hall : w ∈ (st₁.netlist.connectAll closing.wires).wires ↔ (w ∈ st.netlist.wires ∨
        (∃ t ∈ ts, w ∈ t.wires) ∨ w ∈ (Connector.pushAll { routine := r.name }
          (ts.map Trial.handle)).2) ∨ w ∈ closing.wires := by
      rw [Netlist.wires_connectAll, mem_append, hj.wires]
      rfl
    rw [hlast, ← hst.wires, hwiring, mem_append]
    exact hall.trans (by rw [or_assoc, or_assoc])
  · rw [hlast, ← hst.callers]
    exact hj.callers q x
  · simp only [hlast, ← hst.entries, hj.entries, hwiring]
    by_cases hq : r = q
    · subst hq
      have hnone : st.entries.get? r ≠ some out := by
        intro hsome
        obtain ⟨e, he, rfl, -⟩ := (hst.entries _ _).1 hsome
        exact hr (mem_map_of_mem he)
      simp [hnone]
    · rw [Table.get?_insert_of_ne _ _ hq]
      simp [Emitter.restarted, hq]
  · refine forall_mem_append.2 ⟨hst.connected, forall_mem_singleton.2 ⟨entry, ?_⟩⟩
    rw [hwiring]
  all_goals simp only [flatMap_append, flatMap_singleton]
  · refine forall_mem_append.2 ⟨fun t ht ↦ ?_, fun t ht ↦ ?_⟩
    · exact (hst.proper t ht).imp_right fun hle ↦ Nat.le_trans hle hj.blocks
    · exact ⟨(hj.proper t ht).1, (hj.proper t ht).2.2⟩
  · refine pairwise_append.2 ⟨hst.order, hj.order, fun t ht t' ht' ↦ ?_⟩
    exact Nat.le_trans (hst.proper t ht).2 (hj.proper t' ht').2.1

theorem logged_routines {entries : List (Routine × Stmt)}
    (hentries : ∀ e ∈ entries, ∀ s ∈ e.2.items, s.TakesData) (hst : Logged log st)
    (hkeys : (log.map Prod.fst ++ entries.map Prod.fst).Nodup)
    (h : Yields (routines entries) st () st') : Logged (log ++ records entries st) st' := by
  induction entries generalizing log st with
  | nil =>
    obtain ⟨-, rfl⟩ := yields_pure.1 h
    rwa [records, append_nil]
  | cons e rest ih =>
    obtain ⟨he, hrest⟩ := forall_mem_cons.1 hentries
    obtain ⟨_, st₁, hroutine, h⟩ := yields_bind.1 h
    have hr : e.1 ∉ log.map Prod.fst := fun hmem ↦
      (nodup_append.1 hkeys).2.2 _ hmem _ (.head _) rfl
    have hlater := ih hrest (logged_routine he hst hr hroutine) (by simpa using hkeys) h
    rw [records, show _ = _ from hroutine]
    rwa [append_assoc] at hlater

/-- The wires of a program are those that the records say, and no others. -/
theorem logged_program {b : Bodies} {options : EmitOptions}
    (hentries : ∀ e ∈ b.entries, ∀ s ∈ e.2.items, s.TakesData) (hkeys : b.keys.Nodup)
    (h : b.emit options = (.ok (), s)) : ∃ s₁, Logged (records b.entries { options }) s₁ ∧
      ∀ w, w ∈ s.netlist.wires ↔ (records b.entries { options }).Wired w := by
  have hyields : Yields (program b) { options } () s := h
  obtain ⟨_, s₁, hroutines, hyields⟩ := yields_bind.1 hyields
  obtain ⟨_, _, hget, hyields⟩ := yields_bind.1 hyields
  cases hget
  obtain ⟨_, s₂, hcalls, hyields⟩ := yields_bind.1 hyields
  cases hyields
  have hstart : Logged [] { options } :=
    ⟨by simp, by simp [Emitter.callers, Table.get?, Table.find?],
      by simp [Table.get?, Table.find?], by simp, .nil, by simp, .nil⟩
  have hlog := logged_routines hentries hstart hkeys hroutines
  refine ⟨s₁, hlog, fun w ↦ ?_⟩
  rw [show w ∈ s₂.netlist.wires ↔ _ from (of_yields_calls hcalls).2.2.2 w, hlog.wires]
  constructor
  · rintro (⟨e, he, ⟨t, ht, hw⟩ | hw⟩ | ⟨⟨q, sources⟩, hq, hentry, hsource⟩)
    · exact .own he ht hw
    · exact .joint he hw
    · obtain ⟨e', he', rfl, htarget⟩ := (hlog.entries _ _).1 hentry
      have hcaller : w.source ∈ s₁.callers e'.1 := by
        rw [Emitter.callers, Table.get?_of_mem hlog.keys hq]
        exact hsource
      obtain ⟨e, he, t, ht, hcall⟩ := (hlog.callers _ _).1 hcaller
      exact .call he ht he' hcall htarget
  · rintro (⟨he, ht, hw⟩ | ⟨he, hw⟩ | @⟨e, e', t, _, he, ht, he', hsource, htarget⟩)
    · exact .inl ⟨_, he, .inl ⟨_, ht, hw⟩⟩
    · exact .inl ⟨_, he, .inr hw⟩
    · have hcaller := (hlog.callers _ _).2 ⟨e, he, t, ht, hsource⟩
      rcases hsources : s₁.calls.get? e'.1 with - | sources
      · simp [Emitter.callers, hsources] at hcaller
      · rw [Emitter.callers, hsources] at hcaller
        exact .inr ⟨_, Table.mem_of_get? hsources, (hlog.entries _ _).2 ⟨e', he', rfl, htarget⟩, hcaller⟩

end Assemble

/-- The blocks of a statement are not those of another one. -/
theorem Assemble.Logged.not_owns {before after : Records} {earlier later : List Trial} {t : Trial}
    (h : Logged (before ++ (r, earlier ++ t :: later) :: after) s) {e : Routine × List Trial}
    (he : e ∈ before ++ (r, earlier ++ later) :: after) {t' : Trial} (ht' : t' ∈ e.2) {x : Terminal}
    (hx : t'.Owns x) : ¬ t.Owns x := by
  have horder : (before.flatMap Prod.snd ++ earlier ++
      t :: (later ++ after.flatMap Prod.snd)).Pairwise Trial.Before := by
    simpa using h.order
  obtain ⟨-, hlater, hearlier⟩ := pairwise_append.1 horder
  have hmem : t' ∈ before.flatMap Prod.snd ++ earlier ∨ t' ∈ later ++ after.flatMap Prod.snd := by
    have hall := mem_flatMap.2 ⟨e, he, ht'⟩
    simp only [flatMap_append, flatMap_cons, mem_append] at hall ⊢
    tauto
  rintro ⟨hstart, hstop⟩
  rcases hmem with hmem | hmem
  · have hbefore : t'.Before t := hearlier t' hmem t (.head _)
    exact absurd hx.2 (Nat.not_lt.2 (Nat.le_trans hbefore hstart))
  · have hbefore : t.Before t' := rel_of_pairwise_cons hlater hmem
    exact absurd hstop (Nat.not_lt.2 (Nat.le_trans hbefore hx.1))

/-- The same routines were emitted, but for one statement that does not matter to how they are
connected. -/
structure Records.Less (t : Trial) (records others : Records) : Prop where
  fewer {e : Routine × List Trial} (he : e ∈ records) : ∃ e' ∈ others, e'.1 = e.1 ∧
    Trial.wiring e' = Trial.wiring e ∧ ∀ t' ∈ e.2, t' = t ∨ t' ∈ e'.2
  more {e : Routine × List Trial} (he : e ∈ others) : ∃ e' ∈ records, e'.1 = e.1 ∧
    Trial.wiring e' = Trial.wiring e ∧ e.2 ⊆ e'.2

namespace Records.Less

variable {t : Trial}

theorem of_pass (h : t.handle = .pass) (before after : Records) (r : Routine)
    (earlier later : List Trial) : Less t (before ++ (r, earlier ++ t :: later) :: after)
      (before ++ (r, earlier ++ later) :: after) := by
  have hpass : Trial.wiring (r, earlier ++ t :: later) = Trial.wiring (r, earlier ++ later) := by
    simp [Trial.wiring, Connector.wiring, h, Connector.pushAll_append_pass]
  refine ⟨fun {e} he ↦ ?_, fun {e} he ↦ ?_⟩
  all_goals
    simp only [mem_append, mem_cons] at he
    rcases he with he | rfl | he
  · exact ⟨e, by simp [he], rfl, rfl, fun _ ↦ .inr⟩
  · exact ⟨(r, earlier ++ later), by simp, rfl, hpass.symm, by simp; tauto⟩
  · exact ⟨e, by simp [he], rfl, rfl, fun _ ↦ .inr⟩
  · exact ⟨e, by simp [he], rfl, rfl, .refl _⟩
  · exact ⟨(r, earlier ++ t :: later), by simp, rfl, hpass, by simp⟩
  · exact ⟨e, by simp [he], rfl, rfl, .refl _⟩

variable {records others : Records} {w : Wire}

theorem wired (h : Less t records others) (hw : others.Wired w) : records.Wired w := by
  cases hw with
  | own he ht' hw =>
    obtain ⟨e', he', -, -, hall⟩ := h.more he
    exact .own he' (hall ht') hw
  | joint he hw =>
    obtain ⟨e', he', -, heq, -⟩ := h.more he
    exact .joint he' (heq ▸ hw)
  | call he ht' he' hcall hentry =>
    obtain ⟨e₁, he₁, -, -, hall⟩ := h.more he
    obtain ⟨e₂, he₂, hr, heq, -⟩ := h.more he'
    exact .call he₁ (hall ht') he₂ (hr ▸ hcall) (heq ▸ hentry)

/-- Execution that does not leave the statement is wired without it. -/
theorem wired_iff (h : Less t records others) (hproper : t.Proper) (hvoid : w.target.wire = .void)
    (hsource : ¬ t.Owns w.source) : records.Wired w ↔ others.Wired w := by
  refine ⟨fun hw ↦ ?_, h.wired⟩
  cases hw with
  | @own _ t' _ he ht' hw =>
    obtain ⟨e', he', -, -, hall⟩ := h.fewer he
    rcases hall t' ht' with rfl | ht'
    · exact absurd (hproper.execution hw hvoid).1 hsource
    · exact .own he' ht' hw
  | joint he hw =>
    obtain ⟨e', he', -, heq, -⟩ := h.fewer he
    exact .joint he' (heq ▸ hw)
  | @call _ _ t' _ he ht' he' hcall hentry =>
    obtain ⟨e₁, he₁, -, -, hall⟩ := h.fewer he
    obtain ⟨e₂, he₂, hr, heq, -⟩ := h.fewer he'
    rcases hall t' ht' with rfl | ht'
    · exact absurd ((hproper.callers _).2 _ hcall) hsource
    · exact .call he₁ ht' he₂ (hr ▸ hcall) (heq ▸ hentry)

end Records.Less

/-- A statement that there was a complaint about is inert: no execution leads into its blocks from
elsewhere, and all other execution is wired as if the statement were not there. -/
theorem Bodies.complained_inert {b : Bodies} {options : EmitOptions} {s : Emitter}
    (hentries : ∀ e ∈ b.entries, ∀ s ∈ e.2.items, s.TakesData) (hkeys : b.keys.Nodup)
    (h : b.emit options = (.ok (), s)) {r : Routine} {before after : Records}
    {earlier later : List Trial} {t : Trial} (hrecords : Assemble.records b.entries { options } =
      before ++ (r, earlier ++ t :: later) :: after)
    (ht : t.Complained) {w : Wire} (hvoid : w.target.wire = .void) :
    (w ∈ s.netlist.wires → t.Owns w.target → t.Owns w.source) ∧
      (¬ t.Owns w.source → (w ∈ s.netlist.wires ↔
        Records.Wired (before ++ (r, earlier ++ later) :: after) w)) := by
  obtain ⟨s₁, hlog, hwires⟩ := Assemble.logged_program hentries hkeys h
  rw [hrecords] at hlog hwires
  have hproper := (hlog.proper t (by simp)).1
  have hless := Records.Less.of_pass (hproper.pass ht) before after r earlier later
  have hsame (hsource : ¬ t.Owns w.source) := (hwires w).trans (hless.wired_iff hproper hvoid hsource)
  refine ⟨fun hw htarget ↦ by_contra fun hsource ↦ ?_, hsame⟩
  have hothers {e : Routine × List Trial} (he : e ∈ before ++ (r, earlier ++ later) :: after)
      {t' : Trial} (ht' : t' ∈ e.2) : t'.Proper ∧ ¬ t'.Owns w.target := by
    obtain ⟨e', he', -, -, hall⟩ := hless.more he
    exact ⟨(hlog.proper t' (mem_flatMap.2 ⟨e', he', hall ht'⟩)).1,
      fun hx ↦ hlog.not_owns he ht' hx htarget⟩
  have hentered {e : Routine × List Trial} (he : e ∈ before ++ (r, earlier ++ later) :: after)
      (hentry : ∃ h ∈ e.2.map Trial.handle, w.target ∈ h.entries) : False := by
    obtain ⟨_, hhandle, hentry⟩ := hentry
    obtain ⟨t', ht', rfl⟩ := mem_map.1 hhandle
    exact (hothers he ht').2 ((hothers he ht').1.entered _ hentry)
  -- a wire leads to a statement that made it, or to where one of the handles is entered
  cases (hsame hsource).1 hw with
  | own he ht' hw => exact (hothers he ht').2 ((hothers he ht').1.execution hw hvoid).2
  | @joint e _ he hw =>
    obtain ⟨e', he', -, heq, -⟩ := hless.more he
    obtain ⟨entry, hentry⟩ := hlog.connected e' he'
    exact hentered he ((Connector.entries_of_wiring (heq ▸ hentry)).1 w hw)
  | call _ _ he _ hentry => exact hentered he ((Connector.entries_of_wiring hentry).2 _ rfl)

/-- A routine with two parameters. -/
def flagPair : Routine :=
  .declare 1 "f" [.slot (flag 1 "p" .parameter), .slot (flag 2 "q" .parameter)] .void {}

/-- A flag that is to be computed where it is read, and has no value. -/
def unsetFlag : Expr := readFlag (flag 3 "i" .scoped { inline := true })

/-- A call that fails at its second argument, after the first was passed:
`main { f(true, true); f(true, i); g = true; } f(p, q) { h = true; }`. The second call is an
expression, and the assignment stands for a value. -/
def failing : Bodies := ⟨[(hostMain, .block default [
    .call default (.routine flagPair) [trueFlag, trueFlag] none,
    .expression default (Build.call (.routine flagPair) [trueFlag, unsetFlag] default),
    .expression default (.statement default (setFlag (flag 4 "g" .global) trueFlag))]),
  (flagPair, .block default [setFlag (flag 5 "h" .global) trueFlag])]⟩

/-- How many blocks there are before and after each statement of the records, and whether there was
no complaint about it. -/
def Records.shape (records : Records) : List (Routine × List (ℕ × ℕ × Bool)) :=
  records.map fun e ↦ (e.1, e.2.map fun t ↦
    (t.start.placement.blocks.length, t.stop.placement.blocks.length,
      decide (t.stop.diagnostics = t.start.diagnostics)))

theorem Bodies.complained_inert_failing : ∃ s t₀ t t₂ after, failing.emit {} = (.ok (), s) ∧
    Assemble.records failing.entries {} = [] ++ (hostMain, [t₀] ++ t :: [t₂]) :: after ∧
      t.Complained ∧ t.Owns ⟨7, .input, 0, .void⟩ ∧ ∀ w : Wire, w.target.wire = .void →
        (w ∈ s.netlist.wires → t.Owns w.target → t.Owns w.source) ∧
        (¬ t.Owns w.source → (w ∈ s.netlist.wires ↔
          Records.Wired ([] ++ (hostMain, [t₀] ++ [t₂]) :: after) w)) := by
  have hentries : ∀ e ∈ failing.entries, ∀ s ∈ e.2.items, s.TakesData := by
    simp only [failing, Stmt.items, forall_mem_cons, not_mem_nil, false_imp_iff,
      implies_true, and_true]
    exact ⟨⟨⟨trivial, by decide⟩, ⟨trivial, by decide⟩, ⟨trivial, by decide⟩⟩, ⟨trivial, by decide⟩⟩
  have hok : (failing.emit {}).1.isOk = true := by decide +kernel
  have hshape : (Assemble.records failing.entries {}).shape =
      [(hostMain, [(0, 6, true), (6, 8, false), (8, 10, true)]), (flagPair, [(10, 12, true)])] := by
    decide +kernel
  rcases hrun : failing.emit {} with ⟨f | ⟨⟩, s⟩
  · rw [hrun] at hok
    cases hok
  obtain ⟨⟨r, ts⟩, after, hrecords, hfirst, -⟩ := map_eq_cons_iff.1 hshape
  obtain ⟨rfl, hts⟩ := Prod.mk.inj hfirst
  obtain ⟨t₀, _, rfl, -, hts⟩ := map_eq_cons_iff.1 hts
  obtain ⟨t, _, rfl, ht, hts⟩ := map_eq_cons_iff.1 hts
  obtain ⟨t₂, _, rfl, -, hts⟩ := map_eq_cons_iff.1 hts
  obtain rfl := map_eq_nil_iff.1 hts
  obtain ⟨hstart, hstop, hcomplained⟩ : _ ∧ _ ∧ _ := by simpa only [Prod.mk.injEq] using ht
  have hcomplained := of_decide_eq_false hcomplained
  exact ⟨s, t₀, t, t₂, after, rfl, hrecords, hcomplained, ⟨by simp [hstart], by simp [hstop]⟩,
    fun w hvoid ↦ complained_inert hentries (by decide) hrun hrecords hcomplained hvoid⟩

/-- A block that stands for a value, and its second statement fails:
`main { g = true; { h = true; h = i; } }`. -/
def wrappedBlock : Bodies := ⟨[(hostMain, .block default [
    setFlag (flag 4 "g" .global) trueFlag,
    .expression default (.statement default (.block default
      [setFlag (flag 5 "h" .global) trueFlag, setFlag (flag 5 "h" .global) unsetFlag]))])]⟩

/-- There is a complaint about the block as a whole, and execution leads into it. -/
theorem Bodies.entered_wrappedBlock : ∃ s t₀ t, wrappedBlock.emit {} = (.ok (), s) ∧
    Assemble.records wrappedBlock.entries {} = [(hostMain, [t₀, t])] ∧ t.Complained ∧
      ∃ w ∈ s.netlist.wires, w.target.wire = .void ∧ t.Owns w.target ∧ t₀.Owns w.source := by
  have hok : (wrappedBlock.emit {}).1.isOk = true := by decide +kernel
  have hwire : ⟨⟨1, .output, 0, .void⟩, ⟨3, .input, 0, .void⟩⟩ ∈
      (wrappedBlock.emit {}).2.netlist.wires := by decide +kernel
  have hshape : (Assemble.records wrappedBlock.entries {}).shape =
      [(hostMain, [(0, 2, true), (2, 4, false)])] := by decide +kernel
  rcases hrun : wrappedBlock.emit {} with ⟨f | ⟨⟩, s⟩
  all_goals rw [hrun] at hok hwire
  · cases hok
  obtain ⟨⟨r, ts⟩, _, hrecords, hfirst, hrest⟩ := map_eq_cons_iff.1 hshape
  obtain rfl := map_eq_nil_iff.1 hrest
  obtain ⟨rfl, hts⟩ := Prod.mk.inj hfirst
  obtain ⟨t₀, _, rfl, ht₀, hts⟩ := map_eq_cons_iff.1 hts
  obtain ⟨t, _, rfl, ht, hts⟩ := map_eq_cons_iff.1 hts
  obtain rfl := map_eq_nil_iff.1 hts
  simp only [Prod.mk.injEq] at ht₀ ht
  exact ⟨s, t₀, t, rfl, hrecords, of_decide_eq_false ht.2.2, _, hwire, rfl,
    ⟨by simp [ht.1], by simp [ht.2.1]⟩, ⟨by simp [ht₀.1], by simp [ht₀.2.1]⟩⟩

end Wirescript
