import Wirescript.Proofs.JumpClosed
import Wirescript.Proofs.Wiring

/-!
# Assembly of routines

The statements of a routine are emitted in order and joined. Emission leaves a statement out that
there is a complaint about, so the handles follow the statements one by one, and a label is never
left out.
-/

namespace Wirescript

open List

variable {b : Bodies} {s₀ : Emitter} {h : Handle} {code : List Stmt} {s : Stmt}

/-- What stands for a statement among the handles of a routine: the handle that it became, or
nothing if there was a complaint. -/
def Stmt.Handled (s : Stmt) (h : Handle) : Prop := s.Becomes h ∨ h = .pass ∧ s.label? = none

theorem Handle.Simple.parts (hs : h.Simple) : h.parts = [h] := by
  cases h <;> first | rfl | exact hs.elim

theorem Handle.Simple.label? (hs : h.Simple) : h.label? = none := by
  cases h <;> first | rfl | exact hs.elim

theorem Handle.Simple.target? (hs : h.Simple) : h.target? = none := by
  cases h <;> first | rfl | exact hs.elim

/-- The handle of a statement defines the label that the statement defines. -/
theorem Stmt.Becomes.labels (hs : s.Becomes h) :
    h.parts.filterMap Handle.label? = s.label?.toList := by
  have hsimple (hs : h.Simple) : h.parts.filterMap Handle.label? = [] := by
    simp [hs.parts, hs.label?]
  cases s with
  | label | goto | rollback | ret | hint =>
    cases hs
    rfl
  | retValue span value =>
    obtain ⟨first, hfirst, rfl⟩ := hs
    rw [Handle.parts, Handle.partsOf, hfirst.parts]
    exact filterMap_cons_none hfirst.label?
  | gotoIf | gotoOn =>
    obtain ⟨-, -, -, rfl, -⟩ := hs
    rfl
  | block | declare | define | assign | compound | ifThen | ifElse | whileLoop | doWhile | on | call
  | expression | nop => exact hsimple hs

/-- The handle of a statement jumps only where the statement does. -/
theorem Stmt.Becomes.target? {part : Handle} {l : Label} (hs : s.Becomes h) (hpart : part ∈ h.parts)
    (hl : part.target? = some l) : s.target? = some l := by
  have hsimple (hs : h.Simple) : False := by
    rw [hs.parts] at hpart
    obtain rfl := mem_singleton.1 hpart
    cases hs.target?.symm.trans hl
  cases s with
  | label | rollback | ret | hint =>
    cases hs
    obtain rfl := mem_singleton.1 hpart
    cases hl
  | goto =>
    cases hs
    obtain rfl := mem_singleton.1 hpart
    exact hl
  | retValue span value =>
    obtain ⟨first, hfirst, rfl⟩ := hs
    rw [Handle.parts, Handle.partsOf, hfirst.parts] at hpart
    rcases mem_cons.1 hpart with rfl | hpart
    · cases hfirst.target?.symm.trans hl
    · obtain rfl := mem_singleton.1 hpart
      cases hl
  | gotoIf | gotoOn =>
    obtain ⟨entry, onward, jumps, rfl, -⟩ := hs
    obtain rfl := mem_singleton.1 hpart
    exact hl
  | block | declare | define | assign | compound | ifThen | ifElse | whileLoop | doWhile | on | call
  | expression | nop => exact (hsimple hs).elim

/-- The handles of jump-closed code can be connected. -/
theorem Stmt.JumpClosed.closed {handles : List Handle} (h : JumpClosed code)
    (hs : Forall₂ Handled code handles) : Connector.Closed (handles.flatMap Handle.parts) := by
  have hlabels : (handles.flatMap Handle.parts).filterMap Handle.label? = Stmt.labels code := by
    clear h
    induction hs with
    | nil => rfl
    | @cons s handle code handles hs _ ih =>
      have hone : handle.parts.filterMap Handle.label? = s.label?.toList := by
        rcases hs with hs | ⟨rfl, hlabel⟩
        · exact hs.labels
        · rw [hlabel]
          rfl
      rw [flatMap_cons, filterMap_append, ih, hone, Stmt.labels_cons]
  have htargets (l : Label) (hl : ∃ part ∈ handles.flatMap Handle.parts, part.target? = some l) :
      l ∈ Stmt.targets code := by
    clear h hlabels
    obtain ⟨part, hpart, hl⟩ := hl
    induction hs with
    | nil => cases hpart
    | @cons s handle code handles hs _ ih =>
      rw [Stmt.targets_cons, mem_append]
      rcases mem_append.1 hpart with hpart | hpart
      · rcases hs with hs | ⟨rfl, -⟩
        · exact .inl (Option.mem_toList.2 (hs.target? hpart hl))
        · obtain rfl := mem_singleton.1 hpart
          cases hl
      · exact .inr (ih hpart)
  exact ⟨hlabels ▸ h.nodup, fun l hl ↦ hlabels ▸ h.defined (htargets l hl)⟩

/-- The state in which emission of a routine starts. -/
def Emitter.restarted (s : Emitter) : Emitter :=
  { s with breaks := {}, inlines := {}, cursor := none, highlightDepth := 0 }

/-- The state after a routine is done that was started with some number of blocks. -/
def Emitter.finished (s : Emitter) (r : Routine) (entry : Option Terminal) (blocks : Nat) :
    Emitter :=
  { s with
    entries := s.entries.insert r entry
    notices := s.notices ++ [.emitted r.name (s.placement.blocks.length - blocks)] }

namespace Assemble

/-! ### One after the other -/

section

variable {F : Fault → Prop} {I : List Stmt → Emitter → Prop} {K : Emitter → Prop}

/-- What every statement carries on holds after all of them. Wires, notices and warnings make no
difference. -/
theorem walks_routine {body : Stmt} (r : Routine) (hmore : ∀ code st wires notices warnings,
      (∀ d ∈ warnings, Diagnostic.isError d = false) → I code st → I code { st with
        netlist := st.netlist.connectAll wires
        notices := notices
        diagnostics := st.diagnostics ++ warnings })
    (hfault : ∀ c f, (Connector.finish c).1 = .error f → F f)
    (hstep : ∀ code, ∀ s ∈ body.items, Meets F (I code) (Emit.attempt (Emit.stmt r s))
      fun _ ↦ I (code ++ [s]))
    (hdone : ∀ entry blocks st, I body.items st → K (st.finished r entry blocks)) :
    Meets F (fun st ↦ I [] st.restarted) (routine r body) fun _ ↦ K := by
  have hjoin {rest : List Stmt} (hrest : rest ⊆ body.items) (code : List Stmt) (c : Connector) :
      Meets F (I code) (join r c rest) fun _ ↦ I (code ++ rest) := by
    induction rest generalizing code c with
    | nil =>
      rw [append_nil]
      exact .pure fun _ hs ↦ hs
    | cons s rest ih =>
      obtain ⟨hs, hrest⟩ := cons_subset.1 hrest
      rw [append_cons]
      refine .bind (hstep code s hs) fun h ↦ .bind (.modify fun st hst ↦ ?_) fun _ ↦ ih hrest _ _
      have hmore := hmore _ st (c.push h).2 st.notices [] (forall_mem_nil _) hst
      rwa [append_nil] at hmore
  have hclose (c : Connector) : Meets F (I body.items) (close c body.span)
      fun _ ↦ I body.items := by
    intro st hst
    rcases hfinish : c.finish with ⟨f | entry, closing⟩
    all_goals rw [close, hfinish]
    · exact hfault c f (congrArg Prod.fst hfinish)
    · exact hmore _ _ _ _ _ (by simp [Diagnostic.warning, Diagnostic.isError]) hst
  refine .bind (Q := fun _ ↦ I []) (.modify fun _ hst ↦ hst) fun _ ↦ ?_
  intro st hst
  exact Meets.bind (hjoin (.refl _) [] _) (fun c ↦ .bind (hclose c) fun entry ↦
    .modify (hdone entry st.placement.blocks.length)) st hst

/-- What every routine carries on holds after all of them. -/
theorem walks_routines {J : List (Routine × Stmt) → Emitter → Prop}
    {whole rest : List (Routine × Stmt)} (hstep : ∀ before e after, whole = before ++ e :: after →
      Meets F (J before) (routine e.1 e.2) fun _ ↦ J (before ++ [e]))
    (before : List (Routine × Stmt)) (h : whole = before ++ rest) :
    Meets F (J before) (routines rest) fun _ ↦ J whole := by
  induction rest generalizing before with
  | nil =>
    rw [h, append_nil]
    exact .pure fun _ hs ↦ hs
  | cons e rest ih => exact .bind (hstep before e rest h) fun _ ↦ ih _ (h.trans (by simp))

end

variable {shapes : BlockShape → Prop}

/-- Emission of a statement: it is handled, and if there is no complaint at all it became a handle
and only the entries of that are left open. -/
theorem meets_attempt (hshapes : ∀ shape : BlockShape, shape.kind ≠ .active → shapes shape)
    (r : Routine) (hs : s.Single) (h : ∀ shape ∈ s.visit shapeVisitor, shapes shape) (st : Emitter)
    : Meets Fault.Local (· = st) (Emit.attempt (Emit.stmt r s)) fun handle st' ↦ s.Handled handle ∧
      (st'.diagnostics.hasErrors = false → st.diagnostics.hasErrors = false ∧ s.Becomes handle ∧
        ∀ s₀ opens, Emitter.Leaves shapes s₀ opens st →
          Emitter.Leaves shapes s₀ (handle.entries ++ opens) st') := by
  rintro st rfl
  have hstmt (s₀ : Emitter) (opens : List Terminal) (hst : Emitter.Leaves shapes s₀ opens st) :=
    (Emit.meets_stmt (S := (Emit.stable_true hshapes).steady) r hs h (fun _ _ _ _ _ _ _ ↦ trivial)
      (fun _ _ ↦ trivial) (fun _ _ _ ↦ trivial) st hst).2.2
  have hself := hstmt st [] (.refl shapes st)
  rcases hrun : (Emit.stmt r s).run st with ⟨(d | f) | handle, st'⟩
  · rw [run_attempt_of_complaint hrun]
    rw [hrun] at hself
    refine ⟨.inr ⟨rfl, ?_⟩, fun hnone ↦ ?_⟩
    · cases s <;> first | rfl | cases hrun
    · have herror : d.isError = true := hself
      simp [Diagnostics.hasErrors, herror] at hnone
  · rw [run_attempt_of_fault hrun]
    rw [hrun] at hself
    exact hself
  · rw [run_attempt_of_ok hrun]
    rw [hrun] at hself
    refine ⟨.inl hself.1, fun hnone ↦ ⟨hself.2.2.errors ▸ hnone, hself.1, fun s₀ opens hst ↦ ?_⟩⟩
    have hleaves := hstmt s₀ opens hst
    rw [hrun] at hleaves
    exact hleaves.2.2

/-- Statements have been emitted since a state and joined. If there was no complaint at all, the
wires between them have been made, and nothing but their entries is left open. -/
def Joins (shapes : BlockShape → Prop) (s₀ : Emitter) (code : List Stmt) (c : Connector)
    (s : Emitter) : Prop :=
  ∃ handles wires name, Forall₂ Stmt.Handled code handles ∧
    Connector.Pushed name (handles.flatMap Handle.parts) c wires ∧
    (s.diagnostics.hasErrors = false → Forall₂ Stmt.Becomes code handles ∧
      wires ⊆ s.netlist.wires ∧ Emitter.Leaves shapes s₀ (handles.flatMap Handle.entries) s)

/-- A routine has been emitted: its jumps are wired too. -/
def Closes (shapes : BlockShape → Prop) (s₀ : Emitter) (code : List Stmt) (entry : Option Terminal)
    (s : Emitter) : Prop :=
  s.diagnostics.hasErrors = false → ∃ handles, Forall₂ Stmt.Becomes code handles ∧
    (∀ t, entry = some t ↔
      Connector.Arrives (handles.flatMap Handle.parts) (handles.flatMap Handle.parts) t) ∧
    (∀ e ∈ Connector.leaving (handles.flatMap Handle.parts), ∀ t,
      Connector.Arrives (handles.flatMap Handle.parts) e.2 t → ⟨e.1, t⟩ ∈ s.netlist.wires) ∧
    Emitter.Leaves shapes s₀ (handles.flatMap Handle.entries) s

theorem meets_close (hcode : Stmt.JumpClosed code) (c : Connector) (span : Span) :
    Meets Fault.Local (Joins shapes s₀ code c) (close c span) (Closes shapes s₀ code) := by
  rintro st ⟨handles, wires, name, hhandled, hjoined, hclean⟩
  obtain ⟨entry, closing, target, hfinish, htarget, hperm, hentry, -⟩ :=
    hjoined.finish_of_closed (hcode.closed hhandled)
  have hwarnings (ds : Diagnostics) (ls : List Label) : Diagnostics.hasErrors
      (ds ++ ls.map fun l ↦ Diagnostic.warning (.emptyLoop l.name) span) = ds.hasErrors := by
    simp [Diagnostics.hasErrors, Diagnostic.warning, Diagnostic.isError]
  rw [close, hfinish]
  intro hnone
  obtain ⟨hall, hwires, hopen⟩ := hclean ((hwarnings _ _).symm.trans hnone)
  have hmem {w : Wire} (hw : w ∈ wires ++ closing.wires) :
      w ∈ (st.netlist.connectAll closing.wires).wires := by
    rw [Netlist.wires_connectAll]
    exact (mem_append.1 hw).elim (fun hw ↦ mem_append_left _ (hwires hw))
      (mem_append_right _)
  refine ⟨handles, hall, hentry, fun e he t ht ↦ hmem (hperm.mem_iff.2 ?_), ?_⟩
  · exact mem_filterMap.2 ⟨e, he, Option.map_eq_some_iff.2 ⟨t, (htarget e he t).2 ht, rfl⟩⟩
  · have hleaves := hopen.connect closing.wires fun t ht ↦ .inl ht
    exact ⟨hleaves.blocks, hleaves.wires, hleaves.entries, (hwarnings _ _).trans hleaves.errors,
      hleaves.callers, hleaves.fed⟩

section

variable (hshapes : ∀ shape : BlockShape, shape.kind ≠ .active → shapes shape)

include hshapes

theorem meets_join (r : Routine) {rest : List Stmt} (hsingle : ∀ s ∈ rest, s.Single)
    (h : ∀ s ∈ rest, ∀ shape ∈ s.visit shapeVisitor, shapes shape) (code : List Stmt)
    (c : Connector) : Meets Fault.Local (Joins shapes s₀ code c) (join r c rest)
      (Joins shapes s₀ (code ++ rest)) := by
  induction rest generalizing code c with
  | nil =>
    rw [append_nil]
    exact .pure fun _ hs ↦ hs
  | cons s rest ih =>
    obtain ⟨hs, hsingle⟩ := forall_mem_cons.1 hsingle
    obtain ⟨hshape, h⟩ := forall_mem_cons.1 h
    rintro st ⟨handles, wires, name, hhandled, hjoined, hclean⟩
    rw [append_cons]
    refine Meets.bind (meets_attempt hshapes r hs hshape st)
      (fun handle ↦ .bind (.modify ?_) fun _ ↦ ih hsingle h _ _) st rfl
    rintro st' ⟨hhandle, hclean'⟩
    refine ⟨handles ++ [handle], wires ++ (c.push handle).2, name, ?_, ?_, fun hnone ↦ ?_⟩
    · exact rel_append hhandled (.cons hhandle .nil)
    · rw [flatMap_append, flatMap_singleton]
      exact hjoined.push handle
    · obtain ⟨hnone, hbecomes, hleaves⟩ := hclean' hnone
      obtain ⟨hall, hwires, hopen⟩ := hclean hnone
      refine ⟨rel_append hall (.cons hbecomes .nil), ?_, ?_⟩
      · rw [Netlist.wires_connectAll]
        have hgrown := (hleaves st [] (.refl shapes st)).wires
        exact append_subset.2 ⟨fun w hw ↦ mem_append_left _ (hgrown.subset (hwires hw)),
          subset_append_right _ _⟩
      · refine (hleaves s₀ _ hopen).connect _ fun t ht ↦ .inl ?_
        rw [flatMap_append, flatMap_singleton]
        exact (mem_append.1 ht).elim (mem_append_right _) (mem_append_left _)

/-- Emission of a routine. -/
theorem meets_routine (r : Routine) {body : Stmt} (hbody : Stmt.Prepared body.items)
    (h : ∀ s ∈ body.items, ∀ shape ∈ s.visit shapeVisitor, shapes shape) (st : Emitter) :
    Meets Fault.Local (· = st) (routine r body) fun _ st' ↦ ∃ entry s,
      Closes shapes st.restarted body.items entry s ∧
        st' = s.finished r entry st.placement.blocks.length := by
  rintro st rfl
  have hstart : Joins shapes st.restarted [] { routine := r.name } st.restarted :=
    ⟨[], [], r.name, .nil, .nil r.name, fun _ ↦ ⟨.nil, nil_subset _, .refl shapes _⟩⟩
  have hrun : Meets Fault.Local (Joins shapes st.restarted [] { routine := r.name }) (do
      let c ← join r { routine := r.name } body.items
      let entry ← close c body.span
      modify fun s ↦ s.finished r entry st.placement.blocks.length)
      fun _ st' ↦ ∃ entry s, Closes shapes st.restarted body.items entry s ∧
        st' = s.finished r entry st.placement.blocks.length :=
    .bind (meets_join hshapes r hbody.single h [] _) fun c ↦
      .bind (meets_close hbody.toJumpClosed c body.span) fun entry ↦
      .modify fun s hs ↦ ⟨entry, s, hs, rfl⟩
  exact hrun _ hstart

end

/-! ### Programs -/

theorem ensures_routines {entries : List (Routine × Stmt)}
    (h : ∀ entry ∈ entries, Stmt.Prepared entry.2.items) :
    Ensures Fault.Local (fun _ ↦ True) (routines entries) := by
  induction entries with
  | nil => exact .pure trivial
  | cons entry rest ih =>
    obtain ⟨hentry, hrest⟩ := forall_mem_cons.1 h
    exact (Meets.ensures (meets_routine (fun _ _ ↦ trivial) entry.1 hentry
      fun _ _ _ _ ↦ trivial)).bind fun _ _ ↦ ih hrest

theorem ensures_calls (entries : List (Routine × List Terminal)) :
    Ensures (fun f ↦ ∃ name, f = .missingCallee name) (fun _ ↦ True) (calls entries) := by
  induction entries with
  | nil => exact .pure trivial
  | cons entry rest ih =>
    rw [calls]
    refine .get_bind fun s ↦ ?_
    split
    · exact ⟨_, rfl⟩
    · exact ih _

/-- Jumps of prepared routines can always be wired. -/
theorem ensures_program (h : ∀ entry ∈ b.entries, Stmt.Prepared entry.2.items) :
    Ensures (fun f ↦ f.Local ∨ ∃ name, f = .missingCallee name) (fun _ ↦ True) (program b) := by
  refine Ensures.bind ((ensures_routines h).mono fun f hf ↦ .inl hf) fun _ _ ↦ .get_bind fun s ↦ ?_
  exact Ensures.bind ((ensures_calls _).mono fun f hf ↦ .inr hf) (fun _ _ ↦ .modify trivial) s

end Assemble

/-- In a prepared program without labels and jumps of its own, every label is defined once and every
jump has its label, so that emission finds all of them. -/
theorem Program.jumps_resolve {p : Program} {a : Analysis} {mode : Inlining} {b : Bodies}
    {notices notices' : List Notice} (hp : ∀ entry ∈ p.bodies.entries, entry.2.Jumpless)
    (h : Yields (p.prepare a mode) notices b notices') :
    (∀ entry ∈ b.entries, (Stmt.labels entry.2.flatten).Nodup ∧
      ∀ l ∈ Stmt.targets entry.2.flatten, l ∈ Stmt.labels entry.2.flatten) ∧
    ∀ options r l, (b.emit options).1 ≠ .error (.unresolvedLabel r l) := by
  have hprepared := prepared_of_yields hp h
  refine ⟨fun entry hentry ↦ ?_, fun options r l hemit ↦ ?_⟩
  · rw [(hprepared entry hentry).flatten]
    exact ⟨(hprepared entry hentry).nodup, (hprepared entry hentry).defined⟩
  · have hfault := Assemble.ensures_program hprepared { options := options }
    rw [Bodies.emit] at hemit
    rw [hemit] at hfault
    rcases hfault with hfault | ⟨name, hname⟩
    · exact hfault
    · cases hname

/-- The bodies of a prepared program, unless preparation stops. -/
def Program.prepared? (p : Program) (mode : Inlining) : Option Bodies :=
  ((p.prepare p.analyze mode).run []).1.toOption

theorem Program.exists_of_prepared? {p : Program} {mode : Inlining} (h : p.prepared? mode = some b)
    : ∃ notices, Yields (p.prepare p.analyze mode) [] b notices := yields_of_toOption h

/-- A flag that stops a loop. -/
def stopFlag : Variable := .slot ⟨.declared 0, "stop", .bool, .global, {}⟩

/-- A routine with the name of another one: `while (!stop) { stop = true; }`. -/
def namesake (id : Nat) : Routine := .declare id "f" [] .void {}

/-- Two routines of one name, one called by the other in a loop:
`main { on LateUpdate { f(); } while (stop && !stop) { f(); } }`. -/
def namesakes : Program where
  bodies := ⟨[(.declare 0 "main" [] .void {}, .block default [
      .on default .lateUpdate [] (.call default (.routine (namesake 2)) [] none),
      .whileLoop default (Build.binary .and (Build.read stopFlag default)
        (Build.unary .not (Build.read stopFlag default) default) default)
        (.call default (.routine (namesake 2)) [] none)]),
    (namesake 1, .whileLoop default (Build.unary .not (Build.read stopFlag default) default)
      (.assign default stopFlag (Build.literal (.bool true) default))),
    (namesake 2, .whileLoop default (Build.read stopFlag default)
      (.call default (.routine (namesake 1)) [] none))]⟩
  entry := .declare 0 "main" [] .void {}

theorem Program.jumps_resolve_namesakes : (∀ entry ∈ namesakes.bodies.entries, entry.2.Jumpless) ∧
    ∃ b, namesakes.prepared? .always = some b ∧
      b.entries.map (fun entry ↦ (Stmt.labels entry.2.flatten).length) = [16] ∧
      (∀ entry ∈ b.entries, (Stmt.labels entry.2.flatten).Nodup ∧
        ∀ l ∈ Stmt.targets entry.2.flatten, l ∈ Stmt.labels entry.2.flatten) ∧
      ∀ options r l, (b.emit options).1 ≠ .error (.unresolvedLabel r l) := by
  have hp : ∀ entry ∈ namesakes.bodies.entries, entry.2.Jumpless := by
    rw [namesakes]
    simp only [forall_mem_cons, not_mem_nil, false_imp_iff, implies_true, and_true]
    exact ⟨⟨rfl, rfl⟩, ⟨rfl, rfl⟩, ⟨rfl, rfl⟩⟩
  have hlabels : (namesakes.prepared? .always).map (fun b ↦
      b.entries.map fun entry ↦ (Stmt.labels entry.2.flatten).length) = some [16] := by
    decide +kernel
  obtain ⟨b, hb, hlengths⟩ := Option.map_eq_some_iff.1 hlabels
  obtain ⟨notices, hyields⟩ := exists_of_prepared? hb
  exact ⟨hp, b, hb, hlengths, jumps_resolve hp hyields⟩

end Wirescript
