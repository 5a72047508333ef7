import Wirescript.Proofs.Assembly

/-!
# The routines of a prepared program

A prepared program holds the routines that its entry calls, directly or not, and no others. The search
for them runs before variables get new names, and a name is given to a routine wherever it is
mentioned, so that what calls what is the same under the new names. `Bodies.CallClosed` is the
property of both.

Emission looks up where a routine begins only for the calls that it has recorded, and it records those
of the bodies alone; in a call-closed program all of them are found.
-/

namespace Wirescript

open Relation
open List

variable {b bodies live : Bodies} {f : Fault} {entry r : Routine} {body : Stmt}

/-- One routine calls another. -/
def Bodies.Calls (b : Bodies) (r q : Routine) : Prop :=
  ∃ body, (r, body) ∈ b.entries ∧ q ∈ body.callSites

/-- The routines are those that the first one calls, directly or not. -/
structure Bodies.CallClosed (b : Bodies) (entry : Routine) : Prop where
  first : b.keys.head? = some entry
  calls {r q : Routine} (h : b.Calls r q) : q ∈ b.keys
  reached (r : Routine) (h : r ∈ b.keys) : ReflTransGen b.Calls entry r

/-! ### Calls under new names -/

theorem Naming.relates_calleeVisitor (st : Naming) : Visitor.Relates
    (fun xs ys ↦ xs = ys.map st.substitution.callee) st.substitution calleeVisitor calleeVisitor :=
  st.relates (fun e ↦ by cases e <;> rfl) (fun s ↦ by cases s <;> rfl) fun _ ↦ rfl

/-- Under new names, a body calls the routines that it called. -/
theorem Naming.mem_calls_named (st : Naming) {s : Stmt} {q : Routine} :
    q ∈ (s.substitute st.substitution).callSites ↔ ∃ q' ∈ s.callSites, st.routineOf q' = q := by
  simp only [Stmt.mem_callSites_iff, st.relates_calleeVisitor.visitStmt s, mem_map]
  constructor
  · rintro ⟨q' | b, hq', heq⟩
    · exact ⟨q', hq', Callee.routine.inj heq⟩
    · cases heq
  · rintro ⟨q', hq', rfl⟩
    exact ⟨_, hq', rfl⟩

theorem Bodies.keys_named (b : Bodies) :
    b.named.bodies.keys = b.keys.map (Naming.ofBodies b).routineOf := by
  simp [Table.keys, named]

theorem Bodies.Calls.named {q : Routine} (h : b.Calls r q) :
    b.named.bodies.Calls ((Naming.ofBodies b).routineOf r) ((Naming.ofBodies b).routineOf q) := by
  obtain ⟨body, hbody, hq⟩ := h
  refine ⟨body.substitute (Naming.ofBodies b).substitution, mem_map_of_mem hbody, ?_⟩
  exact (Naming.ofBodies b).mem_calls_named.2 ⟨q, hq, rfl⟩

theorem Bodies.Calls.of_named {q : Routine} (h : b.named.bodies.Calls r q) :
    ∃ r' q', b.Calls r' q' ∧ q = (Naming.ofBodies b).routineOf q' := by
  obtain ⟨body, hbody, hq⟩ := h
  obtain ⟨⟨r', body'⟩, hentry, heq⟩ := mem_map.1 hbody
  cases heq
  obtain ⟨q', hq', rfl⟩ := (Naming.ofBodies b).mem_calls_named.1 hq
  exact ⟨r', q', ⟨body', hentry, hq'⟩, rfl⟩

/-- New names keep a program call-closed. -/
theorem Bodies.CallClosed.named (h : b.CallClosed entry) :
    b.named.bodies.CallClosed ((Naming.ofBodies b).routineOf entry) where
  first := by rw [keys_named, head?_map, h.first, Option.map_some]
  calls hq := by
    obtain ⟨r, q, hcall, rfl⟩ := hq.of_named
    rw [keys_named]
    exact mem_map_of_mem (h.calls hcall)
  reached r hr := by
    rw [keys_named] at hr
    obtain ⟨r', hr', rfl⟩ := mem_map.1 hr
    exact .lift (Naming.ofBodies b).routineOf (fun _ _ hcall ↦ Calls.named hcall) _ _
      (h.reached r' hr')

/-! ### What the entry still calls -/

/-- A routine is kept exactly if the search finds it. -/
theorem Program.mem_entries_called (h : called bodies entry = .ok live) {e : Routine × Stmt} :
    e ∈ live.entries ↔ e ∈ bodies.entries ∧ e.1 ∈ (CallGraph.ofBodies bodies).reached [entry] := by
  unfold called at h
  dsimp only at h
  split at h
  · cases h
  · cases h
    by_cases he : e.1 = entry <;> simp [he]

/-- No routine is kept twice. -/
theorem Program.exists_perm_called (h : called bodies entry = .ok live) :
    ∃ kept, kept.Sublist bodies.entries ∧ live.entries.Perm kept := by
  unfold called at h
  dsimp only at h
  split at h
  · cases h
  · cases h
    rw [partition_eq_filter_filter]
    exact ⟨_, filter_sublist, filter_append_perm _ _⟩

theorem Program.callClosed_called (hkeys : bodies.keys.Nodup) (h : called bodies entry = .ok live) :
    live.CallClosed entry := by
  have hfound {r : Routine} (hr : r ∈ (CallGraph.ofBodies bodies).reached [entry]) :
      r ∈ live.keys := by
    have hcontains : r ∈ bodies.keys := by
      unfold called at h
      dsimp only at h
      split at h
      · cases h
      · next hnone => simpa [Table.contains_iff] using find?_eq_none.1 hnone r hr
    obtain ⟨e, he, rfl⟩ := mem_map.1 hcontains
    exact mem_map_of_mem ((mem_entries_called h).2 ⟨he, hr⟩)
  have hcallees {r : Routine} {body : Stmt} (hbody : (r, body) ∈ live.entries) :
      (CallGraph.ofBodies bodies).callees r = body.callSites :=
    CallGraph.callees_ofBodies (Table.get?_of_mem hkeys ((mem_entries_called h).1 hbody).1)
  obtain ⟨body, rest, hfirst⟩ := (of_called h).2
  refine ⟨by rw [Table.keys, hfirst]; rfl, fun {r q} hq ↦ ?_, fun r hr ↦ ?_⟩
  · obtain ⟨body, hbody, hq⟩ := hq
    rw [← hcallees hbody] at hq
    exact hfound (CallGraph.reached_closed ((mem_entries_called h).1 hbody).2 hq)
  · obtain ⟨e, he, rfl⟩ := mem_map.1 hr
    refine (Reach.of_mem_closure (P := fun r ↦ r ∈ live.keys ∧ ReflTransGen live.Calls entry r)
      ?_ ?_ ((mem_entries_called h).1 he).2).2
    · intro r hr
      obtain rfl := mem_singleton.1 hr
      exact ⟨hfound (Reach.mem_closure_of_mem_roots hr), .refl⟩
    · rintro r ⟨hr, hreached⟩ q hq
      obtain ⟨⟨r, body⟩, hbody, rfl⟩ := mem_map.1 hr
      have hcall : live.Calls r q := ⟨body, hbody, hcallees hbody ▸ hq⟩
      refine ⟨hfound ?_, hreached.tail hcall⟩
      exact CallGraph.reached_closed ((mem_entries_called h).1 hbody).2 hq

/-! ### Emission of a call-closed program -/

theorem Fault.Local.notMissing (h : f.Local) : f.NotMissing := by
  rintro name rfl
  exact h

theorem Connector.ensures_closeAt (c : Connector) (a : Anchor) :
    Ensures Fault.NotMissing (fun _ ↦ True) (c.closeAt a) := by
  have hfollow (steps : Nat) (seen : List Anchor) (a : Anchor) :
      Outcome Fault.NotMissing (fun _ ↦ True) (c.follow steps seen a) := by
    have hunsettled (a : Anchor) : (c.unsettled a).NotMissing := by
      cases a <;> simp [unsettled, Fault.NotMissing]
    induction steps generalizing seen a with
    | zero => exact hunsettled a
    | succ steps ih =>
      rw [follow]
      split
      · exact hunsettled a
      · trivial
      · trivial
      · split
        · trivial
        · exact ih _ _
  refine Ensures.bind (.lift (hfollow _ _ _)) fun r _ ↦ ?_
  cases r with
  | loop l => exact Ensures.bind (P := fun _ ↦ True) (.modify trivial) fun _ _ ↦ .pure trivial
  | terminal | finish => exact .pure trivial

/-- Closing a routine never asks for another one. -/
theorem Connector.notMissing_of_finish {c : Connector} (h : c.finish.1 = .error f) :
    f.NotMissing := by
  have hjumps (c : Connector) (entries : List (Label × List Terminal)) :
      Ensures Fault.NotMissing (fun _ ↦ True) (c.closeJumps entries) := by
    induction entries with
    | nil => exact .pure trivial
    | cons e rest ih =>
      exact Ensures.bind (c.ensures_closeAt _) fun _ _ ↦
        Ensures.bind (P := fun _ ↦ True) (.modify trivial) fun _ _ ↦ ih
  have hwork := Ensures.bind (hjumps { c.settle .finish with pending := [] } c.jumps.entries)
    (fun _ _ ↦ ensures_closeAt { c.settle .finish with pending := [] } .entry) {}
  have hfinish : Outcome Fault.NotMissing (fun _ ↦ True) c.finish.1 := hwork
  rw [h] at hfinish
  exact hfinish

theorem Stmt.visit_items_subset {α : Type} {v : Visitor α} {s : Stmt} (hs : s ∈ body.items) :
    s.visit v ⊆ body.visit v := by
  cases body with
  | block span items =>
    exact subset_append_of_subset_left _
      (subset_append_of_subset_right _ (Stmt.mem_visitAll hs))
  | _ => exact mem_singleton.1 hs ▸ fun _ h ↦ h

namespace Assemble

/-- Some routines are done, and all calls that are recorded are of some routines. -/
def Recorded (sites : Routine → Prop) (done : List Routine) (s : Emitter) : Prop :=
  (∀ r ∈ done, r ∈ s.entries.keys) ∧ ∀ r ∈ s.calls.keys, sites r

variable {sites : Routine → Prop} {done : List Routine}

theorem stable_recorded (sites : Routine → Prop) (done : List Routine) (s₀ : Emitter) :
    Emit.Stable (fun _ ↦ True) (fun _ ↦ True) sites s₀ (Recorded sites done) where
  toSupply := .every
  still h hs := ⟨h.entries ▸ hs.1, fun r hr ↦ hs.2 r (h.calls ▸ hr)⟩
  place _ hs := hs
  join _ hs := hs
  calling r entrance h _ hs := by
    refine ⟨hs.1, fun q hq ↦ ?_⟩
    rcases Table.mem_keys_insert.1 hq with rfl | hq
    exacts [h, hs.2 q hq]

theorem records_attempt {s : Stmt} (hsingle : s.Single) (hs : ∀ q ∈ s.callSites, sites q) :
    Meets Fault.NotMissing (Recorded sites done) (Emit.attempt (Emit.stmt r s))
      fun _ ↦ Recorded sites done := by
  intro st hst
  obtain ⟨-, hrecorded, houtcome⟩ := Emit.meets_stmt (S := (stable_recorded sites done st).steady) r
    hsingle (fun _ _ ↦ trivial) (fun _ _ _ _ _ _ _ ↦ trivial) hs (fun _ _ _ ↦ trivial) st
    (.refl _ st)
  replace hrecorded := hrecorded hst
  rcases hrun : (Emit.stmt r s).run st with ⟨(d | f) | h, st'⟩
  all_goals rw [hrun] at hrecorded houtcome
  · rw [run_attempt_of_complaint hrun]
    exact hrecorded
  · rw [run_attempt_of_fault hrun]
    exact Fault.Local.notMissing houtcome
  · rw [run_attempt_of_ok hrun]
    exact hrecorded

theorem records_routines {entries : List (Routine × Stmt)}
    (h : ∀ e ∈ entries, (∀ s ∈ e.2.items, s.Single) ∧ ∀ q ∈ e.2.callSites, sites q) :
    Meets Fault.NotMissing (Recorded sites []) (routines entries)
      fun _ ↦ Recorded sites (entries.map Prod.fst) := by
  refine walks_routines (J := fun before ↦ Recorded sites (before.map Prod.fst)) ?_ [] rfl
  rintro before e after rfl
  obtain ⟨hsingle, hsites⟩ := h e (by simp)
  refine walks_routine (I := fun _ ↦ Recorded sites (before.map Prod.fst)) e.1
    (fun _ _ _ _ _ _ hs ↦ hs) (fun _ _ ↦ Connector.notMissing_of_finish) (fun _ s hs ↦ ?_) ?_
  · exact records_attempt (hsingle s hs) fun q hq ↦ hsites q (Stmt.visit_items_subset hs hq)
  · rintro entry _ st ⟨hdone, hcalls⟩
    refine ⟨fun q hq ↦ Table.mem_keys_insert.2 ?_, hcalls⟩
    rw [map_append, map_singleton, mem_append, mem_singleton] at hq
    exact hq.symm.imp_right (hdone q)

/-- Calls are wired if all routines that are called are done. -/
theorem meets_calls (entries : List (Routine × List Terminal)) :
    Meets Fault.NotMissing (fun s ↦ ∀ e ∈ entries, e.1 ∈ s.entries.keys) (calls entries)
      fun _ _ ↦ True := by
  induction entries with
  | nil => exact .pure fun _ _ ↦ trivial
  | cons e rest ih =>
    intro s hs
    obtain ⟨he, hrest⟩ := forall_mem_cons.1 hs
    obtain ⟨entry, hentry⟩ := Option.isSome_iff_exists.1 (Table.contains_iff.2 he)
    have hcalls : (calls (e :: rest)).run s = (calls rest).run { s with
        netlist := s.netlist.connectAll ((entry.map fun t ↦ wiresTo t e.2).getD []) } := by
      refine (run_bind_of_ok (a := s) rfl).trans ?_
      rw [hentry]
      rfl
    rw [hcalls]
    exact ih _ hrest

/-- A program in which every routine that is called has a body is emitted without asking for
another one. -/
theorem notMissing_program (hsingle : ∀ e ∈ b.entries, ∀ s ∈ e.2.items, s.Single)
    (h : ∀ r q, b.Calls r q → q ∈ b.keys) :
    Meets Fault.NotMissing (fun s ↦ s.calls.keys = []) (program b) fun _ _ ↦ True := by
  have hsites : ∀ e ∈ b.entries, (∀ s ∈ e.2.items, s.Single) ∧ ∀ q ∈ e.2.callSites, q ∈ b.keys :=
    fun e he ↦ ⟨hsingle e he, fun q hq ↦ h e.1 q ⟨e.2, he, hq⟩⟩
  have hstart (s : Emitter) (hs : s.calls.keys = []) : Recorded (· ∈ b.keys) [] s :=
    ⟨by simp, by simp [hs]⟩
  refine .bind ((records_routines hsites).before hstart) fun _ s hs ↦ ?_
  refine Meets.bind (R := fun _ _ ↦ True) (meets_calls s.calls.entries)
    (fun _ ↦ .modify fun _ _ ↦ trivial) s
    fun e he ↦ hs.1 e.1 ?_
  exact hs.2 e.1 (mem_map_of_mem he)

end Assemble

/-- A program before its variables get new names. What a source body makes no calls of, and holds no
calls of, is not called here. -/
theorem Program.exists_of_yields_live {p : Program} {a : Analysis} {mode : Inlining}
    {notices notices' : List Notice} {M : Callee → Prop} {H : Routine → Prop}
    (hM : ∀ b ∈ Builtin.all, ∀ t, M (.builtin b t))
    (hknown : ∀ entry ∈ p.bodies.entries, ∀ c ∈ entry.2.visit noteVisitor, c.Known M H)
    (h : Yields (p.prepare a mode) notices b notices') : ∃ live : Bodies, b = live.named.bodies ∧
      (∃ kept, kept.Sublist p.bodies.keys ∧ live.keys.Perm kept) ∧
      (p.bodies.keys.Nodup → live.CallClosed p.entry) ∧
      ∀ e ∈ live.entries, Stmt.AllRetain M (Callee.Kept M H) e.2.items := by
  obtain ⟨flat, notices₁, entries, notices₂, live, -, hflat, heach, hcalled, rfl⟩ :=
    exists_of_yields_prepare h
  have hof {α : Type} {F : Fault → Prop} {P : α → Prop} {x : Work α} {s s' : List Notice} {v : α}
      (hx : Ensures F P x) (hv : Yields x s v s') : P v := by
    have hs := hx s
    rw [hv] at hs
    exact hs
  obtain ⟨hflatKeys, hretain⟩ := hof (ensures_flat hM hknown) hflat
  have hinlined : ∀ r ∈ a.inlined mode p.bodies.keys, flat.contains r = true := by
    intro r hr
    rw [Table.contains_iff, hflatKeys]
    exact (Analysis.canInline_of_mem_inlined hr).1
  obtain ⟨hmap, hretained⟩ := hof (ensures_expandEach (i := ⟨_, flat⟩) hretain hinlined 0
    fun e he ↦ hretain e (mem_filter.1 he).1) heach
  have hexpanded : (Table.mk entries).keys.Sublist p.bodies.keys := by
    rw [Table.keys, hmap, ← hflatKeys]
    exact filter_sublist.map _
  obtain ⟨kept, hkept, hperm⟩ := exists_perm_called hcalled
  refine ⟨live, rfl, ⟨kept.map Prod.fst, (hkept.map _).trans hexpanded, hperm.map _⟩,
    fun hkeys ↦ callClosed_called (hkeys.sublist hexpanded) hcalled, fun e he ↦ ?_⟩
  exact fun s hs ↦ (hretained e ((of_called hcalled).1 he) s hs).mono (fun _ h ↦ h.1) fun _ h ↦ h

/-- Flat statements are single under new names too. -/
theorem Bodies.single_named {M K : Callee → Prop}
    (h : ∀ e ∈ b.entries, Stmt.AllRetain M K e.2.items) :
    ∀ e ∈ b.named.bodies.entries, ∀ s ∈ e.2.items, s.Single := by
  intro e he s hs
  obtain ⟨⟨r, body⟩, hbody, rfl⟩ := mem_map.1 he
  rw [Naming.items_substitute] at hs
  obtain ⟨t, ht, rfl⟩ := mem_map.1 hs
  have hretains := h _ hbody t ht
  cases t
  case block | expression => exact hretains.elim
  all_goals trivial

/-- A prepared program holds what its entry calls, directly or not, with the entry first, and all
under the same new names; emission of it finds every routine that is called. -/
theorem Program.prepare_callClosed {p : Program} {a : Analysis} {mode : Inlining} {b : Bodies}
    {notices notices' : List Notice} (hkeys : p.bodies.keys.Nodup)
    (h : Yields (p.prepare a mode) notices b notices') :
    ∃ naming : Naming, b.CallClosed (naming.routineOf p.entry) ∧
      (∀ r ∈ b.keys, ∃ q ∈ p.bodies.keys, r = naming.routineOf q) ∧
      ∀ options name, (b.emit options).1 ≠ .error (.missingCallee name) := by
  have hknown (a : CallNote) : a.Known (fun _ ↦ True) (fun _ ↦ True) := by
    rcases a with _ | (_ | _) <;> trivial
  obtain ⟨live, rfl, ⟨kept, hkept, hperm⟩, hclosed, hretain⟩ :=
    exists_of_yields_live (fun _ _ _ ↦ trivial) (fun _ _ a _ ↦ hknown a) h
  refine ⟨Naming.ofBodies live, (hclosed hkeys).named, fun r hr ↦ ?_, fun options name hemit ↦ ?_⟩
  · rw [Bodies.keys_named] at hr
    obtain ⟨q, hq, rfl⟩ := mem_map.1 hr
    exact ⟨q, hkept.subset (hperm.subset hq), rfl⟩
  · have hfault := Assemble.notMissing_program (Bodies.single_named hretain)
      (fun _ _ ↦ (hclosed hkeys).named.calls) { options := options } rfl
    rw [Bodies.emit] at hemit
    rw [hemit] at hfault
    exact hfault name rfl

/-- A routine with one parameter, which shares its name with other variables. -/
def flagTaker (id : Nat) (name : String) : Routine :=
  .declare id name [.slot (flag id "x" .parameter)] .void {}

/-- Passes a flag to a routine. -/
def passFlag (r : Routine) (s : Slot) : Stmt := .call default (.routine r) [readFlag s] none

/-- A routine that is never called, one that calls itself, and the entry:
`g(x) { f(x); } f(x) { f(x); } main { bool x; f(x); }`. -/
def circular : Program where
  bodies := ⟨[(flagTaker 2 "g", passFlag (flagTaker 1 "f") (flag 2 "x" .parameter)),
    (flagTaker 1 "f", passFlag (flagTaker 1 "f") (flag 1 "x" .parameter)),
    (hostMain, passFlag (flagTaker 1 "f") (flag 3 "x" .scoped))]⟩
  entry := hostMain

theorem Program.prepare_callClosed_circular : circular.bodies.keys.Nodup ∧
    ∃ b, circular.prepared? .always = some b ∧ b.keys.map Routine.name = ["main", "f"] ∧
      ∃ naming : Naming, b.CallClosed (naming.routineOf circular.entry) ∧
        (∀ r ∈ b.keys, ∃ q ∈ circular.bodies.keys, r = naming.routineOf q) ∧
        ∀ options name, (b.emit options).1 ≠ .error (.missingCallee name) := by
  have hkeys : circular.bodies.keys.Nodup := by decide
  have hnames : (circular.prepared? .always).map (fun b ↦ b.keys.map Routine.name) =
      some ["main", "f"] := by
    decide +kernel
  obtain ⟨b, hb, hnames⟩ := Option.map_eq_some_iff.1 hnames
  obtain ⟨notices, hyields⟩ := exists_of_prepared? hb
  exact ⟨hkeys, b, hb, hnames, prepare_callClosed hkeys hyields⟩

end Wirescript
