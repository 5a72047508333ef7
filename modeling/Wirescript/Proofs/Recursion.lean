import Wirescript.Proofs.CallClosure

/-!
# Expansion comes to an end

Expansion goes on in the copies that it makes, so that no tree gets smaller on the way. What bounds it
is who calls whom. A routine that calls itself, directly or not, is never replaced, and the search that
finds those routines is exact (`Program.isRecursive_analyze`). It looks at the bodies as they are
written, and what their flat form calls is among what they call.

The routines whose copies are nested in one another are then all different, and all of them are
replaced (`Expand.ends_stmts`). So copies never nest deeper than there are such routines, and a greater
depth changes nothing.
-/

namespace Wirescript

open Relation
open List
open Table

variable {b : Bodies} {code : List Stmt} {q r : Routine} {body : Stmt}

/-! ### Routines that call themselves -/

theorem CallGraph.isRecursive_iff {g : CallGraph} : g.isRecursive r = true ↔ g.Gets r r := by
  constructor
  · intro h
    refine Reach.of_mem_closure (P := g.Gets r) (fun q hq ↦ .single hq) ?_ (of_decide_eq_true h)
    exact fun q hgets b hb ↦ hgets.tail hb
  · exact fun h ↦ decide_eq_true (mem_reached_of_gets h)

theorem Bodies.mem_callees (hkeys : b.keys.Nodup) :
    q ∈ (CallGraph.ofBodies b).callees r ↔ b.Calls r q := by
  constructor
  · intro h
    obtain ⟨callees, hcallees, hq⟩ := CallGraph.exists_of_mem_callees h
    obtain ⟨⟨r, body⟩, hbody, heq⟩ := mem_map.1 (mem_of_get? hcallees)
    cases heq
    exact ⟨body, hbody, hq⟩
  · rintro ⟨body, hbody, hq⟩
    rwa [CallGraph.callees_ofBodies (get?_of_mem hkeys hbody)]

theorem Bodies.gets_ofBodies (hkeys : b.keys.Nodup) :
    (CallGraph.ofBodies b).Gets r q ↔ TransGen b.Calls r q := by
  have heq : (fun r q ↦ q ∈ (CallGraph.ofBodies b).callees r) = b.Calls :=
    funext fun _ ↦ funext fun _ ↦ propext (mem_callees hkeys)
  rw [CallGraph.Gets, heq]

/-- The analysis finds the routines that call themselves, directly or not, and no others. -/
theorem Program.isRecursive_analyze {p : Program} (hkeys : p.bodies.keys.Nodup) :
    p.analyze.isRecursive r = true ↔ TransGen p.bodies.Calls r r := by
  have hfound : p.analyze.isRecursive r = true ↔
      r ∈ p.bodies.keys ∧ (CallGraph.ofBodies p.bodies).isRecursive r = true := by
    rw [Analysis.isRecursive, decide_eq_true_iff]
    exact mem_filter
  rw [hfound, CallGraph.isRecursive_iff, Bodies.gets_ofBodies hkeys]
  refine ⟨And.right, fun h ↦ ⟨?_, h⟩⟩
  -- what calls something has a body
  obtain ⟨q, ⟨body, hbody, -⟩, -⟩ := TransGen.head'_iff.1 h
  exact mem_map_of_mem hbody

/-! ### Nested copies -/

/-- A copy of one routine holds a call that is replaced by a copy of another one. -/
def Inliner.Nests (i : Inliner) (r q : Routine) : Prop :=
  r ∈ i.inlined ∧ q ∈ i.inlined ∧ i.bodies.Calls r q

namespace Expand

variable {i : Inliner} {routine : Routine}

/-- The expansion stops for a call that does not fit at most, and not for its depth. -/
def Ends (i : Inliner) (depth : Nat) (routine : Routine) (code : List Stmt) : Prop :=
  Ensures Fault.Mismatch (Stmt.AllRetain (fun _ ↦ True) (fun _ ↦ True))
      (stmts i depth routine code) ∧
    ∀ depth', depth ≤ depth' → stmts i depth' routine code = stmts i depth routine code

/-- What takes the place of a call hangs on the expansion of copies of the body alone. -/
theorem call_congr {inner inner' : Routine → List Stmt → Expand (List Stmt)}
    (hbody : i.bodies.get? r = some body) (span : Span) (arguments : List Expr)
    (result : Option Variable) (hinner : ∀ site bound exit,
      inner' r (body.substitute (copy site bound result exit)).flatten =
        inner r (body.substitute (copy site bound result exit)).flatten) :
    call i inner' span r arguments result = call i inner span r arguments result := by
  unfold call
  rw [hbody]
  simp [hinner]

theorem mapM_congr {f g : Stmt → Expand (List Stmt)} (h : ∀ s ∈ code, f s = g s) :
    code.mapM f = code.mapM g := by
  induction code with
  | nil => rfl
  | cons s rest ih =>
    obtain ⟨hs, hrest⟩ := forall_mem_cons.1 h
    rw [mapM_cons, mapM_cons, hs, ih hrest]

/-- A routine that is called from the innermost of some nested copies is none of those that are
copied. -/
theorem ends_stmts {R : Routine → Routine → Prop} (hbodies : ∀ r body, i.bodies.get? r = some body →
      Stmt.AllRetain (Callee.Of (R r)) (fun _ ↦ True) body.flatten)
    (hinlined : ∀ r ∈ i.inlined, i.bodies.contains r = true)
    (hacyclic : ∀ r, ¬ TransGen (fun r q ↦ r ∈ i.inlined ∧ q ∈ i.inlined ∧ R r q) r r) {depth : Nat}
    {path : List Routine} (hnodup : path.Nodup) (hpath : path ⊆ i.inlined)
    (hdepth : i.inlined.length < depth + path.length)
    (hcode : Stmt.AllRetain (Callee.Of fun q ↦ q ∈ i.inlined → ∀ r ∈ path,
      TransGen (fun r q ↦ r ∈ i.inlined ∧ q ∈ i.inlined ∧ R r q) r q) (fun _ ↦ True) code) :
    Ends i depth routine code := by
  induction depth generalizing path routine code with
  | zero =>
    -- more routines are copied than there are to copy
    have hle := (hnodup.subperm hpath).length_le
    omega
  | succ depth ih =>
    have hcopy {q : Routine} (hq : q ∈ i.inlined) (hreach : ∀ r ∈ path,
        TransGen (fun r q ↦ r ∈ i.inlined ∧ q ∈ i.inlined ∧ R r q) r q) :
        ∃ body, i.bodies.get? q = some body ∧ ∀ site bound result exit,
          Ends i depth q (body.substitute (copy site bound result exit)).flatten := by
      obtain ⟨body, hbody⟩ := Option.isSome_iff_exists.1 (hinlined q hq)
      have hfresh : q ∉ path := fun hmem ↦ hacyclic q (hreach q hmem)
      have hlonger : (q :: path).Nodup := nodup_cons.2 ⟨hfresh, hnodup⟩
      refine ⟨body, hbody, fun _ _ _ _ ↦ ih hlonger (cons_subset.2 ⟨hq, hpath⟩)
        (by rw [length_cons]; omega) (retains_copy ?_)⟩
      refine fun s hs ↦ Stmt.Retains.mono (hbodies q body hbody s hs) (fun c hcalls ↦ ?_)
        fun _ h ↦ h
      refine hcalls.imp fun q' hcalls hq' r hr ↦ ?_
      rcases mem_cons.1 hr with rfl | hr
      · exact .single ⟨hq, hq', hcalls⟩
      · exact (hreach r hr).tail ⟨hq, hq', hcalls⟩
    refine ⟨?_, fun depth' hle ↦ ?_⟩
    · refine ensures_stmts_succ (fun _ h ↦ h) (fun _ _ _ ↦ trivial) hcode fun q hq hreach ↦ ?_
      obtain ⟨body, hbody, hends⟩ := hcopy hq (hreach hq)
      exact ⟨body, hbody, fun site bound result exit ↦ (hends site bound result exit).1⟩
    · obtain ⟨depth', rfl⟩ := Nat.exists_eq_add_of_lt (Nat.lt_of_lt_of_le (Nat.succ_pos _) hle)
      refine congrArg (· >>= _) (mapM_congr fun s hs ↦ ?_)
      unfold stmt
      split
      · split
        · next hq =>
          obtain ⟨body, hbody, hends⟩ := hcopy hq ((hcode _ hs).1 hq)
          exact call_congr hbody _ _ _ fun site bound exit ↦
            (hends site bound _ exit).2 _ (Nat.le_of_succ_le_succ hle)
        · rfl
      · rfl

end Expand

/-! ### Whole programs -/

/-- Flat code calls what the body calls. -/
theorem Flattens.retains {flat : Stmt} (h : Flattens r body flat) :
    Stmt.AllRetain (Callee.Of (· ∈ body.callSites)) (Callee.Of (· ∈ body.callSites)) flat.items ∧
      flat.flatten = flat.items := by
  obtain ⟨l, e, hl, he, rfl⟩ := h
  have hlower := outcome_lower r body
  rw [hl] at hlower
  have hknown : ∀ a ∈ l.body.visit noteVisitor,
      a.Known (Callee.Of (· ∈ body.callSites)) (fun _ ↦ True) := by
    rintro ((q | b) | (q | b)) ha
    · have hmade := Lower.notes_block_subset _ hlower ha
      exact Stmt.mem_callSites_iff.2 (Stmt.made_mem_visit.1 hmade)
    all_goals trivial
  have hextract := outcome_extract Callee.of_builtin r hknown
  rw [he] at hextract
  refine ⟨fun s hs ↦ Stmt.Retains.mono (hextract s hs) (fun _ h ↦ h) fun _ h ↦ h.1, ?_⟩
  exact Stmt.Flat.flattenAll fun s hs ↦ Stmt.Retains.flatten (hextract s hs)

namespace Program

variable {p : Program} {mode : Inlining} {flat : Bodies} {notices notices' : List Notice}

theorem calls_of_flat (h : Yields p.flat notices flat notices') (hq : flat.Calls r q) :
    p.bodies.Calls r q := by
  obtain ⟨code, hcode, hq⟩ := hq
  obtain ⟨body, hbody, hflattens⟩ := mem_entries_flat h hcode
  exact ⟨body, hbody, (hflattens.retains.1.of_mem_callSites hq).elim id id⟩

/-- Routines that are replaced do not call themselves through one another. -/
theorem acyclic_inlined (mode : Inlining) (hkeys : p.bodies.keys.Nodup) (r : Routine) :
    ¬ TransGen (fun r q ↦ r ∈ p.analyze.inlined mode p.bodies.keys ∧
      q ∈ p.analyze.inlined mode p.bodies.keys ∧ p.bodies.Calls r q) r r := by
  intro h
  obtain ⟨q, ⟨hr, -⟩, -⟩ := TransGen.head'_iff.1 h
  exact (of_mem_inlined hr).2.2
    ((Bodies.gets_ofBodies hkeys).2 (h.lift id fun _ _ hstep ↦ hstep.2.2))

/-- The analysis finds exactly the routines that call themselves, directly or not. In flat code no
routine that is replaced calls itself through others that are replaced, and so every other body is
expanded: whatever more depth it is given, expansion does the same, and all that can stop it is a call
that does not fit its routine. -/
theorem expansion_ends (hkeys : p.bodies.keys.Nodup) :
    (∀ r, p.analyze.isRecursive r = true ↔ TransGen p.bodies.Calls r r) ∧
      ∀ mode notices flat notices', Yields p.flat notices flat notices' →
        ∀ i : Inliner, i = ⟨p.analyze.inlined mode p.bodies.keys, flat⟩ →
          (∀ r, ¬ TransGen i.Nests r r) ∧
          ∀ entry ∈ flat.entries, entry.1 ∉ i.inlined →
            Ensures Fault.Mismatch (fun _ ↦ True) (i.expand entry.1 entry.2) ∧
            ∀ depth, i.inlined.length < depth → Expand.stmts i depth entry.1 entry.2.flatten =
                Expand.stmts i (i.inlined.length + 1) entry.1 entry.2.flatten := by
  refine ⟨fun r ↦ isRecursive_analyze hkeys, ?_⟩
  rintro mode notices flat notices' hflat i rfl
  have hretain {r : Routine} {code : Stmt} (hcode : (r, code) ∈ flat.entries) :
      Stmt.AllRetain (Callee.Of (p.bodies.Calls r)) (fun _ ↦ True) code.flatten := by
    obtain ⟨body, hbody, hflattens⟩ := mem_entries_flat hflat hcode
    rw [hflattens.retains.2]
    exact fun s hs ↦ Stmt.Retains.mono (hflattens.retains.1 s hs)
      (fun _ hc ↦ hc.imp fun _ hq ↦ ⟨body, hbody, hq⟩) fun _ _ ↦ trivial
  have hacyclic := acyclic_inlined mode hkeys
  refine ⟨fun r hr ↦ hacyclic r (hr.lift id fun _ _ hstep ↦ ?_), fun entry hentry _ ↦ ?_⟩
  · exact ⟨hstep.1, hstep.2.1, calls_of_flat hflat hstep.2.2⟩
  · have hends : Expand.Ends ⟨p.analyze.inlined mode p.bodies.keys, flat⟩
        ((p.analyze.inlined mode p.bodies.keys).length + 1) entry.1 entry.2.flatten := by
      refine Expand.ends_stmts (R := p.bodies.Calls) (fun r body hbody ↦ ?_) (fun r hr ↦ ?_)
        hacyclic nodup_nil (nil_subset _) (by simp) fun s hs ↦ ?_
      · exact hretain (mem_of_get? hbody)
      · rw [Table.contains_iff, keys_of_forall₂ (forall₂_of_yields_flat hflat)]
        exact (of_mem_inlined hr).1
      · exact Stmt.Retains.mono (hretain hentry s hs)
          (fun _ hc ↦ hc.imp fun _ _ _ ↦ forall_mem_nil _) fun _ h ↦ h
    refine ⟨?_, hends.2⟩
    refine Ensures.bind (P := fun _ ↦ True) (fun _ ↦ trivial) fun _ _ ↦ hends.1.bind fun _ _ ↦ ?_
    exact Ensures.bind (P := fun _ ↦ True) (fun _ ↦ trivial) fun _ _ ↦ .pure trivial

end Program

/-- Copies nest, and one routine calls itself: `h(x) { h(x); } g(x) { h(x); } f(x) { g(x); g(x); }
main { bool x; f(x); }`. -/
def nesting : Program where
  bodies := ⟨[(flagTaker 3 "h", passFlag (flagTaker 3 "h") (flag 3 "x" .parameter)),
    (flagTaker 2 "g", passFlag (flagTaker 3 "h") (flag 2 "x" .parameter)),
    (flagTaker 1 "f", .block default [passFlag (flagTaker 2 "g") (flag 1 "x" .parameter),
      passFlag (flagTaker 2 "g") (flag 1 "x" .parameter)]),
    (hostMain, passFlag (flagTaker 1 "f") (flag 4 "x" .scoped))]⟩
  entry := hostMain

theorem Program.expansion_ends_nesting : nesting.bodies.keys.Nodup ∧
    (nesting.analyze.inlined .always nesting.bodies.keys).map Routine.name = ["g", "f"] ∧
    TransGen nesting.bodies.Calls (flagTaker 3 "h") (flagTaker 3 "h") ∧
    ∃ (flat : Bodies) (notices : List Notice) (i : Inliner) (body : Stmt),
      Yields nesting.flat [] flat notices ∧
      i = ⟨nesting.analyze.inlined .always nesting.bodies.keys, flat⟩ ∧
      (∀ r, ¬ TransGen i.Nests r r) ∧ (hostMain, body) ∈ flat.entries ∧ hostMain ∉ i.inlined ∧
      Ensures Fault.Mismatch (fun _ ↦ True) (i.expand hostMain body) := by
  have hkeys : nesting.bodies.keys.Nodup := by decide
  obtain ⟨hrecursive, hends⟩ := expansion_ends hkeys
  have hfound : ((nesting.flat.run []).1.toOption.bind (·.get? hostMain)).isSome = true := by
    decide +kernel
  obtain ⟨body, hbody⟩ := Option.isSome_iff_exists.1 hfound
  obtain ⟨flat, hflat, hbody⟩ := Option.bind_eq_some_iff.1 hbody
  obtain ⟨notices, hrun⟩ := yields_of_toOption hflat
  obtain ⟨hacyclic, hall⟩ := hends .always [] flat _ hrun _ rfl
  have hentry : hostMain ∉ nesting.analyze.inlined .always nesting.bodies.keys := by decide +kernel
  have hmain := hall _ (mem_of_get? hbody) hentry
  exact ⟨hkeys, by decide +kernel, (hrecursive _).1 (by decide +kernel), flat, _, _, body, hrun, rfl,
    hacyclic, mem_of_get? hbody, hentry, hmain.1⟩

end Wirescript
