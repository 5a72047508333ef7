import Wirescript.Proofs.Symbols
import Wirescript.Proofs.WellScoped

/-!
# Inlining and what a program computes

Whatever calls are replaced when a program is prepared, the prepared program computes what the flat
program computes. A run of it is followed back through the steps of the preparation: the names of
storage, the choice of the routines that are still called, and the expansion of calls. So two ways to
prepare a program leave the same globals.
-/

namespace Wirescript

open List

variable {bodies : Bodies} {i : Inliner} {p : Program} {entry r : Routine} {body : Stmt}
  {k : String}

/-! ### The steps of the preparation -/

namespace Program

variable {mode : Inlining} {notices notices' : List Notice} {b : Bodies}

/-- A prepared program has been flattened, its calls expanded, and those routines named that are still
called. -/
theorem exists_of_yields_prepare {a : Analysis} (h : Yields (p.prepare a mode) notices b notices') :
    ∃ flat notices₁ entries notices₂ live, p.bodies.contains p.entry = true ∧
      Yields p.flat notices flat notices₁ ∧
      Yields (expandEach ⟨a.inlined mode p.bodies.keys, flat⟩ 0
        (flat.entries.filter fun entry ↦ decide (entry.1 ∉ a.inlined mode p.bodies.keys)))
        notices₁ entries notices₂ ∧
      called ⟨entries⟩ p.entry = .ok live ∧ b = live.named.bodies := by
  unfold prepare at h
  split at h
  · rename_i hentry
    obtain ⟨flat, notices₁, hflat, hafterFlat⟩ := yields_bind.1 h
    obtain ⟨expanded, notices₂, hexpand, hafterExpand⟩ := yields_bind.1 hafterFlat
    obtain ⟨entries, _, heach, hexpanded⟩ := yields_bind.1 hexpand
    cases hexpanded
    obtain ⟨live, _, hcalled, hafterCalled⟩ := yields_bind.1 hafterExpand
    obtain ⟨hlive, rfl⟩ := yields_lift.1 hcalled
    obtain ⟨_, _, -, hnoted⟩ := yields_bind.1 hafterCalled
    obtain ⟨_, _, -, hnamed⟩ := yields_bind.1 hnoted
    cases hnamed
    exact ⟨flat, notices₁, entries, _, live, hentry, hflat, heach, hlive, rfl⟩
  · cases h

theorem exists_of_contains (h : bodies.contains r = true) :
    ∃ body, bodies.get? r = some body := Option.isSome_iff_exists.1 h

/-- The routines that are still called are routines of the program, and the entry comes first. -/
theorem of_called {live : Bodies} (h : called bodies entry = .ok live) :
    live.entries ⊆ bodies.entries ∧ ∃ body rest, live.entries = (entry, body) :: rest := by
  have hroot : entry ∈ (CallGraph.ofBodies bodies).reached [entry] :=
    Reach.mem_closure_of_mem_roots (mem_singleton_self _)
  unfold called at h
  simp only at h
  split at h
  · cases h
  · rename_i hfound
    cases h
    rw [partition_eq_filter_filter]
    generalize hkept : bodies.entries.filter (fun entry' ↦
      decide (entry'.1 ∈ (CallGraph.ofBodies bodies).reached [entry])) = kept
    have hcontains : bodies.contains entry = true := by
      simpa using find?_eq_none.1 hfound entry hroot
    obtain ⟨body, hbody⟩ := exists_of_contains hcontains
    have hmem : (entry, body) ∈ kept :=
      hkept ▸ mem_filter.2 ⟨Table.mem_of_get? hbody, by simpa using hroot⟩
    refine ⟨fun entry' hentry' ↦ ?_, ?_⟩
    · have hboth : entry' ∈ kept := by
        rcases mem_append.1 hentry' with hentry' | hentry' <;>
          exact (mem_filter.1 hentry').1
      exact (mem_filter.1 (hkept ▸ hboth)).1
    · -- the entry is among the first ones, and nothing else is
      rcases hfirst : kept.filter (fun entry' ↦ decide (entry'.1 = entry)) with - | ⟨⟨r, body'⟩, rest⟩
      · have hnone := filter_eq_nil_iff.1 hfirst (entry, body) hmem
        simp at hnone
      · have hr : (r, body') ∈ kept.filter (fun entry' ↦ decide (entry'.1 = entry)) :=
          hfirst ▸ (.head _)
        obtain rfl : r = entry := by simpa using (mem_filter.1 hr).2
        exact ⟨body', _, congrArg (· ++ _) hfirst⟩

end Program

theorem Table.get?_of_mem {κ ν : Type} [DecidableEq κ] {t : Table κ ν} (h : t.keys.Nodup) {k : κ}
    {v : ν} (hmem : (k, v) ∈ t.entries) : t.get? k = some v := by
  obtain ⟨entries⟩ := t
  replace h : (entries.map Prod.fst).Nodup := h
  replace hmem : (k, v) ∈ entries := hmem
  induction entries with
  | nil => cases hmem
  | cons entry rest ih =>
    rw [map_cons, nodup_cons] at h
    rcases mem_cons.1 hmem with rfl | hmem
    · exact if_pos rfl
    · have hne : entry.1 ≠ k := fun heq ↦ h.1 (heq ▸ mem_map_of_mem hmem)
      exact (if_neg hne).trans (ih h.2 hmem)

/-! ### Prepared programs -/

/-- What became of a well-scoped program: its flat code, the code in which calls have been replaced,
and the part of it that is still called. -/
structure Preparation (S : Scene (String ⊕ Slot)) (p : Program) (events : Prop)
    (owns : Routine → Slot → Prop) (i : Inliner) (live : Bodies) where
  flattened : Flattened S p events owns i
  host : Nat → Routine
  /-- The number of sites. -/
  sites : Nat
  program : Listing
  stage : Stage S i (p.layout owns i host) program sites
  simulates : Simulates S i (p.layout owns i host) program i.bodies.listing
  known {r : Routine} (h : r ∈ live.keys) : (p.layout owns i host).known r
  listing {r : Routine} {body : Stmt} (h : (r, body) ∈ live.entries) :
    program r = some body.flatten
  remaining {r q : Routine} {body s : Stmt} (h : (r, body) ∈ live.entries) (hs : s ∈ body.flatten)
    (hq : s.Invokes q) : q ∉ i.inlined

namespace Preparation

variable {S : Scene (String ⊕ Slot)} {events : Prop} {owns : Routine → Slot → Prop} {live : Bodies}
  (o : Preparation S p events owns i live)

include o in
theorem mem_routines (h : r ∈ live.keys) : r ∈ p.routines := (o.known h).1

theorem program_of_listing {code : List Stmt} (h : live.listing r = some code) :
    r ∈ live.keys ∧ o.program r = some code := by
  obtain ⟨body, hbody, rfl⟩ := Option.map_eq_some_iff.1 h
  have hmem := Table.mem_of_get? hbody
  exact ⟨mem_map_of_mem hmem, o.listing hmem⟩

theorem settled {code : List Stmt} (h : live.listing r = some code) :
    Stmt.AllSettled ((p.layout owns i o.host).vocabulary o.sites r) code := by
  obtain ⟨hr, hcode⟩ := o.program_of_listing h
  exact o.stage.settled (o.known hr) hcode

include o in
/-- No variable but a global has a name that is marked. -/
theorem unmarked (hscoped : p.WellScoped owns) {x : Variable} (hx : x ∈ Naming.mentions live)
    (hrole : x.root.role ≠ .global) : Unmarked x.root.name := by
  have hformal (q : Routine) (hq : q ∈ p.routines) (x : Variable) (hx : x ∈ q.formals) :
      x.root.role ≠ .global → Unmarked x.root.name := by
    intro _
    obtain ⟨s, rfl, hcells⟩ := hscoped.formal hq hx
    exact hscoped.unmarked_of_cells hcells
  obtain ⟨⟨r, body⟩, hentry, hx⟩ := mem_flatMap.1 hx
  have hr : r ∈ live.keys := mem_map_of_mem hentry
  rcases mem_append.1 hx with hx | hx
  · exact hformal r (o.mem_routines hr) x hx hrole
  · have hsettled := o.stage.settled (o.known hr) (o.listing hentry)
    refine hsettled.of_mem_mentions (P := fun x ↦ x.root.role ≠ .global → Unmarked x.root.name)
      (fun x hvar hlocal ↦ ?_) hformal hx hrole
    rcases (hvar.1.resolve_left hlocal).1 with hcells | ⟨site, ⟨-, name, hname⟩, -⟩
    · exact hscoped.unmarked_of_cells hcells
    · -- names of a site begin with a letter
      rw [hname]
      show Unmarked ("inl" ++ toString site ++ "_" ++ name)
      simp [Unmarked]

/-- A run of the prepared program does what the flat program does. -/
theorem exists_completes (o : Preparation { key := Slot.home } p events owns i live)
    (hp : p.WellScoped owns) (hentry : p.entry ∈ live.keys)
    (h : (live.named.bodies.run ((Naming.ofBodies live).routineOf p.entry)).1 = .ok ()) :
    ∃ u, Completes { key := Slot.home } i.bodies.listing p.entry {} u ∧ ∀ s, s.role = .global →
      (live.named.bodies.run ((Naming.ofBodies live).routineOf p.entry)).2.memory.load
        Memory.storageKey (.slot s) = u.memory.load Slot.home (.slot s) := by
  have hcells : ∀ s, live.HasCell s → s.role ≠ .global → Unmarked s.name := by
    rintro s ⟨x, hx, rfl⟩
    exact o.unmarked hp hx
  have hformals : Naming.Mentioned live.Mentions p.entry.formals :=
    (Bodies.mentioned_formals hentry).mono fun _ ↦ .inr
  obtain ⟨houtcome, hreflects⟩ := Bodies.callable_invoke (Bodies.separates_home hcells) (fun _ ↦ .inr)
    (fun _ hs ↦ hs) stepLimit (stepLimit + 1) p.entry hformals {} {} ⟨fun _ _ ↦ rfl, rfl⟩
  -- the run with a cell for each variable
  generalize hrun : (Exec.invoke Slot.home stepLimit live (stepLimit + 1) p.entry).run {} = outcome
    at houtcome hreflects
  obtain ⟨ended, machine⟩ := outcome
  obtain rfl : ended = .ok () := by
    rw [show (Exec.invoke _ _ _ _ _).run _ = live.named.bodies.run _ from rfl, h] at houtcome
    cases ended with
    | error f => cases houtcome
    | ok u => rfl
  have hfollows : Follows { key := Slot.home } live.listing (stepLimit + 1) p.entry {}
      (.ofMemory machine.memory) :=
    (Exec.performs_of_invoke hrun).follows fun r code hcode ↦ o.settled hcode
  have hprogram := hfollows.mono_program fun r code hcode ↦ (o.program_of_listing hcode).2
  obtain ⟨u, hu, hlinked⟩ := o.simulates p.entry (o.known hentry) {} _ ⟨_, hprogram⟩
  refine ⟨u, hu, fun s hs ↦ ?_⟩
  rw [← hlinked.load ⟨rfl, .inl hs⟩]
  have hcell := hreflects.memory s (.inl hs)
  rw [Naming.image_of_global (Naming.sound_ofBodies live) hs] at hcell
  exact congrArg (fun v : Option Value ↦ (v.or s.type.default?).getD .null) hcell

end Preparation

section Prepared

variable {S : Scene (String ⊕ Slot)} {events : Prop} {owns : Routine → Slot → Prop}
  {mode : Inlining} {flat live : Bodies} {entries : List (Routine × Stmt)}
  {notices notices₁ notices₂ : List Notice}

/-- Without events nothing starts one or ends one. -/
theorem Program.Scoped.calm (hp : p.Scoped False owns) {flat : Stmt}
    (hbody : (r, body) ∈ p.bodies.entries) (hflat : Flattens r body flat) : Calm flat.flatten := by
  have hsettled : Stmt.AllSettled (Vocabulary.all.withEvents False) flat.flatten := by
    refine hflat.settled (fun _ _ ↦ trivial) (fun _ _ _ ↦ trivial) ?_
    have hwithin := (hp.body hbody).substitute (σ := {}) (W := (Vocabulary.all.withEvents False))
      { var := fun _ _ ↦ trivial
        label := fun _ _ ↦ trivial
        routine := fun _ _ ↦ trivial
        events := fun he ↦ he
        ret := fun _ ↦ trivial
        retValue := fun _ _ hvalue ↦ hvalue }
    rwa [body.substitute_empty] at hwithin
  refine ⟨fun {rest} hleads hback ↦ ?_, fun hmem ↦ (hsettled _ hmem).1.elim⟩
  have hsuffix : rest <:+ flat.flatten := hleads.suffix (suffix_refl _)
  rcases rest with - | ⟨s, rest⟩
  · exact hback
  · have hs := hsettled s (hsuffix.subset (.head _))
    cases s
    case rollback => exact hs.1
    all_goals exact hback

theorem Program.flattened (hp : p.WellScoped owns) (hdefinite : p.Definite) (hapart : p.KeepsApart)
    (hflat : Yields p.flat notices flat notices₁) :
    Flattened { key := Slot.home } p False owns ⟨p.analyze.inlined mode p.bodies.keys, flat⟩ where
  key := rfl
  watched h := by cases h
  scopes := hp.toScoped
  bodies := Program.forall₂_of_yields_flat hflat
  inlined hr := (Program.of_mem_inlined hr).2.2
  definite _ h hflat := hdefinite _ _ _ h hflat
  calm _ h hflat := hp.toScoped.calm h hflat
  kept h hflat _ hs := by
    obtain ⟨hslot, hpairs⟩ := hapart _ _ _ h hflat _ _ _ _ hs
    exact ⟨hslot, fun _ y hy ↦ ⟨hpairs y hy, fun hwatched ↦ by cases hwatched⟩⟩

theorem Flattened.keys (h : Flattened S p events owns i) :
    i.bodies.keys = p.bodies.keys := Table.keys_of_forall₂ h.bodies

/-- A program that was prepared has a preparation. -/
theorem Flattened.nonempty_preparation (hflattened : Flattened S p events owns i)
    (heach : Yields (Program.expandEach i 0
      (i.bodies.entries.filter fun entry ↦ decide (entry.1 ∉ i.inlined))) notices₁ entries notices₂)
    (hlive : live.entries ⊆ entries) : Nonempty (Preparation S p events owns i live) := by
  have hkeys : i.bodies.keys.Nodup := by
    rw [hflattened.keys]
    exact hflattened.scopes.keys
  have hget {r : Routine} {body : Stmt} (hmem : (r, body) ∈ i.bodies.entries) :
      i.bodies.get? r = some body := Table.get?_of_mem hkeys hmem
  have hbodies (r : Routine) (body : Stmt) (hbody : i.bodies.get? r = some body) :=
    hflattened.settled_source (fun _ ↦ p.entry) hbody
  have hentries (r : Routine) (body : Stmt)
      (hmem : (r, body) ∈ i.bodies.entries.filter fun entry ↦ decide (entry.1 ∉ i.inlined)) :=
    hbodies r body (hget (mem_filter.1 hmem).1)
  obtain ⟨host, sites, hexpands⟩ := exists_expandsEach hbodies hentries heach
  have hknown {r : Routine} {body : Stmt} (hmem : (r, body) ∈ i.bodies.entries)
      (hr : r ∉ i.inlined) : (p.layout owns i host).known r := by
    obtain ⟨source, hsource, -⟩ := hflattened.exists_source (hget hmem)
    refine ⟨Program.mem_routines_of_entry (Table.mem_of_get? hsource), fun body' hbody' ↦ ?_⟩
    cases ((hget hmem).symm.trans hbody')
    exact hexpands.exists_expands (mem_filter.2 ⟨hmem, by simpa using hr⟩)
  have hremaining (r : Routine) (body : Stmt)
      (hmem : (r, body) ∈ i.bodies.entries.filter fun entry ↦ decide (entry.1 ∉ i.inlined)) :
      (p.layout owns i host).known r ∧ r ∉ i.inlined ∧ i.bodies.listing r = some body.flatten := by
    obtain ⟨hentry, hr⟩ := mem_filter.1 hmem
    have hr' : r ∉ i.inlined := by simpa using hr
    exact ⟨hknown hentry hr', hr', by rw [Bodies.listing, hget hentry]; rfl⟩
  obtain ⟨program, hstage, hcodes, -, hsimulates⟩ := hexpands.stage (L := p.layout owns i host)
    (hflattened.orderly host) (hflattened.stage hexpands) hremaining
    (hkeys.sublist (filter_sublist.map _))
  refine ⟨⟨hflattened, host, sites, program, hstage, hsimulates, fun {r} hr ↦ ?_, fun hmem ↦
    hcodes _ _ (hlive hmem), fun hmem ↦ hexpands.not_invokes hbodies hentries (hlive hmem)⟩⟩
  -- what is still called is one of the routines that remain
  obtain ⟨⟨r', body⟩, hentry, rfl⟩ := mem_map.1 hr
  have hfst : r' ∈ (i.bodies.entries.filter fun entry ↦ decide (entry.1 ∉ i.inlined)).map Prod.fst :=
    hexpands.map_fst ▸ mem_map_of_mem (hlive hentry)
  obtain ⟨⟨r'', body''⟩, hmem, rfl⟩ := mem_map.1 hfst
  exact (hremaining r'' body'' hmem).1

/-- What is known about a run of a prepared program: it does what the flat program does. -/
theorem Program.WellScoped.exists_completes (hp : p.WellScoped owns) (hdefinite : p.Definite)
    (hapart : p.KeepsApart) {b : Bodies} (h : Yields (p.prepare p.analyze mode) notices b notices₁)
    (hentry : b.keys.head? = some entry) (hrun : (b.run entry).1 = .ok ()) :
    ∃ flat notices₂ u, Yields p.flat notices flat notices₂ ∧
      Completes { key := Slot.home } flat.listing p.entry {} u ∧ ∀ s, s.role = .global →
        (b.run entry).2.memory.load Memory.storageKey (.slot s) =
          u.memory.load Slot.home (.slot s) := by
  obtain ⟨flat, notices₂, entries, notices₃, live, -, hflat, heach, hcalled, rfl⟩ :=
    Program.exists_of_yields_prepare h
  obtain ⟨hsubset, body, rest, hlive⟩ := Program.of_called hcalled
  obtain ⟨o⟩ := (Program.flattened hp hdefinite hapart hflat).nonempty_preparation heach hsubset
  obtain rfl : (Naming.ofBodies live).routineOf p.entry = entry := by
    rw [Bodies.named, hlive] at hentry
    exact Option.some.inj hentry
  have hmem : p.entry ∈ live.keys := by
    rw [Table.keys, hlive]
    exact .head _
  obtain ⟨u, hu, hglobals⟩ := o.exists_completes hp hmem hrun
  exact ⟨flat, notices₂, u, hflat, hu, hglobals⟩

/-- A memory with the same values for globals of all types has the same cells for them. -/
theorem Memory.get?_eq_of_load {m μ : Memory String} (h : ∀ s : Slot, s.role = .global →
      m.load Memory.storageKey (.slot s) = μ.load Memory.storageKey (.slot s)) {s : Slot}
    (hs : s.role = .global) : m.get? (Memory.storageKey s) = μ.get? (Memory.storageKey s) := by
  have hload (type : Ty) : ((m.get? (Memory.storageKey s)).or type.default?).getD .null =
      ((μ.get? (Memory.storageKey s)).or type.default?).getD .null := h { s with type := type } hs
  have hbool := hload .bool
  have hobject := hload .object
  -- a cell that was never written would hold the defaults of two types
  rcases hv : m.get? (Memory.storageKey s) with - | v <;>
    rcases hw : μ.get? (Memory.storageKey s) with - | w <;>
    rw [hv, hw] at hbool hobject
  · have hdefaults : Value.bool false = .null := hbool.trans hobject.symm
    cases hdefaults
  · have hdefaults : Value.bool false = .null := hbool.symm.trans hobject
    cases hdefaults
  · exact congrArg some hbool

/-- Whatever is inlined, the globals are the same in the end: if a well-scoped program can be prepared
in two ways, and the entry runs without a fault under both, every cell of a global holds the same. -/
theorem Program.WellScoped.globals_eq (hp : p.WellScoped owns) (hdefinite : p.Definite)
    (hapart : p.KeepsApart) {mode' : Inlining} {b b' : Bodies} {noted noted' : List Notice}
    (hb : (p.prepare p.analyze mode).run [] = (.ok b, noted))
    (hb' : (p.prepare p.analyze mode').run [] = (.ok b', noted')) {entry entry' : Routine}
    (hentry : b.keys.head? = some entry) (hentry' : b'.keys.head? = some entry')
    (hrun : (b.run entry).1 = .ok ()) (hrun' : (b'.run entry').1 = .ok ()) {s : Slot}
    (hs : s.role = .global) :
    (b.run entry).2.memory.get? (Memory.storageKey s) =
      (b'.run entry').2.memory.get? (Memory.storageKey s) := by
  obtain ⟨flat, _, u, hflat, ⟨depth, hu⟩, hglobals⟩ :=
    hp.exists_completes hdefinite hapart hb hentry hrun
  obtain ⟨flat', _, u', hflat', ⟨depth', hu'⟩, hglobals'⟩ :=
    hp.exists_completes hdefinite hapart hb' hentry' hrun'
  obtain rfl : flat = flat' := Except.ok.inj (Prod.mk.inj (hflat.symm.trans hflat')).1
  obtain rfl : u = u' := hu.unique hu'
  exact Memory.get?_eq_of_load (fun s hs ↦ (hglobals s hs).trans (hglobals' s hs).symm) hs

end Prepared

/-! ### A program whose call is inlined -/

/-- A flag of a small program. -/
def flag (id : Nat) (name : String) (role : Role) (modifiers : Modifiers := {}) : Slot :=
  ⟨.declared id, name, .bool, role, modifiers⟩

def readFlag (s : Slot) : Expr := Build.read (.slot s) default

/-- Stores to a flag. -/
def setFlag (s : Slot) (value : Expr) : Stmt := .assign default (.slot s) value

/-- The entry of a small program. -/
def hostMain : Routine := .declare 0 "main" [] .void {}

/-- The parameters and the local of `negating`. -/
def negatingP : Slot := flag 1 "p" .parameter { readonly := true }

@[inherit_doc negatingP]
def negatingQ : Slot := flag 2 "q" .parameter { out := true }

@[inherit_doc negatingP]
def negatingV : Slot := flag 3 "v" .scoped

/-- Gives the negation of its first parameter back through the second one. -/
def negating : Routine := .declare 1 "f" [.slot negatingP, .slot negatingQ] .bool {}

/-- `v = !p; q = v; return p` -/
def negatingBody : Stmt :=
  .block default [
    setFlag negatingV (Build.unary .not (readFlag negatingP) default),
    setFlag negatingQ (readFlag negatingV),
    .retValue default (readFlag negatingP)]

def hostX : Slot := flag 4 "x" .scoped

/-- `x = true; g = f(x, h)` -/
def hostBody : Stmt :=
  .block default [
    setFlag hostX (Build.literal (.bool true) default),
    setFlag (flag 5 "g" .global) (Build.call (.routine negating)
      [readFlag hostX, readFlag (flag 6 "h" .global)] default)]

/-- A call with a parameter that is only read and one that is only returned. -/
def negated : Program where
  entry := hostMain
  bodies := ⟨[(hostMain, hostBody), (negating, negatingBody)]⟩

/-- The variables of the routines in the program. -/
def negatedCells : List (Routine × Slot) :=
  [(hostMain, hostX), (negating, negatingP), (negating, negatingQ), (negating, negatingV)]

def negatedOwns (r : Routine) (s : Slot) : Prop := (r, s) ∈ negatedCells

theorem body_negated (h : (r, body) ∈ negated.bodies.entries) :
    (r = hostMain ∧ body = hostBody) ∨ (r = negating ∧ body = negatingBody) := by
  have hmem : (r, body) ∈ [(hostMain, hostBody), (negating, negatingBody)] := h
  simpa using hmem

theorem wellScoped_negated : negated.WellScoped negatedOwns where
  toScoped := by
    refine Program.scoped_of_cells (by decide +kernel) (by decide +kernel) (by decide +kernel) ?_
      fun r body h ↦ ?_
    · simp only [negatedCells, forall_mem_cons]
      exact ⟨⟨4, rfl⟩, ⟨1, rfl⟩, ⟨2, rfl⟩, ⟨3, rfl⟩, by simp⟩
    · have hown (r : Routine) (s : Slot) (hs : (r, s) ∈ negatedCells) :
          (r.scope negatedOwns).var (.slot s) := .inr hs
      have hx := hown hostMain hostX (by simp [negatedCells])
      have hp := hown negating negatingP (by simp [negatedCells])
      have hq := hown negating negatingQ (by simp [negatedCells])
      have hv := hown negating negatingV (by simp [negatedCells])
      rcases body_negated h with ⟨rfl, rfl⟩ | ⟨rfl, rfl⟩
      · exact ⟨⟨hx, trivial⟩, ⟨.inl rfl, trivial, ⟨rfl, hx⟩, ⟨rfl, .inl rfl⟩, trivial⟩, trivial⟩
      · exact ⟨⟨hv, rfl, hp⟩, ⟨hq, rfl, hv⟩, ⟨rfl, hp⟩, trivial⟩
  name {r} hr := by
    have hall : ∀ r ∈ negated.routines, Unmarked r.name := by decide +kernel
    exact hall r hr
  unmarked {r s} h := by
    have hall : ∀ a ∈ negatedCells, Unmarked a.2.name := by decide +kernel
    exact hall _ h

/-- The flat code of the entry: `x = true; g = f(x, h); return`. -/
def hostFlat : List Stmt :=
  [setFlag hostX (Build.literal (.bool true) default),
    .call default (.routine negating) [readFlag hostX, readFlag (flag 6 "h" .global)]
      (some (.slot (flag 5 "g" .global))),
    .ret default]

theorem flattens_negated {flat : Stmt} (h : (r, body) ∈ negated.bodies.entries)
    (hflat : Flattens r body flat) :
    (r = hostMain ∧ flat.flatten = hostFlat) ∨ (r = negating ∧ flat.flatten = negatingBody.flatten) := by
  obtain ⟨l, e, hl, he, rfl⟩ := hflat
  rcases body_negated h with ⟨rfl, rfl⟩ | ⟨rfl, rfl⟩
  · refine .inl ⟨rfl, ?_⟩
    cases hl
    cases he
    rfl
  · refine .inr ⟨rfl, ?_⟩
    cases hl
    cases he
    rfl

theorem definite_negated : negated.Definite := by
  intro r body flat h hflat
  rcases flattens_negated h hflat with ⟨rfl, hcode⟩ | ⟨rfl, hcode⟩
  · rw [hcode]
    exact .of_clear (by decide +kernel)
  · rw [hcode]
    exact .of_clear (by decide +kernel)

theorem keepsApart_negated : negated.KeepsApart := by
  intro r body flat h hflat span q arguments x hcall
  rcases flattens_negated h hflat with ⟨rfl, hcode⟩ | ⟨rfl, hcode⟩
  · rw [hcode] at hcall
    simp only [hostFlat, setFlag, mem_cons, not_mem_nil, or_false, reduceCtorEq,
      false_or] at hcall
    obtain ⟨-, rfl, rfl, rfl⟩ := hcall
    refine ⟨rfl, fun y hy hoverlaps ↦ ?_⟩
    obtain rfl : y = .slot (flag 6 "h" .global) := mem_singleton.1 hy
    exact absurd hoverlaps.1 (by decide +kernel)
  · rw [hcode] at hcall
    simp [negatingBody, setFlag, Stmt.flatten, Stmt.flattenAll] at hcall

/-- What a cell holds when the entry of a prepared program has run without a fault. -/
def Program.cellAfter (p : Program) (mode : Inlining) (k : String) : Option (Option Value) :=
  match (p.prepare p.analyze mode).run [] with
  | (.error _, _) => none
  | (.ok b, _) =>
    match b.keys.head? with
    | none => none
    | some entry =>
      match b.run entry with
      | (.error _, _) => none
      | (.ok (), m) => some (m.memory.get? k)

theorem Program.exists_of_cellAfter {mode : Inlining} {v : Option Value}
    (h : p.cellAfter mode k = some v) :
    ∃ b noted entry, (p.prepare p.analyze mode).run [] = (.ok b, noted) ∧
      b.keys.head? = some entry ∧ (b.run entry).1 = .ok () ∧
      (b.run entry).2.memory.get? k = v := by
  unfold cellAfter at h
  split at h
  · cases h
  · next b noted hprepare =>
    split at h
    · cases h
    · next entry hentry =>
      split at h
      · cases h
      · next m hrun =>
        exact ⟨b, noted, entry, hprepare, hentry, by rw [hrun], by rw [hrun]; exact Option.some.inj h⟩

/-- A flag that the program leaves, whether its call is inlined or not. -/
theorem Program.WellScoped.globals_eq_negated :
    negated.cellAfter .never "$h" = some (some (.bool false)) ∧
      negated.cellAfter .always "$h" = negated.cellAfter .never "$h" := by
  have hnever : negated.cellAfter .never "$h" = some (some (.bool false)) := by decide +kernel
  obtain ⟨v, halways⟩ : ∃ v, negated.cellAfter .always "$h" = some v :=
    Option.isSome_iff_exists.1 (by decide +kernel)
  obtain ⟨b, noted, entry, hb, hentry, hrun, hcell⟩ := Program.exists_of_cellAfter hnever
  obtain ⟨b', noted', entry', hb', hentry', hrun', hcell'⟩ := Program.exists_of_cellAfter halways
  refine ⟨hnever, ?_⟩
  rw [hnever, halways, ← hcell, ← hcell']
  exact congrArg some (wellScoped_negated.globals_eq definite_negated keepsApart_negated hb' hb
    hentry' hentry hrun' hrun (s := flag 6 "h" .global) rfl)

/-! ### Programs for which it matters what is inlined -/

/-- Two ways to prepare the program leave different values in a cell. -/
def Program.Disagrees (p : Program) (k : String) : Prop :=
  ∃ v w, p.cellAfter .never k = some v ∧ p.cellAfter .always k = some w ∧ v ≠ w

theorem Program.disagrees_of_eq (v w : Option Value) (hv : p.cellAfter .never k = some v)
    (hw : p.cellAfter .always k = some w) (hne : v ≠ w) : p.Disagrees k := ⟨v, w, hv, hw, hne⟩

/-- On all ways through flat code of a routine, as far as they are followed, a variable is assigned, in
part at least, before it is read, and what the routine gives back before it ends. -/
def Routine.assignsFirst (r : Routine) (code : List Stmt) : Nat → List Slot → List Stmt → Bool
  | 0, _, _ => false
  | _ + 1, D, [] => r.filledBy D && r.returnSlot.isNone
  | n + 1, D, s :: rest =>
    let D' := D ++ s.stores.map Variable.root
    s.loads.all (fun x ↦ x.isGlobal || decide (x.root ∈ D)) &&
      s.target?.all (fun l ↦ (Stmt.from? l code).any (r.assignsFirst code n D')) &&
      match s with
      | .ret _ => r.filledBy D && r.returnSlot.isNone
      | .retValue _ _ => r.filledBy D
      | _ => s.endsFlow || r.assignsFirst code n D' rest

/-- The statement awaits no event, and it keeps no result in a variable that it passes by reference. -/
def Stmt.isMannered : Stmt → Bool
  | .gotoOn .. => false
  | .call _ (.routine q) arguments (some x) =>
    (Wirescript.targets (q.parameters.zip arguments)).all fun y ↦ decide (y.root ≠ x.root)
  | _ => true

/-- The variables that flat code of a routine works on. -/
def Routine.uses (r : Routine) (code : List Stmt) : List Variable :=
  r.parameters ++ code.flatMap fun s ↦ s.loads ++ s.stores

/-- There are neither events nor arrays, every routine keeps to variables of its own and to globals,
variables are assigned before they are read, every result is there, and no result is kept in a variable
that is passed by reference. -/
def Program.mannered (p : Program) : Bool :=
  match p.flat.run [] with
  | (.error _, _) => false
  | (.ok flat, _) => flat.entries.all fun (r, body) ↦
    body.flatten.all Stmt.isMannered && r.assignsFirst body.flatten 20 r.given body.flatten &&
      (r.uses body.flatten).all fun x ↦ !x.type.isArray && (x.isGlobal ||
        flat.entries.all fun (q, other) ↦ decide (q = r) ||
          (q.uses other.flatten).all fun y ↦ decide (y.root ≠ x.root))

/-- A call for its effects. -/
def callFor (r : Routine) (arguments : List Expr) : Stmt :=
  .expression default (Build.call (.routine r) arguments default)

def trueFlag : Expr := Build.literal (.bool true) default

def falseFlag : Expr := Build.literal (.bool false) default

/-- A program with one routine besides the entry. -/
def twoRoutines (callee : Routine) (main body : List Stmt) : Program where
  entry := hostMain
  bodies := ⟨[(hostMain, .block default main), (callee, .block default body)]⟩

def plainCallee : Routine := .declare 1 "f" [] .void {}

/-- A local with the name of the cell of a global: `g = false; f()` with `f() { $g = true }`. -/
def markedLocal : Program :=
  twoRoutines plainCallee [setFlag (flag 0 "g" .global) falseFlag, callFor plainCallee []]
    [setFlag (flag 1 "$g" .scoped) trueFlag]

/-- A routine whose result has the name of the cell of a global. -/
def markedRoutine : Program :=
  let callee : Routine := .declare 1 "$f" [] .bool {}
  twoRoutines callee
    [setFlag (flag 0 "f@ret" .global) falseFlag,
      setFlag (flag 1 "h" .global) (Build.call (.routine callee) [] default)]
    [.retValue default trueFlag]

/-- A label that expansion makes up, too: `f(); g = true; f.return#1:`. -/
def sharedLabel : Program :=
  twoRoutines plainCallee
    [callFor plainCallee [], setFlag (flag 0 "g" .global) trueFlag, .label default ⟨"f.return#1"⟩]
    [.ret default]

/-- A mention of a variable that is said to have another value than the variable has. -/
def wrongNote : Program :=
  let p := flag 1 "p" .parameter { readonly := true }
  let callee : Routine := .declare 1 "f" [.slot p] .void {}
  twoRoutines callee
    [setFlag hostX falseFlag,
      callFor callee [(readFlag hostX).withNote ⟨.bool, default, some (.bool true)⟩]]
    [setFlag (flag 0 "g" .global) (readFlag p)]

/-- A vector that is built and read by a routine. -/
def builtV : Variable := .slot ⟨.declared 2, "v", .vector3, .scoped, {}⟩

/-- Stores to a component of the vector. -/
def setOne (axis : Axis) : Stmt := .assign default (builtV.onAxis axis) (Build.float 1 default)

/-- `w = v` -/
def showBuilt : Stmt :=
  .assign default (.slot ⟨.declared 0, "w", .vector3, .global, {}⟩) (Build.read builtV default)

/-- A vector of which only a part is assigned before it is read: `f(true); f(false)` with
`f(p) { if (p) v.x = 1; else v.y = 1; w = v }`. -/
def halfVector : Program :=
  let p := flag 1 "p" .parameter
  let callee : Routine := .declare 1 "f" [.slot p] .void {}
  twoRoutines callee [callFor callee [trueFlag], callFor callee [falseFlag]]
    [.ifElse default (readFlag p) (setOne .x) (setOne .y), showBuilt]

/-- A vector of which every part is assigned before it is read, where a rotation is left for the next
call: `f(); f()` with `f() { v.x = 1; v.y = 1; v.z = 1; w = v; v = rot(1, 1, 1) }`. -/
def turnedVector : Program :=
  twoRoutines plainCallee [callFor plainCallee [], callFor plainCallee []]
    [setOne .x, setOne .y, setOne .z, showBuilt,
      .assign default builtV (Build.literal (.rotation ⟨1, 1, 1⟩) default)]

/-- A result that is kept of a routine that has none. -/
def keptNothing : Program :=
  twoRoutines plainCallee
    [.call default (.routine plainCallee) [] (some (.slot (flag 0 "g" .global)))]
    [.retValue default trueFlag]

/-- A parameter that is listed twice: `f(x, y); g = x` with `f(p, p) { p = true }`, where `p` is only
returned. -/
def doubledParameter : Program :=
  let p := flag 1 "p" .parameter { out := true }
  let callee : Routine := .declare 1 "f" [.slot p, .slot p] .void {}
  twoRoutines callee
    [callFor callee [readFlag hostX, readFlag (flag 5 "y" .scoped)],
      setFlag (flag 0 "g" .global) (readFlag hostX)]
    [setFlag p trueFlag]

/-- The program has good manners, and yet it matters what is inlined. -/
structure Program.Defies (p : Program) (k : String) : Prop where
  mannered : p.mannered = true
  disagrees : p.Disagrees k

/-- Each thing that is asked of a program besides good manners is needed: that no variable and no
routine has a name that begins like that of a global's cell, that no label is one that expansion makes
up, that a mention of a variable is not said to have a value, that a vector is assigned as a whole
before it is read, that no result is kept of a routine without one, and that no parameter is listed
twice. -/
theorem Program.disagrees_excluded : markedLocal.Defies "$g" ∧ markedRoutine.Defies "$f@ret" ∧
    sharedLabel.Defies "$g" ∧ wrongNote.Defies "$g" ∧ halfVector.Defies "$w" ∧
      turnedVector.Defies "$w" ∧ keptNothing.Defies "$g" ∧ doubledParameter.Defies "$g" := by
  refine ⟨⟨?_, disagrees_of_eq (some (.bool true)) (some (.bool false)) ?_ ?_ ?_⟩,
    ⟨?_, disagrees_of_eq (some (.bool true)) (some (.bool false)) ?_ ?_ ?_⟩,
    ⟨?_, disagrees_of_eq (some (.bool true)) none ?_ ?_ ?_⟩,
    ⟨?_, disagrees_of_eq (some (.bool true)) (some (.bool false)) ?_ ?_ ?_⟩,
    ⟨?_, disagrees_of_eq (some (.vector3 ⟨1, 1, 0⟩)) (some (.vector3 ⟨0, 1, 0⟩)) ?_ ?_ ?_⟩,
    ⟨?_, disagrees_of_eq (some (.rotation ⟨1, 1, 1⟩)) (some (.vector3 ⟨1, 1, 1⟩)) ?_ ?_ ?_⟩,
    ⟨?_, disagrees_of_eq none (some (.bool true)) ?_ ?_ ?_⟩,
    ⟨?_, disagrees_of_eq (some (.bool true)) (some (.bool false)) ?_ ?_ ?_⟩⟩
  all_goals decide +kernel

end Wirescript
