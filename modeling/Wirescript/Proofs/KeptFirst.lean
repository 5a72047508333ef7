import Wirescript.Proofs.Preparation

/-!
# Results that are kept before parameters are copied back

A call copies parameters that were passed by reference back and keeps the result after that. A copy
of the body stores the result where it returns, and the parameters are copied back behind it. The
order does not matter unless the variable for the result is passed by reference in the same call, or
is part of such a variable. Then the copy leaves what the call would leave if it kept the result
first: the parameter that is copied back last wins, and the result is lost.

The scene of a run says for which routines calls keep the result first. In the machine there are
none, and no call of a routine that is expanded remains in expanded code.
-/

namespace Wirescript

open Slot (home)
open List

variable {arguments : List (Variable × Expr)} {program : Listing} {depth : Nat}
  {result : Option Variable} {r : Routine} {body : Stmt} {y : Variable}

/-! ### The order of a call's end -/

section Early

variable {κ : Type} [DecidableEq κ] {S : Scene κ} {e e' : Routine → Bool} {t t' : Trail κ}

theorem Trail.passes_early :
    t.Passes { S with early := e } arguments t' ↔ t.Passes S arguments t' := by
  induction arguments generalizing t with
  | nil => exact Iff.rfl
  | cons entry rest ih => exact exists_congr fun t₁ ↦ and_congr_right fun _ ↦ ih

theorem Trail.passesBack_early :
    t.PassesBack { S with early := e } arguments t' ↔ t.PassesBack S arguments t' := by
  induction arguments generalizing t with
  | nil => exact Iff.rfl
  | cons entry rest ih => exact exists_congr fun t₁ ↦ and_congr_right fun _ ↦ ih

theorem Trail.Concludes.early {arguments : List Expr} (hr : e r = e' r)
    (h : t.Concludes { S with early := e } r arguments result t') :
    t.Concludes { S with early := e' } r arguments result t' := by
  obtain ⟨t₁, h⟩ := h
  refine ⟨t₁, ?_⟩
  simp only [Trail.passesBack_early, ← hr] at h ⊢
  exact h

/-- A statement does not depend on how calls end that it does not make. -/
theorem Stmt.Acts.early {calls calls' : Routine → Trail κ → Trail κ → Prop} {routine : Routine}
    {s : Stmt} {c : Turn} (h : s.Acts { S with early := e } calls routine t c t')
    (hcalls : ∀ q, s.Invokes q → e q = e' q ∧ ∀ t t', calls q t t' → calls' q t t') :
    s.Acts { S with early := e' } calls' routine t c t' := by
  cases s
  case call span callee arguments result =>
    refine ⟨h.1, ?_⟩
    cases callee with
    | builtin b type => exact h.2
    | routine q =>
      obtain ⟨hq, hmono⟩ := hcalls q ⟨span, arguments, result, rfl⟩
      obtain ⟨t₁, t₂, hpass, hcall, hend⟩ := h.2
      exact ⟨t₁, t₂, Trail.passes_early.2 (Trail.passes_early.1 hpass), hmono t₁ t₂ hcall,
        hend.early hq⟩
  all_goals exact h

/-- A run does not depend on how calls end that it does not make. -/
theorem Follows.early {known : Routine → Prop}
    (hprogram : ∀ r code, known r → program r = some code → ∀ s ∈ code, ∀ q, s.Invokes q →
      e q = e' q ∧ known q) (hr : known r) (h : Follows { S with early := e } program depth r t t')
    : Follows { S with early := e' } program depth r t t' := by
  induction depth generalizing r t t' with
  | zero => exact h.elim
  | succ depth ih =>
    obtain ⟨code, n, hcode, hgoes⟩ := h
    refine ⟨code, n, hcode, (hgoes.within (suffix_refl _)).mono fun s t c t' hact ↦ ?_⟩
    refine hact.2.early fun q hq ↦ ?_
    obtain ⟨heq, hq⟩ := hprogram r code hr hcode s hact.1 q hq
    exact ⟨heq, fun _ _ hcall ↦ ih hq hcall⟩

end Early

/-! ### Parameters that are copied back -/

section Back

variable {κ : Type} [DecidableEq κ] {S : Scene κ} {t t' : Trail κ}

theorem Trail.PassesBack.get?_eq {k : κ} (h : t.PassesBack S arguments t')
    (hk : ∀ z ∈ targets arguments, S.key z.root ≠ k) : t'.memory.get? k = t.memory.get? k := by
  refine h.spares fun q a z hmem hq hz ↦ hk z (mem_flatMap.2 ⟨(q, a), hmem, ?_⟩)
  show z ∈ if q.modifiers.byReference then a.read?.toList else []
  rw [if_pos hq]
  exact Option.mem_toList.2 hz

theorem Trail.passesBack_append {before after : List (Variable × Expr)} :
    t.PassesBack S (before ++ after) t' ↔
      ∃ t₁, t.PassesBack S before t₁ ∧ t₁.PassesBack S after t' := by
  induction before generalizing t with
  | nil =>
    constructor
    · exact fun h ↦ ⟨t, rfl, h⟩
    · rintro ⟨_, rfl, h⟩
      exact h
  | cons entry rest ih =>
    constructor
    · rintro ⟨t₁, hfirst, h⟩
      obtain ⟨t₂, hrest, h⟩ := ih.1 h
      exact ⟨t₂, ⟨t₁, hfirst, hrest⟩, h⟩
    · rintro ⟨t₂, ⟨t₁, hfirst, hrest⟩, h⟩
      exact ⟨t₁, hfirst, ih.2 ⟨t₂, hrest, h⟩⟩

/-- Of the parameters that are copied back to a variable, the last one counts. -/
theorem Trail.PassesBack.load_last {before after : List (Variable × Expr)} {a : Expr} {c : Slot}
    (h : t.PassesBack S (before ++ (y, a) :: after) t')
    (hbefore : ∀ z ∈ targets before, S.key z.root ≠ S.key y.root)
    (href : y.modifiers.byReference = true) (ha : a.read? = some (.slot c))
    (hafter : ∀ z ∈ targets after, S.key z.root ≠ S.key c) :
    t'.memory.load S.key (.slot c) = t.memory.load S.key y := by
  obtain ⟨t₁, h₁, t₂, hfirst, h₂⟩ := Trail.passesBack_append.1 h
  rw [if_pos href] at hfirst
  obtain ⟨target, hread, hstore⟩ := hfirst
  cases ha.symm.trans hread
  obtain ⟨m, hm, rfl⟩ := Trail.store_eq_ok.1 hstore
  cases hm
  calc t'.memory.load S.key (.slot c)
      = Memory.load S.key (t₁.memory.insert (S.key c) (t₁.memory.load S.key y)) (.slot c) :=
        Memory.load_congr (h₂.get?_eq hafter)
    _ = t₁.memory.load S.key y := Memory.load_insert_self
    _ = t.memory.load S.key y := Memory.load_congr (h₁.get?_eq hbefore)

/-- A routine that makes one call does what the call does. -/
theorem Follows.calls {span : Span} {callee : Callee} {arguments : List Expr} {rest : List Stmt}
    (h : Follows S program depth r t t')
    (hcode : program r = some (.call span callee arguments result :: rest))
    (hrest : ∀ s ∈ rest, ∃ span, s = .ret span) :
    t.Calls S (Completes S program) callee arguments result t' := by
  cases depth with
  | zero => exact h.elim
  | succ depth =>
    obtain ⟨code, n, hcode', hgoes⟩ := h
    cases hcode.symm.trans hcode'
    cases hgoes with
    | stop hact | jump hact | fork hact => cases hact.1
    | @next _ _ _ _ t₁ _ hact hgoes =>
      have hcall : t.Calls S (Completes S program) callee arguments result t₁ :=
        hact.2.mono fun q t t' hq ↦ ⟨depth, hq⟩
      cases hgoes with
      | done => exact hcall
      | next hact | stop hact | jump hact | fork hact =>
        obtain ⟨_, rfl⟩ := hrest _ (.head _)
        first
          | exact hact.2 ▸ hcall
          | cases hact.1

end Back

/-! ### Expanded calls -/

/-- The flat code of a program, and the code of the routines that remain when calls are expanded. -/
def Program.Expansion (p : Program) (mode : Inlining) (flat expanded : Bodies) : Prop :=
  ∃ notices₀ notices₁ notices₂, Yields p.flat notices₀ flat notices₁ ∧
    Yields (Program.expand flat (p.analyze.inlined mode p.bodies.keys)) notices₁ expanded notices₂

/-- In the flat code of the routines, variables are assigned before they are read. -/
def Program.DefiniteFor (p : Program) (rs : List Routine) : Prop :=
  ∀ r ∈ rs, ∀ body flat, (r, body) ∈ p.bodies.entries → Flattens r body flat →
    r.Definite flat.flatten

/-- In the flat code of every routine, calls of the given routines keep a result only if there is one,
and unless they keep it first, they keep it in a variable that is not passed by reference. -/
def Program.KeepsUnless (p : Program) (early : Routine → Bool) (rs : List Routine) : Prop :=
  ∀ r body flat, (r, body) ∈ p.bodies.entries → Flattens r body flat →
    ∀ span q arguments x, q ∈ rs → .call span (.routine q) arguments (some x) ∈ flat.flatten →
      q.returnSlot.isSome = true ∧
        (early q = false → ∀ y ∈ targets (q.parameters.zip arguments), ¬ x.Overlaps home y)

section Expanded

variable {p : Program} {owns : Routine → Slot → Prop} {mode : Inlining} {flat expanded : Bodies}
  {early : Routine → Bool} {i : Inliner}

theorem Program.Expansion.exists_flattens (h : p.Expansion mode flat expanded)
    (hbody : p.bodies.get? r = some body) : ∃ f, flat.get? r = some f ∧ Flattens r body f := by
  obtain ⟨_, _, _, hflat, -⟩ := h
  have hpairs : Forall₂ (fun entry source ↦ source.1 = entry.1 ∧
      Flattens entry.1 source.2 entry.2) flat.entries p.bodies.entries :=
    (Program.forall₂_of_yields_flat hflat).flip.imp fun entry source hpair ↦
      ⟨hpair.1.symm, hpair.1 ▸ hpair.2⟩
  exact Table.find?_of_forall₂ (P := fun r f body ↦ Flattens r body f) hpairs hbody

theorem Program.Scoped.exists_preparation (hp : p.Scoped False owns)
    (hexpansion : p.Expansion mode flat expanded)
    (hdefinite : p.DefiniteFor (p.analyze.inlined mode p.bodies.keys))
    (hkept : p.KeepsUnless early (p.analyze.inlined mode p.bodies.keys)) :
    Nonempty (Preparation { key := home, early := early } p False owns
      ⟨p.analyze.inlined mode p.bodies.keys, flat⟩ expanded) := by
  obtain ⟨_, _, _, hflat, hexpand⟩ := hexpansion
  obtain ⟨entries, _, heach, hpure⟩ := yields_bind.1 hexpand
  cases hpure
  have hflattened : Flattened { key := home, early := early } p False owns
      ⟨p.analyze.inlined mode p.bodies.keys, flat⟩ :=
    { key := rfl
      watched := fun h ↦ by cases h
      scopes := hp
      bodies := Program.forall₂_of_yields_flat hflat
      inlined := fun hr ↦ (Program.of_mem_inlined hr).2.2
      definite := fun hr h hflat ↦ hdefinite _ hr _ _ h hflat
      calm := fun _ h hflat ↦ hp.calm h hflat
      kept := fun h hflat hq hs ↦ by
        obtain ⟨hslot, hapart⟩ := hkept _ _ _ h hflat _ _ _ _ hq hs
        refine ⟨hslot, fun hearly y hy ↦ ⟨hapart ?_ y hy, fun hwatched ↦ by cases hwatched⟩⟩
        simpa using hearly }
  exact hflattened.nonempty_preparation heach (.refl _)

theorem Preparation.exists_follows_early
    (o : Preparation { key := home, early } p False owns i expanded)
    (hearly : ∀ q, early q = true → q ∈ i.inlined) (hr : r ∉ i.inlined) {limit : Nat}
    {μ μ' : Machine (String ⊕ Slot)}
    (hrun : Yields (Exec.invoke home limit expanded depth r) μ () μ') :
    ∃ u, Completes { key := home, early } i.bodies.listing r (.ofMemory μ.memory) u ∧
      ∀ y : Variable, y.root.role = .global ∨ p.Cells owns r y.root →
        μ'.memory.load home y = u.memory.load home y := by
  have hperforms := Exec.performs_of_invoke hrun
  have hmem : r ∈ expanded.keys := by
    cases depth with
    | zero => exact hperforms.elim
    | succ depth =>
      obtain ⟨body, hbody, -⟩ := hperforms
      exact mem_map_of_mem (Table.mem_of_get? hbody)
  -- no call that remains keeps its result first
  have hprogram (q : Routine) (code : List Stmt) (_ : True) (hcode : expanded.listing q = some code)
      (s : Stmt) (hs : s ∈ code) (q' : Routine) (hq' : s.Invokes q') :
      false = early q' ∧ True := by
    obtain ⟨body, hbody, rfl⟩ := Option.map_eq_some_iff.1 hcode
    have hkept := o.remaining (Table.mem_of_get? hbody) hs hq'
    refine ⟨?_, trivial⟩
    cases hq : early q' with
    | false => rfl
    | true => exact absurd (hearly q' hq) hkept
  have hfollows : Follows { key := home, early } expanded.listing depth r
      (.ofMemory μ.memory) (.ofMemory μ'.memory) :=
    Follows.early (S := { key := home }) (e := fun _ ↦ false) hprogram trivial
      (hperforms.follows fun q code hcode ↦ o.settled hcode)
  obtain ⟨u, hu, hlinked⟩ := o.simulates r (o.known hmem) _ _
    ⟨_, hfollows.mono_program fun q code hcode ↦ (o.program_of_listing hcode).2⟩
  refine ⟨u, hu, fun y hy ↦ Memory.load_like (Variable.Like.refl y) ?_⟩
  exact hlinked.load ⟨rfl, hy.imp_right fun hcells ↦ ⟨hr, hcells⟩⟩

section Flat

variable {events : Prop} {f : Routine} (h : Flattened { key := home, early } p events owns i)
include h

theorem Flattened.settled_listing {code : List Stmt} (hcode : i.bodies.listing r = some code) :
    Stmt.AllSettled (((p.layout owns i fun _ ↦ r).source r).withEvents events) code := by
  obtain ⟨body, hbody, rfl⟩ := Option.map_eq_some_iff.1 hcode
  exact h.settled_source (fun _ ↦ r) hbody

/-- A parameter has a cell that no variable of another routine has. -/
theorem Flattened.home_ne (hf : f ∈ p.routines) (hne : r ≠ f) {z : Variable}
    (hz : z.root.role = .global ∨ p.Cells owns r z.root) (hy : y ∈ f.parameters) :
    home z.root ≠ home y.root := by
  obtain ⟨s, rfl, hs⟩ := h.scopes.formal hf (mem_append_left _ hy)
  have hrole := h.scopes.role_of_cells hs
  intro hkey
  obtain heq | ⟨-, hglobal⟩ := Slot.home_eq_home hkey
  · rcases hz with hz | hz <;> rw [show z.root = s from heq] at hz
    · exact hrole hz
    · exact hne (h.scopes.cells_unique hz hs)
  · exact hrole hglobal

/-- A run of the machine, for a routine that gets to none whose calls keep the result first. -/
theorem Flattened.follows_early
    (hnone : ∀ q, (CallGraph.ofBodies p.bodies).Gets f q → early q = false) {limit : Nat}
    {μ μ' : Machine (String ⊕ Slot)}
    (hrun : Yields (Exec.invoke home limit i.bodies depth f) μ () μ') :
    Follows { key := home, early } i.bodies.listing depth f (.ofMemory μ.memory)
      (.ofMemory μ'.memory) := by
  have hprogram (q : Routine) (code : List Stmt) (hq : q = f ∨ (CallGraph.ofBodies p.bodies).Gets f q)
      (hcode : i.bodies.listing q = some code) (s : Stmt) (hs : s ∈ code) (q' : Routine)
      (hq' : s.Invokes q') :
      false = early q' ∧ (q' = f ∨ (CallGraph.ofBodies p.bodies).Gets f q') := by
    obtain ⟨body, hbody, rfl⟩ := Option.map_eq_some_iff.1 hcode
    obtain ⟨hgets, -⟩ := h.invokes hbody hs hq'
    have hfrom : (CallGraph.ofBodies p.bodies).Gets f q' := by
      rcases hq with rfl | hq
      · exact hgets
      · exact hq.trans hgets
    exact ⟨(hnone q' hfrom).symm, .inr hfrom⟩
  exact Follows.early (S := { key := home }) (e := fun _ ↦ false) hprogram (.inl rfl)
    ((Exec.performs_of_invoke hrun).follows fun q code hcode ↦ h.settled_listing hcode)

end Flat

/-- The code that takes the place of a call leaves what the call leaves when it keeps the result first:
the arguments are passed, the routine runs, the result is stored, and then parameters are copied back.
So a variable that is passed by reference ends with the value of the parameter, and a result that was
kept in it is lost. -/
theorem Program.Scoped.call_keeps_first (hp : p.Scoped False owns)
    (hexpansion : p.Expansion mode flat expanded)
    (hdefinite : p.DefiniteFor (p.analyze.inlined mode p.bodies.keys))
    (hkept : p.KeepsUnless early (p.analyze.inlined mode p.bodies.keys))
    (hearly : ∀ q, early q = true → q ∈ p.analyze.inlined mode p.bodies.keys)
    {r f : Routine} {span : Span} {arguments : List Expr} {x : Variable} {rest : List Stmt}
    (hr : r ∉ p.analyze.inlined mode p.bodies.keys) (hf : early f = true)
    (hcode : flat.listing r = some (.call span (.routine f) arguments (some x) :: rest))
    (hrest : ∀ s ∈ rest, ∃ span, s = .ret span) {limit depth : Nat} {μ μ' : Machine (String ⊕ Slot)}
    (hrun : Yields (Exec.invoke Slot.home limit expanded depth r) μ () μ') :
    ∃ t₁ t₂ t₃ t₄,
      (Trail.ofMemory μ.memory).Passes { key := Slot.home } (f.parameters.zip arguments) t₁ ∧
      Completes { key := Slot.home, early } flat.listing f t₁ t₂ ∧
      t₂.Keeps { key := Slot.home } (some x) f.returnSlot t₃ ∧
      t₃.PassesBack { key := Slot.home } (f.parameters.zip arguments) t₄ ∧
      (∀ y : Variable, y.root.role = .global ∨ p.Cells owns r y.root →
        μ'.memory.load Slot.home y = t₄.memory.load Slot.home y) ∧
      ((∀ q, (CallGraph.ofBodies p.bodies).Gets f q → early q = false) → ∀ {limit depth μ₁ μ₂},
        Yields (Exec.pass Slot.home (f.parameters.zip arguments)) μ () μ₁ →
        Yields (Exec.invoke Slot.home limit flat depth f) μ₁ () μ₂ → t₂ = .ofMemory μ₂.memory) ∧
      ∀ before y a after c, f.parameters.zip arguments = before ++ (y, a) :: after →
        y.modifiers.byReference = true → a.read? = some (.slot c) →
        (∀ z ∈ targets after, Slot.home z.root ≠ Slot.home c) →
        μ'.memory.load Slot.home (.slot c) = t₂.memory.load Slot.home y := by
  obtain ⟨o⟩ := hp.exists_preparation hexpansion hdefinite hkept
  have hflattened := o.flattened
  have hsettled := hflattened.settled_listing hcode _ mem_cons_self
  obtain ⟨t₄, ⟨d, hu⟩, hloads⟩ := o.exists_follows_early hearly hr hrun
  obtain ⟨t₁, t₂, hpasses, hbody, t₃, hend⟩ := hu.calls hcode hrest
  rw [if_pos hf] at hend
  obtain ⟨hkeeps, hback⟩ := hend
  rw [Trail.passes_early (S := { key := Slot.home })] at hpasses
  rw [Trail.passesBack_early (S := { key := Slot.home })] at hback
  refine ⟨t₁, t₂, t₃, t₄, hpasses, hbody, hkeeps, hback, hloads, ?_, ?_⟩
  · intro hnone limit depth μ₁ μ₂ hpass hinvoke
    obtain ⟨m₁, hpass', rfl⟩ := Exec.yields_pass.1 hpass
    obtain rfl : t₁ = .ofMemory m₁ := hpasses.unique hpass'.trail
    obtain ⟨d', hbody⟩ := hbody
    exact hbody.unique (hflattened.follows_early hnone hinvoke)
  · intro before y a after c hzip href ha hafter
    have hne : r ≠ f := fun heq ↦ hr (heq ▸ hearly f hf)
    have hentry : (y, a) ∈ f.parameters.zip arguments := hzip ▸ by simp
    have hhome (z : Variable) (hz : z.root.role = .global ∨ p.Cells owns r z.root) :
        Slot.home z.root ≠ Slot.home y.root :=
      hflattened.home_ne hsettled.1 hne hz (of_mem_zip hentry).1
    have htarget (z : Variable) (hz : z ∈ targets (f.parameters.zip arguments)) :
        z.root.role = .global ∨ p.Cells owns r z.root := (hsettled.2.1.var_of_targets hz).1
    have hc : Variable.slot c ∈ targets (f.parameters.zip arguments) :=
      mem_flatMap.2 ⟨(y, a), hentry, by simp [href, ha]⟩
    have hbefore (z : Variable) (hz : z ∈ targets before) : Slot.home z.root ≠ Slot.home y.root := by
      obtain ⟨entry, hmem, hz⟩ := mem_flatMap.1 hz
      exact hhome z (htarget z (hzip ▸ mem_flatMap.2 ⟨entry, mem_append_left _ hmem, hz⟩))
    have hkeep : t₃.memory.get? (Slot.home y.root) = t₂.memory.get? (Slot.home y.root) :=
      hkeeps.spares fun z hz ↦ hhome z (hsettled.2.2 z hz).1
    rw [hzip] at hback
    calc μ'.memory.load Slot.home (.slot c) = t₄.memory.load Slot.home (.slot c) :=
          hloads (.slot c) (htarget _ hc)
      _ = t₃.memory.load Slot.home y := hback.load_last hbefore href ha hafter
      _ = t₂.memory.load Slot.home y := Memory.load_congr hkeep

end Expanded

/-! ### A result that is lost -/

/-- What a variable holds when calls have been expanded and a routine has run without a fault. -/
def Program.leftIn (p : Program) (mode : Inlining) (r : Routine) (x : Variable) : Option Value :=
  match p.flat.run [] with
  | (.error _, _) => none
  | (.ok flat, notices) =>
    match (Program.expand flat (p.analyze.inlined mode p.bodies.keys)).run notices with
    | (.error _, _) => none
    | (.ok expanded, _) =>
      match (Exec.invoke home stepLimit expanded (stepLimit + 1) r).run {} with
      | (.error _, _) => none
      | (.ok (), m) => some (m.memory.load home x)

theorem Program.exists_of_leftIn {p : Program} {mode : Inlining} {x : Variable} {v : Value}
    (h : p.leftIn mode r x = some v) : ∃ flat expanded μ, p.Expansion mode flat expanded ∧
      Yields (Exec.invoke home stepLimit expanded (stepLimit + 1) r) {} () μ ∧
      μ.memory.load home x = v := by
  unfold leftIn at h
  split at h
  · cases h
  · next flat notices hflat =>
    split at h
    · cases h
    · next expanded notices' hexpand =>
      split at h
      · cases h
      · next μ hrun =>
        exact ⟨flat, expanded, μ, ⟨[], notices, notices', hflat, hexpand⟩, hrun, Option.some.inj h⟩

/-- The parameter of `overwriting`. -/
def overwritingP : Slot := flag 1 "p" .parameter { ref := true }

/-- Stores to its parameter and returns something else. -/
def overwriting : Routine := .declare 1 "f" [.slot overwritingP] .bool {}

/-- The variable that is passed and that the result is kept in. -/
def overwrittenX : Slot := flag 2 "x" .global

/-- `x = f(x)` with `f(ref p) { p = true; return false }` -/
def overwritten : Program :=
  twoRoutines overwriting
    [setFlag overwrittenX (Build.call (.routine overwriting) [readFlag overwrittenX] default)]
    [setFlag overwritingP trueFlag, .retValue default falseFlag]

theorem flattens_overwritten {flat : Stmt} (h : (r, body) ∈ overwritten.bodies.entries)
    (hflat : Flattens r body flat) :
    (r = hostMain ∧ flat.flatten = [.call default (.routine overwriting) [readFlag overwrittenX]
      (some (.slot overwrittenX)), .ret default]) ∨ (r = overwriting ∧ flat.flatten =
      [setFlag overwritingP trueFlag, .retValue default falseFlag]) := by
  obtain ⟨l, e, hl, he, rfl⟩ := hflat
  rcases mem_cons.1 h with heq | h
  · cases heq
    cases hl
    cases he
    exact .inl ⟨rfl, rfl⟩
  · cases mem_singleton.1 h
    cases hl
    cases he
    exact .inr ⟨rfl, rfl⟩

theorem scoped_overwritten :
    overwritten.Scoped False fun r s ↦ (r, s) ∈ [(overwriting, overwritingP)] := by
  refine Program.scoped_of_cells (by decide +kernel) (by decide +kernel) (by decide +kernel) ?_
    fun r body h ↦ ?_
  · intro a ha
    obtain rfl := mem_singleton.1 ha
    exact ⟨1, rfl⟩
  · rcases mem_cons.1 h with heq | h
    · cases heq
      exact ⟨⟨.inl rfl, trivial, ⟨rfl, .inl rfl⟩, trivial⟩, trivial⟩
    · cases mem_singleton.1 h
      exact ⟨⟨.inr (.head _), trivial⟩, trivial, trivial⟩

theorem inlined_overwritten :
    overwritten.analyze.inlined .always overwritten.bodies.keys = [overwriting] := by
  decide +kernel

/-- The variable ends with what was stored to the parameter. -/
theorem Program.Scoped.call_keeps_first_overwritten :
    ∃ flat expanded μ, overwritten.Expansion .always flat expanded ∧
      Yields (Exec.invoke Slot.home stepLimit expanded (stepLimit + 1) hostMain) {} () μ ∧
      μ.memory.load Slot.home (.slot overwrittenX) = .bool true ∧
      ∃ t₁ t₂, Completes { key := Slot.home, early := fun q ↦ decide (q = overwriting) } flat.listing
          overwriting t₁ t₂ ∧
        μ.memory.load Slot.home (.slot overwrittenX) =
          t₂.memory.load Slot.home (.slot overwritingP) := by
  have hleft : overwritten.leftIn .always hostMain (.slot overwrittenX) = some (.bool true) := by
    decide +kernel
  obtain ⟨flat, expanded, μ, hexpansion, hrun, hvalue⟩ := Program.exists_of_leftIn hleft
  have hdefinite : overwritten.DefiniteFor
      (overwritten.analyze.inlined .always overwritten.bodies.keys) := by
    intro r hr body flat h hflat
    rw [inlined_overwritten, mem_singleton] at hr
    rcases flattens_overwritten h hflat with ⟨rfl, -⟩ | ⟨rfl, hcode⟩
    · cases hr
    · rw [hcode]
      exact .of_clear (by decide +kernel)
  have hkept : overwritten.KeepsUnless (fun q ↦ decide (q = overwriting))
      (overwritten.analyze.inlined .always overwritten.bodies.keys) := by
    intro r body flat _ _ span q arguments x hq _
    rw [inlined_overwritten, mem_singleton] at hq
    subst hq
    exact ⟨rfl, fun hearly ↦ absurd hearly (by decide +kernel)⟩
  have hcode : flat.listing hostMain = some [.call default (.routine overwriting)
      [readFlag overwrittenX] (some (.slot overwrittenX)), .ret default] := by
    obtain ⟨f, hf, hflattens⟩ := hexpansion.exists_flattens (r := hostMain) rfl
    rcases flattens_overwritten mem_cons_self hflattens with ⟨-, hcode⟩ | ⟨hr, -⟩
    · rw [Bodies.listing, hf, Option.map_some, hcode]
    · cases hr
  obtain ⟨t₁, t₂, t₃, t₄, -, hbody, -, -, -, -, hlast⟩ :=
    scoped_overwritten.call_keeps_first hexpansion hdefinite hkept (fun q hq ↦ by
        rw [inlined_overwritten, mem_singleton]
        exact of_decide_eq_true hq)
      (by rw [inlined_overwritten]; decide +kernel) (by decide +kernel) hcode
      (fun s hs ↦ ⟨default, mem_singleton.1 hs⟩) hrun
  exact ⟨flat, expanded, μ, hexpansion, hrun, hvalue, t₁, t₂, hbody,
    hlast [] (.slot overwritingP) (readFlag overwrittenX) [] overwrittenX rfl rfl rfl (by simp [targets])⟩

/-- Where the call is made, the variable ends with the result. Where the call is expanded, it ends with
what was stored to the parameter. -/
theorem Program.overwritten_disagrees : overwritten.Disagrees "$x" :=
  disagrees_of_eq (some (.bool false)) (some (.bool true)) (by decide +kernel) (by decide +kernel)
    (by decide)

end Wirescript
