import Mathlib.Logic.Function.Basic
import Wirescript.Proofs.Expansion
import Wirescript.Proofs.Stores

/-!
# One call replaced by a copy

Expansion replaces calls one after another. A `Splice` is one such replacement in the code of a host:
in place of a call stand the arguments, a copy of the body that is called, the label behind it and
the copies of parameters that were passed by reference. The rest of the program is untouched, so
afterwards the routine is called in some places and copied in others.

A `Layout` says which cells belong to which routine. The cells of a routine are its own, and those of
the sites in its code. A program is at a `Stage` when the sites up to a number have been made.
-/

namespace Wirescript

open Stmt
open List
open Option

variable {entry : (Variable × Expr) × Nat} {l : Label} {arguments es : List Expr} {D : List Slot}
  {code rest there : List Stmt} {result : Option Variable} {q : Routine} {R : Slot → Slot → Prop}
  {span : Span} {st : Stmt} {p x y : Variable}

theorem targets_passed (σ : Substitution) (pairs : List (Variable × Expr)) :
    targets (pairs.map σ.passed) = (targets pairs).map σ.var := by
  rw [targets, targets, flatMap_map, map_flatMap]
  refine flatMap_congr fun pair _ ↦ ?_
  simp only [Substitution.passed, Expr.read?_substitute, toList_map]
  split <;> rfl

/-! ### Layouts -/

/-- Which routines the program mentions and which of them can be run, which cells they have, in whose
code the sites are, and which routines are called from which, directly or not. -/
structure Layout where
  listed : Routine → Prop
  known : Routine → Prop
  own : Routine → Slot → Prop
  host : Nat → Routine
  next : Routine → Routine → Prop

namespace Layout

/-- The cells of a routine are its own and those of the sites in its code. -/
def Cells (L : Layout) (r : Routine) (s : Slot) : Prop :=
  L.own r s ∨ ∃ site, s.MadeFor site ∧ L.host site = r

/-- What the code of a routine is made of when the sites up to a number have been made. -/
def vocabulary (L : Layout) (k : Nat) (r : Routine) : Vocabulary where
  var x := (x.root.role = .global ∨
    (L.Cells r x.root ∧ ∀ site, x.root.site? = some site → site ≤ k)) ∧
      ∀ p ∈ r.returnSlot, p.root ≠ x.root
  label l := ∀ l' site, l = Label.inSite l' site → site ≤ k
  routine := L.listed

/-- What the code of a routine is made of before there are sites. -/
def source (L : Layout) (r : Routine) : Vocabulary where
  var x := (x.root.role = .global ∨ L.own r x.root) ∧ ∀ p ∈ r.returnSlot, p.root ≠ x.root
  label := Label.Written r
  routine := L.listed

end Layout

/-- What a call of a routine asks for so that it can be replaced: there is an argument for each
parameter, a result is kept only if there is one, and if it is kept last, it is kept apart from the
variables that are passed by reference. -/
structure Fits {κ : Type} (S : Scene κ) (q : Routine) (arguments : List Expr)
    (result : Option Variable) : Prop where
  length : q.parameters.length = arguments.length
  kept (x : Variable) (hx : x ∈ result) : q.returnSlot.isSome = true
  apart (hearly : ¬ S.early q = true) (x : Variable) (hx : x ∈ result) (y : Variable)
    (hy : y ∈ targets (q.parameters.zip arguments)) : ¬ x.Overlaps S.key y
  unseen (hearly : ¬ S.early q = true) (x : Variable) (hx : x ∈ result) (y : Variable)
    (hy : y ∈ targets (q.parameters.zip arguments)) (hwatched : S.watched x.root = true) :
    S.watched y.root = false

/-- The paths of a body tell events apart: what an event starts ends with the event, and nothing else
does. -/
structure Calm (code : List Stmt) : Prop where
  main {rest : List Stmt} (h : Leads code code rest) : ¬ RollsBack rest
  event {span : Span} {l : Label} {event : Event} {arguments : List Expr} {there rest : List Stmt}
    (hmem : .gotoOn span l event arguments ∈ code) (hthere : from? l code = some there)
    (h : Leads code there rest) : ¬ Leaves rest

/-- A program in which each routine keeps to its own cells and to globals, and in which the routines
that are replaced by copies can be: they do not call themselves, and they assign variables before
they read them. -/
structure Orderly {κ : Type} (S : Scene κ) (i : Inliner) (L : Layout) : Prop where
  key {s s' : Slot} (h : S.key s = S.key s') : s = s' ∨ (s.role = .global ∧ s'.role = .global)
  watched {s : Slot} (h : S.watched s = true) : s.role = .global
  role {r : Routine} {s : Slot} (h : L.own r s) : s.role ≠ .global
  site? {r : Routine} {s : Slot} (h : L.own r s) : s.site? = none
  unique {r q : Routine} {s : Slot} (h : L.own r s) (h' : L.own q s) : r = q
  formal {r : Routine} {x : Variable} (h : L.known r) (hx : x ∈ r.formals) :
    ∃ s, x = .slot s ∧ L.own r s
  nodup {r : Routine} (h : L.known r) : r.formals.Nodup
  trans {r q q' : Routine} (h : L.next r q) (h' : L.next q q') : L.next r q'
  acyclic {q : Routine} (h : q ∈ i.inlined) : ¬ L.next q q
  source {r : Routine} {body : Stmt} (hr : L.known r) (h : i.bodies.get? r = some body) :
    AllSettled (L.source r) body.flatten
  definite {q : Routine} {body : Stmt} (hq : q ∈ i.inlined) (h : i.bodies.get? q = some body) :
    q.Definite body.flatten
  calm {q : Routine} {body : Stmt} (hq : q ∈ i.inlined) (h : i.bodies.get? q = some body) :
    Calm body.flatten

/-- A program in which the sites up to a number have been made. -/
structure Stage {κ : Type} (S : Scene κ) (i : Inliner) (L : Layout) (program : Listing) (k : Nat) :
    Prop where
  settled {r : Routine} {code : List Stmt} (hr : L.known r) (h : program r = some code) :
    AllSettled (L.vocabulary k r) code
  calls {r q : Routine} {code : List Stmt} {s : Stmt} (hr : L.known r) (h : program r = some code)
    (hs : s ∈ code) (hq : s.Invokes q) : L.next r q ∧ L.known q
  fits {r q : Routine} {code : List Stmt} {span : Span} {arguments : List Expr}
    {result : Option Variable} (hr : L.known r) (h : program r = some code)
    (hs : .call span (.routine q) arguments result ∈ code) (hq : q ∈ i.inlined) :
    Fits S q arguments result
  source {q : Routine} (hq : q ∈ i.inlined) : program q = i.bodies.listing q

/-! ### Cells -/

section Layouts

variable {κ : Type} {S : Scene κ} {i : Inliner} {L : Layout} {r : Routine} {s : Slot} {k : Nat}

section

variable (h : Orderly S i L)

include h

/-- A cell belongs to one routine. -/
theorem Orderly.cells_unique (hr : L.Cells r s) (hq : L.Cells q s) : r = q := by
  rcases hr with hr | ⟨site, ⟨hsite, -⟩, rfl⟩ <;> rcases hq with hq | ⟨site', ⟨hsite', -⟩, rfl⟩
  · exact h.unique hr hq
  · rw [h.site? hr] at hsite'
    cases hsite'
  · rw [h.site? hq] at hsite
    cases hsite
  · rw [Option.some.inj (hsite.symm.trans hsite')]

/-- A cell that is not global is the cell of one slot. -/
theorem Orderly.eq_of_key {a b : Slot} (hkey : S.key a = S.key b)
    (hrole : a.role ≠ .global ∨ b.role ≠ .global) : a = b := by
  rcases h.key hkey with heq | ⟨ha, hb⟩
  · exact heq
  · exact absurd hrole (by simp [ha, hb])

theorem Orderly.watched_eq_false (hs : s.role ≠ .global) : S.watched s = false := by
  cases hwatched : S.watched s with
  | false => rfl
  | true => exact absurd (h.watched hwatched) hs

theorem Orderly.mem_parameters (hr : L.known r) (hp : p ∈ r.parameters) :
    ∃ s, p = .slot s ∧ L.own r s :=
  h.formal hr (mem_append_left _ hp)

theorem Orderly.mem_returnSlot (hr : L.known r) (hp : p ∈ r.returnSlot) :
    ∃ s, p = .slot s ∧ L.own r s :=
  h.formal hr (mem_append_right _ (mem_toList.2 hp))

/-- The variables of a signature may be written where everything corresponds to itself. -/
theorem Orderly.writable (hr : L.known r) (hy : y ∈ r.formals) : Writable S S R (· = ·) id y := by
  obtain ⟨c, rfl, -⟩ := h.formal hr hy
  exact ⟨fun hc ↦ absurd hc (by simp [Variable.isComponent, Variable.component?]),
    .refl (fun _ _ heq ↦ heq) c⟩

end

/-- Code is made of more as more sites are made. -/
theorem Layout.carries_vocabulary (L : Layout) {k k' : Nat} (hk : k ≤ k') (r : Routine) :
    Substitution.Carries {} (L.vocabulary k r) (L.vocabulary k' r) where
  var _ h := ⟨h.1.imp_right fun ⟨hcells, hsite⟩ ↦
    ⟨hcells, fun site hs ↦ Nat.le_trans (hsite site hs) hk⟩, h.2⟩
  label _ h l' site hl := Nat.le_trans (h l' site hl) hk
  routine _ h := h
  events h := h
  ret _ := trivial
  retValue _ _ h := h

theorem Orderly.carries_source (h : Orderly S i L) (k : Nat) (r : Routine) :
    Substitution.Carries {} (L.source r) (L.vocabulary k r) where
  var x hx := by
    refine ⟨hx.1.imp_right fun hown ↦ ⟨.inl hown, fun site hsite ↦ ?_⟩, hx.2⟩
    have hnone : x.root.site? = none := h.site? hown
    rw [show ({} : Substitution).var x = x from rfl, hnone] at hsite
    cases hsite
  label _ hl l' site heq := Nat.le_trans (hl.1 l' site heq) (Nat.zero_le k)
  routine _ h := h
  events h := h
  ret _ := trivial
  retValue _ _ h := h

theorem Stmt.AllSettled.carried {V W : Vocabulary} (h : AllSettled V code)
    (hσ : Substitution.Carries {} V W) : AllSettled W code := by
  intro s hs
  have hsettled := (h s hs).substitute hσ .empty
  rw [s.substitute_empty, (h s hs).flatten] at hsettled
  exact hsettled s (.head _)

end Layouts

/-! ### Writes -/

theorem Variable.slot_mem_enclosing (x : Variable) : .slot x.root ∈ x.enclosing := by
  induction x with
  | slot s => exact mem_singleton_self _
  | component base axis origin ih => exact .tail _ ih

/-- A variable that a statement stores to is one that its body writes. -/
theorem Stmt.mem_writes {body s : Stmt} (hs : s ∈ body.flatten) (hx : x ∈ s.stores) :
    .slot x.root ∈ body.writes := by
  refine visit_subset writeVisitor hs ?_
  have hself := x.slot_mem_enclosing
  cases s
  case define | assign =>
    obtain rfl := mem_singleton.1 hx
    exact mem_append_left _ (mem_append_left _ hself)
  case call span callee arguments result =>
    refine mem_append_left _ (mem_append_left _ ?_)
    have hresult (hx : x ∈ result) : .slot x.root ∈ (result.map Variable.enclosing).getD [] := by
      obtain rfl := hx
      exact hself
    cases callee with
    | builtin b type => exact mem_append_left _ (hresult (mem_toList.1 hx))
    | routine r =>
      rcases mem_append.1 hx with hx | hx
      · refine mem_append_right _ ?_
        obtain ⟨⟨p, a⟩, hmem, hx⟩ := mem_flatMap.1 hx
        have hpair : (p.modifiers, a) ∈ (r.parameters.map Variable.modifiers).zip arguments := by
          rw [zip_map_left]
          exact mem_map.2 ⟨(p, a), hmem, rfl⟩
        refine mem_flatMap.2 ⟨(p.modifiers, a), hpair, ?_⟩
        simp only at hx ⊢
        split at hx
        · rename_i href
          rw [if_pos href, mem_toList.1 hx]
          exact hself
        · cases hx
      · exact mem_append_left _ (hresult (mem_of_mem_keptIn hx))
  all_goals cases hx

/-- Parameters that are filled in a full call are filled in the call. -/
theorem Routine.given_subset_filled {r : Routine} (hlength : r.parameters.length = arguments.length)
    (hslots : ∀ p ∈ r.parameters, ∃ s, p = .slot s) :
    r.given ⊆ filled (r.parameters.zip arguments) := by
  intro s hs
  obtain ⟨p, hp, rfl⟩ := mem_map.1 hs
  obtain ⟨hp, hout⟩ := mem_filter.1 hp
  rw [← map_fst_zip (Nat.le_of_eq hlength)] at hp
  obtain ⟨⟨p', a⟩, hmem, rfl⟩ := mem_map.1 hp
  obtain ⟨s, hs⟩ := hslots p' (of_mem_zip hmem).1
  refine mem_flatMap.2 ⟨(p', a), hmem, ?_⟩
  simp only at hs hout ⊢
  rw [if_neg (by simpa using hout), hs]
  exact mem_singleton_self _

/-! ### Splices -/

/-- A call in the code of a host that is replaced by a copy, after some sites have been made. -/
structure Splice {κ : Type} (S : Scene κ) (i : Inliner) (L : Layout) (program : Listing) (k : Nat)
    where
  host : Routine
  callee : Routine
  /-- The code before the call and the code after it. -/
  front : List Stmt
  back : List Stmt
  span : Span
  arguments : List Expr
  result : Option Variable
  body : Stmt
  bindings : Expand.Bindings
  orderly : Orderly S i L
  stage : Stage S i L program k
  known : L.known host
  host_notMem : host ∉ i.inlined
  callee_mem : callee ∈ i.inlined
  code : program host = some (front ++ .call span (.routine callee) arguments result :: back)
  body_eq : i.bodies.get? callee = some body
  bindings_eq : Expand.bindArguments callee (k + 1) span body.writes arguments = .ok bindings
  site : L.host (k + 1) = host

namespace Splice

variable {κ : Type} {S : Scene κ} {i : Inliner} {L : Layout} {program : Listing} {k : Nat}
  (p : Splice S i L program k) {s : Slot} {r : Routine}

/-- The call that is replaced. -/
def call : Stmt := .call p.span (.routine p.callee) p.arguments p.result

/-- The label behind the copy. -/
def exit : Label := p.callee.exit (k + 1)

/-- What makes the body into the copy. -/
def copy : Substitution := Expand.copy (k + 1) p.bindings.images p.result p.exit

/-- Where the cells of the body are in the copy. -/
def image : Slot → Slot := Expand.copySlot (k + 1) p.bindings.images

/-- The parameters with their arguments and positions. -/
def entries : List ((Variable × Expr) × Nat) := (p.callee.parameters.zip p.arguments).zipIdx

/-- What stands from the label behind the copy on. -/
def tail : List Stmt := .label p.span p.exit :: (p.bindings.after ++ p.back)

/-- What stands for the call and for the code after it. -/
def spliced : List Stmt := p.bindings.before ++ (substituted p.copy p.body.flatten ++ p.tail)

/-- The program with the copy. -/
def outcome : Listing := Function.update program p.host (some (p.front ++ p.spliced))

theorem call_mem : p.call ∈ p.front ++ p.call :: p.back := by simp

theorem outcome_host : p.outcome p.host = some (p.front ++ p.spliced) := by
  rw [outcome, Function.update_self]

theorem outcome_of_ne (hr : r ≠ p.host) : p.outcome r = program r := by
  rw [outcome, Function.update_of_ne hr]

theorem settled_call : p.call.Settled (L.vocabulary k p.host) :=
  p.stage.settled p.known p.code p.call p.call_mem

theorem next_callee : L.next p.host p.callee :=
  (p.stage.calls p.known p.code p.call_mem ⟨_, _, _, rfl⟩).1

theorem known_callee : L.known p.callee :=
  (p.stage.calls p.known p.code p.call_mem ⟨_, _, _, rfl⟩).2

theorem host_ne : p.host ≠ p.callee := fun h ↦ p.host_notMem (h ▸ p.callee_mem)

theorem fits : Fits S p.callee p.arguments p.result :=
  p.stage.fits p.known p.code p.call_mem p.callee_mem

theorem program_callee : program p.callee = some p.body.flatten := by
  rw [p.stage.source p.callee_mem, Bodies.listing, p.body_eq]
  rfl

theorem settled_body : AllSettled (L.source p.callee) p.body.flatten :=
  p.orderly.source p.known_callee p.body_eq

theorem definite : p.callee.Definite p.body.flatten := p.orderly.definite p.callee_mem p.body_eq

theorem calm : Calm p.body.flatten := p.orderly.calm p.callee_mem p.body_eq

/-- Where a path through the body can be, with what has been assigned on it. -/
abbrev Arrives : List Stmt → List Slot → Prop := Stmt.Arrives p.body.flatten p.callee.given

/-- The cells that the body may use. -/
abbrev Uses (s : Slot) : Prop := s.role = .global ∨ L.own p.callee s

/-- A routine that the copied body calls gets neither to the body nor to the host again. -/
theorem not_next_of_next (hr : L.next p.callee r) :
    r ≠ p.host ∧ ¬ L.next r p.host ∧ r ≠ p.callee ∧ ¬ L.next r p.callee := by
  have hacyclic := p.orderly.acyclic p.callee_mem
  have hhost (h : L.next p.callee p.host) : False := hacyclic (p.orderly.trans h p.next_callee)
  refine ⟨?_, fun h ↦ hhost (p.orderly.trans hr h), ?_, fun h ↦ hacyclic (p.orderly.trans hr h)⟩
  · rintro rfl
    exact hhost hr
  · rintro rfl
    exact hacyclic hr

theorem binds : p.bindings.Binds (k + 1) p.span p.body.writes p.entries :=
  Expand.bindArguments_eq_ok p.fits.length
    (List.Nodup.sublist (sublist_append_left _ _) (p.orderly.nodup p.known_callee))
    p.bindings_eq

theorem entry_mem (h : entry ∈ p.entries) : entry.1 ∈ p.callee.parameters.zip p.arguments :=
  mem_of_getElem? (mem_zipIdx_iff_getElem?.1 h)

theorem parameter_of_entry (h : entry ∈ p.entries) : ∃ s, entry.1.1 = .slot s ∧ L.own p.callee s :=
  p.orderly.mem_parameters p.known_callee (of_mem_zip (p.entry_mem h)).1

theorem map_fst_entries : p.entries.map Prod.fst = p.callee.parameters.zip p.arguments :=
  zipIdx_map_fst _ _

theorem argument_of_entry (h : entry ∈ p.entries) : entry.1.2.Within (L.vocabulary k p.host) :=
  Expr.allWithin_iff.1 p.settled_call.2.1 _ (of_mem_zip (p.entry_mem h)).2

/-- The slot for the result is a cell of the routine, and none of its parameters. -/
theorem returnSlot_ne (hy : y ∈ p.callee.returnSlot) (hentry : entry ∈ p.entries) :
    S.key y.root ≠ S.key entry.1.1.root := by
  obtain ⟨c, rfl, hown⟩ := p.orderly.mem_returnSlot p.known_callee hy
  obtain ⟨c', hc', -⟩ := p.parameter_of_entry hentry
  intro hkey
  have heq := p.orderly.eq_of_key hkey (.inl (p.orderly.role hown))
  have hparameter : entry.1.1 ∈ p.callee.parameters := (of_mem_zip (p.entry_mem hentry)).1
  refine (nodup_append.1 (p.orderly.nodup p.known_callee)).2.2 _ hparameter _
    (mem_toList.2 hy) ?_
  rw [hc'] at heq ⊢
  exact congrArg Variable.slot heq.symm

theorem moves : p.copy.Moves p.image := by
  refine Expand.moves_copy (p.binds.isComponent fun entry hentry ↦ ?_)
  obtain ⟨s, heq, -⟩ := p.parameter_of_entry hentry
  rw [heq]
  rfl

theorem plain : p.copy.Plain := Expand.plain_copy _ _ _ _

/-! ### The cells of a copy -/

/-- The parameter stands for a variable of the host. -/
def Borrows (s : Slot) (x : Variable) : Prop :=
  Expand.Bindings.Binds.Borrows p.body.writes p.entries s x

theorem image_of_global (hs : s.role = .global) : p.image s = s := by
  refine p.binds.copySlot_of_global (fun entry hentry heq ↦ ?_) hs
  obtain ⟨s', heq', hs'⟩ := p.parameter_of_entry hentry
  cases heq.symm.trans heq'
  exact p.orderly.role hs' hs

/-- What is borrowed is a cell of the host that has been made before, and no global. -/
theorem image_of_borrows (h : p.Borrows s x) :
    p.image s = x.root ∧ x = .slot x.root ∧ x.root.role ≠ .global ∧
      (L.vocabulary k p.host).var x := by
  have himage : p.image s = x.root := p.binds.copySlot_of_borrows h
  obtain ⟨entry, hentry, -, halias⟩ := h
  obtain ⟨-, -, hread, hglobal, hcomponent⟩ := Expand.alias?_eq_some halias
  refine ⟨himage, ?_, ?_, (p.argument_of_entry hentry).of_read? hread⟩
  · cases x with
    | slot c => rfl
    | component base axis origin => cases hcomponent
  · cases x with
    | slot c => simpa [Variable.isGlobal, Variable.root] using hglobal
    | component base axis origin => cases hcomponent

/-- Cells that are not borrowed are cells of the site. -/
theorem madeFor_image (hs : s.role ≠ .global) (h : ∀ x, ¬ p.Borrows s x) :
    (p.image s).MadeFor (k + 1) ∧ (p.image s).role ≠ .global :=
  p.binds.madeFor_copySlot hs h

theorem image_inj {s' : Slot} (hs : s.role ≠ .global) (hs' : s'.role ≠ .global)
    (h : ∀ x, ¬ p.Borrows s x) (h' : ∀ x, ¬ p.Borrows s' x) (heq : p.image s = p.image s') :
    s = s' := by
  refine p.binds.copySlot_inj (fun e he e' he' hindex ↦ ?_) hs hs' h h' heq
  have h₁ := mem_zipIdx_iff_getElem?.1 he
  have h₂ := mem_zipIdx_iff_getElem?.1 he'
  rw [hindex] at h₁
  exact Prod.ext (Option.some.inj (h₁.symm.trans h₂)) hindex

/-- A parameter that does not stand for a variable of the host has a place at the site. -/
theorem image_of_stand (hentry : entry ∈ p.entries) (hs : entry.1.1 = .slot s)
    (h : Expand.alias? entry.1.1 entry.1.2 p.body.writes = none) :
    p.image s = (Expand.stand (k + 1) entry.2 entry.1.1).root ∧ ∀ x, ¬ p.Borrows s x := by
  have himage : p.image s = (Expand.stand (k + 1) entry.2 entry.1.1).root := by
    refine Expand.copySlot_of_bound ?_
    rw [← hs, p.binds.seat entry hentry, Expand.seat, h, getD_none]
  refine ⟨himage, fun x hx ↦ ?_⟩
  -- what is borrowed was made before the site
  obtain ⟨himage', -, hrole, hcells, -⟩ := p.image_of_borrows hx
  have hle := (hcells.resolve_left hrole).2 (k + 1) (by rw [← himage', himage]; rfl)
  omega

/-- The cells of the body become cells of the host. -/
theorem image_of_own (hs : L.own p.callee s) :
    (p.image s).role ≠ .global ∧ L.Cells p.host (p.image s) ∧
      (∀ site, (p.image s).site? = some site → site ≤ k + 1) ∧
      ∀ y ∈ p.host.returnSlot, y.root ≠ p.image s := by
  by_cases hborrows : ∃ x, p.Borrows s x
  · obtain ⟨x, hx⟩ := hborrows
    obtain ⟨himage, -, hrole, hcells, hslot⟩ := p.image_of_borrows hx
    obtain ⟨hcells, hsite⟩ := hcells.resolve_left hrole
    rw [himage]
    exact ⟨hrole, hcells, fun site h ↦ Nat.le_succ_of_le (hsite site h), hslot⟩
  · obtain ⟨hmade, hrole⟩ := p.madeFor_image (p.orderly.role hs) fun x hx ↦ hborrows ⟨x, hx⟩
    have hsite := hmade.1
    refine ⟨hrole, .inr ⟨k + 1, hmade, p.site⟩, fun site h ↦ ?_, fun y hy heq ↦ ?_⟩
    · rw [hsite] at h
      exact Nat.le_of_eq (Option.some.inj h).symm
    · -- the slot of the result is a cell of the routine, and none of a site
      obtain ⟨c, rfl, hc⟩ := p.orderly.mem_returnSlot p.known hy
      rw [← heq, show (Variable.slot c).root = c from rfl, p.orderly.site? hc] at hsite
      cases hsite

/-- A copy of a variable is a variable of the host. -/
theorem carries_var (hx : (L.source p.callee).var x) :
    (L.vocabulary (k + 1) p.host).var (p.copy.var x) := by
  have hroot : (p.copy.var x).root = p.image x.root := (p.moves x).2
  simp only [Layout.vocabulary, hroot]
  rcases hx.1 with hglobal | hown
  · rw [p.image_of_global hglobal]
    refine ⟨.inl hglobal, fun y hy heq ↦ ?_⟩
    obtain ⟨c, rfl, hc⟩ := p.orderly.mem_returnSlot p.known hy
    exact p.orderly.role hc ((congrArg Slot.role heq).trans hglobal)
  · obtain ⟨-, hcells, hsite, hslot⟩ := p.image_of_own hown
    exact ⟨.inr ⟨hcells, hsite⟩, hslot⟩

/-! ### The code of the host -/

theorem exit_eq : p.exit = p.callee.exitName.inSite (k + 1) := p.callee.exit_eq _

theorem label_inSite (l : Label) : (L.vocabulary (k + 1) r).label (l.inSite (k + 1)) := by
  intro l' site heq
  rw [(Label.inSite_inj heq).2]

theorem label_exit : (L.vocabulary (k + 1) r).label p.exit := p.exit_eq ▸ label_inSite _

theorem carries_copy : p.copy.Carries (L.source p.callee) (L.vocabulary (k + 1) p.host) where
  var _ hx := p.carries_var hx
  label l _ := label_inSite l
  routine _ h := h
  events h := h
  ret _ := ⟨p.label_exit, trivial⟩
  retValue span value hvalue := by
    rcases hresult : p.result with - | x
    · simp only [copy, hresult]
      exact ⟨p.label_exit, trivial⟩
    · simp only [copy, hresult]
      have hx : (L.vocabulary k p.host).var x := p.settled_call.2.2 x hresult
      exact ⟨⟨(L.carries_vocabulary (Nat.le_succ k) p.host).var x hx, hvalue⟩, p.label_exit,
        trivial⟩

/-- A return in the copy stores the result, if it is kept, and jumps behind the copy. -/
theorem flatten_retValue (span : Span) (value : Expr) : (p.copy.retValue span value).flatten =
    p.result.toList.map (fun x ↦ .assign span x value) ++ [.goto span p.exit] := by
  rcases hresult : p.result with - | x <;> simp only [copy, hresult] <;> rfl

theorem var_stand (n : Nat) (y : Variable) :
    (L.vocabulary (k + 1) p.host).var (Expand.stand (k + 1) n y) := by
  refine ⟨.inr ⟨.inr ⟨k + 1, ⟨rfl, _, rfl⟩, p.site⟩, fun site h ↦ ?_⟩, fun z hz heq ↦ ?_⟩
  · exact Nat.le_of_eq (Option.some.inj h).symm
  · obtain ⟨c, rfl, hc⟩ := p.orderly.mem_returnSlot p.known hz
    have hsite := p.orderly.site? hc
    rw [show c = _ from heq] at hsite
    cases hsite

/-- The place of an argument is none that was there before the site. -/
theorem key_stand_ne (hx : (L.vocabulary k p.host).var x) (n : Nat) (y : Variable) :
    S.key x.root ≠ S.key (Expand.stand (k + 1) n y).root := by
  intro hkey
  have hrole : (Expand.stand (k + 1) n y).root.role ≠ .global := by simp [Expand.stand, Variable.root]
  have hroot := p.orderly.eq_of_key hkey (.inr hrole)
  rcases hx.1 with hglobal | ⟨-, hsite⟩
  · exact hrole (hroot ▸ hglobal)
  · have hle := hsite (k + 1) (by rw [hroot]; rfl)
    omega

theorem settled_spliced (hback : AllSettled (L.vocabulary (k + 1) p.host) p.back) :
    AllSettled (L.vocabulary (k + 1) p.host) p.spliced := by
  have hgrow := L.carries_vocabulary (Nat.le_succ k) p.host
  rw [spliced, tail, p.binds.before, p.binds.after]
  simp only [allSettled_append, allSettled_cons]
  refine ⟨fun s hs ↦ ?_, fun s hs ↦ ?_, p.label_exit, fun s hs ↦ ?_, hback⟩
  · obtain ⟨entry, hentry, hs⟩ := mem_flatMap.1 hs
    have hargument := (p.argument_of_entry hentry).substitute hgrow
    rw [Expr.substitute_empty] at hargument
    exact Expand.eq_of_mem_opening hs ▸ ⟨p.var_stand _ _, hargument⟩
  · obtain ⟨s₀, hs₀, hs⟩ := mem_flatMap.1 hs
    exact (p.settled_body s₀ hs₀).substitute p.carries_copy p.plain s hs
  · obtain ⟨entry, hentry, hs⟩ := mem_flatMap.1 hs
    obtain ⟨x, hx, rfl⟩ := Expand.exists_of_mem_closing hs
    exact ⟨hgrow.var x ((p.argument_of_entry hentry).of_read? hx), rfl, p.var_stand _ _⟩

/-! ### Cells that correspond -/

/-- The cells that the program with the copy and the program with the call have in common: not those
of the site, and not those of the routine that is called. -/
def Shared (s : Slot) : Prop :=
  s.role = .global ∨ (¬ L.own p.callee s ∧ s.site? ≠ some (k + 1))

/-- Cells in common correspond to themselves. -/
def base (a b : Slot) : Prop := a = b ∧ p.Shared b

/-- Everything that may correspond while the copy runs. -/
def Meeting (a b : Slot) : Prop :=
  p.base a b ∨ ((b.role = .global ∨ L.own p.callee b) ∧ a = p.image b)

theorem shared_of_cells (hr : r ≠ p.callee) (hs : L.Cells r s)
    (hsite : ∀ site, s.site? = some site → site ≤ k) : p.Shared s := by
  refine .inr ⟨fun hown ↦ hr (p.orderly.cells_unique hs (.inl hown)), fun h ↦ ?_⟩
  have := hsite _ h
  omega

theorem shared_of_own (hr : r ≠ p.callee) (hs : L.own r s) : p.Shared s :=
  p.shared_of_cells hr (.inl hs) fun site h ↦ by
    rw [p.orderly.site? hs] at h
    cases h

theorem shared_of_var (hr : r ≠ p.callee) (hx : (L.vocabulary k r).var x) : p.Shared x.root :=
  hx.1.elim .inl fun ⟨hcells, hsite⟩ ↦ p.shared_of_cells hr hcells hsite

theorem base_of_global (hs : s.role = .global) : p.base s s := ⟨rfl, .inl hs⟩

theorem shared_of_formal (hr : L.known r) (hne : r ≠ p.callee) (hx : x ∈ r.formals) :
    p.Shared x.root := by
  obtain ⟨s, rfl, hs⟩ := p.orderly.formal hr hx
  exact p.shared_of_own hne hs

theorem not_shared_of_own (hs : L.own p.callee s) : ¬ p.Shared s :=
  fun h ↦ (h.resolve_left (p.orderly.role hs)).1 hs

/-- A cell of the routine is none of those in common. -/
theorem ne_of_base {a b c : Slot} (hc : L.own p.callee c) (hab : p.base a b) :
    S.key c ≠ S.key b := by
  intro hkey
  have hcb : c = b := p.orderly.eq_of_key hkey (.inl (p.orderly.role hc))
  exact p.not_shared_of_own hc (hcb ▸ hab.2)

/-- The body does not borrow what it writes. -/
theorem not_borrows (hst : st ∈ p.body.flatten) (hx : x ∈ st.stores) (y : Variable) :
    ¬ p.Borrows x.root y := by
  rintro ⟨entry, -, heq, halias⟩
  obtain ⟨-, hwritten, -⟩ := Expand.alias?_eq_some halias
  exact hwritten (heq ▸ mem_writes hst hx)

/-- What the body writes may be written in the copy as well. -/
theorem joint (hs : p.Uses s) (hborrows : ∀ x, ¬ p.Borrows s x) :
    Joint S S p.Meeting (p.image s) s := by
  by_cases hrole : s.role = .global
  · rw [p.image_of_global hrole]
    refine ⟨fun {a b} hab ↦ ?_, rfl, fun _ ↦ rfl⟩
    rcases hab with ⟨rfl, -⟩ | ⟨hb, rfl⟩
    · rfl
    · by_cases hb' : b.role = .global
      · rw [p.image_of_global hb']
      · have hown := hb.resolve_left hb'
        have himage := (p.image_of_own hown).1
        constructor
        · intro hkey
          exact absurd (p.orderly.eq_of_key hkey (.inr himage) ▸ hrole) himage
        · intro hkey
          exact absurd (p.orderly.eq_of_key hkey (.inr hb') ▸ hrole) hb'
  · have hown := hs.resolve_left hrole
    obtain ⟨⟨hsite, -⟩, himage⟩ := p.madeFor_image hrole hborrows
    refine ⟨fun {a b} hab ↦ ?_, ?_, fun h ↦ absurd (p.orderly.watched h) hrole⟩
    · rcases hab with ⟨rfl, hshared⟩ | ⟨hb, rfl⟩
      · -- a cell in common is neither one of the site nor one of the routine
        constructor
        · intro hkey
          rw [p.orderly.eq_of_key hkey (.inl himage)] at hsite himage
          exact absurd hsite (hshared.resolve_left himage).2
        · intro hkey
          rw [p.orderly.eq_of_key hkey (.inl hrole)] at hown hrole
          exact absurd hown (hshared.resolve_left hrole).1
      · constructor
        · intro hkey
          have heq := p.orderly.eq_of_key hkey (.inl himage)
          by_cases hb' : b.role = .global
          · rw [heq, p.image_of_global hb'] at himage
            exact absurd hb' himage
          · by_cases hborrows' : ∃ x, p.Borrows b x
            · -- what is borrowed was made before the site
              obtain ⟨x, hx⟩ := hborrows'
              obtain ⟨hx', -, hxrole, hcells, -⟩ := p.image_of_borrows hx
              have hle := (hcells.resolve_left hxrole).2 (k + 1) (by rw [← hx', ← heq, hsite])
              omega
            · rw [p.image_inj hrole hb' hborrows (fun x hx ↦ hborrows' ⟨x, hx⟩) heq]
        · intro hkey
          rw [p.orderly.eq_of_key hkey (.inl hrole)]
    · rw [p.orderly.watched_eq_false himage, p.orderly.watched_eq_false hrole]

theorem meeting_image (hs : p.Uses s) : p.Meeting (p.image s) s :=
  .inr ⟨hs, rfl⟩

/-- What a statement of the body stores to may be written in the copy as well. -/
theorem joint_of_stores (hst : st ∈ p.body.flatten) (hx : x ∈ st.stores)
    (hvar : (L.source p.callee).var x) : Joint S S p.Meeting (p.image x.root) x.root :=
  p.joint hvar.1 (p.not_borrows hst hx)

/-- Calls in the copy fit as they do in the body. -/
theorem fits_copied (hst : .call span (.routine q) es result ∈ p.body.flatten) (hq : q ∈ i.inlined)
    : Fits S q (Expr.substituteAll p.copy es) (result.map p.copy.var) := by
  have hfits : Fits S q es result := p.stage.fits p.known_callee p.program_callee hst hq
  obtain ⟨-, hes, hresult⟩ := p.settled_body _ hst
  -- both variables are stored to, so they keep apart in the copy
  have hjoint {x : Variable} (hx : x ∈ result) : Joint S S p.Meeting (p.image x.root) x.root := by
    refine p.joint_of_stores hst (mem_append_right _ ?_) (hresult x hx)
    rw [keptIn, if_pos (hfits.kept x hx)]
    exact mem_toList.2 hx
  have htarget {y : Variable} (hy : y ∈ targets (q.parameters.zip es)) :
      p.Meeting (p.image y.root) y.root ∧ Joint S S p.Meeting (p.image y.root) y.root := by
    have hvar : (L.source p.callee).var y := hes.var_of_targets hy
    exact ⟨p.meeting_image hvar.1, p.joint_of_stores hst (mem_append_left _ hy) hvar⟩
  have hresult' {x : Variable} (hx : x ∈ result.map p.copy.var) :
      ∃ y ∈ result, x = p.copy.var y := by
    obtain ⟨y, hy, rfl⟩ := map_eq_some_iff.1 hx
    exact ⟨y, hy, rfl⟩
  have htarget' {y : Variable}
      (hy : y ∈ targets (q.parameters.zip (Expr.substituteAll p.copy es))) :
      ∃ z ∈ targets (q.parameters.zip es), y = p.copy.var z := by
    rw [Expr.zip_substituteAll, targets_passed] at hy
    obtain ⟨z, hz, rfl⟩ := mem_map.1 hy
    exact ⟨z, hz, rfl⟩
  constructor
  case length => rw [Expr.length_substituteAll, hfits.length]
  case kept =>
    intro x hx
    obtain ⟨x₀, hx₀, -⟩ := hresult' hx
    exact hfits.kept x₀ hx₀
  case apart =>
    intro hearly x hx y hy hoverlaps
    obtain ⟨x₀, hx₀, rfl⟩ := hresult' hx
    obtain ⟨y₀, hy₀, rfl⟩ := htarget' hy
    obtain ⟨hkey, hpath⟩ := hoverlaps
    rw [(p.moves x₀).2, (p.moves y₀).2] at hkey hpath
    refine hfits.apart hearly x₀ hx₀ y₀ hy₀
      ⟨((hjoint hx₀).meets (htarget hy₀).1).1 hkey, fun hroot ↦ ?_⟩
    rw [← (p.moves x₀).1.path_eq, ← (p.moves y₀).1.path_eq]
    exact hpath (congrArg p.image hroot)
  case unseen =>
    intro hearly x hx y hy hwatched
    obtain ⟨x₀, hx₀, rfl⟩ := hresult' hx
    obtain ⟨y₀, hy₀, rfl⟩ := htarget' hy
    rw [(p.moves x₀).2, (hjoint hx₀).watched] at hwatched
    rw [(p.moves y₀).2, (htarget hy₀).2.watched]
    exact hfits.unseen hearly x₀ hx₀ y₀ hy₀ hwatched

theorem not_call_of_bare (h : st.Bare) {callee : Callee} : st ≠ .call span callee es result := by
  rintro rfl
  exact h

/-- A call in the copy is the copy of a call. -/
theorem exists_call_of_copied
    (h : .call span (.routine q) es result ∈ substituted p.copy p.body.flatten) :
    ∃ es₀ result₀, .call span (.routine q) es₀ result₀ ∈ p.body.flatten ∧
      es = Expr.substituteAll p.copy es₀ ∧ result = result₀.map p.copy.var := by
  obtain ⟨st, hst, h⟩ := mem_flatMap.1 h
  have hsettled := p.settled_body st hst
  cases st <;> rw [substitute] at h
  case ret span' => exact absurd rfl (not_call_of_bare (p.plain.ret span' _ h))
  case retValue span' value => exact absurd rfl (not_call_of_bare (p.plain.retValue span' _ _ h))
  case call span' callee es₀ result₀ =>
    obtain ⟨rfl, hcallee, rfl, rfl⟩ := Stmt.call.inj (mem_singleton.1 h)
    cases callee with
    | builtin b type => cases hcallee
    | routine q' =>
      obtain rfl : q = q' := Callee.routine.inj hcallee
      exact ⟨es₀, result₀, hst, rfl, rfl⟩
  case declare | define | assign | label | goto | gotoIf | gotoOn | rollback | hint | nop =>
    cases mem_singleton.1 h
  all_goals exact hsettled.elim

/-- A call in the code with the copy is one of the host or the copy of one. -/
theorem call_cases (h : .call span (.routine q) es result ∈ p.front ++ p.spliced) :
    .call span (.routine q) es result ∈ p.front ++ p.call :: p.back ∨
      ∃ es₀ result₀, .call span (.routine q) es₀ result₀ ∈ p.body.flatten ∧
        es = Expr.substituteAll p.copy es₀ ∧ result = result₀.map p.copy.var := by
  simp only [spliced, tail, p.binds.before, p.binds.after, mem_append, mem_cons,
    reduceCtorEq, false_or] at h
  rcases h with h | h | h | h | h
  · exact .inl (mem_append_left _ h)
  · obtain ⟨entry, -, h⟩ := mem_flatMap.1 h
    cases Expand.eq_of_mem_opening h
  · exact .inr (p.exists_call_of_copied h)
  · obtain ⟨entry, -, h⟩ := mem_flatMap.1 h
    obtain ⟨x, -, hx⟩ := Expand.exists_of_mem_closing h
    cases hx
  · exact .inl (mem_append_right _ (.tail _ h))

theorem settled_front_back : AllSettled (L.vocabulary k p.host) p.front ∧
    AllSettled (L.vocabulary k p.host) p.back := by
  have h := p.stage.settled p.known p.code
  simp only [allSettled_append, allSettled_cons] at h
  exact ⟨h.1, h.2.2⟩

/-- The program with the copy is one site further. -/
theorem stage_outcome : Stage S i L p.outcome (k + 1) where
  settled {r code} hr h := by
    have hgrow := L.carries_vocabulary (Nat.le_succ k)
    by_cases hhost : r = p.host
    · subst hhost
      cases p.outcome_host.symm.trans h
      obtain ⟨hfront, hback⟩ := p.settled_front_back
      exact allSettled_append.2
        ⟨hfront.carried (hgrow _), p.settled_spliced (hback.carried (hgrow _))⟩
    · rw [p.outcome_of_ne hhost] at h
      exact (p.stage.settled hr h).carried (hgrow r)
  calls {r q code s} hr h hs hq := by
    by_cases hhost : r = p.host
    · subst hhost
      cases p.outcome_host.symm.trans h
      obtain ⟨span, es, result, rfl⟩ := hq
      rcases p.call_cases hs with hs | ⟨es₀, result₀, hst, -, -⟩
      · exact p.stage.calls p.known p.code hs ⟨_, _, _, rfl⟩
      · obtain ⟨hnext, hq⟩ := p.stage.calls p.known_callee p.program_callee hst ⟨_, _, _, rfl⟩
        exact ⟨p.orderly.trans p.next_callee hnext, hq⟩
    · rw [p.outcome_of_ne hhost] at h
      exact p.stage.calls hr h hs hq
  fits {r q code span es result} hr h hs hq := by
    by_cases hhost : r = p.host
    · subst hhost
      cases p.outcome_host.symm.trans h
      rcases p.call_cases hs with hs | ⟨es₀, result₀, hst, rfl, rfl⟩
      · exact p.stage.fits p.known p.code hs hq
      · exact p.fits_copied hst hq
    · rw [p.outcome_of_ne hhost] at h
      exact p.stage.fits hr h hs hq
  source {q} hq := by
    rw [p.outcome_of_ne fun h ↦ p.host_notMem (h ▸ hq)]
    exact p.stage.source hq

/-- What the body assigns are cells of the routine and globals. -/
theorem own_of_arrives (h : p.Arrives rest D) (hs : s ∈ D) : p.Uses s := by
  rcases h.mem hs with hs | ⟨st, hst, hs⟩
  · obtain ⟨y, hy, rfl⟩ := mem_map.1 hs
    obtain ⟨c, rfl, hc⟩ := p.orderly.mem_parameters p.known_callee (mem_filter.1 hy).1
    exact .inr hc
  · exact ((p.settled_body st hst).var_of_assigned hs).1

theorem meeting_of_arrives (h : p.Arrives rest D) : Pairs p.base p.image D ≤ p.Meeting :=
  fun _ _ hab ↦ hab.imp_right fun ⟨hb, ha⟩ ↦ ⟨p.own_of_arrives h hb, ha⟩

/-- A cell of a routine that is called from the copy may be written on both sides. -/
theorem joint_of_called (hne : r ≠ p.callee ∧ r ≠ p.host) (hs : L.own r s) :
    Joint S S p.Meeting s s := by
  have hrole := p.orderly.role hs
  refine ⟨fun {a b} hab ↦ ?_, rfl, fun _ ↦ rfl⟩
  rcases hab with ⟨rfl, -⟩ | ⟨hb, rfl⟩
  · rfl
  · by_cases hb' : b.role = .global
    · rw [p.image_of_global hb']
    · have hown := hb.resolve_left hb'
      have hcells := (p.image_of_own hown).2.1
      constructor
      · intro hkey
        rw [← p.orderly.eq_of_key hkey (.inl hrole)] at hcells
        exact absurd (p.orderly.cells_unique (.inl hs) hcells) hne.2
      · intro hkey
        rw [← p.orderly.eq_of_key hkey (.inl hrole)] at hown
        exact absurd (p.orderly.unique hs hown) hne.1

/-- Where the called routine ends, it has assigned what is copied back. -/
theorem assigned_of_leaves (h : p.Arrives rest D) (hleaves : Leaves rest)
    (hy : y ∈ p.callee.parameters) : y.root ∈ D := by
  by_cases hout : y.modifiers.out = true
  · exact p.definite.outs h hleaves y hy hout
  · exact h.given_subset (mem_map_of_mem (mem_filter.2 ⟨hy, by simpa using hout⟩))

/-- Where the called routine ends, it has assigned what a call consults then. -/
theorem exits_subset (h : p.Arrives rest D) (hleaves : Leaves rest) :
    p.callee.exits ⊆ D ++ p.callee.answered rest := by
  intro s hs
  rcases mem_append.1 hs with hs | hs
  · obtain ⟨y, hy, rfl⟩ := mem_map.1 hs
    exact mem_append_left _ (p.assigned_of_leaves h hleaves (mem_filter.1 hy).1)
  · obtain ⟨y, hy, rfl⟩ := mem_map.1 hs
    have hslot := mem_toList.1 hy
    obtain ⟨-, -, -, rfl⟩ := p.definite.returns (by rw [hslot]; rfl) h hleaves
    obtain ⟨s, rfl, -⟩ := p.orderly.mem_returnSlot p.known_callee hslot
    refine mem_append_right _ ?_
    rw [Routine.answered, hslot]
    exact mem_singleton_self _

/-- The parameters of a routine are in common before a call, or the call fills them. -/
theorem given_of_call (hR : ∀ s, p.Shared s → R s s) (hr : L.known r)
    (hfits : r ∈ i.inlined → Fits S r arguments result) (s : Slot) (hs : s ∈ r.given) :
    R s s ∨ s ∈ filled (r.parameters.zip arguments) := by
  by_cases hne : r = p.callee
  · have hslots (y : Variable) (hy : y ∈ r.parameters) : ∃ s, y = .slot s := by
      obtain ⟨s, heq, -⟩ := p.orderly.mem_parameters hr hy
      exact ⟨s, heq⟩
    exact .inr (Routine.given_subset_filled (hfits (hne ▸ p.callee_mem)).length hslots hs)
  · obtain ⟨y, hy, rfl⟩ := mem_map.1 hs
    have hformal : y ∈ r.formals := mem_append_left _ (mem_filter.1 hy).1
    exact .inl (hR _ (p.shared_of_formal hr hne hformal))

/-! ### Labels -/

/-- The code of the host with the copy. -/
def hostCode : List Stmt := p.front ++ p.spliced

theorem from?_eq_none_of_settled (h : AllSettled (L.vocabulary k r) code) (l : Label) :
    from? (l.inSite (k + 1)) code = none := by
  refine from?_eq_none fun st hst hl ↦ ?_
  have hsettled := h st hst
  cases st <;> simp only [label?, reduceCtorEq, Option.some.injEq] at hl
  have := hsettled l (k + 1) hl
  omega

theorem from?_bindings (l : Label) :
    from? l p.bindings.before = none ∧ from? l p.bindings.after = none := by
  obtain ⟨hbefore, hafter⟩ := p.binds.labels
  rw [from?_eq_none_iff, from?_eq_none_iff, hbefore, hafter]
  simp

theorem from?_tail (l : Label) (hl : l.inSite (k + 1) ≠ p.exit) :
    from? (l.inSite (k + 1)) p.tail = none := by
  rw [tail, from?, from?_append, from?_eq_none_of_settled p.settled_front_back.2,
    (p.from?_bindings _).2]
  simp [label?, Ne.symm hl]

/-- The label behind the copy is found there. -/
theorem from?_exit : from? p.exit p.hostCode = some p.tail := by
  have hcode : p.hostCode = (p.front ++ (p.bindings.before ++
      substituted p.copy p.body.flatten)) ++ p.tail := by
    simp [hostCode, spliced]
  have hback := from?_eq_none_of_settled p.settled_front_back.2 p.callee.exitName
  rw [← p.exit_eq] at hback
  rw [hcode, from?_append, tail, from?, from?_append, hback, (p.from?_bindings _).2]
  simp [label?]

/-- A label of the body is found in the copy. -/
theorem from?_copied (hl : (L.source p.callee).label l)
    (h : from? (l.inSite (k + 1)) p.hostCode = some there) :
    ∃ there₀, from? l p.body.flatten = some there₀ ∧
      there = substituted p.copy there₀ ++ p.tail := by
  have hexit : l.inSite (k + 1) ≠ p.exit := by
    rw [p.exit_eq]
    exact fun heq ↦ hl.2 (Label.inSite_inj heq).1
  have hcopy : from? (l.inSite (k + 1)) (substituted p.copy p.body.flatten) =
      (from? l p.body.flatten).map (substituted p.copy) :=
    from?_substituted p.plain p.settled_body fun l' heq ↦ (Label.inSite_inj heq).1
  rw [hostCode, from?_append, spliced, from?_append, from?_append, p.from?_tail l hexit,
    hcopy, (p.from?_bindings _).1, from?_eq_none_of_settled p.settled_front_back.1] at h
  rcases hthere : from? l p.body.flatten with - | there₀
  · simp [hthere] at h
  · simp only [hthere, map_some, none_or, map_none, or_none,
      Option.some.injEq] at h
    exact ⟨there₀, rfl, h.symm⟩

/-- A place outside of the copy, in the code with the copy and in the code with the call. -/
def Outside (rest rest' : List Stmt) : Prop :=
  (rest = rest' ∧ rest <:+ p.back) ∨
    ∃ here, here <:+ p.front ∧ rest = here ++ p.spliced ∧ rest' = here ++ p.call :: p.back

/-- A label of the host is found in the same place. -/
theorem from?_outside (hl : (L.vocabulary k p.host).label l) (h : from? l p.hostCode = some there) :
    ∃ there', from? l (p.front ++ p.call :: p.back) = some there' ∧
      p.Outside there there' := by
  -- neither the copy nor what belongs to it defines the label
  have hsite (l' : Label) : l ≠ l'.inSite (k + 1) := by
    intro heq
    have := hl l' (k + 1) heq
    omega
  have hcopy : from? l (substituted p.copy p.body.flatten) = none := by
    rw [from?_eq_none_iff]
    intro hmem
    obtain ⟨l', rfl⟩ := mem_labels_substituted p.plain p.settled_body hmem
    exact hsite l' rfl
  have hexit : l ≠ p.exit := by
    rw [p.exit_eq]
    exact hsite _
  have hspliced : from? l p.spliced = from? l p.back := by
    rw [spliced, from?_append, from?_append, hcopy, (p.from?_bindings l).1, tail,
      from?, from?_append, (p.from?_bindings l).2]
    simp [label?, Ne.symm hexit]
  have hcall : from? l (p.call :: p.back) = from? l p.back := by
    rw [from?]
    simp [call, label?]
  rw [hostCode, from?_append, hspliced] at h
  rw [from?_append, hcall]
  rcases hback : from? l p.back with - | there₁
  · rw [hback] at h
    obtain ⟨here, hhere, rfl⟩ := map_eq_some_iff.1 h
    refine ⟨here ++ p.call :: p.back, ?_, .inr ⟨here, from?_suffix hhere, rfl, rfl⟩⟩
    rw [hhere]
    rfl
  · rw [hback] at h
    obtain rfl := Option.some.inj h
    exact ⟨there₁, by rw [some_or], .inl ⟨rfl, from?_suffix hback⟩⟩

end Splice

end Wirescript
