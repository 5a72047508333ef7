import Wirescript.Proofs.Naming
import Wirescript.Proofs.Simulation

/-!
# Programs whose routines keep to their variables

A routine of a well-scoped program mentions its own parameters and locals, and globals. Its flat body
does so too, with temporaries and the slot of the result among the variables of the routine. Together
with a call graph in which no routine that is replaced calls itself, and with flat bodies that assign
variables before they read them, this is all that the expansion of calls asks for.
-/

namespace Wirescript

open List
open Option
open Table

variable {flat : Bodies} {mode : Inlining} {entries : List (Routine × Stmt)}
  {notices notices' : List Notice} {k : Nat} {p : Program} {r : Routine} {body : Stmt}
  {kind : String} {x : Variable}

/-! ### Labels -/

/-- Every kind of label ends with a letter. -/
theorem Label.kinds_eq_append (h : kind ∈ Label.kinds) :
    ∃ cs c, kind.toList = cs ++ [c] ∧ c.isDigit = false ∧ c ≠ '#' := by
  have hlast : ∀ kind ∈ Label.kinds,
      kind.toList = kind.toList.dropLast ++ [kind.toList.getLast?.getD '#'] ∧
        (kind.toList.getLast?.getD '#').isDigit = false ∧ kind.toList.getLast?.getD '#' ≠ '#' := by
    decide
  exact ⟨_, _, hlast kind h⟩

/-- The labels that flattening makes up are not made up by expansion. -/
theorem Label.written_numbered (h : kind ∈ Label.kinds) (n : Nat) :
    (Label.numbered r.name kind n).Written r := by
  have hname : (Label.numbered r.name kind n).name.toList =
      r.name.toList ++ '.' :: (kind.toList ++ Nat.toDigits 10 n) := by
    show (r.name ++ "." ++ kind ++ toString n).toList = _
    simp
  constructor
  · -- before the number of a site stands a sign, and no kind ends with it
    intro l site heq
    obtain ⟨cs, c, hkind, hc, hne⟩ := Label.kinds_eq_append h
    have hsite : r.name.toList ++ '.' :: (cs ++ [c] ++ Nat.toDigits 10 n) =
        l.name.toList ++ '#' :: Nat.toDigits 10 site := by
      rw [← hkind, ← hname, heq]
      show (l.name ++ "#" ++ toString site).toList = _
      simp
    have hsplit : r.name.toList ++ '.' :: (cs ++ [c] ++ Nat.toDigits 10 n) =
        (r.name.toList ++ '.' :: cs) ++ c :: Nat.toDigits 10 n := by simp
    rw [hsplit] at hsite
    exact absurd (append_toDigits_inj hc (by decide) hsite).2.1 hne
  · -- the name of the end of a routine has no number
    intro heq
    have hexit : r.name.toList ++ '.' :: (kind.toList ++ Nat.toDigits 10 n) =
        r.name.toList ++ '.' :: "return".toList := by
      rw [← hname, heq]
      simp [Routine.exitName]
    have hword : kind.toList ++ Nat.toDigits 10 n = "return".toList :=
      (List.cons.inj (append_cancel_left hexit)).2
    obtain ⟨d, hd⟩ := exists_mem_of_ne_nil _ (Nat.toDigits_ne_nil (n := n) (b := 10))
    have hdigit : d.isDigit = true := Nat.isDigit_of_mem_toDigits (by omega) (by omega) hd
    have hmem : d ∈ "return".toList := hword ▸ mem_append_right _ hd
    have hall : ∀ c ∈ "return".toList, c.isDigit = false := by simp
    rw [hall d hmem] at hdigit
    cases hdigit

/-! ### Who calls whom -/

namespace CallGraph

variable {g : CallGraph} {q : Routine}

/-- One routine gets to another by calls. -/
def Gets (g : CallGraph) : Routine → Routine → Prop :=
  Relation.TransGen fun r q ↦ q ∈ g.callees r

theorem exists_of_mem_callees (h : q ∈ g.callees r) :
    ∃ callees, g.calls.get? r = some callees ∧ q ∈ callees := by
  unfold callees at h
  rcases hget : g.calls.get? r with - | callees
  · rw [hget] at h
    cases h
  · rw [hget] at h
    exact ⟨callees, rfl, h⟩

theorem callees_subset_sites (g : CallGraph) (r : Routine) : g.callees r ⊆ g.sites := by
  intro q hq
  obtain ⟨callees, hcalls, hq⟩ := exists_of_mem_callees hq
  exact mem_flatMap.2 ⟨_, mem_of_get? hcalls, hq⟩

theorem reached_closed {roots : List Routine} (hr : r ∈ g.reached roots) (hq : q ∈ g.callees r) :
    q ∈ g.reached roots :=
  Reach.closure_closed (Nat.le_refl g.sites.length) g.callees_subset_sites hr hq

theorem mem_reached_of_gets (h : g.Gets r q) : q ∈ g.reached (g.callees r) := by
  induction h with
  | single hq => exact Reach.mem_closure_of_mem_roots hq
  | tail _ hq ih => exact reached_closed ih hq

theorem not_gets_self (h : g.isRecursive r = false) : ¬ g.Gets r r := fun hgets ↦
  of_decide_eq_false h (mem_reached_of_gets hgets)

theorem callees_ofBodies {bodies : Bodies} (h : bodies.get? r = some body) :
    (ofBodies bodies).callees r = body.callSites := by
  have hget : (ofBodies bodies).calls.get? r = (bodies.get? r).map Stmt.callSites :=
    Table.find?_map (f := id) fun _ _ heq ↦ heq
  rw [callees, hget, h]
  rfl

end CallGraph

theorem Analysis.canInline_of_mem_inlined {a : Analysis} {rs : List Routine}
    (h : r ∈ a.inlined mode rs) : r ∈ rs ∧ a.canInline r = true := by
  cases mode with
  | auto =>
    obtain ⟨hr, hshould⟩ := mem_filter.1 h
    exact ⟨hr, (Bool.and_eq_true_iff.1 hshould).1⟩
  | always => exact mem_filter.1 h
  | never => cases h

/-- A routine that is replaced has a body, is not the entry and does not get to itself. -/
theorem Program.of_mem_inlined (h : r ∈ p.analyze.inlined mode p.bodies.keys) :
    r ∈ p.bodies.keys ∧ r ≠ p.entry ∧ ¬ (CallGraph.ofBodies p.bodies).Gets r r := by
  obtain ⟨hr, hcan⟩ := Analysis.canInline_of_mem_inlined h
  obtain ⟨hboth, -⟩ := Bool.and_eq_true_iff.1 hcan
  obtain ⟨hentry, hrecursive⟩ := Bool.and_eq_true_iff.1 hboth
  refine ⟨hr, of_decide_eq_true hentry, CallGraph.not_gets_self ?_⟩
  by_contra hnot
  have hmem : r ∈ p.analyze.recursive := mem_filter.2 ⟨hr, by simpa using hnot⟩
  simp [Analysis.isRecursive, hmem] at hrecursive

/-! ### Flat bodies -/

/-- The flat body of a routine, in the way a program is prepared. -/
def Flattens (r : Routine) (body flat : Stmt) : Prop :=
  ∃ l e, lower r body = .ok l ∧ extract r l.body = .ok e ∧ flat = e.body

theorem Program.flattens_of_yields {flat : Stmt}
    (h : Yields (Program.flatten r body) notices flat notices') : Flattens r body flat := by
  obtain ⟨lowered, _, hlowered, hextracted⟩ := yields_bind.1 h
  obtain ⟨l, _, hlower, hnote⟩ := yields_bind.1 hlowered
  obtain ⟨hl, rfl⟩ := yields_lift.1 hlower
  obtain ⟨_, _, -, hbody⟩ := yields_bind.1 hnote
  cases hbody
  obtain ⟨e, _, hextract, hnote'⟩ := yields_bind.1 hextracted
  obtain ⟨he, rfl⟩ := yields_lift.1 hextract
  obtain ⟨_, _, -, hbody'⟩ := yields_bind.1 hnote'
  cases hbody'
  exact ⟨l, e, hl, he, rfl⟩

/-- If computations one after the other end well, each of them does. -/
theorem Yields.mapM {ε σ α β : Type} {f : α → ExceptT ε (StateM σ) β} {xs : List α} {ys : List β} {s s' : σ}
    (h : Yields (xs.mapM f) s ys s') :
    Forall₂ (fun x y ↦ ∃ s s', Yields (f x) s y s') xs ys := by
  induction xs generalizing s s' ys with
  | nil =>
    obtain ⟨rfl, -⟩ := yields_pure.1 h
    exact .nil
  | cons x xs ih =>
    rw [mapM_cons] at h
    obtain ⟨y, s₁, hy, h⟩ := yields_bind.1 h
    obtain ⟨ys, s₂, hys, h⟩ := yields_bind.1 h
    obtain ⟨rfl, -⟩ := yields_pure.1 h
    exact .cons ⟨s, s₁, hy⟩ (ih hys)

/-- The flat program has the routines of the program, each with its flat body. -/
theorem Program.forall₂_of_yields_flat (h : Yields p.flat notices flat notices') :
    Forall₂ (fun source entry ↦ entry.1 = source.1 ∧ Flattens source.1 source.2 entry.2)
      p.bodies.entries flat.entries := by
  obtain ⟨entries, _, hentries, hnote⟩ := yields_bind.1 h
  obtain ⟨_, _, -, hflat⟩ := yields_bind.1 hnote
  cases hflat
  refine hentries.mapM.imp fun source entry hentry ↦ ?_
  obtain ⟨_, _, hflatten⟩ := hentry
  obtain ⟨flat, _, hflat, hpair⟩ := yields_bind.1 hflatten
  cases hpair
  exact ⟨rfl, Program.flattens_of_yields hflat⟩

theorem Program.mem_entries_flat (h : Yields p.flat notices flat notices') {code : Stmt}
    (hcode : (r, code) ∈ flat.entries) :
    ∃ body, (r, body) ∈ p.bodies.entries ∧ Flattens r body code := by
  have hall : ∀ entry ∈ flat.entries, ∃ source ∈ p.bodies.entries, entry.1 = source.1 ∧
      Flattens source.1 source.2 entry.2 :=
    forall_mem_of_forall₂ (Forall₂.imp (fun source entry h ↦ ⟨source, h⟩)
      ((forall₂_and_left _ _).2 ⟨fun _ h ↦ h, forall₂_of_yields_flat h⟩))
  obtain ⟨⟨_, body⟩, hbody, rfl, hflattens⟩ := hall (r, code) hcode
  exact ⟨body, hbody, hflattens⟩

theorem Table.keys_of_forall₂ {κ ν ν' : Type} {P : κ × ν → κ × ν' → Prop} {t : Table κ ν}
    {u : Table κ ν'} (h : Forall₂ (fun a b ↦ b.1 = a.1 ∧ P a b) t.entries u.entries) :
    u.keys = t.keys := by
  obtain ⟨entries⟩ := t
  obtain ⟨entries'⟩ := u
  show entries'.map Prod.fst = entries.map Prod.fst
  replace h : Forall₂ (fun a b ↦ b.1 = a.1 ∧ P a b) entries entries' := h
  induction h with
  | nil => rfl
  | cons hentry _ ih => rw [map_cons, map_cons, hentry.1, ih]

theorem Table.find?_of_forall₂ {κ ν ν' : Type} [DecidableEq κ] {P : κ → ν → ν' → Prop}
    {entries : List (κ × ν)} {entries' : List (κ × ν')}
    (h : Forall₂ (fun a b ↦ b.1 = a.1 ∧ P a.1 a.2 b.2) entries entries') {k : κ} {w : ν'}
    (hw : Table.find? entries' k = some w) : ∃ v, Table.find? entries k = some v ∧ P k v w := by
  induction h with
  | nil => cases hw
  | @cons a b _ _ hab _ ih =>
    obtain ⟨hkey, hP⟩ := hab
    rw [Table.find?, hkey] at hw
    split at hw
    · rename_i hk
      cases hw
      exact ⟨a.2, if_pos hk, hk ▸ hP⟩
    · rename_i hk
      obtain ⟨v, hv, hPv⟩ := ih hw
      exact ⟨v, (if_neg hk).trans hv, hPv⟩

section Flat

variable {V : Vocabulary} {flat : Stmt}

/-- A flat body is made of what the body is made of, and of temporaries and labels of the routine. -/
theorem Flattens.settled (h : Flattens r body flat)
    (hvar : ∀ n t, V.var (.slot (Extract.slot r.id n t))) (hlabels : V.Labels r.name)
    (hbody : body.Within V) : Stmt.AllSettled V flat.flatten := by
  obtain ⟨l, e, hl, he, rfl⟩ := h
  have hsettled := Extracted.settled hvar hlabels (Lowered.within hlabels hbody hl) he
  rwa [Extracted.body, Stmt.flatten, hsettled.flattenAll]

end Flat

/-! ### Scopes -/

/-- The routines of a program: those that have a body and those that are called. -/
def Program.routines (p : Program) : List Routine :=
  p.bodies.entries.flatMap fun (r, body) ↦ r :: body.callSites

/-- What the body of a routine may mention: globals and its own parameters and locals, and labels
that are not made up by expansion. There are no events. -/
def Routine.scope (owns : Routine → Slot → Prop) (r : Routine) : Vocabulary where
  var x := x.root.role = .global ∨ owns r x.root
  label := Label.Written r
  routine _ := True
  events := False

/-- The vocabulary with events or without them. -/
def Vocabulary.withEvents (V : Vocabulary) (events : Prop) : Vocabulary := { V with events := events }

/-- Every routine has parameters and locals of its own, which are the slots that it `owns`, and its
body keeps to them and to globals. There may be events in it. -/
structure Program.Scoped (p : Program) (events : Prop) (owns : Routine → Slot → Prop) : Prop where
  keys : p.bodies.keys.Nodup
  id {r q : Routine} (hr : r ∈ p.routines) (hq : q ∈ p.routines) (h : r.id = q.id) : r = q
  returnSlot {r : Routine} (hr : r ∈ p.routines) : r.returnSlot =
    (Routine.declare r.id r.name r.parameters r.returnType r.modifiers).returnSlot
  parameter {r : Routine} (hr : r ∈ p.routines) {x : Variable} (hx : x ∈ r.parameters) :
    ∃ s, x = .slot s ∧ owns r s
  nodup {r : Routine} (hr : r ∈ p.routines) : r.parameters.Nodup
  unique {r q : Routine} {s : Slot} (h : owns r s) (h' : owns q s) : r = q
  origin {r : Routine} {s : Slot} (h : owns r s) : ∃ n, s.origin = .declared n
  role {r : Routine} {s : Slot} (h : owns r s) : s.role ≠ .global
  body {r : Routine} {body : Stmt} (h : (r, body) ∈ p.bodies.entries) :
    body.Within ((r.scope owns).withEvents events)

/-- Every routine keeps to its variables and to globals, and there are no events. Names of routines and
of their variables do not begin like those of cells of globals. -/
structure Program.WellScoped (p : Program) (owns : Routine → Slot → Prop) : Prop
    extends p.Scoped False owns where
  name {r : Routine} (hr : r ∈ p.routines) : Unmarked r.name
  unmarked {r : Routine} {s : Slot} (h : owns r s) : Unmarked s.name

/-- In the flat code of every routine, variables are assigned before they are read. -/
def Program.Definite (p : Program) : Prop :=
  ∀ r body flat, (r, body) ∈ p.bodies.entries → Flattens r body flat → r.Definite flat.flatten

/-- In the flat code of every routine, a call keeps the result of a routine only if there is one, and
it keeps it in a variable that is not passed by reference. -/
def Program.KeepsApart (p : Program) : Prop :=
  ∀ r body flat, (r, body) ∈ p.bodies.entries → Flattens r body flat →
    ∀ span q arguments x, .call span (.routine q) arguments (some x) ∈ flat.flatten →
      q.returnSlot.isSome = true ∧
        ∀ y ∈ targets (q.parameters.zip arguments), ¬ x.Overlaps Slot.home y

/-- The cells of a routine: its parameters and locals, its temporaries, and the slot of its result. -/
def Program.Cells (p : Program) (owns : Routine → Slot → Prop) (r : Routine) (s : Slot) : Prop :=
  r ∈ p.routines ∧ (owns r s ∨ (∃ n t, s = Extract.slot r.id n t) ∨ .slot s ∈ r.returnSlot)

section Scopes

variable {events : Prop} {owns : Routine → Slot → Prop} {q : Routine} {s : Slot} {flat : Stmt}

theorem Program.mem_routines_of_entry (h : (r, body) ∈ p.bodies.entries) : r ∈ p.routines :=
  mem_flatMap.2 ⟨_, h, .head _⟩

theorem Program.mem_routines_of_site (h : (r, body) ∈ p.bodies.entries) (hq : q ∈ body.callSites) :
    q ∈ p.routines :=
  mem_flatMap.2 ⟨_, h, .tail _ hq⟩

namespace Program.Scoped

variable (hp : p.Scoped events owns)
include hp

theorem slot_of_mem_returnSlot (hr : r ∈ p.routines) (hx : x ∈ r.returnSlot) :
    x = .slot ⟨.result r.id, r.name ++ "@ret", r.returnType, .temporary, {}⟩ := by
  rw [hp.returnSlot hr, Routine.declare] at hx
  split at hx
  · cases hx
  · exact (Option.some.inj hx).symm

section

variable (h : p.Cells owns r s)

include h

/-- The origin of a cell says which routine it belongs to. -/
theorem cells_cases : (owns r s ∧ ∃ n, s.origin = .declared n) ∨
      (s.role = .temporary ∧ ((∃ n, s.origin = .extracted r.id n) ∨ s.origin = .result r.id)) := by
  obtain ⟨hr, hown | ⟨n, t, rfl⟩ | hslot⟩ := h
  · exact .inl ⟨hown, hp.origin hown⟩
  · exact .inr ⟨rfl, .inl ⟨n, rfl⟩⟩
  · cases hp.slot_of_mem_returnSlot hr hslot
    exact .inr ⟨rfl, .inr rfl⟩

theorem role_of_cells : s.role ≠ .global := by
  rcases hp.cells_cases h with ⟨hown, -⟩ | ⟨hrole, -⟩
  · exact hp.role hown
  · simp [hrole]

theorem site?_of_cells : s.site? = none := by
  rcases hp.cells_cases h with ⟨-, n, horigin⟩ | ⟨-, ⟨n, horigin⟩ | horigin⟩ <;>
    simp [Slot.site?, horigin]

theorem cells_unique (h' : p.Cells owns q s) : r = q := by
  rcases hp.cells_cases h with ⟨hown, n, ho⟩ | ⟨-, ⟨n, ho⟩ | ho⟩ <;>
    rcases hp.cells_cases h' with ⟨hown', n', ho'⟩ | ⟨-, ⟨n', ho'⟩ | ho'⟩ <;>
    rw [ho] at ho'
  · exact hp.unique hown hown'
  · cases ho'
  · cases ho'
  · cases ho'
  · exact hp.id h.1 h'.1 (Origin.extracted.inj ho').1
  · cases ho'
  · cases ho'
  · cases ho'
  · exact hp.id h.1 h'.1 (Origin.result.inj ho')

end

variable (hr : r ∈ p.routines)

include hr

theorem formal (hx : x ∈ r.formals) : ∃ s, x = .slot s ∧ p.Cells owns r s := by
  rcases mem_append.1 hx with hx | hx
  · obtain ⟨s, rfl, hown⟩ := hp.parameter hr hx
    exact ⟨s, rfl, hr, .inl hown⟩
  · have hslot := hp.slot_of_mem_returnSlot hr (mem_toList.1 hx)
    exact ⟨_, hslot, hr, .inr (.inr (hslot ▸ mem_toList.1 hx))⟩

/-- The slot of the result is no variable of the source. -/
theorem returnSlot_ne (hx : x ∈ r.returnSlot)
    (hs : s.role = .global ∨ owns q s ∨ ∃ n t, s = Extract.slot q.id n t) : x.root ≠ s := by
  rintro rfl
  have hslot := hp.slot_of_mem_returnSlot hr hx
  rcases hs with hglobal | hown | ⟨n, t, htemporary⟩
  · rw [hslot] at hglobal
    cases hglobal
  · obtain ⟨n, horigin⟩ := hp.origin hown
    rw [hslot] at horigin
    cases horigin
  · have horigin := congrArg Slot.origin htemporary
    rw [hslot] at horigin
    cases horigin

theorem nodup_formals : r.formals.Nodup := by
  refine nodup_append.2 ⟨hp.nodup hr, ?_, fun x hx y hy heq ↦ ?_⟩
  · cases r.returnSlot <;> simp
  · obtain ⟨s, rfl, hown⟩ := hp.parameter hr hx
    exact hp.returnSlot_ne hr (mem_toList.1 hy) (.inr (.inl hown)) (by rw [← heq]; rfl)

end Program.Scoped

/-- A program whose routines have the listed cells is scoped if its bodies keep to them. -/
theorem Program.scoped_of_cells {cells : List (Routine × Slot)} (hkeys : p.bodies.keys.Nodup)
    (hroutines : ∀ r ∈ p.routines, r.parameters.Nodup ∧
      (∀ x ∈ r.parameters, x = .slot x.root ∧ (r, x.root) ∈ cells) ∧ r.returnSlot =
        (Routine.declare r.id r.name r.parameters r.returnType r.modifiers).returnSlot ∧
      ∀ q ∈ p.routines, r.id = q.id → r = q)
    (hcells : ∀ a ∈ cells, a.2.role ≠ .global ∧ ∀ b ∈ cells, a.2 = b.2 → a.1 = b.1)
    (horigin : ∀ a ∈ cells, ∃ n, a.2.origin = .declared n)
    (hbody : ∀ r body, (r, body) ∈ p.bodies.entries →
      body.Within ((r.scope fun r s ↦ (r, s) ∈ cells).withEvents events)) :
    p.Scoped events fun r s ↦ (r, s) ∈ cells where
  keys := hkeys
  id {r q} hr hq h := (hroutines r hr).2.2.2 q hq h
  returnSlot {r} hr := (hroutines r hr).2.2.1
  parameter {r} hr {x} hx := ⟨x.root, (hroutines r hr).2.1 x hx⟩
  nodup {r} hr := (hroutines r hr).1
  unique {r q s} h h' := (hcells (r, s) h).2 (q, s) h' rfl
  origin {r s} h := horigin (r, s) h
  role {r s} h := (hcells (r, s) h).1
  body {r body} h := hbody r body h

theorem Program.WellScoped.unmarked_of_cells (hp : p.WellScoped owns) (h : p.Cells owns r s) :
    Unmarked s.name := by
  obtain ⟨hr, hown | ⟨n, t, rfl⟩ | hslot⟩ := h
  · exact hp.unmarked hown
  · show Unmarked ("#tmp" ++ toString n)
    exact ⟨by simp, by simp⟩
  · cases hp.slot_of_mem_returnSlot hr hslot
    exact unmarked_append (hp.name hr) (by decide)

end Scopes

/-! ### Calls that have been expanded -/

section Expanded

variable {i : Inliner}

/-- A call that is replaced has an argument for each parameter, and the calls in the body it names are
replaced in turn. -/
theorem Expands.exists_inner {σ : Substitution} {k' : Nat} {rest X : List Stmt}
    (h : Expands i σ k rest X k') {span : Span} {q : Routine} {arguments : List Expr}
    {result : Option Variable} (hs : .call span (.routine q) arguments result ∈ rest)
    (hq : q ∈ i.inlined) :
    q.parameters.length = arguments.length ∧ ∃ body σ' k₁ X₁ k₂, i.bodies.get? q = some body ∧
      Expands i σ' k₁ body.flatten X₁ k₂ := by
  induction h with
  | nil => cases hs
  | keep hkept _ ih =>
    rcases mem_cons.1 hs with rfl | hs
    · exact absurd ⟨span, q, arguments, result, rfl, hq⟩ hkept
    · exact ih hs
  | call _ hbody hlength _ hcopy _ _ ih =>
    rcases mem_cons.1 hs with heq | hs
    · obtain ⟨-, hcallee, rfl, -⟩ := Stmt.call.inj heq
      cases hcallee
      exact ⟨hlength, _, _, _, _, _, hbody, hcopy⟩
    · exact ih hs

theorem ExpandsEach.exists_expands {host : Nat → Routine} {k' : Nat}
    {entries' : List (Routine × Stmt)} (h : ExpandsEach i host k entries entries' k')
    (hmem : (r, body) ∈ entries) : ∃ σ k X k', Expands i σ k body.flatten X k' := by
  induction h with
  | nil => cases hmem
  | cons hbody _ _ ih =>
    rcases mem_cons.1 hmem with heq | hmem
    · cases heq
      exact ⟨_, _, _, _, hbody⟩
    · exact ih hmem

end Expanded

/-! ### Flat programs -/

theorem Vocabulary.carries_of_routine {V : Vocabulary} {P : Routine → Prop}
    (h : ∀ r, V.routine r → P r) : Substitution.Carries {} V (V.calling P) where
  var _ hx := hx
  label _ hl := hl
  routine := h
  events he := he
  ret _ := trivial
  retValue _ _ hvalue := hvalue

/-- A program and its flat code, with the routines whose calls are to be replaced, in a scene with a
cell for each variable. -/
structure Flattened (S : Scene (String ⊕ Slot)) (p : Program) (events : Prop)
    (owns : Routine → Slot → Prop) (i : Inliner) : Prop where
  key : S.key = Slot.home
  watched {s : Slot} (h : S.watched s = true) : s.role = .global
  scopes : p.Scoped events owns
  bodies : Forall₂ (fun source entry ↦ entry.1 = source.1 ∧ Flattens source.1 source.2 entry.2)
    p.bodies.entries i.bodies.entries
  inlined {r : Routine} (h : r ∈ i.inlined) : ¬ (CallGraph.ofBodies p.bodies).Gets r r
  definite {r : Routine} {body flat : Stmt} (hr : r ∈ i.inlined)
    (h : (r, body) ∈ p.bodies.entries) (hflat : Flattens r body flat) : r.Definite flat.flatten
  calm {r : Routine} {body flat : Stmt} (hr : r ∈ i.inlined)
    (h : (r, body) ∈ p.bodies.entries) (hflat : Flattens r body flat) : Calm flat.flatten
  kept {r q : Routine} {body flat : Stmt} {span : Span} {arguments : List Expr} {x : Variable}
    (h : (r, body) ∈ p.bodies.entries) (hflat : Flattens r body flat) (hq : q ∈ i.inlined)
    (hs : .call span (.routine q) arguments (some x) ∈ flat.flatten) :
    q.returnSlot.isSome = true ∧ (¬ S.early q = true →
      ∀ y ∈ targets (q.parameters.zip arguments), ¬ x.Overlaps Slot.home y ∧
        (S.watched x.root = true → S.watched y.root = false))

/-- The cells of the routines of a program, where a routine can be run if the calls in its flat code
have been replaced. -/
def Program.layout (p : Program) (owns : Routine → Slot → Prop) (i : Inliner)
    (host : Nat → Routine) : Layout where
  listed r := r ∈ p.routines
  known r := r ∈ p.routines ∧
    ∀ body, i.bodies.get? r = some body → ∃ σ k X k', Expands i σ k body.flatten X k'
  own := p.Cells owns
  host := host
  next := (CallGraph.ofBodies p.bodies).Gets

namespace Flattened

variable {S : Scene (String ⊕ Slot)} {events : Prop} {owns : Routine → Slot → Prop} {i : Inliner}
  {host : Nat → Routine} {q : Routine} {flat : Stmt}

variable (h : Flattened S p events owns i)
include h

theorem exists_source (hflat : i.bodies.get? r = some flat) :
    ∃ body, p.bodies.get? r = some body ∧ Flattens r body flat :=
  find?_of_forall₂ h.bodies hflat

/-- The flat code of a routine is made of its cells, globals, and routines that its body calls. -/
theorem settled (host : Nat → Routine) (hbody : (r, body) ∈ p.bodies.entries)
    (hflat : Flattens r body flat) :
    Stmt.AllSettled ((((p.layout owns i host).source r).withEvents events).calling (· ∈ body.callSites))
      flat.flatten := by
  have hr := Program.mem_routines_of_entry hbody
  have hne (q : Routine) {x : Variable} (hx : x ∈ r.returnSlot) (s : Slot)
      (hs : s.role = .global ∨ owns q s ∨ ∃ n t, s = Extract.slot q.id n t) : x.root ≠ s :=
    h.scopes.returnSlot_ne hr hx hs
  have hcarries : Substitution.Carries {} ((r.scope owns).withEvents events)
      ((((p.layout owns i host).source r).withEvents events).calling fun _ ↦ True) :=
    { var := fun x hx ↦ ⟨hx.imp_right fun hown ↦ ⟨hr, .inl hown⟩, fun y hy ↦
        hne r hy x.root (hx.imp_right .inl)⟩
      label := fun _ hl ↦ hl
      routine := fun _ hq ↦ hq
      events := fun he ↦ he
      ret := fun _ ↦ trivial
      retValue := fun _ _ hvalue ↦ hvalue }
  have hwithin := (h.scopes.body hbody).substitute hcarries
  rw [body.substitute_empty] at hwithin
  have hcalling := hwithin.calling (P := fun q ↦ q ∈ body.callSites) fun q hq ↦ hq
  refine hflat.settled (fun n t ↦ ?_) (fun kind hkind n ↦ ?_) hcalling
  · exact ⟨.inr ⟨hr, .inr (.inl ⟨n, t, rfl⟩)⟩, fun y hy ↦ hne r hy _ (.inr (.inr ⟨n, t, rfl⟩))⟩
  · exact Label.written_numbered hkind n

/-- The flat code keeps to the layout. -/
theorem settled_source (host : Nat → Routine) (hflat : i.bodies.get? r = some flat) :
    Stmt.AllSettled (((p.layout owns i host).source r).withEvents events) flat.flatten := by
  obtain ⟨body, hbody, hflattens⟩ := h.exists_source hflat
  have hentry := mem_of_get? hbody
  exact (h.settled host hentry hflattens).carried
    (Vocabulary.carries_of_routine fun q hq ↦ Program.mem_routines_of_site hentry hq)

theorem invokes (hflat : i.bodies.get? r = some flat) {s : Stmt} (hs : s ∈ flat.flatten)
    (hq : s.Invokes q) : (CallGraph.ofBodies p.bodies).Gets r q ∧ q ∈ p.routines := by
  obtain ⟨body, hbody, hflattens⟩ := h.exists_source hflat
  have hentry := mem_of_get? hbody
  have hsettled := h.settled (fun _ ↦ r) hentry hflattens s hs
  obtain ⟨span, arguments, result, rfl⟩ := hq
  have hsite : q ∈ body.callSites := hsettled.1
  refine ⟨.single ?_, Program.mem_routines_of_site hentry hsite⟩
  rwa [CallGraph.callees_ofBodies hbody]

theorem orderly (host : Nat → Routine) : Orderly S i (p.layout owns i host) where
  key hkey := by
    rw [h.key] at hkey
    exact Slot.home_eq_home hkey
  watched := h.watched
  role := h.scopes.role_of_cells
  site? := h.scopes.site?_of_cells
  unique := h.scopes.cells_unique
  formal hr hx := h.scopes.formal hr.1 hx
  nodup hr := h.scopes.nodup_formals hr.1
  trans := Relation.TransGen.trans
  acyclic := h.inlined
  source {r body} _ hbody := (h.settled_source host hbody).carried
    { var := fun _ hx ↦ hx
      label := fun _ hl ↦ hl
      routine := fun _ hq ↦ hq
      events := fun _ ↦ trivial
      ret := fun _ ↦ trivial
      retValue := fun _ _ hvalue ↦ hvalue }
  definite {q body} hq hbody := by
    obtain ⟨source, hsource, hflattens⟩ := h.exists_source hbody
    exact h.definite hq (mem_of_get? hsource) hflattens
  calm {q body} hq hbody := by
    obtain ⟨source, hsource, hflattens⟩ := h.exists_source hbody
    exact h.calm hq (mem_of_get? hsource) hflattens

/-- The flat program before any call has been replaced. -/
theorem stage
    (heach : ExpandsEach i host 0 (i.bodies.entries.filter fun entry ↦ decide (entry.1 ∉ i.inlined))
      entries k) : Stage S i (p.layout owns i host) i.bodies.listing 0 where
  settled {r code} hr hcode := by
    obtain ⟨flat, hflat, rfl⟩ := map_eq_some_iff.1 hcode
    exact ((h.orderly host).source hr hflat).carried ((h.orderly host).carries_source 0 r)
  calls {r q code s} hr hcode hs hq := by
    obtain ⟨flat, hflat, rfl⟩ := map_eq_some_iff.1 hcode
    obtain ⟨hgets, hmem⟩ := h.invokes hflat hs hq
    refine ⟨hgets, hmem, fun body hbody ↦ ?_⟩
    by_cases hinlined : q ∈ i.inlined
    · -- the calls in its body were replaced where the call was
      obtain ⟨σ, k, X, k', hexpands⟩ := hr.2 flat hflat
      obtain ⟨span, arguments, result, rfl⟩ := hq
      obtain ⟨-, body', σ', k₁, X₁, k₂, hbody', hinner⟩ := hexpands.exists_inner hs hinlined
      cases hbody.symm.trans hbody'
      exact ⟨σ', k₁, X₁, k₂, hinner⟩
    · exact heach.exists_expands (mem_filter.2 ⟨mem_of_get? hbody, by simpa using hinlined⟩)
  fits {r q code span arguments result} hr hcode hs hq := by
    obtain ⟨flat, hflat, rfl⟩ := map_eq_some_iff.1 hcode
    obtain ⟨σ, k, X, k', hexpands⟩ := hr.2 flat hflat
    obtain ⟨source, hsource, hflattens⟩ := h.exists_source hflat
    have hcall (x : Variable) (hx : x ∈ result) : q.returnSlot.isSome = true ∧
        (¬ S.early q = true → ∀ y ∈ targets (q.parameters.zip arguments),
          ¬ x.Overlaps S.key y ∧ (S.watched x.root = true → S.watched y.root = false)) := by
      obtain rfl := hx
      rw [h.key]
      exact h.kept (mem_of_get? hsource) hflattens hq hs
    exact ⟨(hexpands.exists_inner hs hq).1, fun x hx ↦ (hcall x hx).1,
      fun hearly x hx y hy ↦ ((hcall x hx).2 hearly y hy).1,
      fun hearly x hx y hy ↦ ((hcall x hx).2 hearly y hy).2⟩
  source _ := rfl

end Flattened

end Wirescript
