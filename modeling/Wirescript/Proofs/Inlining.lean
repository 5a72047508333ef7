import Wirescript.Proofs.Splicing

/-!
# Running a program in which a call was replaced

A program with a copy in place of a call is followed by the program with the call. Outside of the
copy both do the same. The cells of the site and those of the routine that is called are left out of
the relation between the two, because only one of the two programs uses them there; whoever uses them
has assigned them before. Inside the copy a cell of the routine corresponds to its image once it has
been assigned.
-/

namespace Wirescript

open Expand (stand opening)
open Stmt
open List
open Memory
open Nat

variable {entry : (Variable × Expr) × Nat} {value : (Variable × Expr) × Nat → Value}
  {entries : List ((Variable × Expr) × Nat)} {code : List Stmt} {span : Span} {v : Value}
  {x : Variable}

section Spares

variable {κ : Type} [DecidableEq κ] {S : Scene κ} {i : Inliner} {L : Layout} {program : Listing}
  {k depth : Nat} {z r : Routine} {c : Slot} {t t' : Trail κ}

/-- A routine leaves the cells of another one alone if it does not get there. -/
theorem Stage.spares (hstage : Stage S i L program k) (horderly : Orderly S i L) (hz : L.known z)
    (hne : z ≠ r) (hnext : ¬ L.next z r) (hc : L.Cells r c) (hrole : c.role ≠ .global)
    (h : Follows S program depth z t t') : t'.memory.get? (S.key c) = t.memory.get? (S.key c) := by
  refine h.spares (V := L.vocabulary k) (fun r code hr hcode ↦ hstage.settled hr hcode)
    (fun r code hr hcode s hs q ↦ hstage.calls hr hcode hs) (fun _ _ _ ↦ horderly.trans) hz fun q hq x hx hkey ↦ ?_
  have hroot : x.root = c := horderly.eq_of_key hkey (.inr hrole)
  have hcells : L.Cells q c := by
    rcases hx with hx | hx
    · rw [← hroot] at hrole ⊢
      exact (hx.1.resolve_left hrole).1
    · have hknown : L.known q := by
        rcases hq with rfl | hq
        · exact hz
        · exact hq.2
      obtain ⟨s, rfl, hs⟩ := horderly.formal hknown hx
      rw [← hroot]
      exact .inl hs
  obtain rfl : q = r := horderly.cells_unique hcells hc
  rcases hq with rfl | hq
  · exact hne rfl
  · exact hnext hq.1

/-- An assignment at the head of the code that runs. -/
theorem Goes.assigns {calls : Routine → Trail κ → Trail κ → Prop} {rest : List Stmt} {n : Nat}
    {e : Expr} (h : Goes (Acts S calls r) code n (.assign span x e :: rest) t t') :
    ∃ m t₁, m ≤ n ∧ t.Assigns S x e t₁ ∧ Goes (Acts S calls r) code m rest t₁ t' := by
  cases h with
  | @next m _ _ _ t₁ _ hs hgoes => exact ⟨m, t₁, le_succ m, hs.2, hgoes⟩
  | stop hs | jump hs | fork hs => cases hs.1

end Spares

namespace Splice

variable {κ : Type} [DecidableEq κ] {S : Scene κ} {i : Inliner} {L : Layout} {program : Listing}
  {k depth : Nat} (p : Splice S i L program k) {z r : Routine} {D : List Slot}

/-- Runs of a routine in the program with the copy are followed in the program with the call. -/
def Steadies (depth : Nat) (R : Slot → Slot → Prop) (z : Routine) : Prop :=
  Steady S S R (Follows S p.outcome depth) (Completes S program) z

/-- A routine that the copied body calls can be followed while cells of the body correspond to their
images. -/
theorem steadies_image (h : p.Steadies depth p.base r) (hr : L.known r) (hnext : L.next p.callee r)
    (hD : ∀ s ∈ D, p.Uses s) : p.Steadies depth (Pairs p.base p.image D) r := by
  obtain ⟨hhost, hhost', hcallee, hcallee'⟩ := p.not_next_of_next hnext
  refine Steady.frame h fun s hs ↦ ?_
  by_cases hrole : s.role = .global
  · left
    rw [p.image_of_global hrole]
    exact p.base_of_global hrole
  · have hown := (hD s hs).resolve_left hrole
    obtain ⟨himage, hcells, -⟩ := p.image_of_own hown
    refine .inr ⟨fun t t' hcall ↦ ?_, fun u u' ⟨d, hcall⟩ ↦ ?_⟩
    · exact p.stage_outcome.spares p.orderly hr hhost hhost' hcells himage hcall
    · exact p.stage.spares p.orderly hr hcallee hcallee' (.inl hown) hrole hcall

/-- A routine that the body calls can be followed while cells of the body correspond to
themselves. -/
theorem steadies_same (h : p.Steadies depth p.base r) (hr : L.known r) (hnext : L.next p.callee r)
    (hD : ∀ s ∈ D, p.Uses s) : p.Steadies depth (Pairs p.base id D) r := by
  obtain ⟨-, -, hcallee, hcallee'⟩ := p.not_next_of_next hnext
  refine Steady.frame h fun s hs ↦ ?_
  by_cases hrole : s.role = .global
  · exact .inl (p.base_of_global hrole)
  · have hown := (hD s hs).resolve_left hrole
    refine .inr ⟨fun t t' hcall ↦ ?_, fun u u' ⟨d, hcall⟩ ↦ ?_⟩
    · exact p.stage_outcome.spares p.orderly hr hcallee hcallee' (.inl hown) hrole hcall
    · exact p.stage.spares p.orderly hr hcallee hcallee' (.inl hown) hrole hcall

/-! ### Other routines -/

variable {t t' u : Trail κ} {n : Nat} {s : Stmt} {rest : List Stmt}

/-- Both programs are inside the copy, where some cells have been assigned. -/
abbrev Beside (D : List Slot) (t u : Trail κ) : Prop := Linked S S (Pairs p.base p.image D) t u

section Traces

variable (ih : ∀ z, L.known z → p.Steadies depth p.base z)

include ih

/-- Where a path can be in the code of a routine other than the host, both programs can run. -/
theorem traceable (hz : L.known z) (hcode : program z = some code) :
    Traceable S S p.base (· = ·) (Follows S p.outcome depth) (Completes S program) z code
      z.given := by
  have hsettled := p.stage.settled hz hcode
  -- the called routine has assigned what it reads, and the others share all of their cells
  have hconsulted {s : Stmt} {rest : List Stmt} {D : List Slot}
      (h : Stmt.Arrives code z.given (s :: rest) D) {x : Variable}
      (hx : x.root ∈ s.consulted) (hvar : (L.vocabulary k z).var x) :
      Pairs p.base id D x.root x.root := by
    by_cases hne : z = p.callee
    · subst hne
      cases p.program_callee.symm.trans hcode
      rcases p.definite.reads h x.root hx with hglobal | hD
      · exact .inl (p.base_of_global hglobal)
      · exact .inr ⟨hD, rfl⟩
    · exact .inl ⟨rfl, p.shared_of_var hne hvar⟩
  have hassigned {rest : List Stmt} {D : List Slot} (h : Stmt.Arrives code z.given rest D) {s : Slot}
      (hs : s ∈ D) : (∃ x ∈ z.formals, x.root = s) ∨ (L.vocabulary k z).var (.slot s) := by
    rcases h.mem hs with hs | ⟨st, hst, hs⟩
    · obtain ⟨y, hy, rfl⟩ := mem_map.1 hs
      exact .inl ⟨y, mem_append_left _ (mem_filter.1 hy).1, rfl⟩
    · exact .inr ((hsettled st hst).var_of_assigned hs)
  have hsteady {rest : List Stmt} {D : List Slot} (h : Stmt.Arrives code z.given rest D)
      {r : Routine} (hr : L.known r) (hnext : L.next z r) :
      p.Steadies depth (Pairs p.base id D) r := by
    by_cases hne : z = p.callee
    · subst hne
      cases p.program_callee.symm.trans hcode
      exact p.steadies_same (ih r hr) hr hnext fun s hs ↦ p.own_of_arrives h hs
    · refine Steady.frame (ih r hr) fun s hs ↦ .inl ⟨rfl, ?_⟩
      rcases hassigned h hs with ⟨x, hx, rfl⟩ | hvar
      · exact p.shared_of_formal hz hne hx
      · exact p.shared_of_var hne hvar
  refine ⟨fun {s rest D} h ↦ ?_, fun {rest D} h a b hab ↦ ?_, fun y hy ↦ ?_⟩
  · have hs := h.suffix.subset (.head _)
    refine ⟨fun x hx ↦ ?_, fun x hx ↦ ⟨fun hc ↦ ?_, .refl (fun _ _ h ↦ h) _⟩, ?_⟩
    · refine hconsulted h ?_ ((hsettled s hs).var_of_loads hx)
      exact mem_map_of_mem (mem_append_left _ hx)
    · refine hconsulted h ?_ ((hsettled s hs).var_of_stores hx)
      exact mem_map_of_mem (mem_append_right _ (mem_filter.2 ⟨hx, hc⟩))
    · rintro span r es result rfl
      obtain ⟨hnext, hr⟩ := p.stage.calls hz hcode hs ⟨_, _, _, rfl⟩
      exact ⟨hsteady h hr hnext, p.given_of_call (fun s hs ↦ .inl ⟨rfl, hs⟩) hr
        (p.stage.fits hz hcode hs),
        fun y hy ↦ p.orderly.writable hr (mem_append_left _ hy), fun _ _ ↦ rfl⟩
  · rcases hab with ⟨rfl, -⟩ | ⟨-, rfl⟩ <;> rfl
  · exact ⟨p.orderly.writable hz (mem_append_right _ (Option.mem_toList.2 hy)), rfl⟩

/-- Runs of a routine other than the host can be followed. -/
theorem steadies_of_ne (hz : L.known z) (hne : z ≠ p.host) : p.Steadies (depth + 1) p.base z := by
  rintro t t' u hm ⟨code, n, hcode, hgoes⟩
  rw [p.outcome_of_ne hne] at hcode
  obtain ⟨u', rest', D', hgoes', hpath, hends, hm'⟩ := hgoes.linked (p.stage.settled hz hcode)
    (.refl S) (p.traceable ih hz hcode) (suffix_refl _) .start hm
  refine ⟨u', hgoes'.exists_follows hcode, hm'.mono fun a b hab ↦ ?_⟩
  rcases hab with hab | ⟨hb, ha⟩
  · exact .inl hab
  · obtain rfl : a = b := ha
    by_cases hcallee : z = p.callee
    · subst hcallee
      cases p.program_callee.symm.trans hcode
      have hcalm := p.calm.main hpath.leads
      exact .inr ⟨p.exits_subset hpath.arrives (hends.resolve_right hcalm) hb, rfl⟩
    · obtain ⟨x, hx, rfl⟩ := Routine.exists_formal hb
      exact .inl ⟨rfl, p.shared_of_formal hz hcallee hx⟩

/-! ### Inside the copy -/

/-- Where a path can be in the body, the copy can be followed. -/
theorem ready_copied (h : p.Arrives (s :: rest) D) :
    s.Ready S S (Pairs p.base p.image D) p.Meeting p.image (Follows S p.outcome depth)
      (Completes S program) := by
  have hs : s ∈ p.body.flatten := h.suffix.subset (.head _)
  have hsettled := p.settled_body s hs
  have hconsulted (x : Slot) (hx : x ∈ s.consulted) : Pairs p.base p.image D (p.image x) x := by
    rcases p.definite.reads h x hx with hglobal | hD
    · left
      rw [p.image_of_global hglobal]
      exact p.base_of_global hglobal
    · exact .inr ⟨hD, rfl⟩
  refine ⟨fun x hx ↦ hconsulted _ (mem_map_of_mem (mem_append_left _ hx)),
    fun x hx ↦ ⟨fun hc ↦ hconsulted _ (mem_map_of_mem
      (mem_append_right _ (mem_filter.2 ⟨hx, hc⟩))),
      p.joint_of_stores hs hx (hsettled.var_of_stores hx)⟩, ?_⟩
  rintro span r es result rfl
  obtain ⟨hnext, hr⟩ := p.stage.calls p.known_callee p.program_callee hs ⟨_, _, _, rfl⟩
  obtain ⟨hhost, -, hcallee, -⟩ := p.not_next_of_next hnext
  have hformal {y : Variable} (hy : y ∈ r.formals) : p.base y.root y.root :=
    ⟨rfl, p.shared_of_formal hr hcallee hy⟩
  refine ⟨p.steadies_image (ih r hr) hr hnext fun s hs ↦ p.own_of_arrives h hs, fun s hs ↦ ?_,
    fun y hy ↦ ?_, fun y hy ↦ .inl (hformal hy)⟩
  · obtain ⟨y, hy, rfl⟩ := mem_map.1 hs
    exact .inl (.inl (hformal (mem_append_left _ (mem_filter.1 hy).1)))
  · refine ⟨fun _ ↦ .inl (hformal (mem_append_left _ hy)), ?_⟩
    obtain ⟨c, rfl, hc⟩ := p.orderly.mem_parameters hr hy
    exact p.joint_of_called ⟨hcallee, hhost⟩ hc

/-- Running the code of the host with the copy in it. -/
abbrev HostGoes (depth n : Nat) (rest : List Stmt) (t t' : Trail κ) : Prop :=
  Goes (Acts S (Follows S p.outcome depth) p.host) p.hostCode n rest t t'

/-- Running the body that is called. -/
abbrev BodyGoes (n : Nat) (rest : List Stmt) (u u' : Trail κ) : Prop :=
  Goes (Acts S (Completes S program) p.callee) p.body.flatten n rest u u'

end Traces

/-- A value is stored in a variable, if there is one. -/
def Receives (S : Scene κ) (x : Option Variable) (v : Value) (t t' : Trail κ) : Prop :=
  match x with
  | some x => t.store S x v = .ok t'
  | none => t' = t

theorem Receives.spares {x : Option Variable} {c : κ} (h : Receives S x v t t')
    (hc : ∀ y ∈ x, S.key y.root ≠ c) : t'.memory.get? c = t.memory.get? c := by
  cases x with
  | none => rw [show t' = t from h]
  | some y => exact Trail.get?_store_of_ne h (hc y rfl)

/-- Where the copy has been left and the routine has returned: one has stored the result where the
call keeps it, and the other in the slot for it. -/
def Left (D : List Slot) (t u : Trail κ) : Prop :=
  ∃ t₀ u₀ v, p.Beside D t₀ u₀ ∧ Receives S p.result v t₀ t ∧
    Receives S p.callee.returnSlot v u₀ u

/-- How a run that is inside the copy goes on: it leaves the copy where the routine ends, or it ends
where the code of an event ends. -/
inductive Crosses (depth n : Nat) (rest : List Stmt) (D : List Slot) (t' u : Trail κ) : Prop
  | leaves {rest' : List Stmt} {D' : List Slot} {m n₁ : Nat} {t₁ u₁ : Trail κ}
      (hpath : Path p.body.flatten p.callee.given rest D rest' D')
      (hleaves : Leaves rest') (hle : m ≤ n) (htail : p.HostGoes depth m p.tail t₁ t')
      (hbody : p.BodyGoes n₁ rest u u₁) (hleft : p.Left D' t₁ u₁)
  | rollsBack {rest' : List Stmt} {D' : List Slot} {n₁ : Nat} {u' : Trail κ}
      (hpath : Path p.body.flatten p.callee.given rest D rest' D')
      (hback : RollsBack rest') (hbody : p.BodyGoes n₁ rest u u')
      (hm : p.Beside D' t' u')

variable {p} in
/-- A step in front. -/
theorem Crosses.of_step {n' : Nat} {mid : List Stmt} {E : List Slot} {u₁ : Trail κ}
    (h : p.Crosses depth n mid (D ++ E) t' u₁) (hle : n ≤ n')
    (hleads : Leads p.body.flatten rest mid)
    (hbody : ∀ {n₁ u'}, p.BodyGoes n₁ mid u₁ u' → ∃ n₂, p.BodyGoes n₂ rest u u') :
    p.Crosses depth n' rest D t' u := by
  cases h with
  | leaves hpath hleaves hle' htail hgoes hleft =>
    obtain ⟨n₂, hgoes'⟩ := hbody hgoes
    exact .leaves (hpath.of_step hleads) hleaves (Nat.le_trans hle' hle) htail hgoes' hleft
  | rollsBack hpath hback hgoes hm =>
    obtain ⟨n₂, hgoes'⟩ := hbody hgoes
    exact .rollsBack (hpath.of_step hleads) hback hgoes' hm

/-- Where the routine ends without a result, there is none to store. -/
theorem left_of_silent (harrives : p.Arrives rest D) (hleaves : Leaves rest)
    (hrest : ∀ span value rest', rest ≠ .retValue span value :: rest')
    (hm : p.Beside D t u) : p.Left D t u := by
  have hslot : p.callee.returnSlot = none := by
    rcases hreturn : p.callee.returnSlot with - | y
    · rfl
    · obtain ⟨span, value, rest', heq⟩ := p.definite.returns
        (by rw [hreturn]; rfl) harrives hleaves
      exact absurd heq (hrest span value rest')
  have hresult : p.result = none := by
    rcases hresult : p.result with - | x
    · rfl
    · have hkept := p.fits.kept x hresult
      rw [hslot] at hkept
      cases hkept
  refine ⟨t, u, .null, hm, ?_, ?_⟩
  · rw [hresult]
    rfl
  · rw [hslot]
    rfl

/-- The slot for a result takes every value. -/
theorem exists_receives (v : Value) (u : Trail κ) : ∃ u', Receives S p.callee.returnSlot v u u' := by
  rcases hslot : p.callee.returnSlot with - | y
  · exact ⟨u, rfl⟩
  · obtain ⟨c, rfl, -⟩ := p.orderly.mem_returnSlot p.known_callee hslot
    exact ⟨_, Trail.store_eq_ok.2 ⟨_, rfl, rfl⟩⟩

theorem acts_retValue {value : Expr} {u' : Trail κ}
    (h : Receives S p.callee.returnSlot (value.answer S u.memory) u u') :
    (Stmt.retValue span value).Acts S (Completes S program) p.callee u .stop u' := by
  refine ⟨rfl, ?_⟩
  rcases hslot : p.callee.returnSlot with - | y <;> rw [hslot] at h <;> exact h

/-- A jump behind the copy. -/
theorem goes_exit (h : p.HostGoes depth n (.goto span p.exit :: rest) t t') :
    ∃ m, m ≤ n ∧ p.HostGoes depth m p.tail t t' := by
  cases h with
  | next hs | stop hs | fork hs => cases hs.1
  | @jump m _ _ there _ t₁ _ l hs hthere hgoes =>
    obtain ⟨hl, rfl⟩ := hs
    cases hl
    cases p.from?_exit.symm.trans hthere
    exact ⟨m, le_succ m, hgoes⟩

/-- A return in the copy stores the result and jumps behind the copy. -/
theorem crosses_of_leaves (h : p.HostGoes depth n ((s.substitute p.copy).flatten ++ rest) t t')
    {rest₀ : List Stmt} (harrives : p.Arrives (s :: rest₀) D)
    (hleaves : Leaves [s]) (hm : p.Beside D t u)
    (hloads : ∀ x ∈ s.loads, Pairs p.base p.image D (p.image x.root) x.root) :
    p.Crosses depth n (s :: rest₀) D t' u := by
  cases s
  case ret span =>
    have h' : p.HostGoes depth n (.goto span p.exit :: rest) t t' := h
    obtain ⟨m, hmn, hgoes⟩ := p.goes_exit h'
    exact .leaves (.refl harrives) trivial hmn hgoes (.stop ⟨rfl, rfl⟩)
      (p.left_of_silent harrives trivial (by simp) hm)
  case retValue span value =>
    obtain ⟨u₁, hu₁⟩ := p.exists_receives (value.answer S u.memory) u
    have hbody : p.BodyGoes 1 (.retValue span value :: rest₀) u u₁ := .stop (p.acts_retValue hu₁)
    rw [substitute, p.flatten_retValue] at h
    rcases hresult : p.result with - | x <;> rw [hresult] at h
    · have h' : p.HostGoes depth n (.goto span p.exit :: rest) t t' := h
      obtain ⟨m, hmn, hgoes⟩ := p.goes_exit h'
      refine .leaves (.refl harrives) trivial hmn hgoes hbody ⟨t, u, _, hm, ?_, hu₁⟩
      rw [hresult]
      rfl
    · have h' : p.HostGoes depth n (.assign span x (value.substitute p.copy) ::
          .goto span p.exit :: rest) t t' := h
      obtain ⟨m, t₁, hmn, ⟨v, hv, hstore⟩, hgoes⟩ := h'.assigns
      obtain ⟨m', hmm', hgoes'⟩ := p.goes_exit hgoes
      have hanswer : value.answer S u.memory = v := by
        rw [Expr.answer, (hm.eval p.moves hloads).1 hv]
        rfl
      refine .leaves (.refl harrives) trivial (Nat.le_trans hmm' hmn) hgoes' hbody
        ⟨t, u, _, hm, ?_, hu₁⟩
      rw [hresult, hanswer]
      exact hstore
  all_goals exact hleaves.elim

/-- A run that is inside the copy is followed by a run of the body. -/
theorem crosses_of_goes (ih : ∀ z, L.known z → p.Steadies depth p.base z)
    (h : p.HostGoes depth n (substituted p.copy rest ++ p.tail) t t')
    (harrives : p.Arrives rest D) (hm : p.Beside D t u) : p.Crosses depth n rest D t' u := by
  induction n using Nat.strong_induction_on generalizing rest D t t' u with
  | _ n ihn =>
  cases rest with
  | nil =>
    exact .leaves (.refl harrives) trivial (Nat.le_refl n) h (.done u)
      (p.left_of_silent harrives trivial (by simp) hm)
  | cons s rest =>
    have hs : s ∈ p.body.flatten := harrives.suffix.subset (.head _)
    have hsettled := p.settled_body s hs
    have hready := p.ready_copied ih harrives
    rw [substituted_cons, append_assoc] at h
    by_cases hleaves : Leaves [s]
    · exact p.crosses_of_leaves h harrives hleaves hm hready.loads
    · rw [hsettled.flatten_substitute p.copy hleaves] at h
      -- a step in the copy is a step in the body, which leads to where the copy leads
      have hTop : Pairs p.base p.image (D ++ s.assigned) ≤ p.Meeting := fun a b hab ↦ by
        rcases pairs_append.le a b hab with hab | ⟨hb, ha⟩
        · exact p.meeting_of_arrives harrives a b hab
        · exact .inr ⟨(hsettled.var_of_assigned hb).1, ha⟩
      have hact {c : Turn} {t₁ : Trail κ}
          (hstep : (s.substitute p.copy).Acts S (Follows S p.outcome depth) p.host t c t₁) :
          ∃ c' u₁, s.Acts S (Completes S program) p.callee u c' u₁ ∧ c = c'.rename p.copy.label ∧
            p.Beside (D ++ s.assigned) t₁ u₁ :=
        hstep.linked hsettled hleaves hm p.moves p.plain.routine (.refl S) hready hTop
      cases h with
      | next hstep hgoes =>
        obtain ⟨c, u₁, hs', hc, hm₁⟩ := hact hstep
        cases c <;> cases hc
        exact (ihn _ (lt_succ_self _) hgoes (harrives.next hs'.endsFlow) hm₁).of_step
          (le_succ _) (.next .refl hs'.endsFlow) fun hbody ↦ ⟨_, .next hs' hbody⟩
      | stop hstep =>
        obtain ⟨c, u₁, hs', hc, hm₁⟩ := hact hstep
        cases c <;> cases hc
        have hassigned : s.assigned = [] ∧ p.callee.answered (s :: rest) = [] :=
          hs'.rollback_of_not_leaves hleaves
        rw [hassigned.1, append_nil] at hm₁
        refine .rollsBack (.refl harrives) (hs'.ends.resolve_left ?_) (.stop hs') hm₁
        cases s <;> exact hleaves
      | @jump m _ _ there _ t₁ _ l hstep hthere hgoes =>
        obtain ⟨c, u₁, hs', hc, hm₁⟩ := hact hstep
        cases c <;> cases hc
        obtain ⟨there₀, hthere₀, rfl⟩ :=
          p.from?_copied (hsettled.label_of_target? hs'.target?) hthere
        exact (ihn _ (lt_succ_self _) hgoes (harrives.jump hs'.target? hthere₀) hm₁).of_step
          (le_succ _) (hs'.leads_jump hthere₀) fun hbody ↦ ⟨_, .jump hs' hthere₀ hbody⟩
      | @fork m m' _ _ there _ t₁ t₂ _ l hstep hthere hevent hgoes =>
        obtain ⟨c, u₁, hs', hc, hm₁⟩ := hact hstep
        cases c <;> cases hc
        obtain ⟨span, event, arguments, rfl⟩ := hs'.eq_gotoOn
        obtain ⟨there₀, hthere₀, rfl⟩ := p.from?_copied (hsettled.label_of_target? rfl) hthere
        have hsub := ihn m' (by omega) hevent (harrives.jump rfl hthere₀) hm₁
        cases hsub with
        | leaves hpath hleaves' =>
          exact absurd hleaves' (p.calm.event hs hthere₀ hpath.leads)
        | rollsBack hpath _ hbody₁ hm₂ =>
          have hm₂' := hm₂.mono (pairs_mono hpath.grows)
          exact (ihn m (by omega) hgoes (harrives.next rfl) hm₂').of_step
            (by omega) (.next .refl rfl) fun hbody ↦ ⟨_, .fork hs' hthere₀ hbody₁ hbody⟩

/-! ### Arguments -/

/-- An argument has the same value on both sides. -/
theorem eval_argument (hentry : entry ∈ p.entries) (hm : p.Beside D t u) :
    entry.1.2.eval S.key t.memory = .ok v ↔ entry.1.2.eval S.key u.memory = .ok v := by
  have hreads (x : Variable) (hx : x ∈ entry.1.2.reads) :
      Pairs p.base p.image D (id x.root) x.root :=
    .inl ⟨rfl, p.shared_of_var p.host_ne ((p.argument_of_entry hentry).of_reads hx)⟩
  have heval := hm.eval (v := v) Substitution.moves_empty hreads
  rwa [Expr.substitute_empty] at heval

/-- A parameter that stands for a variable of the host has its value. -/
theorem linked_borrowed {c : Slot} (hentry : entry ∈ p.entries) (hc : entry.1.1 = .slot c)
    (halias : Expand.alias? entry.1.1 entry.1.2 p.body.writes = some x)
    (hm : p.Beside D t u) : ∃ u₁, u.Assigns S entry.1.1 entry.1.2 u₁ ∧
      p.Beside (D ++ [c]) t u₁ := by
  obtain ⟨himage, hslot, -, -⟩ := p.image_of_borrows ⟨entry, hentry, hc, halias⟩
  obtain ⟨-, -, hread, -⟩ := Expand.alias?_eq_some halias
  have hown : L.own p.callee c := by
    obtain ⟨c', hc', hown⟩ := p.parameter_of_entry hentry
    rwa [Variable.slot.inj (hc.symm.trans hc')]
  have hvalue : entry.1.2.eval S.key t.memory = .ok (t.memory.load S.key (.slot x.root)) := by
    rw [(p.argument_of_entry hentry).eval_of_read? hread, ← hslot]
  have hload {a b : Slot} (hab : Pairs p.base p.image (D ++ [c]) a b) (hkey : S.key c = S.key b) :
      b = c ∧ t.memory.load S.key (.slot a) = t.memory.load S.key (.slot x.root) := by
    have hcb : c = b := p.orderly.eq_of_key hkey (.inl (p.orderly.role hown))
    subst hcb
    rcases hab with hab | ⟨-, rfl⟩
    · exact absurd rfl (p.ne_of_base hown hab)
    · exact ⟨rfl, by rw [himage]⟩
  obtain ⟨u₁, hu₁⟩ : ∃ u₁, u.store S (.slot c) (t.memory.load S.key (.slot x.root)) = .ok u₁ :=
    ⟨_, Trail.store_eq_ok.2 ⟨_, rfl, rfl⟩⟩
  refine ⟨u₁, ⟨_, (p.eval_argument hentry hm).1 hvalue, hc ▸ hu₁⟩, ?_⟩
  refine hm.store_copy (fun a b hab ↦ ?_) (fun a b ↦ hload)
    (p.orderly.watched_eq_false (p.orderly.role hown)) hu₁
  rcases pairs_append.le a b hab with hab' | ⟨hb, -⟩
  · exact .inl hab'
  · obtain rfl := mem_singleton.1 hb
    exact .inr (hload hab rfl)

/-- An argument is stored before the copy, or the copy finds it where it is. -/
theorem goes_opening (hentry : entry ∈ p.entries)
    (h : p.HostGoes depth n (opening (k + 1) p.span p.body.writes entry ++ rest) t t')
    (hm : p.Beside D t u) (hD : ∀ s ∈ D, p.Uses s) :
    ∃ m t₁ u₁, m ≤ n ∧ p.HostGoes depth m rest t₁ t' ∧
      (if entry.1.1.modifiers.out then u₁ = u else u.Assigns S entry.1.1 entry.1.2 u₁) ∧
      Linked S S (Pairs p.base p.image
        (D ++ if entry.1.1.modifiers.out then [] else entry.1.1.whole)) t₁ u₁ := by
  obtain ⟨c, hc, hown⟩ := p.parameter_of_entry hentry
  by_cases hout : entry.1.1.modifiers.out = true
  · rw [opening, if_pos (by simp [hout])] at h
    refine ⟨n, t, u, Nat.le_refl n, h, ?_, ?_⟩
    · rw [if_pos hout]
    · rwa [if_pos hout, append_nil]
  · rw [if_neg hout]
    simp only [if_neg hout]
    have hwhole : entry.1.1.whole = [c] := by rw [hc]; rfl
    rw [hwhole]
    rcases halias : Expand.alias? entry.1.1 entry.1.2 p.body.writes with - | x
    · rw [opening, if_neg (by simp [hout, halias])] at h
      obtain ⟨m, t₁, hmn, ⟨v, hv, hstore⟩, hgoes⟩ := h.assigns
      obtain ⟨himage, hborrows⟩ := p.image_of_stand hentry hc halias
      have hTop : Pairs p.base p.image (D ++ [c]) ≤ p.Meeting := fun a b hab ↦ by
        rcases pairs_append.le a b hab with hab | ⟨hb, rfl⟩
        · exact hab.imp_right (And.imp_left (hD b))
        · obtain rfl := mem_singleton.1 hb
          exact p.meeting_image (.inr hown)
      have hnew (a b : Slot) (hab : Pairs p.base p.image (D ++ [c]) a b) :
          Pairs p.base p.image D a b ∨ (b ∈ (Variable.slot c).whole ∧
            a = (stand (k + 1) entry.2 entry.1.1).root) := by
        rcases pairs_append.le a b hab with hab | ⟨hb, rfl⟩
        · exact .inl hab
        · obtain rfl := mem_singleton.1 hb
          exact .inr ⟨hb, himage⟩
      have hjoint := (p.joint (.inr hown) hborrows).mono hTop
      rw [himage] at hjoint
      have hlike : (stand (k + 1) entry.2 entry.1.1).Like (.slot c) := trivial
      obtain ⟨u₁, hu₁, hm₁⟩ := hm.store hlike hjoint (fun hc ↦ by cases hc) hnew hstore
      exact ⟨m, t₁, u₁, hmn, hgoes, ⟨v, (p.eval_argument hentry hm).1 hv, hc ▸ hu₁⟩, hm₁⟩
    · rw [opening, if_pos (by simp [halias])] at h
      obtain ⟨u₁, hassigns, hm₁⟩ := p.linked_borrowed hentry hc halias hm
      exact ⟨n, t, u₁, Nat.le_refl n, h, hassigns, hm₁⟩

/-- The arguments are stored before the copy. -/
theorem goes_openings (hentries : entries ⊆ p.entries) (h : p.HostGoes depth n
      (entries.flatMap (opening (k + 1) p.span p.body.writes) ++ rest) t t')
    (hm : p.Beside D t u) (hD : ∀ s ∈ D, p.Uses s) :
    ∃ m t₁ u₁, m ≤ n ∧ p.HostGoes depth m rest t₁ t' ∧ u.Passes S (entries.map Prod.fst) u₁ ∧
      p.Beside (D ++ filled (entries.map Prod.fst)) t₁ u₁ := by
  induction entries generalizing n t u D with
  | nil =>
    refine ⟨n, t, u, Nat.le_refl n, h, rfl, ?_⟩
    simpa [filled] using hm
  | cons entry entries ih =>
    obtain ⟨hentry, hentries⟩ := cons_subset.1 hentries
    rw [flatMap_cons, append_assoc] at h
    obtain ⟨m, t₁, u₁, hmn, hgoes, hfirst, hm₁⟩ := p.goes_opening hentry h hm hD
    obtain ⟨c, hc, hown⟩ := p.parameter_of_entry hentry
    obtain ⟨m', t₂, u₂, hmm', hgoes', hrest, hm₂⟩ := ih hentries hgoes hm₁ fun s hs ↦ by
      rcases mem_append.1 hs with hs | hs
      · exact hD s hs
      · split at hs
        · cases hs
        · cases (hc.symm.trans (Variable.eq_of_mem_whole hs))
          exact .inr hown
    refine ⟨m', t₂, u₂, Nat.le_trans hmm' hmn, hgoes', ⟨u₁, hfirst, hrest⟩, ?_⟩
    rwa [append_assoc] at hm₂

/-! ### Parameters that are copied back -/

/-- The writes that copy parameters back, which have some values. -/
def copies (value : (Variable × Expr) × Nat → Value) (entries : List ((Variable × Expr) × Nat)) :
    List (Variable × Value) :=
  entries.flatMap fun entry ↦
    if entry.1.1.modifiers.byReference then entry.1.2.read?.toList.map (·, value entry) else []

theorem exists_of_mem_copies (h : (x, v) ∈ copies value entries) :
    ∃ entry ∈ entries, entry.1.1.modifiers.byReference = true ∧ entry.1.2.read? = some x := by
  obtain ⟨entry, hentry, h⟩ := mem_flatMap.1 h
  split at h
  · rename_i href
    obtain ⟨y, hy, heq⟩ := mem_map.1 h
    obtain rfl : y = x := congrArg Prod.fst heq
    exact ⟨entry, hentry, href, Option.mem_toList.1 hy⟩
  · cases h

omit [DecidableEq κ] in
/-- What parameters are copied back to is a variable of the host. -/
theorem var_of_mem_copies (h : (x, v) ∈ copies value p.entries) :
    (L.vocabulary k p.host).var x ∧ x ∈ targets (p.callee.parameters.zip p.arguments) := by
  obtain ⟨entry, hentry, href, hx⟩ := exists_of_mem_copies h
  refine ⟨(p.argument_of_entry hentry).of_read? hx, ?_⟩
  refine mem_flatMap.2 ⟨entry.1, p.entry_mem hentry, ?_⟩
  simp only [href, if_true]
  exact Option.mem_toList.2 hx

/-- Behind the copy the places of arguments are copied back. -/
theorem goes_closings (hentries : entries ⊆ p.entries)
    (h : p.HostGoes depth n (entries.flatMap (Expand.closing (k + 1) p.span) ++ rest) t t')
    (hvalue : ∀ entry ∈ entries, entry.1.1.modifiers.byReference = true →
      t.memory.load S.key (stand (k + 1) entry.2 entry.1.1) = value entry) :
    ∃ m t₁, m ≤ n ∧ p.HostGoes depth m rest t₁ t' ∧ t.Stores S (copies value entries) t₁ := by
  induction entries generalizing n t with
  | nil => exact ⟨n, t, Nat.le_refl n, h, rfl⟩
  | cons entry entries ih =>
    obtain ⟨hentry, hentries⟩ := cons_subset.1 hentries
    rw [flatMap_cons] at h
    rw [copies, flatMap_cons]
    by_cases href : entry.1.1.modifiers.byReference = true
    · obtain ⟨x, hx⟩ := p.binds.target entry hentry href
      rw [Expand.closing, if_pos href, hx] at h
      rw [if_pos href, hx]
      obtain ⟨m, t₁, hmn, ⟨v, hv, hstore⟩, hgoes⟩ := h.assigns
      have hv' : v = value entry := by
        rw [← hvalue entry mem_cons_self href]
        exact (Except.ok.inj ((Expr.eval_read rfl).symm.trans hv)).symm
      have hvar := (p.argument_of_entry hentry).of_read? hx
      obtain ⟨m', t₂, hmm', hgoes', hstores⟩ := ih hentries hgoes fun e he href ↦ by
        rw [← hvalue e (mem_cons_of_mem _ he) href]
        exact load_congr (Trail.get?_store_of_ne hstore (p.key_stand_ne hvar e.2 e.1.1))
      exact ⟨m', t₂, Nat.le_trans hmm' hmn, hgoes', t₁, hv' ▸ hstore, hstores⟩
    · rw [Expand.closing, if_neg href] at h
      rw [if_neg href]
      exact ih hentries h fun e he ↦ hvalue e (.tail _ he)

/-- The same writes copy the parameters back where the routine is called. -/
theorem passesBack_of_stores (hentries : entries ⊆ p.entries) {u' : Trail κ}
    (h : u.Stores S (copies value entries) u')
    (hvalue : ∀ entry ∈ entries, entry.1.1.modifiers.byReference = true →
      u.memory.load S.key entry.1.1 = value entry) : u.PassesBack S (entries.map Prod.fst) u' := by
  induction entries generalizing u with
  | nil => exact h
  | cons entry entries ih =>
    obtain ⟨hentry, hentries⟩ := cons_subset.1 hentries
    rw [copies, flatMap_cons] at h
    by_cases href : entry.1.1.modifiers.byReference = true
    · obtain ⟨x, hx⟩ := p.binds.target entry hentry href
      rw [if_pos href, hx] at h
      obtain ⟨u₁, hstore, hstores⟩ := h
      have hshared := p.shared_of_var p.host_ne ((p.argument_of_entry hentry).of_read? hx)
      refine ⟨u₁, ?_, ih hentries hstores fun e he href ↦ ?_⟩
      · rw [if_pos href]
        exact ⟨x, hx, hvalue entry (.head _) href ▸ hstore⟩
      · rw [← hvalue e (mem_cons_of_mem _ he) href]
        obtain ⟨c, hc, hown⟩ := p.parameter_of_entry (hentries he)
        rw [hc]
        exact load_congr (Trail.get?_store_of_ne hstore (Ne.symm (p.ne_of_base hown ⟨rfl, hshared⟩)))
    · rw [if_neg href] at h
      refine ⟨u, by rw [if_neg href], ih hentries h fun e he ↦ hvalue e (.tail _ he)⟩

/-- What has been passed by reference is in its place behind the copy. -/
theorem load_stand {t₀ u₀ : Trail κ} (hm : p.Beside D t₀ u₀)
    (ht : Receives S p.result v t₀ t) (hD : ∀ y ∈ p.callee.parameters, y.root ∈ D)
    (hentry : entry ∈ p.entries) (href : entry.1.1.modifiers.byReference = true) :
    t.memory.load S.key (stand (k + 1) entry.2 entry.1.1) =
      u₀.memory.load S.key entry.1.1 := by
  obtain ⟨c, hc, -⟩ := p.parameter_of_entry hentry
  have himage := (p.image_of_stand hentry hc (Expand.alias?_eq_none href)).1
  have hmem : c ∈ D := by
    have hroot := hD entry.1.1 (of_mem_zip (p.entry_mem hentry)).1
    rwa [hc] at hroot
  have hspares : t.memory.get? (S.key (stand (k + 1) entry.2 entry.1.1).root) =
      t₀.memory.get? (S.key (stand (k + 1) entry.2 entry.1.1).root) :=
    ht.spares fun x hx ↦ p.key_stand_ne (p.settled_call.2.2 x hx) _ _
  calc t.memory.load S.key (stand (k + 1) entry.2 entry.1.1)
      = t₀.memory.load S.key (.slot (stand (k + 1) entry.2 entry.1.1).root) :=
        load_congr hspares
    _ = u₀.memory.load S.key (.slot c) := hm.load (.inr ⟨hmem, himage.symm⟩)
    _ = u₀.memory.load S.key entry.1.1 := by rw [hc]

theorem linked_returned {u₀ : Trail κ} (hm : Linked S S p.base t u₀)
    (hu : Receives S p.callee.returnSlot v u₀ u) : Linked S S p.base t u := by
  rcases hslot : p.callee.returnSlot with - | y
  · rw [hslot] at hu
    rwa [show u = u₀ from hu]
  · rw [hslot] at hu
    obtain ⟨c, rfl, hown⟩ := p.orderly.mem_returnSlot p.known_callee hslot
    have hne (a b : Slot) (hab : p.base a b) : S.key (Variable.slot c).root ≠ S.key b :=
      p.ne_of_base hown hab
    exact hm.store_right hne (p.orderly.watched_eq_false (p.orderly.role hown)) hu

/-- A result that the call keeps is the one that the slot holds. -/
theorem keeps_of_receives {y : Variable} {u₁ u₂ u₃ : Trail κ} (hresult : p.result = some x)
    (hslot : p.callee.returnSlot = some y) (hu : Receives S p.callee.returnSlot v u u₁)
    (hspares : ∀ s, y = .slot s → u₂.memory.get? (S.key s) = u₁.memory.get? (S.key s))
    (h : u₂.store S x v = .ok u₃) : u₂.Keeps S p.result p.callee.returnSlot u₃ := by
  obtain ⟨c, rfl, -⟩ := p.orderly.mem_returnSlot p.known_callee hslot
  rw [hslot] at hu
  obtain ⟨_, hstore, rfl⟩ := Trail.store_eq_ok.1 hu
  cases hstore
  have hload : u₂.memory.load S.key (.slot c) = v :=
    (load_congr (hspares c rfl)).trans load_insert_self
  rw [hresult, hslot]
  show u₂.store S x (u₂.memory.load S.key (.slot c)) = .ok u₃
  rw [hload, h]

/-- A run that has left the copy copies the parameters back. Where the routine is called, the result
may be kept after that, which makes no difference then. -/
theorem goes_tail (hleft : p.Left D t u) (hD : ∀ y ∈ p.callee.parameters, y.root ∈ D)
    (h : p.HostGoes depth n p.tail t t') : ∃ m t₁ u₁, m < n ∧ p.HostGoes depth m p.back t₁ t' ∧
      u.Concludes S p.callee p.arguments p.result u₁ ∧ Linked S S p.base t₁ u₁ := by
  obtain ⟨t₀, u₀, v, hm, ht, hu⟩ := hleft
  have hm₀ : Linked S S p.base t₀ u := p.linked_returned (hm.mono fun _ _ ↦ .inl) hu
  have hparameter (entry : (Variable × Expr) × Nat) (hentry : entry ∈ p.entries) :
      u.memory.load S.key entry.1.1 = u₀.memory.load S.key entry.1.1 := by
    have hspares := hu.spares fun y hy ↦ p.returnSlot_ne hy hentry
    exact load_congr hspares
  have hshared (x : Variable) (w : Value)
      (hx : (x, w) ∈ copies (fun entry ↦ u₀.memory.load S.key entry.1.1) p.entries) :
      p.base x.root x.root :=
    ⟨rfl, p.shared_of_var p.host_ne (p.var_of_mem_copies hx).1⟩
  -- behind the label the copies follow
  obtain ⟨m, hmn, hgoes⟩ : ∃ m, m < n ∧ p.HostGoes depth m (p.bindings.after ++ p.back) t t' := by
    cases h with
    | next hs hgoes =>
      rw [hs.2] at hgoes
      exact ⟨_, lt_succ_self _, hgoes⟩
    | stop hs | jump hs | fork hs => cases hs.1
  rw [p.binds.after] at hgoes
  obtain ⟨m', t₁, hmm', hgoes', hstores⟩ := p.goes_closings (.refl _) hgoes
    fun entry hentry href ↦ p.load_stand hm ht hD hentry href
  have hpasses {u₁ u₂ : Trail κ}
      (hstores : u₁.Stores S (copies (fun entry ↦ u₀.memory.load S.key entry.1.1) p.entries) u₂)
      (hsame : ∀ entry ∈ p.entries, u₁.memory.load S.key entry.1.1 = u.memory.load S.key entry.1.1) :
      u₁.PassesBack S (p.callee.parameters.zip p.arguments) u₂ := by
    rw [← p.map_fst_entries]
    exact p.passesBack_of_stores (.refl _) hstores fun entry hentry _ ↦
      (hsame entry hentry).trans (hparameter entry hentry)
  rcases hresult : p.result with - | x <;> rw [hresult] at ht
  · obtain rfl : t = t₀ := ht
    obtain ⟨u₁, hstores', hm₁⟩ := hm₀.stores (fun _ _ hab ↦ hab.1) hshared hstores
    have hback := hpasses hstores' fun _ _ ↦ rfl
    refine ⟨m', t₁, u₁, by omega, hgoes', ?_, hm₁⟩
    by_cases hearly : S.early p.callee = true
    · exact ⟨u, by rw [if_pos hearly]; exact ⟨rfl, hback⟩⟩
    · exact ⟨u₁, by rw [if_neg hearly]; exact ⟨hback, rfl⟩⟩
  · rw [← hresult]
    have hx : p.base x.root x.root := ⟨rfl, p.shared_of_var p.host_ne (p.settled_call.2.2 x hresult)⟩
    obtain ⟨y, hslot⟩ := Option.isSome_iff_exists.1 (p.fits.kept x hresult)
    have hall : t₀.Stores S
        ((x, v) :: copies (fun entry ↦ u₀.memory.load S.key entry.1.1) p.entries) t₁ :=
      ⟨t, ht, hstores⟩
    obtain ⟨u₁, hstores', hm₁⟩ := hm₀.stores (fun _ _ hab ↦ hab.1) (fun y w hyw ↦ by
        rcases mem_cons.1 hyw with heq | hyw
        · obtain rfl : y = x := congrArg Prod.fst heq
          exact hx
        · exact hshared y w hyw) hall
    by_cases hearly : S.early p.callee = true
    · obtain ⟨u₂, hkeep, hback⟩ := hstores'
      have hspares (entry : (Variable × Expr) × Nat) (hentry : entry ∈ p.entries) :
          u₂.memory.load S.key entry.1.1 = u.memory.load S.key entry.1.1 := by
        obtain ⟨c, hc, hown⟩ := p.parameter_of_entry hentry
        rw [hc]
        exact load_congr (Trail.get?_store_of_ne hkeep (Ne.symm (p.ne_of_base hown hx)))
      refine ⟨m', t₁, u₁, by omega, hgoes', ⟨u₂, ?_⟩, hm₁⟩
      rw [if_pos hearly]
      exact ⟨p.keeps_of_receives hresult hslot hu (fun _ _ ↦ rfl) hkeep, hpasses hback hspares⟩
    · -- the result is stored first in the copy, and last where the routine is called
      obtain ⟨u₂, u₃, hback, hkeep, hsame⟩ := hstores'.postpone
        (fun y w hyw ↦ p.fits.apart hearly x hresult y (p.var_of_mem_copies hyw).2)
        (fun y w hyw ↦ p.fits.unseen hearly x hresult y (p.var_of_mem_copies hyw).2)
      refine ⟨m', t₁, u₃, by omega, hgoes', ⟨u₂, ?_⟩, hm₁.trans_eq hsame⟩
      rw [if_neg hearly]
      refine ⟨hpasses hback fun _ _ ↦ rfl,
        p.keeps_of_receives hresult hslot hu (fun s hs ↦ ?_) hkeep⟩
      obtain ⟨c, hc, hown⟩ := p.orderly.mem_returnSlot p.known_callee hslot
      cases hs.symm.trans hc
      exact hback.spares fun x w hxw ↦ Ne.symm (p.ne_of_base hown (hshared x w hxw))

/-! ### The host -/

/-- Running the code of the host with the call in it. -/
abbrev CallGoes (n : Nat) (rest : List Stmt) (u u' : Trail κ) : Prop :=
  Goes (Acts S (Completes S program) p.host) (p.front ++ p.call :: p.back) n rest u u'

section Host

variable (ih : ∀ z, L.known z → p.Steadies depth p.base z)

include ih

/-- The copy with what belongs to it does what the call does. -/
theorem goes_spliced (h : p.HostGoes depth n p.spliced t t') (hm : Linked S S p.base t u) :
    ∃ m t₁ u₁, m < n ∧ p.HostGoes depth m p.back t₁ t' ∧
      p.call.Acts S (Completes S program) p.host u .next u₁ ∧ Linked S S p.base t₁ u₁ := by
  rw [spliced, p.binds.before] at h
  obtain ⟨m₁, t₁, u₁, hm₁n, hgoes₁, hpasses, hm₁⟩ := p.goes_openings (D := [])
    (.refl _) h (hm.mono pairs_nil.le) (by simp)
  rw [p.map_fst_entries] at hpasses hm₁
  have hgiven : p.callee.given ⊆ filled (p.callee.parameters.zip p.arguments) := by
    refine Routine.given_subset_filled p.fits.length fun y hy ↦ ?_
    obtain ⟨c, heq, -⟩ := p.orderly.mem_parameters p.known_callee hy
    exact ⟨c, heq⟩
  cases p.crosses_of_goes ih hgoes₁ .start (hm₁.mono (pairs_mono hgiven)) with
  | rollsBack hpath hback _ _ =>
    exact absurd hback (p.calm.main hpath.leads)
  | leaves hpath hleaves hle htail hbody hleft =>
    obtain ⟨m₂, t₂, u₂, hm₂, hgoes₂, hend, hm₃⟩ := p.goes_tail hleft
      (fun y hy ↦ p.assigned_of_leaves hpath.arrives hleaves hy) htail
    exact ⟨m₂, t₂, u₂, by omega, hgoes₂,
      ⟨rfl, _, _, hpasses, hbody.exists_follows p.program_callee, hend⟩, hm₃⟩

/-- Outside of the copy a statement can be run in both programs. -/
theorem ready_outside (hs : s ∈ p.front ++ p.call :: p.back) :
    s.Ready S S (Pairs p.base id []) (· = ·) id (Follows S p.outcome depth)
      (Completes S program) := by
  have hsettled := p.stage.settled p.known p.code s hs
  have hshared {x : Variable} (hx : (L.vocabulary k p.host).var x) :
      Pairs p.base id [] x.root x.root := .inl ⟨rfl, p.shared_of_var p.host_ne hx⟩
  refine ⟨fun x hx ↦ hshared (hsettled.var_of_loads hx),
    fun x hx ↦ ⟨fun _ ↦ hshared (hsettled.var_of_stores hx), .refl (fun _ _ h ↦ h) _⟩, ?_⟩
  rintro span r es result rfl
  have hr : L.known r := (p.stage.calls p.known p.code hs ⟨_, _, _, rfl⟩).2
  exact ⟨Steady.frame (ih r hr) (by simp), p.given_of_call (fun s hs ↦ .inl ⟨rfl, hs⟩) hr
    fun hmem ↦ p.stage.fits p.known p.code hs hmem,
    fun y hy ↦ p.orderly.writable hr (mem_append_left _ hy), fun _ _ ↦ rfl⟩

/-- A statement outside of the copy does the same in both programs. -/
theorem acts_outside (hs : s ∈ p.front ++ p.call :: p.back) {c : Turn}
    (h : s.Acts S (Follows S p.outcome depth) p.host t c t') (hm : Linked S S p.base t u) :
    ∃ u', s.Acts S (Completes S program) p.host u c u' ∧ Linked S S p.base t' u' := by
  have hready := p.ready_outside ih hs
  have hm' : Linked S S (Pairs p.base id []) t u := hm.mono pairs_nil.le
  have hTop {E : List Slot} : Pairs p.base id E ≤ Eq := fun a b hab ↦ by
    rcases hab with ⟨rfl, -⟩ | ⟨-, rfl⟩ <;> rfl
  by_cases hleaves : Leaves [s]
  · obtain rfl : c = .stop := Classical.byContradiction fun hc ↦ h.not_leaves hc hleaves
    obtain ⟨u', hs', hm₁⟩ := h.linked_leaves hleaves hm' hready.loads (fun y hy ↦
      p.orderly.writable p.known (mem_append_right _ (Option.mem_toList.2 hy))) hTop
    exact ⟨u', hs', hm₁.mono fun _ _ ↦ .inl⟩
  · obtain ⟨u', hs', hm₁⟩ := h.linked_same (p.stage.settled p.known p.code s hs) hleaves hm'
      (.refl S) hready hTop
    exact ⟨u', hs', hm₁.mono fun _ _ ↦ .inl⟩

/-- What a run of the host with the copy does from a place outside of the copy, the host with the
call does. -/
theorem goes_outside (h : p.HostGoes depth n rest t t') {rest' : List Stmt} (hrest : p.Outside rest rest')
    (hm : Linked S S p.base t u) : ∃ n' u', p.CallGoes n' rest' u u' ∧ Linked S S p.base t' u' := by
  induction n using Nat.strong_induction_on generalizing rest rest' t t' u with
  | _ n ihn =>
  -- a statement of the host that both programs have
  have hstep {s : Stmt} {rest rest' : List Stmt} (hs : s ∈ p.front ++ p.call :: p.back)
      (hrest : p.Outside rest rest') (h : p.HostGoes depth n (s :: rest) t t') :
      ∃ n' u', p.CallGoes n' (s :: rest') u u' ∧ Linked S S p.base t' u' := by
    have hsettled := p.stage.settled p.known p.code s hs
    cases h with
    | next hstep hgoes =>
      obtain ⟨u₁, hs', hm₁⟩ := p.acts_outside ih hs hstep hm
      obtain ⟨n', u', hgoes', hm'⟩ := ihn _ (lt_succ_self _) hgoes hrest hm₁
      exact ⟨_, u', .next hs' hgoes', hm'⟩
    | stop hstep =>
      obtain ⟨u₁, hs', hm₁⟩ := p.acts_outside ih hs hstep hm
      exact ⟨1, u₁, .stop hs', hm₁⟩
    | jump hstep hthere hgoes =>
      obtain ⟨u₁, hs', hm₁⟩ := p.acts_outside ih hs hstep hm
      obtain ⟨there', hthere', hout⟩ := p.from?_outside (hsettled.label_of_target? hstep.target?) hthere
      obtain ⟨n', u', hgoes', hm'⟩ := ihn _ (lt_succ_self _) hgoes hout hm₁
      exact ⟨_, u', .jump hs' hthere' hgoes', hm'⟩
    | @fork m m' _ _ _ _ _ _ _ _ hstep hthere hevent hgoes =>
      obtain ⟨u₁, hs', hm₁⟩ := p.acts_outside ih hs hstep hm
      obtain ⟨span, event, arguments, rfl⟩ := hstep.eq_gotoOn
      obtain ⟨there', hthere', hout⟩ := p.from?_outside (hsettled.label_of_target? rfl) hthere
      obtain ⟨n₁, u₂, hgoes₁, hm₂⟩ := ihn m' (by omega) hevent hout hm₁
      obtain ⟨n₂, u', hgoes₂, hm'⟩ := ihn m (by omega) hgoes hrest hm₂
      exact ⟨_, u', .fork hs' hthere' hgoes₁ hgoes₂, hm'⟩
  rcases hrest with ⟨rfl, hback⟩ | ⟨here, hfront, rfl, rfl⟩
  · cases rest with
    | nil =>
      cases h
      exact ⟨0, u, .done u, hm⟩
    | cons s rest =>
      have hs : s ∈ p.back := hback.subset (.head _)
      exact hstep (mem_append_right _ (.tail _ hs))
        (.inl ⟨rfl, (suffix_cons _ _).trans hback⟩) h
  · cases here with
    | nil =>
      obtain ⟨m, t₁, u₁, hmn, hgoes, hcall, hm₁⟩ := p.goes_spliced ih h hm
      obtain ⟨n', u', hgoes', hm'⟩ := ihn m hmn hgoes (.inl ⟨rfl, suffix_refl _⟩) hm₁
      exact ⟨_, u', .next hcall hgoes', hm'⟩
    | cons s here =>
      have hs : s ∈ p.front := hfront.subset (.head _)
      exact hstep (mem_append_left _ hs)
        (.inr ⟨here, (suffix_cons _ _).trans hfront, rfl, rfl⟩) h

theorem steadies_host : p.Steadies (depth + 1) p.base p.host := by
  rintro t t' u hm ⟨code, n, hcode, hgoes⟩
  cases p.outcome_host.symm.trans hcode
  obtain ⟨n', u', hgoes', hm'⟩ := p.goes_outside ih hgoes
    (.inr ⟨p.front, suffix_refl _, rfl, rfl⟩) (hm.mono fun _ _ ↦ .inl)
  refine ⟨u', hgoes'.exists_follows p.code, hm'.mono fun a b hab ↦ ?_⟩
  rcases hab with hab | ⟨hb, ha⟩
  · exact hab
  · obtain rfl : a = b := ha
    obtain ⟨x, hx, rfl⟩ := Routine.exists_formal hb
    exact ⟨rfl, p.shared_of_formal p.known p.host_ne hx⟩

end Host

/-- Every run in the program with the copy is followed in the program with the call. -/
theorem steadies (depth : Nat) (hz : L.known z) : p.Steadies depth p.base z := by
  induction depth generalizing z with
  | zero => exact fun _ _ _ _ h ↦ h.elim
  | succ depth ih =>
    by_cases hne : z = p.host
    · subst hne
      exact p.steadies_host fun z hz ↦ ih hz
    · exact p.steadies_of_ne (fun z hz ↦ ih hz) hz hne

end Splice

end Wirescript
