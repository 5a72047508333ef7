import Wirescript.Program.Prepared
import Wirescript.Proofs.Inlining

/-!
# Expanded programs do what the program does

Expansion makes one splice after another: the copies that an expanded call leaves have calls of their
own, which are expanded in turn, and then come the calls behind it. Each splice is one site further,
and what the program with the copy does the program with the call does. So a whole expansion, of one
body and of all of them, is simulated by the program before it.
-/

namespace Wirescript

open Stmt
open List

variable {entries entries' : List (Routine × Stmt)} {notices' : List Notice} {k k' : Nat}
  {host : Nat → Routine} {r : Routine} {body : Stmt} {σ : Substitution}

section Simulation

variable {κ : Type} [DecidableEq κ] {S : Scene κ} {i : Inliner} {L : Layout}
  {A B C : Listing}

variable (i L) in
/-- The cell is global, or it belongs to the routine and calls of the routine are not replaced. -/
def Visible (r : Routine) (s : Slot) : Prop := s.role = .global ∨ (r ∉ i.inlined ∧ L.own r s)

variable (S i L) in
/-- What a known routine does in the first program it does in the second one, as far as the record,
globals and cells of the routine tell. -/
def Simulates (B A : Listing) : Prop :=
  ∀ r, L.known r → ∀ t t', Completes S B r t t' →
    ∃ u', Completes S A r t u' ∧ Linked S S (fun a b ↦ a = b ∧ Visible i L r b) t' u'

theorem Simulates.refl (A : Listing) : Simulates S i L A A :=
  fun _ _ _ t' h ↦ ⟨t', h, .refl (fun _ _ hab ↦ hab.1) t'⟩

theorem Simulates.trans (hCB : Simulates S i L C B) (hBA : Simulates S i L B A) :
    Simulates S i L C A := by
  intro r hr t t' h
  obtain ⟨u, hu, hm⟩ := hCB r hr t t' h
  obtain ⟨v, hv, hm'⟩ := hBA r hr t u hu
  refine ⟨v, hv, fun {a b} hab ↦ ?_, hm.log.trans hm'.log, hm.events.trans hm'.events⟩
  obtain ⟨rfl, hvisible⟩ := hab
  exact (hm.load ⟨rfl, hvisible⟩).trans (hm'.load ⟨rfl, hvisible⟩)

theorem Splice.simulates (p : Splice S i L A k) : Simulates S i L p.outcome A := by
  rintro r hr t t' ⟨depth, h⟩
  have hstart : Linked S S (Pairs p.base id r.given) t t := .refl (fun a b hab ↦ by
    rcases hab with ⟨rfl, -⟩ | ⟨-, rfl⟩ <;> rfl) t
  obtain ⟨u', hu', hm⟩ := p.steadies depth hr t t' t hstart h
  refine ⟨u', hu', hm.mono fun a b hab ↦ ?_⟩
  obtain ⟨rfl, hglobal | ⟨hr, hown⟩⟩ := hab
  · exact .inl (p.base_of_global hglobal)
  · have hne : r ≠ p.callee := fun heq ↦ hr (heq ▸ p.callee_mem)
    exact .inl ⟨rfl, p.shared_of_own hne hown⟩

/-- The expansion of a piece of the code of a host. -/
theorem Expands.stage {rest X : List Stmt} (h : Expands i σ k rest X k') (hσ : ∀ r, σ.routine r = r)
    (horderly : Orderly S i L) {host : Routine} (hknown : L.known host) (hhost : host ∉ i.inlined)
    (hsites : ∀ site, k < site → site ≤ k' → L.host site = host) (hstage : Stage S i L A k)
    {P Q : List Stmt} (hcode : A host = some (P ++ (substituted σ rest ++ Q))) :
    ∃ B, Stage S i L B k' ∧ B host = some (P ++ (X ++ Q)) ∧ (∀ r, r ≠ host → B r = A r) ∧
      Simulates S i L B A := by
  induction h generalizing A P Q with
  | nil σ k => exact ⟨A, hstage, hcode, fun _ _ ↦ rfl, .refl A⟩
  | @keep σ k k' s rest X hs hrest ih =>
    obtain ⟨B, hstage', hcode', hother, hsim⟩ := ih hσ hsites hstage
      (P := P ++ (s.substitute σ).flatten) (Q := Q) (by simpa using hcode)
    exact ⟨B, hstage', by simpa using hcode', hother, hsim⟩
  | @call σ k k₁ k' span r arguments result rest X₁ X body b hr hbody hlength hb hcopy hrest ihcopy
      ihrest =>
    have hle := hcopy.le
    have hle' := hrest.le
    have hcall : A host = some (P ++ .call span (.routine r) (Expr.substituteAll σ arguments)
        (result.map σ.var) :: (substituted σ rest ++ Q)) := by
      rw [hcode, substituted_cons, substitute, Substitution.callee, hσ]
      rfl
    -- the call itself, then the calls in the copy, then those behind it
    let p : Splice S i L A k :=
      { host, callee := r, front := P, back := substituted σ rest ++ Q, span,
        arguments := Expr.substituteAll σ arguments, result := result.map σ.var, body, bindings := b,
        orderly := horderly, stage := hstage, known := hknown, host_notMem := hhost, callee_mem := hr,
        code := hcall, body_eq := hbody, bindings_eq := hb,
        site := hsites (k + 1) (by omega) (by omega) }
    have hspliced : p.outcome host = some ((P ++ b.before) ++ (substituted (Expand.copy (k + 1)
        b.images (result.map σ.var) (r.exit (k + 1))) body.flatten ++
          .label span (r.exit (k + 1)) :: (b.after ++ (substituted σ rest ++ Q)))) := by
      rw [append_assoc]
      exact p.outcome_host
    obtain ⟨B₁, hstage₁, hcode₁, hother₁, hsim₁⟩ := ihcopy (fun _ ↦ rfl)
      (fun site h h' ↦ hsites site (by omega) (by omega)) p.stage_outcome hspliced
    obtain ⟨B₂, hstage₂, hcode₂, hother₂, hsim₂⟩ := ihrest hσ
      (fun site h h' ↦ hsites site (by omega) h') hstage₁
      (P := P ++ (b.before ++ (X₁ ++ .label span (r.exit (k + 1)) :: b.after))) (Q := Q)
      (by simpa using hcode₁)
    refine ⟨B₂, hstage₂, by simpa using hcode₂, fun q hq ↦ ?_, hsim₂.trans (hsim₁.trans p.simulates)⟩
    rw [hother₂ q hq, hother₁ q hq, p.outcome_of_ne hq]

/-! ### All bodies -/

/-- Bodies become other bodies when the calls in them are expanded one after another. The sites that
are made for a routine are those that it is the host of. -/
inductive ExpandsEach (i : Inliner) (host : Nat → Routine) :
    Nat → List (Routine × Stmt) → List (Routine × Stmt) → Nat → Prop
  | nil (k : Nat) : ExpandsEach i host k [] [] k
  | cons {k k₁ k' : Nat} {r : Routine} {body : Stmt} {e : Expanded}
      {entries entries' : List (Routine × Stmt)}
      (hbody : Expands i {} k body.flatten e.statements k₁)
      (hhost : ∀ site, k < site → site ≤ k₁ → host site = r)
      (hrest : ExpandsEach i host k₁ entries entries' k') :
      ExpandsEach i host k ((r, body) :: entries) ((r, e.body) :: entries') k'

theorem ExpandsEach.map_fst (h : ExpandsEach i host k entries entries' k') :
    entries'.map Prod.fst = entries.map Prod.fst := by
  induction h with
  | nil => rfl
  | cons _ _ _ ih => rw [map_cons, map_cons, ih]

theorem ExpandsEach.congr {host' : Nat → Routine} (h : ExpandsEach i host k entries entries' k')
    (hhost : ∀ site, k < site → host' site = host site) :
    ExpandsEach i host' k entries entries' k' := by
  induction h with
  | nil k => exact .nil k
  | cons hbody hsites _ ih =>
    have hle := hbody.le
    exact .cons hbody (fun site h h' ↦ (hhost site h).trans (hsites site h h'))
      (ih fun site h ↦ hhost site (by omega))

theorem Stmt.substituted_empty {V : Vocabulary} {code : List Stmt} (h : AllSettled V code) :
    substituted {} code = code := by
  induction code with
  | nil => rfl
  | cons s rest ih =>
    obtain ⟨hs, hrest⟩ := allSettled_cons.1 h
    rw [substituted_cons, substitute_empty, hs.flatten, ih hrest]
    rfl

/-- The expansion of all bodies. -/
theorem ExpandsEach.stage (h : ExpandsEach i L.host k entries entries' k')
    (horderly : Orderly S i L) (hstage : Stage S i L A k)
    (hentries : ∀ r body, (r, body) ∈ entries →
      L.known r ∧ r ∉ i.inlined ∧ A r = some body.flatten) (hnodup : (entries.map Prod.fst).Nodup) :
    ∃ B, Stage S i L B k' ∧ (∀ r body, (r, body) ∈ entries' → B r = some body.flatten) ∧
      (∀ r, r ∉ entries.map Prod.fst → B r = A r) ∧ Simulates S i L B A := by
  induction h generalizing A with
  | nil k => exact ⟨A, hstage, by simp, fun _ _ ↦ rfl, .refl A⟩
  | @cons k k₁ k' r body e entries entries' hbody hhost hrest ih =>
    obtain ⟨hknown, hr, hcode⟩ := hentries r body (.head _)
    obtain ⟨hnew, hnodup⟩ := nodup_cons.1 hnodup
    have hcode' : A r = some ([] ++ (substituted {} body.flatten ++ [])) := by
      rw [substituted_empty (hstage.settled hknown hcode), hcode]
      simp
    obtain ⟨B₁, hstage₁, hcode₁, hother₁, hsim₁⟩ := hbody.stage (fun _ ↦ rfl) horderly hknown hr
      hhost hstage hcode'
    have hkeep (q : Routine) (hq : q ∈ entries.map Prod.fst) : B₁ q = A q :=
      hother₁ q fun heq ↦ hnew (heq ▸ hq)
    obtain ⟨B₂, hstage₂, hcodes₂, hother₂, hsim₂⟩ := ih hstage₁ (fun q body hq ↦ by
      obtain ⟨hknown, hq', hcode⟩ := hentries q body (.tail _ hq)
      exact ⟨hknown, hq', (hkeep q (mem_map_of_mem hq)).trans hcode⟩) hnodup
    have hr₂ : B₂ r = some e.statements := by
      rw [hother₂ r hnew, hcode₁]
      simp
    refine ⟨B₂, hstage₂, fun q body' hq ↦ ?_, fun q hq ↦ ?_, hsim₂.trans hsim₁⟩
    · rcases mem_cons.1 hq with heq | hq
      · cases heq
        rw [hr₂, Expanded.body, Stmt.flatten, (hstage₂.settled hknown hr₂).flattenAll]
      · exact hcodes₂ q body' hq
    · rw [map_cons, mem_cons, not_or] at hq
      obtain ⟨hne, hq⟩ := hq
      rw [hother₂ q hq, hother₁ q hne]

end Simulation

/-! ### Calls that remain -/

section Remaining

variable {i : Inliner} {V : Routine → Vocabulary}
  (hbodies : ∀ r body, i.bodies.get? r = some body → AllSettled (V r) body.flatten)

include hbodies

/-- No call of a routine that is expanded remains. -/
theorem Expands.not_expandable {rest X : List Stmt} (h : Expands i σ k rest X k') (hσ : σ.Plain)
    (hrest : AllSettled (V r) rest) {s : Stmt} (hs : s ∈ X) :
    s.flatten = [s] ∧ ¬ s.Expandable i := by
  have hassign (span : Span) (x : Variable) (e : Expr) :
      (Stmt.assign span x e).flatten = [.assign span x e] ∧
        ¬ (Stmt.assign span x e).Expandable i := by
    refine ⟨rfl, ?_⟩
    rintro ⟨_, _, _, _, heq, -⟩
    cases heq
  induction h generalizing r with
  | nil => cases hs
  | keep hkept _ ih =>
    obtain ⟨hfirst, hrest⟩ := allSettled_cons.1 hrest
    rcases mem_append.1 hs with hs | hs
    · exact ⟨flatten_of_mem_flatten hs, not_expandable_substitute hσ hfirst hkept hs⟩
    · exact ih hσ hrest hs
  | @call σ k k₁ k' span q arguments result rest X₁ X body b hq hbody _ hb _ _ ihcopy ihrest =>
    obtain ⟨hbefore, hafter⟩ := Expand.forall_bindArguments
      (P := fun s ↦ s.flatten = [s] ∧ ¬ s.Expandable i) (fun x a _ ↦ hassign span x a)
      (fun _ _ ↦ hassign span _ _) hb
    simp only [mem_append, mem_cons] at hs
    rcases hs with hs | hs | rfl | hs | hs
    · exact hbefore s hs
    · exact ihcopy (Expand.plain_copy _ _ _ _) (hbodies q body hbody) hs
    · refine ⟨rfl, ?_⟩
      rintro ⟨_, _, _, _, heq, -⟩
      cases heq
    · exact hafter s hs
    · exact ihrest hσ (allSettled_cons.1 hrest).2 hs

theorem ExpandsEach.not_invokes (h : ExpandsEach i host k entries entries' k')
    (hentries : ∀ r body, (r, body) ∈ entries → AllSettled (V r) body.flatten) {q : Routine}
    {s : Stmt} (hmem : (r, body) ∈ entries') (hs : s ∈ body.flatten) (hq : s.Invokes q) :
    q ∉ i.inlined := by
  induction h with
  | nil => cases hmem
  | @cons k k₁ k' r' body' e entries entries' hexpands _ _ ih =>
    rcases mem_cons.1 hmem with heq | hmem
    · obtain ⟨-, rfl⟩ := Prod.mk.inj heq
      have hkept {s : Stmt} (hs : s ∈ e.statements) :=
        hexpands.not_expandable hbodies .empty (hentries r' body' (.head _)) hs
      have hflat : Flat e.statements := fun s hs ↦ (hkept hs).1
      rw [Expanded.body, Stmt.flatten, hflat.flattenAll] at hs
      obtain ⟨span, arguments, result, rfl⟩ := hq
      exact fun hq ↦ (hkept hs).2 ⟨span, q, arguments, result, rfl, hq⟩
    · exact ih (fun r body h ↦ hentries r body (.tail _ h)) hmem

end Remaining

section Yielding

variable {i : Inliner} {V : Routine → Vocabulary}

theorem Inliner.yields_expand {e : Expanded} (h : Yields (i.expand r body) k e k') :
    Yields (Expand.stmts i (i.inlined.length + 1) r body.flatten) k e.statements k' := by
  obtain ⟨statements, k₁, hstmts, h⟩ := yields_bind.1 (yields_get_bind.1 h)
  have h' := yields_get_bind.1 h
  cases h'
  exact hstmts

/-- What the expansion of one body leaves, that of all bodies leaves. -/
theorem Program.forall_expandEach {P : Routine × Stmt → Prop} {Q : Stmt → Prop}
    (hexpand : ∀ entry, P entry → ∀ k e k', Yields (i.expand entry.1 entry.2) k e k' → Q e.body)
    {sites : Nat} {notices : List Notice} (hentries : ∀ entry ∈ entries, P entry)
    (h : Yields (expandEach i sites entries) notices entries' notices') :
    ∀ entry ∈ entries', Q entry.2 := by
  induction entries generalizing sites entries' notices with
  | nil =>
    cases h
    simp
  | cons entry rest ih =>
    obtain ⟨hentry, hrest⟩ := forall_mem_cons.1 hentries
    rw [expandEach] at h
    obtain ⟨e, _, he, h⟩ := yields_bind.1 h
    obtain ⟨_, _, -, h⟩ := yields_bind.1 h
    obtain ⟨rest', _, hrest', h⟩ := yields_bind.1 h
    cases h
    have hrun : Yields (i.expand entry.1 entry.2) sites e
        ((i.expand entry.1 entry.2).run sites).2 := Prod.ext (yields_lift.1 he).1 rfl
    exact forall_mem_cons.2 ⟨hexpand entry hentry _ _ _ hrun, ih hrest hrest'⟩

/-- What the expansion of all bodies computes. -/
theorem exists_expandsEach
    (hbodies : ∀ r body, i.bodies.get? r = some body → AllSettled (V r) body.flatten)
    {notices : List Notice}
    (hentries : ∀ r body, (r, body) ∈ entries → AllSettled (V r) body.flatten)
    (h : Yields (Program.expandEach i k entries) notices entries' notices') :
    ∃ host k', ExpandsEach i host k entries entries' k' := by
  induction entries generalizing k notices entries' with
  | nil =>
    cases h
    exact ⟨fun _ ↦ default, k, .nil k⟩
  | cons entry entries ih =>
    obtain ⟨r, body⟩ := entry
    rw [Program.expandEach] at h
    rcases hrun : (i.expand r body).run k with ⟨outcome, k₁⟩
    simp only [hrun] at h
    obtain ⟨e, _, hlift, hafter⟩ := yields_bind.1 h
    obtain ⟨rfl, rfl⟩ := yields_lift.1 hlift
    obtain ⟨_, _, -, hlast⟩ := yields_bind.1 hafter
    obtain ⟨entries₁, _, hrest, hpure⟩ := yields_bind.1 hlast
    cases hpure
    have hbody := hentries r body (.head _)
    have hstmts := Inliner.yields_expand hrun
    rw [← substituted_empty hbody] at hstmts
    have hexpands : Expands i {} k body.flatten e.statements k₁ :=
      expands_of_yields hbodies .empty hbody hstmts
    obtain ⟨host, k', heach⟩ := ih (fun r body h ↦ hentries r body (.tail _ h)) hrest
    -- the sites of this body come before those of the others
    refine ⟨fun site ↦ if site ≤ k₁ then r else host site, k', .cons hexpands ?_ (heach.congr ?_)⟩
    · exact fun site _ h ↦ if_pos h
    · exact fun site h ↦ if_neg (by omega)

end Yielding

end Wirescript
