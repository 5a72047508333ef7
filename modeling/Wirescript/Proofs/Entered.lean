import Mathlib.Data.Fintype.Order
import Wirescript.Program.Compiled
import Wirescript.Proofs.CallClosure
import Wirescript.Proofs.LiveCode

/-!
# Nothing runs on its own

A block that nothing is wired to starts by itself. In live code every block is wired to: going back
from it, control came from a handle that execution leaves, or from the start of the routine, and it
cannot have come round a circle, since control that goes round never gets to a block.
-/

namespace Wirescript

open Relation
open Handle (parts label?)
open List
open Option hiding or_assoc
open Table

variable {c : Compilation} {s : Emitter} {L : Label → Prop} {entries : List (Routine × Stmt)}
  {done : List Routine} {code : List Stmt} {options : Options} {p : Program} {M : Callee → Prop}

namespace Connector

variable {parts rest there : List Handle} {t : Terminal} {l : Label}

/-- Where execution leaves a handle: onward, or to a label. -/
theorem mem_leaving {e : Terminal × List Handle} : e ∈ leaving parts ↔
    (∃ before h, parts = before ++ h :: e.2 ∧ e.1 ∈ h.onward) ∨
      ∃ h ∈ parts, ∃ l, e.1 ∈ h.jumpsTo l ∧ e.2 = [.goto l] := by
  obtain ⟨t, rest⟩ := e
  have hcons {h : Handle} {parts : List Handle} :
      (∃ before h', h :: parts = before ++ h' :: rest ∧ t ∈ h'.onward) ↔
        (parts = rest ∧ t ∈ h.onward) ∨ ∃ before h', parts = before ++ h' :: rest ∧ t ∈ h'.onward := by
    constructor
    · rintro ⟨before, h', heq, ht⟩
      cases before with
      | nil =>
        cases heq
        exact .inl ⟨rfl, ht⟩
      | cons first before => exact .inr ⟨before, h', (List.cons.inj heq).2, ht⟩
    · rintro (⟨rfl, ht⟩ | ⟨before, h', rfl, ht⟩)
      · exact ⟨[], h, rfl, ht⟩
      · exact ⟨h :: before, h', rfl, ht⟩
  induction parts with
  | nil => simp [leaving]
  | cons h parts ih =>
    rw [hcons]
    cases h <;> simp [leaving, ih, Handle.onward, Handle.jumpsTo] <;> grind

theorem steps_inj (hnodup : (parts.filterMap label?).Nodup) :
    Relator.RightUnique (Steps parts) := by
  intro a b c hb hc
  cases hb with
  | pass | label =>
    cases hc
    rfl
  | goto h rest =>
    cases hc with
    | goto h' _ =>
      subst h
      rw [rest_inj hnodup h']

/-- Control comes to a position from the start, or from where execution leaves a handle. -/
def Fed (parts rest : List Handle) : Prop :=
  ReflTransGen (Steps parts) parts rest ∨
    ∃ e ∈ leaving parts, ReflTransGen (Steps parts) e.2 rest

/-- A property of positions that can be followed back along the steps of control, unless the position
is the start or execution leaves a handle there: a handle with an entry where it holds is fed. The
induction goes back along the steps. They are finitely many, and none is taken twice. -/
theorem fed_of_backward {G : List Handle → Prop} (hnodup : (parts.filterMap label?).Nodup)
    (hG : ∀ rest, G rest → rest <:+ parts ∧ (Fed parts rest ∨ ∃ prev, G prev ∧ Steps parts prev rest))
    {h : Handle} (hentry : h.entry? = some t) (hstart : G (h :: there)) :
    Fed parts (h :: there) := by
  have hstuck (c : List Handle) : ¬ Steps parts (h :: there) c := by
    intro hstep
    cases hstep <;> cases hentry
  let S := { x // x <:+ parts ∧ ReflTransGen (Steps parts) x (h :: there) }
  have hfinite : Finite S := by
    have htails := finite_toSet parts.tails
    exact (htails.subset fun x hx ↦ (mem_tails _ _).2 hx.1).to_subtype
  let back (x y : S) : Prop := TransGen (Steps parts) x.1 y.1
  have hwf : WellFounded back :=
    @Finite.wellFounded_of_trans_of_irrefl S hfinite back
      ⟨fun _ _ _ hxy hyz ↦ hxy.trans hyz⟩ ⟨fun x ↦ not_transGen_of_stuck (steps_inj hnodup) x.2.2 hstuck⟩
  have hall (x : S) : G x.1 → Fed parts (h :: there) := by
    induction x using hwf.induction with
    | _ x ih =>
      intro hx
      rcases (hG x.1 hx).2 with hfed | ⟨prev, hprev, hstep⟩
      · exact hfed.imp (·.trans x.2.2) fun ⟨e, he, hsteps⟩ ↦ ⟨e, he, hsteps.trans x.2.2⟩
      · exact ih ⟨prev, (hG prev hprev).1, .head hstep x.2.2⟩ (.single hstep) hprev
  exact hall ⟨_, (hG _ hstart).1, .refl⟩ hstart

end Connector

/-! ### Handles of live code -/

theorem exists_of_forall₂_append {α β : Type} {R : α → β → Prop} {xs ys : List α} {x : α}
    {zs : List β} (h : Forall₂ R (xs ++ x :: ys) zs) : ∃ xs' z ys', zs = xs' ++ z :: ys' ∧
      Forall₂ R xs xs' ∧ R x z ∧ Forall₂ R ys ys' := by
  induction xs generalizing zs with
  | nil =>
    obtain ⟨z, ys', hz, hys, rfl⟩ := forall₂_cons_left_iff.1 h
    exact ⟨[], z, ys', rfl, .nil, hz, hys⟩
  | cons first xs ih =>
    obtain ⟨first', zs', hfirst, hzs, rfl⟩ := forall₂_cons_left_iff.1 h
    obtain ⟨xs', z, ys', rfl, hxs, hz, hys⟩ := ih hzs
    exact ⟨first' :: xs', z, ys', rfl, .cons hfirst hxs, hz, hys⟩

namespace Stmt

variable {s : Stmt} {h part : Handle} {l : Label} {t : Terminal}

/-- Control goes on from the handle of a statement that it goes on from. -/
theorem Becomes.onward (hs : s.Becomes h) (hends : s.endsFlow = false) :
    h.parts = [h] ∧ (h = .pass ∨ (∃ l, h = .label l) ∨ h.onward ≠ []) := by
  have hsimple (hs : h.Simple) :
      h.parts = [h] ∧ (h = .pass ∨ (∃ l, h = .label l) ∨ h.onward ≠ []) := by
    refine ⟨hs.parts, ?_⟩
    cases h with
    | pass => exact .inl rfl
    | basic entry exits => exact .inr (.inr hs)
    | multi | goto | label | branch | rollback | ret => exact hs.elim
  cases s with
  | goto | rollback | ret | retValue => cases hends
  | label span l =>
    cases hs
    exact ⟨rfl, .inr (.inl ⟨l, rfl⟩)⟩
  | hint =>
    cases hs
    exact ⟨rfl, .inl rfl⟩
  | gotoIf | gotoOn =>
    obtain ⟨entry, onward, -, rfl, honward, -⟩ := hs
    exact ⟨rfl, .inr (.inr honward)⟩
  | block | declare | define | assign | compound | ifThen | ifElse | whileLoop | doWhile | on | call
  | expression | nop => exact hsimple hs

/-- Control goes to a label from the handle of a jump. -/
theorem Becomes.jump (hs : s.Becomes h) (hl : s.jump? = some l) :
    h.parts = [h] ∧ (h = .goto l ∨ h.jumpsTo l ≠ []) := by
  cases s with
  | goto =>
    cases hl
    cases hs
    exact ⟨rfl, .inl rfl⟩
  | gotoIf | gotoOn =>
    cases hl
    obtain ⟨-, -, jumps, rfl, -, hjumps⟩ := hs
    refine ⟨rfl, .inr ?_⟩
    rwa [Handle.jumpsTo, if_pos rfl]
  | _ => cases hl

/-- Execution enters a handle only for a statement that runs, and at its start. -/
theorem Becomes.entry (hs : s.Becomes h) (hpart : part ∈ h.parts) (ht : part.entry? = some t) :
    s.isHint = false ∧ s.label? = none ∧ ∃ tail, h.parts = part :: tail := by
  have hsimple (hs : h.Simple) : ∃ tail, h.parts = part :: tail := by
    rw [hs.parts] at hpart ⊢
    exact ⟨[], by rw [mem_singleton.1 hpart]⟩
  cases s with
  | label | goto | rollback | ret | hint =>
    cases hs
    obtain rfl := mem_singleton.1 hpart
    cases ht
  | retValue =>
    obtain ⟨first, hfirst, rfl⟩ := hs
    refine ⟨rfl, rfl, [.ret], ?_⟩
    have hparts : (Handle.multi [first, .ret]).parts = [first, .ret] := by
      rw [parts, Handle.partsOf, hfirst.parts]
      rfl
    rw [hparts] at hpart ⊢
    rcases mem_cons.1 hpart with rfl | hpart
    · rfl
    · obtain rfl := mem_singleton.1 hpart
      cases ht
  | gotoIf | gotoOn =>
    obtain ⟨entry, onward, jumps, rfl, -⟩ := hs
    obtain rfl := mem_singleton.1 hpart
    exact ⟨rfl, rfl, [], rfl⟩
  | block | declare | define | assign | compound | ifThen | ifElse | whileLoop | doWhile | on | call
  | expression | nop => exact ⟨rfl, rfl, hsimple hs⟩

/-- Control gets to a position among the handles of code, since the code before it goes on there or
a label stands there that is jumped to. -/
def Comes (L : Label → Prop) (code : List Stmt) (handles rest : List Handle) : Prop :=
  ∃ pre suf before after, code = pre ++ suf ∧ handles = before ++ after ∧
    Forall₂ Becomes pre before ∧ Forall₂ Becomes suf after ∧
    rest = after.flatMap parts ∧
    (Live L true pre true ∨ ∃ s tail l, suf = s :: tail ∧ s.label? = some l ∧ L l)

variable {handles rest : List Handle} {b : Bool}

theorem Comes.suffix (h : Comes L code handles rest) : rest <:+ handles.flatMap parts := by
  obtain ⟨-, -, -, -, -, rfl, -, -, rfl, -⟩ := h
  rw [flatMap_append]
  exact suffix_append _ _

/-- Control comes to a statement of live code that is neither a mark nor a label. -/
theorem comes_of_step {pre suf : List Stmt} {before after : List Handle}
    (hlive : Live L true (pre ++ s :: suf) b) (hpre : Forall₂ Becomes pre before)
    (hs : s.Becomes h) (hsuf : Forall₂ Becomes suf after) (hhint : s.isHint = false)
    (hlabel : s.label? = none) : Comes L (pre ++ s :: suf) (before ++ h :: after)
      (h.parts ++ after.flatMap parts) := by
  refine ⟨pre, s :: suf, before, h :: after, rfl, rfl, hpre, .cons hs hsuf, rfl, .inl ?_⟩
  obtain ⟨b₁, hfirst, hrest⟩ := hlive.split
  obtain ⟨b₂, hone, -⟩ := hrest.uncons
  obtain ⟨rfl, -⟩ := hone.of_singleton hhint hlabel
  exact hfirst

theorem endsFlow_of_isHint (h : s.isHint = true) : s.endsFlow = false := by
  cases s <;> first | rfl | cases h

theorem endsFlow_of_label? (h : s.label? = some l) : s.endsFlow = false := by
  cases s <;> first | rfl | cases h

/-- Control that goes on after a statement has come to it, or the statement is a label that is jumped
to. -/
theorem Live.of_last (h : Live L b [s] true) :
    s.endsFlow = false ∧ (b = true ∨ ∃ l, s.label? = some l ∧ L l) := by
  cases h with
  | mark hs h => exact ⟨endsFlow_of_isHint hs, .inl h.eq_of_nil.symm⟩
  | label hs hl _ => exact ⟨endsFlow_of_label? hs, .inr ⟨_, hs, hl⟩⟩
  | step _ h => exact ⟨by simpa using h.eq_of_nil, .inl rfl⟩

/-- Control that gets to a position of live code has come there from another one, unless it has come
from outside. -/
theorem Comes.backward (hlive : Live (· ∈ jumps code) true code b)
    (hs : Forall₂ Becomes code handles) (h : Comes (· ∈ jumps code) code handles rest) :
    Connector.Fed (handles.flatMap parts) rest ∨
      ∃ prev, Comes (· ∈ jumps code) code handles prev ∧
        Connector.Steps (handles.flatMap parts) prev rest := by
  obtain ⟨pre, suf, before, after, hcode, rfl, hpre, hsuf, rfl, hflag⟩ := h
  rcases hflag with hflag | ⟨s, tail, l, rfl, hlabel, hl⟩
  · -- control goes on from the statement before, if there is one
    rcases eq_nil_or_concat' pre with rfl | ⟨pre, s, rfl⟩
    · cases hpre
      exact .inl (.inl .refl)
    obtain ⟨before, h, _, rfl, hbefore, hbecomes, hnil⟩ := exists_of_forall₂_append hpre
    cases hnil
    obtain ⟨b₁, hfirst, hlast⟩ := hflag.split
    obtain ⟨hends, hcomes⟩ := hlast.of_last
    have hprev : Comes (· ∈ jumps code) code (before ++ [h] ++ after)
        (h.parts ++ after.flatMap parts) := by
      refine ⟨pre, s :: suf, before, h :: after, by simp [hcode], by simp, hbefore,
        .cons hbecomes hsuf, rfl, ?_⟩
      rcases hcomes with rfl | ⟨l, hl⟩
      · exact .inl hfirst
      · exact .inr ⟨s, suf, l, rfl, hl⟩
    obtain ⟨hparts, rfl | ⟨l, rfl⟩ | honward⟩ := hbecomes.onward hends
    · exact .inr ⟨_, hprev, .pass _⟩
    · exact .inr ⟨_, hprev, .label l _⟩
    · obtain ⟨t, ht⟩ := exists_mem_of_ne_nil _ honward
      refine .inl (.inr ⟨(t, after.flatMap parts), Connector.mem_leaving.2 (.inl ?_), .refl⟩)
      exact ⟨before.flatMap parts, h, by simp [hparts], ht⟩
  · -- control goes to the label from a jump
    obtain ⟨h, after, hbecomes, -, rfl⟩ := forall₂_cons_left_iff.1 hsuf
    obtain rfl : h = .label l := by
      cases s <;> cases hlabel
      exact hbecomes
    have hplace : (before ++ .label l :: after).flatMap parts =
        before.flatMap parts ++ .label l :: after.flatMap parts := by
      simp [parts]
    obtain ⟨u, hu, hjump⟩ := mem_filterMap.1 hl
    obtain ⟨pre₂, suf₂, hcode₂⟩ := append_of_mem hu
    have hnone : u.isHint = false ∧ u.label? = none := by
      cases u <;> first | exact ⟨rfl, rfl⟩ | cases hjump
    rw [hcode₂] at hs
    obtain ⟨before₂, h₂, after₂, hhandles, hpre₂, hbecomes₂, hsuf₂⟩ := exists_of_forall₂_append hs
    have hcomes : Comes (· ∈ jumps code) code (before ++ .label l :: after)
        (h₂.parts ++ after₂.flatMap parts) := by
      have hstep := comes_of_step (hcode₂ ▸ hlive) hpre₂ hbecomes₂ hsuf₂ hnone.1 hnone.2
      rwa [← hcode₂, ← hhandles] at hstep
    obtain ⟨hparts, rfl | hne⟩ := hbecomes₂.jump hjump
    · exact .inr ⟨_, hcomes, .goto hplace _⟩
    · obtain ⟨t, ht⟩ := exists_mem_of_ne_nil _ hne
      refine .inl (.inr ⟨(t, [.goto l]), Connector.mem_leaving.2 (.inr ⟨h₂, ?_, l, ht, rfl⟩), ?_⟩)
      · rw [hhandles, flatMap_append, flatMap_cons, hparts]
        simp
      · exact .single (.goto hplace [])

end Stmt

/-- Execution gets to every block of live code, from the start or from where it leaves another. -/
theorem Connector.fed_of_allLive {handles : List Handle} {t : Terminal} (hlive : Stmt.AllLive code)
    (hs : Forall₂ Stmt.Becomes code handles)
    (hnodup : ((handles.flatMap parts).filterMap label?).Nodup)
    (ht : t ∈ handles.flatMap Handle.entries) :
    Arrives (handles.flatMap parts) (handles.flatMap parts) t ∨
      ∃ e ∈ leaving (handles.flatMap parts), Arrives (handles.flatMap parts) e.2 t := by
  obtain ⟨b, hlive⟩ := hlive
  obtain ⟨h, hh, ht⟩ := mem_flatMap.1 ht
  obtain ⟨part, hpart, hentry⟩ := mem_filterMap.1 ht
  obtain ⟨before, after, rfl⟩ := append_of_mem hh
  obtain ⟨pre, s, suf, rfl, hpre, hbecomes, hsuf⟩ := exists_of_forall₂_append hs.flip
  obtain ⟨hhint, hlabel, tail, hparts⟩ := Stmt.Becomes.entry hbecomes hpart hentry
  have hcomes := Stmt.comes_of_step hlive hpre.flip hbecomes hsuf.flip hhint hlabel
  rw [hparts] at hcomes
  have hfed := fed_of_backward hnodup (fun rest hrest ↦ ⟨hrest.suffix, hrest.backward hlive hs⟩)
    hentry hcomes
  rcases hfed with hsteps | ⟨e, he, hsteps⟩
  · exact .inl ⟨part, _, hsteps, hentry⟩
  · exact .inr ⟨e, he, part, _, hsteps, hentry⟩

/-! ### Routines -/

namespace Assemble

open Connector

variable {shapes : BlockShape → Prop}

/-- A routine of live code leaves nothing open but where it begins. -/
theorem Closes.leaves {s₀ : Emitter} {entry : Option Terminal} (h : Closes shapes s₀ code entry s)
    (hclean : s.diagnostics.hasErrors = false) (hclosed : Stmt.JumpClosed code)
    (hlive : Stmt.AllLive code) : Emitter.Leaves shapes s₀ entry.toList s := by
  obtain ⟨handles, hs, hentry, hwire, hleaves⟩ := h hclean
  have hnodup := (hclosed.closed (hs.imp fun _ _ ↦ .inl)).nodup
  refine ⟨hleaves.blocks, hleaves.wires, hleaves.entries, hleaves.errors, hleaves.callers,
    fun id b hid hb ↦ (hleaves.fed id b hid hb).imp_right ?_⟩
  rintro ⟨t, ht, hopen | hwired⟩
  · refine ⟨t, ht, ?_⟩
    rcases fed_of_allLive hlive hs hnodup hopen with hleads | ⟨e, he, harrives⟩
    · exact .inl (mem_toList.2 ((hentry t).2 hleads))
    · exact .inr ⟨_, hwire e he t harrives, rfl⟩
  · exact ⟨t, ht, .inr hwired⟩

/-- Some routines are done. Every block that runs is wired to, or is where one of them begins. -/
structure Done (shapes : BlockShape → Prop) (done : List Routine) (s : Emitter) : Prop where
  keys (r : Routine) : r ∈ s.entries.keys ↔ r ∈ done
  fed (id : Nat) (b : PlacedBlock) (hb : s.placement.blocks[id]? = some b) : shapes b.shape ∨
    ∃ t, (Block.mk id b.shape).before = .ok t ∧
      ((∃ r, s.entries.get? r = some (some t)) ∨ ∃ w ∈ s.netlist.wires, w.target = t)

/-- Another routine is done that leaves open where it begins. -/
theorem Done.finished {s₀ : Emitter} {r : Routine} {entry : Option Terminal}
    (h : Done shapes done s₀) (hleaves : Emitter.Leaves shapes s₀.restarted entry.toList s)
    (hr : r ∉ done) (blocks : Nat) : Done shapes (r :: done) (s.finished r entry blocks) where
  keys q := by
    rw [mem_cons, ← h.keys q]
    exact mem_keys_insert.trans (by rw [hleaves.entries]; rfl)
  fed id b hb := by
    rcases Nat.lt_or_ge id s₀.placement.blocks.length with hid | hid
    · -- a block of a routine that was done before
      have hb₀ : s₀.placement.blocks[id]? = some b := by
        obtain ⟨more, hmore⟩ := hleaves.blocks
        have hb' : s.placement.blocks[id]? = some b := hb
        rw [← hmore] at hb'
        exact (getElem?_append_left hid).symm.trans hb'
      refine (h.fed id b hb₀).imp_right ?_
      rintro ⟨t, ht, ⟨q, hq⟩ | ⟨w, hw, hwt⟩⟩
      · refine ⟨t, ht, .inl ⟨q, ?_⟩⟩
        have hne : r ≠ q := by
          rintro rfl
          exact hr ((h.keys r).1 (Table.contains_iff.1 (isSome_iff_exists.2 ⟨_, hq⟩)))
        exact (get?_insert_of_ne _ _ hne).trans (hleaves.entries ▸ hq)
      · exact ⟨t, ht, .inr ⟨w, hleaves.wires.subset hw, hwt⟩⟩
    · refine (hleaves.fed id b hid hb).imp_right ?_
      rintro ⟨t, ht, hopen | hwired⟩
      · refine ⟨t, ht, .inl ⟨r, ?_⟩⟩
        rw [← mem_toList.1 hopen]
        exact get?_insert_self _ _ _
      · exact ⟨t, ht, .inr hwired⟩

section

variable (hshapes : ∀ shape : BlockShape, shape.kind ≠ .active → shapes shape)

include hshapes

theorem done_routine (r : Routine) {body : Stmt} (hbody : Stmt.Prepared body.items)
    (hlive : Stmt.AllLive body.items)
    (hpassive : ∀ s ∈ body.items, ∀ shape ∈ s.visit shapeVisitor, shapes shape) (hr : r ∉ done) :
    Meets Fault.Local (fun s ↦ s.diagnostics.hasErrors = false → Done shapes done s)
      (routine r body) fun _ s ↦ s.diagnostics.hasErrors = false → Done shapes (r :: done) s := by
  intro st hst
  have hroutine : Meets Fault.Local (· = st) (routine r body)
      fun _ s ↦ s.diagnostics.hasErrors = false → Done shapes (r :: done) s := by
    refine (meets_routine hshapes r hbody hpassive st).after ?_
    rintro _ _ ⟨entry, s, hcloses, rfl⟩ hclean
    have hleaves := hcloses.leaves hclean hbody.toJumpClosed hlive
    exact (hst (hleaves.errors.symm.trans hclean)).finished hleaves hr _
  exact hroutine st rfl

theorem done_routines (hentries : ∀ e ∈ entries, Stmt.Prepared e.2.items ∧ Stmt.AllLive e.2.items ∧
      ∀ s ∈ e.2.items, ∀ shape ∈ s.visit shapeVisitor, shapes shape)
    (hnodup : (entries.map Prod.fst).Nodup) :
    Meets Fault.Local (fun s ↦ s.diagnostics.hasErrors = false → Done shapes [] s)
      (routines entries) fun _ s ↦ s.diagnostics.hasErrors = false →
        Done shapes (entries.map Prod.fst).reverse s := by
  refine walks_routines (J := fun before s ↦ s.diagnostics.hasErrors = false →
    Done shapes (before.map Prod.fst).reverse s) ?_ [] rfl
  rintro before e after rfl
  obtain ⟨hprepared, hlive, hpassive⟩ := hentries e (by simp)
  rw [map_append, reverse_append]
  refine done_routine hshapes e.1 hprepared hlive hpassive fun hmem ↦ ?_
  rw [map_append] at hnodup
  exact disjoint_of_nodup_append hnodup (mem_reverse.1 hmem) (.head _)

end

end Assemble

/-! ### Calls -/

/-- Complaints stay, and so do the terminals that call a routine. -/
def Emitter.Persists (s s' : Emitter) : Prop :=
  (s'.diagnostics.hasErrors = false → s.diagnostics.hasErrors = false) ∧
    ∀ r, s.callers r ≠ [] → s'.callers r ≠ []

theorem Emitter.callers_calling (s : Emitter) (r : Routine) (entrance : Terminal) :
    (s.calling r entrance).callers r ≠ [] := by
  simp [callers, calling]

theorem Emitter.stable_persists (s₀ s₁ : Emitter) :
    Emit.Stable (fun _ ↦ True) (fun _ ↦ True) (fun _ ↦ True) s₁ s₀.Persists where
  toSupply := .every
  still h hs := by
    refine ⟨fun hclean ↦ hs.1 (h.diagnostics ▸ hclean), fun r hr ↦ ?_⟩
    rw [callers, h.calls]
    exact hs.2 r hr
  place _ hs := hs
  join _ hs := hs
  calling {s} r entrance _ _ hs := by
    refine ⟨hs.1, fun q hq ↦ ?_⟩
    by_cases heq : r = q
    · subst heq
      exact s.callers_calling r entrance
    · rw [callers, calling, get?_insert_of_ne _ _ heq]
      exact hs.2 q hq

namespace Emit

theorem stable_callers (r : Routine) (st : Emitter) : Stable (fun _ ↦ True) (fun _ ↦ True)
    (fun _ ↦ True) st fun s ↦ s.callers r ≠ [] :=
  ⟨.every,
    fun {s _} h ↦ ((s.stable_persists st).still h ⟨id, fun _ ↦ id⟩).2 r, fun _ hs ↦ hs,
    fun _ hs ↦ hs,
    fun {s} q entrance h h' ↦ ((s.stable_persists st).calling q entrance h h' ⟨id, fun _ ↦ id⟩).2 r⟩

/-- A call of a routine is recorded. -/
theorem meets_called (r : Routine) (arguments : List Expr) (result : Option Variable)
    (span : Span) (st : Emitter) :
    (stable_callers r st).steady.Meets ((stable_callers r st).steady.Open [])
      (call (.routine r) arguments result span) fun _ s ↦ s.callers r ≠ [] := by
  have hgate (c : Chain) : (stable_callers r st).steady.Meets
      ((stable_callers r st).steady.Chained [] c) (gate r) fun h s ↦ s.callers r ≠ [] ∧ c.Sound ∧
        st.Owns s c.ends ∧ (stable_callers r st).steady.Built (c.entry.toList ++ []) h s := by
    intro s hs
    have hnext := meets_next (meets_gate (r := r) trivial) s hs
    exact ⟨hnext.1, hnext.2.1, Emitter.callers_calling _ r _, hnext.2.2⟩
  exact meets_unless (.bind ((meets_passArguments (fun _ _ _ _ ↦ trivial) {}).before
    fun _ ↦ .empty) fun passed ↦ .bind (hgate passed) fun _ ↦
    .bind (meets_append.along fun _ _ h _ ↦ h) fun entered ↦
    .bind ((meets_passBack span _ entered).along fun _ _ h _ ↦ h) fun returned ↦
    .bind ((meets_keepResult r span returned result).along fun _ _ h _ ↦ h) fun _ ↦
    .pure fun _ hs ↦ hs.1)

end Emit

/-- Where no value holds a call, the statement that calls a routine is a call. -/
theorem Stmt.Retains.exists_call {s : Stmt} (h : s.Retains M (Callee.Of fun _ ↦ False)) {q : Routine}
    (hq : q ∈ s.callSites) :
    ∃ span arguments result, s = .call span (.routine q) arguments result := by
  rw [Stmt.mem_callSites_iff] at hq
  cases s
  case call span callee arguments result =>
    have hmem : .routine q = callee ∨ .routine q ∈ Expr.visitAll calleeVisitor arguments := by
      simpa [Stmt.visit, calleeVisitor] using hq
    rcases hmem with rfl | hq
    · exact ⟨span, arguments, result, rfl⟩
    · exact (h.2 _ hq).elim
  case block | expression => exact h.elim
  all_goals exact (h _ hq).elim

namespace Assemble

/-- Unless there is a complaint, calls of some routines have been recorded. -/
def Called (sites : Routine → Prop) (s : Emitter) : Prop :=
  s.diagnostics.hasErrors = false → ∀ q, sites q → s.callers q ≠ []

variable {sites : Routine → Prop}

/-- A statement without calls in its values records what it calls. -/
theorem called_attempt (r : Routine) {s : Stmt} (hsingle : s.Single)
    (hs : s.Retains M (Callee.Of fun _ ↦ False)) :
    Meets (fun _ ↦ True) (Called sites) (Emit.attempt (Emit.stmt r s))
      fun _ ↦ Called fun q ↦ sites q ∨ q ∈ s.callSites := by
  intro st hst
  obtain ⟨-, hrel, houtcome⟩ := Emit.meets_stmt (S := (st.stable_persists st).steady) r hsingle
    (fun _ _ ↦ trivial) (fun _ _ _ _ _ _ _ ↦ trivial) (fun _ _ ↦ trivial) (fun _ _ _ ↦ trivial) st
    (.refl _ st)
  have hstate := hrel ⟨id, fun _ ↦ id⟩
  rcases hrun : (Emit.stmt r s).run st with ⟨(d | f) | h, st'⟩
  all_goals rw [hrun] at hstate houtcome
  · -- a complaint is an error
    rw [run_attempt_of_complaint hrun]
    intro hclean
    have herror : d.isError = true := houtcome
    simp [Diagnostics.hasErrors, herror] at hclean
  · rw [run_attempt_of_fault hrun]
    trivial
  · rw [run_attempt_of_ok hrun]
    intro hclean q hq
    rcases hq with hq | hq
    · exact hstate.2 q (hst (hstate.1 hclean) q hq)
    · obtain ⟨span, arguments, result, rfl⟩ := hs.exists_call hq
      have hcalled : (Emit.stable_callers q st).steady.Meets (Emitter.Leaves (fun _ ↦ True) st [])
          (Emit.stmt r (.call span (.routine q) arguments result)) fun _ s ↦ s.callers q ≠ [] := by
        exact .bind (Emit.meets_forgetElement _) fun _ ↦ Emit.meets_called q arguments result span st
      have hcallers := (hcalled st (.refl _ st)).2.2
      rw [hrun] at hcallers
      exact hcallers

theorem called_routines
    (h : ∀ e ∈ entries, (∀ s ∈ e.2.items, s.Single) ∧ Stmt.AllRetain M (Callee.Of fun _ ↦ False) e.2.items) :
    Meets (fun _ ↦ True) (Called fun _ ↦ False) (routines entries)
      fun _ ↦ Called fun q ↦ ∃ e ∈ entries, q ∈ e.2.callSites := by
  refine Meets.before (walks_routines
    (J := fun before ↦ Called fun q ↦ ∃ e ∈ before, q ∈ e.2.callSites) ?_ [] rfl) (by simp [Called])
  rintro before e after rfl
  obtain ⟨hsingle, hretain⟩ := h e (by simp)
  refine Meets.before (walks_routine (I := fun code ↦ Called fun q ↦
    (∃ e ∈ before, q ∈ e.2.callSites) ∨ ∃ s ∈ code, q ∈ s.callSites) e.1 ?_ (fun _ _ _ ↦ trivial)
    (fun code s hs ↦ ?_) ?_) fun st hst hclean q hq ↦ hst hclean q (by simpa using hq)
  · intro code st wires notices warnings hwarnings hst hclean q hq
    have herrors : Diagnostics.hasErrors (st.diagnostics ++ warnings) = false := hclean
    rw [Diagnostics.hasErrors, any_append, Bool.or_eq_false_iff] at herrors
    exact hst herrors.1 q hq
  · refine (called_attempt e.1 (hsingle s hs) (hretain s hs)).after fun _ st hst hclean q hq ↦ ?_
    exact hst hclean q (by simpa [exists_or, or_assoc] using hq)
  · intro entry blocks st hst hclean q hq
    refine hst hclean q ?_
    simp only [mem_append, or_and_right, exists_or, mem_singleton, exists_eq_left] at hq
    exact hq.imp_right Stmt.exists_of_mem_callSites

/-- Every recorded call is wired to where the routine begins, and nothing else is. -/
theorem of_yields_calls {entries : List (Routine × List Terminal)} {s' : Emitter}
    (h : Yields (calls entries) s () s') : s'.placement = s.placement ∧ s'.entries = s.entries ∧
      s'.diagnostics = s.diagnostics ∧ ∀ w, w ∈ s'.netlist.wires ↔ w ∈ s.netlist.wires ∨
        ∃ e ∈ entries, s.entries.get? e.1 = some (some w.target) ∧ w.source ∈ e.2 := by
  induction entries generalizing s with
  | nil =>
    obtain ⟨-, rfl⟩ := yields_pure.1 h
    simp
  | cons e rest ih =>
    obtain ⟨_, _, hget, h⟩ := yields_bind.1 h
    cases hget
    rcases hentry : s.entries.get? e.1 with - | entry
    · simp only [hentry] at h
      cases h
    · simp only [hentry] at h
      obtain ⟨_, _, hmodify, h⟩ := yields_bind.1 h
      cases hmodify
      obtain ⟨hplacement, hentries, hdiagnostics, hwires⟩ := ih h
      refine ⟨hplacement, hentries, hdiagnostics, fun w ↦ ?_⟩
      have hfirst : w ∈ (entry.map fun t ↦ wiresTo t e.2).getD [] ↔
          entry = some w.target ∧ w.source ∈ e.2 := by
        obtain ⟨-, -⟩ := w
        cases entry <;> simp [wiresTo, and_comm]
      simp [hwires, Netlist.wires_connectAll, hfirst, hentry, or_assoc]

/-- Emission of live code: every block that runs is wired to, or is where the entry begins. -/
theorem entered_program {shapes : BlockShape → Prop} {b : Bodies} {first : Routine}
    (hshapes : ∀ shape : BlockShape, shape.kind ≠ .active → shapes shape)
    (hcalls : b.CallClosed first) (hkeys : b.keys.Nodup)
    (hentries : ∀ e ∈ b.entries, Stmt.Prepared e.2.items ∧ Stmt.AllLive e.2.items ∧
      ∀ s ∈ e.2.items, ∀ shape ∈ s.visit shapeVisitor, shapes shape)
    (hvalues : ∀ e ∈ b.entries, Stmt.AllRetain M (Callee.Of fun _ ↦ False) e.2.items) {options : EmitOptions}
    (h : b.emit options = (.ok (), s)) (hclean : s.diagnostics.hasErrors = false) :
    ∃ entry, s.entries.get? first = some entry ∧
      ∀ id block, s.placement.blocks[id]? = some block → shapes block.shape ∨
        ∃ t, (Block.mk id block.shape).before = .ok t ∧
          (entry = some t ∨ ∃ w ∈ s.netlist.wires, w.target = t) := by
  have hyields : Yields (program b) { options := options } () s := h
  obtain ⟨_, s₁, hroutines, hyields⟩ := yields_bind.1 hyields
  obtain ⟨_, _, hget, hyields⟩ := yields_bind.1 hyields
  cases hget
  obtain ⟨_, s₂, hwired, hyields⟩ := yields_bind.1 hyields
  cases hyields
  obtain ⟨hplacement, hfirst, hdiagnostics, hwires⟩ := of_yields_calls hwired
  have hclean₁ : s₁.diagnostics.hasErrors = false := hdiagnostics ▸ hclean
  have hdone : Done shapes (b.entries.map Prod.fst).reverse s₁ := by
    have hstart : Done shapes [] { options := options } :=
      ⟨fun _ ↦ Iff.rfl, fun _ _ hb ↦ by cases hb⟩
    have hrun := done_routines hshapes hentries hkeys _ fun _ ↦ hstart
    rw [hroutines] at hrun
    exact hrun hclean₁
  have hcalled : ∀ q, (∃ e ∈ b.entries, q ∈ e.2.callSites) → s₁.callers q ≠ [] := by
    have hstart : Called (fun _ ↦ False) { options := options } := fun _ _ hq ↦ hq.elim
    have hrun := called_routines (fun e he ↦ ⟨(hentries e he).1.single, hvalues e he⟩) _ hstart
    rw [hroutines] at hrun
    exact hrun hclean₁
  have hmem {r : Routine} : r ∈ s₁.entries.keys ↔ r ∈ b.keys := by
    rw [hdone.keys, mem_reverse]
    rfl
  obtain ⟨entry, hentry⟩ := isSome_iff_exists.1
    (Table.contains_iff.2 (hmem.2 (mem_of_mem_head? hcalls.first)))
  refine ⟨entry, hfirst ▸ hentry, fun id block hblock ↦ ?_⟩
  refine (hdone.fed id block (hplacement ▸ hblock)).imp_right ?_
  rintro ⟨t, ht, ⟨r, hr⟩ | ⟨w, hw, hwt⟩⟩
  · refine ⟨t, ht, ?_⟩
    by_cases heq : r = first
    · subst heq
      exact .inl (Option.some.inj (hentry.symm.trans hr))
    · -- some routine calls it, from a terminal that was recorded
      have hkey := Table.contains_iff.1 (isSome_iff_exists.2 ⟨_, hr⟩)
      have hreached := hcalls.reached r (hmem.1 hkey)
      obtain hr' | ⟨caller, -, body, hbody, hsite⟩ := hreached.cases_tail
      · exact (heq hr').elim
      have hcallers := hcalled r ⟨(caller, body), hbody, hsite⟩
      obtain ⟨source, hsource⟩ := exists_mem_of_ne_nil _ hcallers
      rcases hsources : s₁.calls.get? r with - | sources
      · simp [Emitter.callers, hsources] at hsource
      · rw [Emitter.callers, hsources] at hsource
        exact .inr ⟨⟨source, t⟩, (hwires _).2 (.inr ⟨_, mem_of_get? hsources, hr, hsource⟩), rfl⟩
  · exact ⟨t, ht, .inr ⟨w, (hwires w).2 (.inl hw), hwt⟩⟩

end Assemble

/-! ### Programs -/

/-- Calls are of the same kinds under new names, if routines of the kinds are. -/
theorem Stmt.AllRetain.named {K : Callee → Prop} (h : Stmt.AllRetain M K code) (st : Naming)
    (hM : ∀ c, M c → M (st.substitution.callee c)) (hK : ∀ c, K c → K (st.substitution.callee c)) :
    Stmt.AllRetain M K (code.map (Stmt.substitute st.substitution)) := by
  intro t ht
  obtain ⟨s, hs, rfl⟩ := mem_map.1 ht
  have hretains := h s hs
  have hkinds {cs : List Callee} (hcs : ∀ c ∈ cs, K c) :
      ∀ c ∈ cs.map st.substitution.callee, K c := by
    simpa using fun c hc ↦ hK c (hcs c hc)
  cases s
  case call span callee arguments result =>
    refine ⟨hM _ hretains.1, ?_⟩
    rw [Expr.AllRetain, st.relates_calleeVisitor.visitAll]
    exact hkinds hretains.2
  case block | expression => exact hretains.elim
  all_goals
    have hvisit := hkinds hretains
    rw [← st.relates_calleeVisitor.visitStmt] at hvisit
    exact hvisit

/-- The block that computes a call does not run. -/
def Callee.Passive (c : Callee) : Prop := ∀ shape ∈ c.passive?, shape.kind ≠ .active

theorem Program.of_yields_compile {a : Analysis} {notices notices' : List Notice}
    (h : Yields (p.compile a options) notices c notices') (hclean : c.hasErrors = false) :
    ∃ notices₁, Yields (p.prepare a options.inlining) notices c.bodies notices₁ ∧
      ∃ s, c.bodies.emit options.emit = (.ok (), s) ∧ c.placement = s.placement ∧
        c.netlist = s.netlist ∧ s.diagnostics.hasErrors = false := by
  unfold compile at h
  split at h
  · next herrors =>
    obtain ⟨rfl, -⟩ := yields_pure.1 h
    cases hclean.symm.trans herrors
  · obtain ⟨b, notices₁, hprepare, h⟩ := yields_bind.1 h
    obtain ⟨s, _, hemitted, h⟩ := yields_bind.1 h
    obtain ⟨rfl, -⟩ := yields_pure.1 h
    have hclean' : s.diagnostics.hasErrors = false := by
      have hboth : Diagnostics.hasErrors (a.diagnostics ++ s.diagnostics) = false := hclean
      rw [Diagnostics.hasErrors, any_append, Bool.or_eq_false_iff] at hboth
      exact hboth.2
    refine ⟨notices₁, hprepare, s, ?_, rfl, rfl, hclean'⟩
    obtain ⟨_, _, -, hemitted⟩ := yields_bind.1 hemitted
    obtain ⟨_, _, houtcome, hemitted⟩ := yields_bind.1 hemitted
    obtain ⟨rfl, -⟩ := yields_pure.1 hemitted
    exact Prod.ext (yields_lift.1 houtcome).1 rfl

/-- No block starts on its own: in a compiled program without complaints, every block that runs is wired
to, or is where the entry begins. -/
theorem Program.blocks_entered {p : Program} {a : Analysis} {options : Options} {c : Compilation}
    {notices notices' : List Notice} (hids : (p.bodies.keys.map Routine.id).Nodup)
    (hjumpless : ∀ e ∈ p.bodies.entries, e.2.Jumpless)
    (hheld : ∀ e ∈ p.bodies.entries, e.2.heldCalls = [])
    (hends : ∀ r ∈ a.inlined options.inlining p.bodies.keys, p.Ends r)
    (hpassive : ∀ e ∈ p.bodies.entries, ∀ shape ∈ e.2.visit shapeVisitor, shape.kind ≠ .active)
    (h : Yields (p.compile a options) notices c notices') (hclean : c.hasErrors = false) :
    ∃ first entry, c.bodies.keys.head? = some first ∧
      (c.bodies.emit options.emit).2.entries.get? first = some entry ∧
      ∀ id b, c.placement.block? id = some b → b.shape.kind = .active →
        ∃ t, b.before = .ok t ∧ (entry = some t ∨ ∃ w ∈ c.netlist.wires, w.target = t) := by
  obtain ⟨notices₁, hprepare, s, hemit, hplacement, hnetlist, herrors⟩ := of_yields_compile h hclean
  have hknown : ∀ e ∈ p.bodies.entries, ∀ note ∈ e.2.visit noteVisitor,
      note.Known Callee.Passive fun _ ↦ False := by
    rintro e he (c | (q | b)) hnote
    · exact fun shape hshape ↦ hpassive e he shape
        (Stmt.mem_shapes_iff.2 ⟨c, Stmt.made_mem_visit.1 hnote, hshape⟩)
    · have hmem : q ∈ e.2.heldCalls := mem_filterMap.2 ⟨_, hnote, rfl⟩
      rw [hheld e he] at hmem
      cases hmem
    · trivial
  have hbuiltin (b : Builtin) (hb : b ∈ Builtin.all) (t : Ty) : (Callee.builtin b t).Passive :=
    fun shape hshape ↦ (Callee.Known.takesData (c := .builtin b t) hb |>.1 shape hshape).1
  obtain ⟨live, hlive, ⟨kept, hkept, hperm⟩, hclosed, hvalues⟩ :=
    exists_of_yields_live hbuiltin hknown hprepare
  have hcalls := (hclosed hids.of_map).named
  have hkeys : c.bodies.keys.Nodup := by
    have hkeptIds : (live.keys.map Routine.id).Nodup :=
      (hperm.map Routine.id).nodup_iff.2 (hids.sublist (hkept.map _))
    refine List.Nodup.of_map Routine.id ?_
    rw [hlive, Bodies.keys_named, List.map_map]
    exact hkeptIds
  have hnamed : ∀ e ∈ c.bodies.entries,
      Stmt.AllRetain Callee.Passive (Callee.Kept Callee.Passive fun _ ↦ False) e.2.items := by
    rw [hlive]
    intro e he
    obtain ⟨source, hsource, rfl⟩ := mem_map.1 he
    rw [Naming.items_substitute]
    refine (hvalues source hsource).named _ (fun c hc ↦ ?_) fun c hc ↦ ?_
    all_goals cases c <;> exact hc
  have hentries : ∀ e ∈ c.bodies.entries, Stmt.Prepared e.2.items ∧ Stmt.AllLive e.2.items ∧
      ∀ s ∈ e.2.items, ∀ shape ∈ s.visit shapeVisitor, shape.kind ≠ .active := by
    intro e he
    refine ⟨prepared_of_yields hjumpless hprepare e he,
      allLive_of_yields hjumpless hends hprepare e he, fun s hs shape hshape ↦ ?_⟩
    obtain ⟨callee, hcallee, hshape⟩ := Stmt.mem_shapes_iff.1 hshape
    exact (hnamed e he s hs).of_mem_visit hcallee |>.elim (· shape hshape) (·.1 shape hshape)
  rw [← hlive] at hcalls
  obtain ⟨entry, hentry, hblocks⟩ := Assemble.entered_program (fun _ ↦ id) hcalls hkeys hentries
    (fun e he s hs ↦ (hnamed e he s hs).mono (fun _ h ↦ h) fun _ h ↦ h.2) hemit herrors
  refine ⟨_, entry, hcalls.first, by rw [hemit]; exact hentry, fun id b hb hactive ↦ ?_⟩
  rw [hplacement] at hb
  obtain ⟨placed, hplaced, rfl⟩ := map_eq_some_iff.1 hb
  rw [hnetlist]
  exact (hblocks id placed hplaced).resolve_left fun hne ↦ hne hactive

/-- The compiled program, unless compilation stops. -/
def Program.compiled? (p : Program) (options : Options) : Option Compilation :=
  ((p.compile p.analyze options).run []).1.toOption

theorem Program.exists_of_compiled? (h : p.compiled? options = some c) :
    ∃ notices, Yields (p.compile p.analyze options) [] c notices := by
  unfold compiled? at h
  rcases hrun : (p.compile p.analyze options).run [] with ⟨e | c', notices⟩
  · rw [hrun] at h
    cases h
  · rw [hrun] at h
    cases h
    exact ⟨notices, hrun⟩

/-- The body of a routine that can end early: `if (stop) { return; } stop = true;`. -/
def stopOnce : Stmt := .block default [
  .ifThen default (Build.read stopFlag default) (.ret default),
  .assign default stopFlag trueFlag]

theorem Stmt.canEnd_stopOnce {lo : Lowered} (h : lower plainCallee stopOnce = .ok lo) :
    CanEnd lo.statements := by
  have hcode : ∃ l condition span mark rest, lo.statements =
      .gotoIf default l condition false :: .hint span mark :: .ret default :: rest := by
    cases h
    exact ⟨_, _, _, _, _, rfl⟩
  obtain ⟨l, condition, span, mark, rest, hcode⟩ := hcode
  rw [hcode]
  exact ⟨_, .next (.next .refl rfl) rfl, trivial⟩

/-- A routine that calls itself. -/
def recursing : Routine := .declare 2 "g" [] .void {}

/-- Calls of a routine that is expanded and of one that is not, from a handler and from a loop:
`main { on LateUpdate { f(); } while (!stop) { f(); g(); } time = frame(); } g { g(); f(); }`. -/
def handedOn : Program where
  bodies := ⟨[(hostMain, .block default [
      .on default .lateUpdate [] (callFor plainCallee []),
      .whileLoop default (Build.unary .not (Build.read stopFlag default) default)
        (.block default [callFor plainCallee [], callFor recursing []]),
      .assign default (.slot ⟨.declared 1, "time", .float, .global, {}⟩)
        (Build.call (.builtin ((Builtin.find? "frame").getD default) .float) [] default)]),
    (plainCallee, stopOnce),
    (recursing, .block default [callFor recursing [], callFor plainCallee []])]⟩
  entry := hostMain

theorem Program.blocks_entered_handedOn :
    (handedOn.bodies.keys.map Routine.id).Nodup ∧ (∀ e ∈ handedOn.bodies.entries, e.2.Jumpless) ∧
    (∀ e ∈ handedOn.bodies.entries, e.2.heldCalls = []) ∧
    (∀ r ∈ handedOn.analyze.inlined .always handedOn.bodies.keys, handedOn.Ends r) ∧
    (∀ e ∈ handedOn.bodies.entries, ∀ shape ∈ e.2.visit shapeVisitor, shape.kind ≠ .active) ∧
    ∃ c, handedOn.compiled? { inlining := .always } = some c ∧ c.hasErrors = false ∧
      c.bodies.keys.map Routine.name = ["main", "g"] ∧ c.placement.blocks.length = 22 ∧
      ∃ first entry, c.bodies.keys.head? = some first ∧
        (c.bodies.emit {}).2.entries.get? first = some entry ∧
        ∀ id b, c.placement.block? id = some b → b.shape.kind = .active →
          ∃ t, b.before = .ok t ∧ (entry = some t ∨ ∃ w ∈ c.netlist.wires, w.target = t) := by
  have hids : (handedOn.bodies.keys.map Routine.id).Nodup := by decide
  have hjumpless : ∀ e ∈ handedOn.bodies.entries, e.2.Jumpless := by
    rw [handedOn]
    simp only [forall_mem_cons, not_mem_nil, false_imp_iff, implies_true, and_true]
    exact ⟨⟨rfl, rfl⟩, ⟨rfl, rfl⟩, ⟨rfl, rfl⟩⟩
  have hheld : ∀ e ∈ handedOn.bodies.entries, e.2.heldCalls = [] := by
    rw [handedOn]
    simp only [forall_mem_cons, not_mem_nil, false_imp_iff, implies_true, and_true]
    exact ⟨rfl, rfl, rfl⟩
  have hends : ∀ r ∈ handedOn.analyze.inlined .always handedOn.bodies.keys, handedOn.Ends r := by
    intro r hr body lo hbody hlower
    obtain rfl := mem_singleton.1 hr
    have hbody := get?_of_mem hids.of_map hbody
    obtain rfl : stopOnce = body := Option.some.inj hbody
    exact Stmt.canEnd_stopOnce hlower
  have hpassive : ∀ e ∈ handedOn.bodies.entries, ∀ shape ∈ e.2.visit shapeVisitor,
      shape.kind ≠ .active := by
    decide +kernel
  have hcompiled : (handedOn.compiled? { inlining := .always }).map (fun c ↦ (c.hasErrors,
      c.bodies.keys.map Routine.name, c.placement.blocks.length)) =
      some (false, ["main", "g"], 22) := by
    decide +kernel
  obtain ⟨c, hc, heq⟩ := map_eq_some_iff.1 hcompiled
  obtain ⟨hclean, hnames, hlength⟩ : _ ∧ _ ∧ _ := by simpa only [Prod.mk.injEq] using heq
  obtain ⟨notices, hyields⟩ := exists_of_compiled? hc
  exact ⟨hids, hjumpless, hheld, hends, hpassive, c, hc, hclean, hnames, hlength,
    blocks_entered hids hjumpless hheld hends hpassive hyields hclean⟩

/-- A routine that never ends is expanded:
`main { f(); g = true; } f { while (true) { h = true; } }`. -/
def endless : Program := twoRoutines plainCallee
  [callFor plainCallee [], setFlag (flag 1 "g" .global) trueFlag]
  [.whileLoop default trueFlag (setFlag (flag 2 "h" .global) trueFlag)]

/-- What comes after an expanded call that never ends starts on its own. -/
theorem Program.starts_alone_endless : (∀ e ∈ endless.bodies.entries, e.2.Jumpless) ∧
    (∀ e ∈ endless.bodies.entries, e.2.heldCalls = []) ∧
    ∃ c, endless.compiled? { inlining := .always } = some c ∧ c.hasErrors = false ∧
      ∃ b t, c.placement.block? 3 = some b ∧ b.shape.kind = .active ∧ b.before = .ok t ∧
        (∀ w ∈ c.netlist.wires, w.target ≠ t) ∧
        ∀ r, (c.bodies.emit {}).2.entries.get? r ≠ some (some t) := by
  have hjumpless : ∀ e ∈ endless.bodies.entries, e.2.Jumpless := by
    rw [endless, twoRoutines]
    simp only [forall_mem_cons, not_mem_nil, false_imp_iff, implies_true, and_true]
    exact ⟨⟨rfl, rfl⟩, ⟨rfl, rfl⟩⟩
  have hheld : ∀ e ∈ endless.bodies.entries, e.2.heldCalls = [] := by
    rw [endless, twoRoutines]
    simp only [forall_mem_cons, not_mem_nil, false_imp_iff, implies_true, and_true]
    exact ⟨rfl, rfl⟩
  have hcompiled : (endless.compiled? { inlining := .always }).map (fun c ↦ (c.hasErrors,
      c.placement.block? 3, c.netlist.wires.map Wire.target,
      (c.bodies.emit {}).2.entries.entries.map Prod.snd)) =
      some (false, some (Block.mk 3 ((Catalog.setVariable? .bool).getD default)),
        [⟨1, .input, 1, .bool⟩, ⟨3, .input, 1, .bool⟩, ⟨1, .input, 0, .void⟩],
        [some ⟨1, .input, 0, .void⟩]) := by
    decide +kernel
  obtain ⟨c, hc, heq⟩ := map_eq_some_iff.1 hcompiled
  obtain ⟨hclean, hblock, hwires, hentries⟩ : _ ∧ _ ∧ _ ∧ _ := by
    simpa only [Prod.mk.injEq] using heq
  refine ⟨hjumpless, hheld, c, hc, hclean, _, ⟨3, .input, 0, .void⟩, hblock, rfl, rfl,
    fun w hw htarget ↦ ?_, fun r hr ↦ ?_⟩
  · have hmem := mem_map_of_mem (f := Wire.target) hw
    rw [hwires, htarget] at hmem
    simp at hmem
  · have hmem := mem_map_of_mem (f := Prod.snd) (mem_of_get? hr)
    rw [hentries] at hmem
    simp at hmem

end Wirescript
