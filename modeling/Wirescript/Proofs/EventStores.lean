import Wirescript.Proofs.Calm
import Wirescript.Proofs.KeptFirst

/-!
# Inlining and events

Events interrupt a routine: what an event starts runs until a return, a rollback or the end of the body,
and then the routine goes on. Where a call has been expanded, the copy of a handler is interrupted in
the same way, so globals are stored to in the same order, whatever events occur
(`Program.Scoped.log_eq_of_completes`).

That takes handlers that do not return. In the copy of a body a return is a jump behind the copy, which
ends a run of the body, but not what an event started: that goes on behind the call, and then the
caller does so a second time (`Program.resumed_twice`).
-/

namespace Wirescript

open List

/-- Stores to globals are recorded, and events occur as given. -/
def Scene.global (fires : Nat → Bool) : Scene (String ⊕ Slot) where
  key := Slot.home
  watched s := decide (s.role = .global)
  fires := fires

/-- In the flat code of every routine, calls of the given routines keep a result only if there is one,
and they keep it in a variable that is not passed by reference, and not in a global if another global
is. -/
def Program.KeepsUnseen (p : Program) (rs : List Routine) : Prop :=
  ∀ r body flat, (r, body) ∈ p.bodies.entries → Flattens r body flat →
    ∀ span q arguments x, q ∈ rs → .call span (.routine q) arguments (some x) ∈ flat.flatten →
      q.returnSlot.isSome = true ∧ ∀ y ∈ targets (q.parameters.zip arguments),
        ¬ x.Overlaps Slot.home y ∧ (x.root.role = .global → y.root.role ≠ .global)

/-- The bodies of the given routines have no labels and jumps of their own, and no handler in them
returns. -/
def Program.HandlersEnd (p : Program) (rs : List Routine) : Prop :=
  ∀ r ∈ rs, ∀ body, (r, body) ∈ p.bodies.entries → body.Jumpless ∧ body.HandlersEnd

section Stores

variable {p : Program} {owns : Routine → Slot → Prop} {mode : Inlining} {flat expanded : Bodies}
  {fires : Nat → Bool}

theorem Program.Scoped.flattened_global (hp : p.Scoped True owns)
    (hexpansion : p.Expansion mode flat expanded)
    (hhandlers : p.HandlersEnd (p.analyze.inlined mode p.bodies.keys))
    (hdefinite : p.DefiniteFor (p.analyze.inlined mode p.bodies.keys))
    (hkept : p.KeepsUnseen (p.analyze.inlined mode p.bodies.keys)) :
    Flattened (.global fires) p True owns ⟨p.analyze.inlined mode p.bodies.keys, flat⟩ where
  key := rfl
  watched := of_decide_eq_true
  scopes := hp
  bodies := by
    obtain ⟨_, _, _, hflat, -⟩ := hexpansion
    exact Program.forall₂_of_yields_flat hflat
  inlined hr := (Program.of_mem_inlined hr).2.2
  definite hr h hflat := hdefinite _ hr _ _ h hflat
  calm hr h hflat := by
    obtain ⟨hjumpless, hends⟩ := hhandlers _ hr _ h
    exact hflat.calm hjumpless hends
  kept h hflat hq hs := by
    obtain ⟨hslot, hpairs⟩ := hkept _ _ _ h hflat _ _ _ _ hq hs
    refine ⟨hslot, fun _ y hy ↦ ⟨(hpairs y hy).1, fun hwatched ↦ ?_⟩⟩
    exact decide_eq_false ((hpairs y hy).2 (of_decide_eq_true hwatched))

/-- A caller whose calls have been expanded stores to globals what it stores where the calls are made,
in the same order, whatever events occur: a run of it that ends is a run of the caller with its calls,
which is the only one. -/
theorem Program.Scoped.log_eq_of_completes (hp : p.Scoped True owns)
    (hexpansion : p.Expansion mode flat expanded)
    (hhandlers : p.HandlersEnd (p.analyze.inlined mode p.bodies.keys))
    (hdefinite : p.DefiniteFor (p.analyze.inlined mode p.bodies.keys))
    (hkept : p.KeepsUnseen (p.analyze.inlined mode p.bodies.keys)) {r : Routine}
    {t t' : Trail (String ⊕ Slot)} (h : Completes (.global fires) expanded.listing r t t') :
    ∃ u, Completes (.global fires) flat.listing r t u ∧
      (∀ u', Completes (.global fires) flat.listing r t u' → u' = u) ∧
      t'.log = u.log ∧ t'.events = u.events ∧ ∀ s, s.role = .global →
        t'.memory.load Slot.home (.slot s) = u.memory.load Slot.home (.slot s) := by
  have hflattened : Flattened (.global fires) p True owns
      ⟨p.analyze.inlined mode p.bodies.keys, flat⟩ :=
    hp.flattened_global hexpansion hhandlers hdefinite hkept
  obtain ⟨_, _, _, -, hexpand⟩ := hexpansion
  obtain ⟨entries, _, heach, hpure⟩ := yields_bind.1 hexpand
  cases hpure
  obtain ⟨o⟩ := hflattened.nonempty_preparation heach (List.Subset.refl _)
  obtain ⟨depth, hfollows⟩ := h
  have hr : r ∈ (⟨entries⟩ : Bodies).keys := by
    cases depth with
    | zero => exact hfollows.elim
    | succ depth =>
      obtain ⟨code, n, hcode, -⟩ := hfollows
      exact (o.program_of_listing hcode).1
  have hprogram := hfollows.mono_program fun q code hcode ↦ (o.program_of_listing hcode).2
  obtain ⟨u, hu, hlinked⟩ := o.simulates r (o.known hr) t t' ⟨depth, hprogram⟩
  refine ⟨u, hu, fun u' hu' ↦ ?_, hlinked.log, hlinked.events, fun s hs ↦
    hlinked.load ⟨rfl, .inl hs⟩⟩
  obtain ⟨d, hd⟩ := hu
  obtain ⟨d', hd'⟩ := hu'
  exact hd'.unique hd

end Stores

/-! ### A caller that goes on twice -/

/-- Code that reads globals only is definite for a routine without parameters and without a result. -/
theorem Routine.Definite.of_global {r : Routine} {code : List Stmt} (hparameters : r.parameters = [])
    (hslot : r.returnSlot = none) (hreads : ∀ s ∈ code, ∀ x ∈ s.consulted, x.role = .global) :
    r.Definite code where
  reads h x hx := .inl (hreads _ (h.suffix.subset (.head _)) x hx)
  outs _ _ p hp := by
    rw [hparameters] at hp
    cases hp
  returns hresult := by
    rw [hslot] at hresult
    cases hresult

/-- The variable that is stored to by a caller behind a call. -/
def resumedX : Slot := flag 2 "x" .global

/-- `f(); x = true` with `f() { on Play { … } }` -/
def interrupted (handler : Stmt) : Program :=
  twoRoutines plainCallee
    [.call default (.routine plainCallee) [] none, setFlag resumedX trueFlag]
    [.on default .play [] handler]

/-- Where the handler begins, and what is behind it. -/
def handlerStart : Label := .numbered "f" "event" 1

@[inherit_doc handlerStart]
def handlerEnd : Label := .numbered "f" "end" 1

/-- The flat code of the caller and the routine, for a handler that ends with a statement. -/
def interruptedFlat (last : List Stmt) : Bodies :=
  ⟨[(hostMain, .block default [.call default (.routine plainCallee) [] none,
      setFlag resumedX trueFlag, .ret default]),
    (plainCallee, .block default ([.gotoOn default handlerStart .play [], .goto default handlerEnd,
      .label default handlerStart] ++ last ++ [.label default handlerEnd, .ret default]))]⟩

/-- The caller with a copy of the routine. -/
def interruptedCopy (last : List Stmt) : Bodies :=
  ⟨[(hostMain, .block default ([.gotoOn default (handlerStart.inSite 1) .play [],
      .goto default (handlerEnd.inSite 1), .label default (handlerStart.inSite 1)] ++ last ++
        [.label default (handlerEnd.inSite 1), .goto default (plainCallee.exit 1),
          .label default (plainCallee.exit 1), setFlag resumedX trueFlag, .ret default]))]⟩

/-- What a run in which every event occurs leaves, if it stores these values to the variable. -/
def resumedTrail (values : List Bool) : Trail (String ⊕ Slot) where
  memory := values.foldl (fun m v ↦ m.insert (Slot.home resumedX) (.bool v)) {}
  log := values.map fun v ↦ (resumedX, .bool v)
  events := 1

/-- A handler that stores and ends. -/
def storing : Stmt := setFlag resumedX falseFlag

theorem expansion_storing : (interrupted storing).Expansion .always
      (interruptedFlat [storing, .rollback default handlerEnd])
      (interruptedCopy [storing, .rollback default (handlerEnd.inSite 1)]) :=
  ⟨[], _, _, rfl, rfl⟩

theorem expansion_returning :
    (interrupted (.ret default)).Expansion .always (interruptedFlat [.ret default])
      (interruptedCopy [.goto default (plainCallee.exit 1)]) :=
  ⟨[], _, _, rfl, rfl⟩

theorem completes_storing : Completes (.global fun _ ↦ true)
      (interruptedCopy [storing, .rollback default (handlerEnd.inSite 1)]).listing hostMain {}
      (resumedTrail [false, true]) :=
  ⟨1, _, _, rfl, .fork ⟨rfl, rfl⟩ rfl
    -- the handler stores and ends, and the rest runs once
    (.next ⟨rfl, rfl⟩ (.next ⟨rfl, .bool false, rfl, rfl⟩ (.stop ⟨rfl, rfl⟩)))
    (.jump ⟨rfl, rfl⟩ rfl (.next ⟨rfl, rfl⟩ (.jump ⟨rfl, rfl⟩ rfl (.next ⟨rfl, rfl⟩
      (.next ⟨rfl, .bool true, rfl, rfl⟩ (.stop ⟨rfl, rfl⟩))))))⟩

theorem completes_returning : Completes (.global fun _ ↦ true)
      (interruptedCopy [.goto default (plainCallee.exit 1)]).listing hostMain {}
      (resumedTrail [true, true]) :=
  ⟨1, _, _, rfl, .fork ⟨rfl, rfl⟩ rfl
    -- the handler goes on behind the copy, and then the rest does
    (.next ⟨rfl, rfl⟩ (.jump ⟨rfl, rfl⟩ rfl (.next ⟨rfl, rfl⟩
      (.next ⟨rfl, .bool true, rfl, rfl⟩ (.stop ⟨rfl, rfl⟩)))))
    (.jump ⟨rfl, rfl⟩ rfl (.next ⟨rfl, rfl⟩ (.jump ⟨rfl, rfl⟩ rfl (.next ⟨rfl, rfl⟩
      (.next ⟨rfl, .bool true, rfl, rfl⟩ (.stop ⟨rfl, rfl⟩))))))⟩

theorem completes_returning_flat :
    Completes (.global fun _ ↦ true) (interruptedFlat [.ret default]).listing hostMain {}
      (resumedTrail [true]) := by
  have hcallee : Follows (.global fun _ ↦ true) (interruptedFlat [.ret default]).listing 1
      plainCallee {} { events := 1 } :=
    ⟨_, _, rfl, .fork ⟨rfl, rfl⟩ rfl (.next ⟨rfl, rfl⟩ (.stop ⟨rfl, rfl⟩))
      (.jump ⟨rfl, rfl⟩ rfl (.next ⟨rfl, rfl⟩ (.stop ⟨rfl, rfl⟩)))⟩
  exact ⟨2, _, _, rfl, .next ⟨rfl, _, _, rfl, hcallee, _, rfl, rfl⟩
    (.next ⟨rfl, .bool true, rfl, rfl⟩ (.stop ⟨rfl, rfl⟩))⟩

theorem scoped_storing :
    (interrupted storing).Scoped True fun r s ↦ (r, s) ∈ ([] : List (Routine × Slot)) := by
  refine Program.scoped_of_cells (by decide +kernel) (by decide +kernel) (by decide +kernel)
    (fun a ha ↦ by cases ha) fun r body h ↦ ?_
  rcases mem_cons.1 h with heq | h
  · cases heq
    exact ⟨⟨trivial, trivial, fun x hx ↦ by cases hx⟩, ⟨.inl rfl, trivial⟩, trivial⟩
  · cases mem_singleton.1 h
    exact ⟨⟨trivial, trivial, .inl rfl, trivial⟩, trivial⟩

theorem inlined_storing :
    (interrupted storing).analyze.inlined .always (interrupted storing).bodies.keys =
      [plainCallee] := by
  decide +kernel

theorem flattens_storing {r : Routine} {body flat : Stmt}
    (h : (r, body) ∈ (interrupted storing).bodies.entries) (hflat : Flattens r body flat) :
    (interruptedFlat [storing, .rollback default handlerEnd]).get? r = some flat := by
  obtain ⟨l, e, hl, he, rfl⟩ := hflat
  rcases mem_cons.1 h with heq | h
  · cases heq
    cases hl
    cases he
    rfl
  · cases mem_singleton.1 h
    cases hl
    cases he
    rfl

/-- The handler stores before the caller does, with the call and with its copy. -/
theorem Program.Scoped.log_eq_of_completes_storing :
    ∃ flat expanded t u, (interrupted storing).Expansion .always flat expanded ∧
      Completes (.global fun _ ↦ true) expanded.listing hostMain {} t ∧
      Completes (.global fun _ ↦ true) flat.listing hostMain {} u ∧
      t.log = [(resumedX, .bool false), (resumedX, .bool true)] ∧ u.log = t.log := by
  have hhandlers : (interrupted storing).HandlersEnd
      ((interrupted storing).analyze.inlined .always (interrupted storing).bodies.keys) := by
    intro r hr body h
    rw [inlined_storing, mem_singleton] at hr
    subst hr
    rcases mem_cons.1 h with heq | h
    · cases heq
    · cases mem_singleton.1 h
      exact ⟨⟨rfl, rfl⟩, rfl⟩
  have hdefinite : (interrupted storing).DefiniteFor
      ((interrupted storing).analyze.inlined .always (interrupted storing).bodies.keys) := by
    intro r hr body flat h hflat
    rw [inlined_storing, mem_singleton] at hr
    subst hr
    cases flattens_storing h hflat
    exact .of_global rfl rfl (by decide +kernel)
  have hkept : (interrupted storing).KeepsUnseen
      ((interrupted storing).analyze.inlined .always (interrupted storing).bodies.keys) := by
    intro r body flat h hflat span q arguments x _ hs
    have hentry := Table.mem_of_get? (flattens_storing h hflat)
    simp only [interruptedFlat, mem_cons, not_mem_nil, or_false] at hentry
    rcases hentry with ⟨-, rfl⟩ | ⟨-, rfl⟩ <;>
      simp [Stmt.flatten, Stmt.flattenAll, setFlag, storing] at hs
  obtain ⟨u, hu, -, hlog, -⟩ := scoped_storing.log_eq_of_completes expansion_storing hhandlers
    hdefinite hkept completes_storing
  exact ⟨_, _, _, u, expansion_storing, completes_storing, hu, rfl, hlog.symm⟩

/-- A handler that returns: where the call is made, the caller stores once. Where the call is expanded,
the caller stores in what the event started, and once more behind it. -/
theorem Program.resumed_twice :
    ∃ flat expanded t u, (interrupted (.ret default)).Expansion .always flat expanded ∧
      Completes (.global fun _ ↦ true) flat.listing hostMain {} u ∧
      Completes (.global fun _ ↦ true) expanded.listing hostMain {} t ∧
      u.log = [(resumedX, .bool true)] ∧
      t.log = [(resumedX, .bool true), (resumedX, .bool true)] :=
  ⟨_, _, _, _, expansion_returning, completes_returning_flat, completes_returning, rfl, rfl⟩

end Wirescript
