import Mathlib.Dynamics.PeriodicPts.Defs
import Wirescript.Proofs.Connector
import Wirescript.Proofs.Handles

/-!
# The wires of a routine

What a connector is for, said in terms of the handles alone. A position in a list of handles is what
is left of the list from there on, and `Connector.Steps` is how control moves between positions
without running anything: past a handle that places nothing, past a label, and from a jump to its
label. Every terminal where execution leaves a handle is wired to where these steps arrive, once, and
not at all if they arrive nowhere (`finish_wires_control`).

Steps that go round in a circle are found by the search with a list of the positions it has seen.
That it reports every label on such a circle, and each one only where the circle is entered, rests on
the fact that a position that is left in one way only comes round again before any other does
(`follow_of_periodic`).
-/

namespace Wirescript

open Relation
open Destination (next?)
open List hiding next?

variable {a : Anchor} {c : Connector} {fault : Fault} {h : Handle}
  {entries : List (Label × List Terminal)} {seen : List Anchor} {there : List Handle}
  {wires : List Wire} {n steps : Nat} {d : Option Destination} {r : Connector.Resolution} {routine : String}

/-! ### Parts of handles -/

namespace Handle

/-- The handle is not a sequence. -/
def IsPart : Handle → Prop
  | .multi _ => False
  | _ => True

mutual

theorem isPart_of_mem_parts {h part : Handle} (hpart : part ∈ h.parts) : part.IsPart := by
  match h with
  | .multi handles => exact isPart_of_mem_partsOf hpart
  | .pass | .basic .. | .goto _ | .label _ | .branch .. | .rollback | .ret =>
    obtain rfl := mem_singleton.1 hpart
    trivial

theorem isPart_of_mem_partsOf {handles : List Handle} {part : Handle}
    (hpart : part ∈ partsOf handles) : part.IsPart := by
  match handles with
  | [] => cases hpart
  | h :: rest =>
    rcases mem_append.1 hpart with hpart | hpart
    · exact isPart_of_mem_parts hpart
    · exact isPart_of_mem_partsOf hpart

end

end Handle

namespace Connector

/-! ### Control between handles -/

/-- Control goes on from a position without anything being run. -/
inductive Steps (parts : List Handle) : List Handle → List Handle → Prop
  | pass (rest : List Handle) : Steps parts (.pass :: rest) rest
  | label (l : Label) (rest : List Handle) : Steps parts (.label l :: rest) rest
  | goto {l : Label} {before there : List Handle} (h : parts = before ++ .label l :: there)
      (rest : List Handle) : Steps parts (.goto l :: rest) (.label l :: there)

/-- From a position, control gets to a handle that execution enters by a terminal. -/
def Arrives (parts rest : List Handle) (t : Terminal) : Prop :=
  ∃ h there, ReflTransGen (Steps parts) rest (h :: there) ∧ h.entry? = some t

/-- The terminals where execution leaves handles, each with the position where control goes on. -/
def leaving : List Handle → List (Terminal × List Handle)
  | [] => []
  | .basic _ exits :: rest => exits.map (·, rest) ++ leaving rest
  | .branch _ fallThrough target jumps :: rest =>
    fallThrough.map (·, rest) ++ jumps.map (·, [.goto target]) ++ leaving rest
  | _ :: rest => leaving rest

/-- A jump to the label leads back to itself, past nothing but jumps, labels and handles that place
nothing. -/
def Spins (parts : List Handle) (l : Label) : Prop :=
  ∃ rest, .goto l :: rest <:+ parts ∧
    TransGen (Steps parts) (.goto l :: rest) (.goto l :: rest)

/-- Joins handles in order, with all wires that are made. -/
def pushAll (c : Connector) : List Handle → Connector × List Wire
  | [] => (c, [])
  | h :: rest =>
    let (joined, wires) := c.push h
    let (done, more) := joined.pushAll rest
    (done, wires ++ more)

variable {parts rest : List Handle} {t : Terminal} {l : Label}

/-! ### Steps and destinations -/

/-- Handles that place nothing lead to what follows them. -/
theorem steps_of_next? (parts : List Handle) {d : Destination} (hrest : ∀ h ∈ rest, h.IsPart)
    (h : next? rest = some d) : ∃ part tail, part :: tail <:+ rest ∧
      ReflTransGen (Steps parts) rest (part :: tail) ∧ next? [part] = some d := by
  induction rest with
  | nil => cases h
  | cons part rest ih =>
    obtain ⟨hpart, htail⟩ := forall_mem_cons.1 hrest
    cases part with
    | pass | label =>
      obtain ⟨part, tail, hsuffix, hsteps, hd⟩ := ih htail h
      exact ⟨part, tail, hsuffix.trans (suffix_cons _ _), .head (by constructor) hsteps, hd⟩
    | goto | basic | branch | rollback | ret => exact ⟨_, rest, suffix_refl _, .refl, h⟩
    | multi => exact hpart.elim

theorem steps_of_next?_goto (parts : List Handle) (hrest : ∀ h ∈ rest, h.IsPart)
    (h : next? rest = some (.goto l)) :
    ∃ tail, .goto l :: tail <:+ rest ∧ ReflTransGen (Steps parts) rest (.goto l :: tail) := by
  obtain ⟨part, tail, hsuffix, hsteps, hd⟩ := steps_of_next? parts hrest h
  obtain rfl : part = .goto l := by cases part <;> cases hd; rfl
  exact ⟨tail, hsuffix, hsteps⟩

theorem arrives_of_next?_terminal (hparts : ∀ h ∈ rest, h.IsPart)
    (h : next? rest = some (.terminal t)) : Arrives parts rest t := by
  obtain ⟨part, tail, -, hsteps, hd⟩ := steps_of_next? parts hparts h
  exact ⟨part, tail, hsteps, by cases part <;> cases hd <;> rfl⟩

theorem next?_of_hasEntry (hentry : h.entry? = some t) :
    next? (h :: rest) = some (.terminal t) := by
  cases h <;> first | cases hentry; rfl | cases hentry

/-- Steps stay before what follows, or go to a label and along aliases to where it stands. -/
theorem aliases_of_steps (hsteps : ReflTransGen (Steps parts) rest there) :
    next? rest = next? there ∨
      ∃ l m, next? rest = some (.goto l) ∧
        ReflTransGen (Alias parts) (.label l) (.label m) ∧
        Stands parts (.label m) (next? there) := by
  induction hsteps using ReflTransGen.head_induction_on with
  | refl => exact .inl rfl
  | head hstep _ ih =>
    cases hstep with
    | pass | label => exact ih
    | @goto l before _ hlabel tail =>
      refine .inr ?_
      rcases ih with hnext | ⟨l', m, hl', haliases, hm⟩
      · exact ⟨l, l, rfl, .refl, _, ⟨before, hlabel⟩, hnext⟩
      · exact ⟨l, m, rfl, .head ⟨l', ⟨_, ⟨before, hlabel⟩, hl'⟩, rfl⟩ haliases, hm⟩

/-- Control that arrives somewhere does so at what follows the position, or from the label of a jump
that follows there. -/
theorem next?_of_arrives (h : Arrives parts rest t) : next? rest = some (.terminal t) ∨
      ∃ l, next? rest = some (.goto l) ∧ Leads parts (.label l) t := by
  obtain ⟨part, there, hsteps, hentry⟩ := h
  have haliases := aliases_of_steps hsteps
  rw [next?_of_hasEntry hentry] at haliases
  refine haliases.imp_right ?_
  rintro ⟨l, m, hl, haliases, hm⟩
  exact ⟨l, hl, .label m, haliases, hm⟩

/-- Control gets from an anchor to a terminal exactly if it arrives there from the position. -/
theorem leads_iff (hparts : ∀ h ∈ parts, h.IsPart) :
    Leads parts a t ↔ ∃ rest, Place parts a rest ∧ Arrives parts rest t := by
  constructor
  · rintro ⟨b, haliases, hb⟩
    induction haliases using ReflTransGen.head_induction_on with
    | refl =>
      obtain ⟨rest, hrest, hnext⟩ := hb
      exact ⟨rest, hrest,
        arrives_of_next?_terminal (fun h hh ↦ hparts h (hrest.suffix.subset hh)) hnext⟩
    | head hstep _ ih =>
      obtain ⟨l, hl, rfl⟩ := hstep
      obtain ⟨rest, hrest, hnext⟩ := hl
      obtain ⟨tail, -, hsteps⟩ := steps_of_next?_goto parts
        (fun h hh ↦ hparts h (hrest.suffix.subset hh)) hnext
      obtain ⟨there, ⟨before, hlabel⟩, part, rest', hsteps', hentry⟩ := ih
      refine ⟨rest, hrest, part, rest', hsteps.trans ?_, hentry⟩
      exact .head (.goto hlabel tail) (.head (.label l there) hsteps')
  · rintro ⟨rest, hrest, harrives⟩
    rcases next?_of_arrives harrives with hnext | ⟨l, hnext, b, haliases, hb⟩
    · exact ⟨a, .refl, ⟨rest, hrest, hnext⟩⟩
    · exact ⟨b, .head ⟨l, ⟨rest, hrest, hnext⟩, rfl⟩ haliases, hb⟩

/-- Where control arrives from a position, by what follows there. -/
theorem arrives_iff (hparts : ∀ h ∈ parts, h.IsPart) (hrest : ∀ h ∈ rest, h.IsPart) :
    Arrives parts rest t ↔ next? rest = some (.terminal t) ∨
      ∃ l, next? rest = some (.goto l) ∧ Leads parts (.label l) t := by
  refine ⟨next?_of_arrives, ?_⟩
  rintro (hnext | ⟨l, hnext, hleads⟩)
  · exact arrives_of_next?_terminal hrest hnext
  · obtain ⟨tail, -, hsteps⟩ := steps_of_next?_goto parts hrest hnext
    obtain ⟨there, ⟨before, hlabel⟩, part, rest', hsteps', hentry⟩ := (leads_iff hparts).1 hleads
    refine ⟨part, rest', hsteps.trans ?_, hentry⟩
    exact .head (.goto hlabel tail) (.head (.label l there) hsteps')

/-! ### What is wired and what is left -/

/-- The terminals where execution leaves handles, each with what follows. -/
def loose (parts : List Handle) : List (Terminal × Option Destination) :=
  (leaving parts).map fun e ↦ (e.1, next? e.2)

theorem loose_append_singleton (parts : List Handle) (h : Handle) : loose (parts ++ [h]) =
    (loose parts).map (fun e ↦ (e.1, e.2.or (next? [h]))) ++ loose [h] := by
  induction parts with
  | nil => rfl
  | cons part parts ih =>
    unfold loose at ih ⊢
    cases part <;>
      simp [leaving, ih, Destination.next?_append, Function.comp_def, next?]

/-- The terminal, if nothing has followed yet. -/
def open? : Terminal × Option Destination → Option Terminal
  | (t, none) => some t
  | (_, some _) => none

/-- The wire, if a terminal follows. -/
def wire? : Terminal × Option Destination → Option Wire
  | (t, some (.terminal target)) => some ⟨t, target⟩
  | _ => none

/-- The label and the terminal, if a jump follows. -/
def jump? : Terminal × Option Destination → Option (Label × Terminal)
  | (t, some (.goto l)) => some (l, t)
  | _ => none

/-- The terminals of a table of jumps, each with its label. -/
def jumpPairs (entries : List (Label × List Terminal)) : List (Label × Terminal) :=
  entries.flatMap fun e ↦ e.2.map (e.1, ·)

theorem jumpPairs_put (entries : List (Label × List Terminal)) (l : Label) (more : List Terminal) :
    (jumpPairs (Table.put entries l ((Table.find? entries l).getD [] ++ more))).Perm
      (jumpPairs entries ++ more.map (l, ·)) := by
  induction entries with
  | nil => simp [jumpPairs, Table.put, Table.find?]
  | cons entry rest ih =>
    obtain ⟨key, -⟩ := entry
    by_cases hkey : key = l
    · subst hkey
      simp only [jumpPairs, Table.put, Table.find?, if_true, flatMap_cons, map_append,
        append_assoc]
      exact List.Perm.append_left _ perm_append_comm
    · simp only [jumpPairs, Table.put, Table.find?, if_neg hkey, flatMap_cons,
        append_assoc]
      exact List.Perm.append_left _ ih

/-- What is found among terminals after one more handle: what was found before, and what is found
among those that waited. -/
theorem perm_filterMap_or {β : Type} {f : Terminal × Option Destination → Option β}
    (hf : ∀ t, f (t, none) = none) (d : Option Destination)
    (es : List (Terminal × Option Destination)) :
    ((es.map fun e ↦ (e.1, e.2.or d)).filterMap f).Perm
      (es.filterMap f ++ (es.filterMap open?).filterMap fun t ↦ f (t, d)) := by
  induction es with
  | nil => exact .refl _
  | cons e es ih =>
    obtain ⟨t, _ | d'⟩ := e
    · rw [map_cons, Option.none_or, filterMap_cons_none (hf t),
        filterMap_cons_some (f := open?) rfl, filterMap_cons, filterMap_cons]
      cases hd : f (t, d) with
      | none => exact ih
      | some b => exact (ih.cons b).trans perm_middle.symm
    · rw [map_cons, Option.some_or, filterMap_cons, filterMap_cons]
      cases hd : f (t, some d') with
      | none => exact ih
      | some b => exact ih.cons b

theorem filterMap_open?_or (d : Option Destination) (es : List (Terminal × Option Destination)) :
    (es.map fun e ↦ (e.1, e.2.or d)).filterMap open? =
      if d.isNone then es.filterMap open? else [] := by
  cases d with
  | none => simp
  | some d =>
    rw [filterMap_map, filterMap_eq_nil_iff.2]
    · rfl
    · rintro ⟨t, _ | d'⟩ - <;> rfl

section Push

theorem pending_pushPart (hpart : h.IsPart) : (c.pushPart h).1.pending =
    (if (next? [h]).isNone then c.pending else []) ++ (loose [h]).filterMap open? := by
  cases h <;> first | exact hpart.elim | simp [pushPart, next?, loose, leaving, open?,
    Function.comp_def]

theorem wires_pushPart (hpart : h.IsPart) : (c.pushPart h).2 =
    c.pending.filterMap fun t ↦ wire? (t, next? [h]) := by
  cases h <;> first | exact hpart.elim | simp [pushPart, next?, wire?, wiresTo]

theorem jumpPairs_pushPart (hpart : h.IsPart) : (jumpPairs (c.pushPart h).1.jumps.entries).Perm
    (jumpPairs c.jumps.entries ++ (c.pending.filterMap fun t ↦ jump? (t, next? [h])) ++
      (loose [h]).filterMap jump?) := by
  have hjump (target : Label) (sources : List Terminal) :
      (jumpPairs (c.jump target sources).jumps.entries).Perm
        (jumpPairs c.jumps.entries ++ sources.map (Prod.mk target)) :=
    jumpPairs_put c.jumps.entries target sources
  cases h with
  | multi => exact hpart.elim
  | goto target =>
    simpa [pushPart, settle, next?, jump?, loose, leaving] using hjump target c.pending
  | branch entry onward target jumps =>
    simpa [pushPart, settle, jump, next?, jump?, loose, leaving,
      Function.comp_def] using hjump target jumps
  | pass | basic | label | rollback | ret =>
    simp [pushPart, settle, next?, jump?, loose, leaving, Function.comp_def]

end Push

/-- How often each terminal is wired, waits, or is kept for a jump. -/
structure Exact (parts : List Handle) (c : Connector) (wires : List Wire) : Prop where
  pending : c.pending = (loose parts).filterMap open?
  wires : wires.Perm ((loose parts).filterMap wire?)
  jumps : (jumpPairs c.jumps.entries).Perm ((loose parts).filterMap jump?)

namespace Exact

theorem nil (routine : String) : Exact [] { routine := routine } [] := ⟨rfl, .refl _, .refl _⟩

theorem pushPart (hc : Exact parts c wires) (hpart : h.IsPart) :
    Exact (parts ++ [h]) (c.pushPart h).1 (wires ++ (c.pushPart h).2) where
  pending := by
    rw [pending_pushPart hpart, loose_append_singleton, filterMap_append, filterMap_open?_or,
      hc.pending]
  wires := by
    have hown : (loose [h]).filterMap wire? = [] := by
      cases h <;> simp [loose, leaving, wire?, next?]
    rw [wires_pushPart hpart, loose_append_singleton, filterMap_append, hown, append_nil,
      hc.pending]
    exact (hc.wires.append_right _).trans (perm_filterMap_or (fun _ ↦ rfl) _ _).symm
  jumps := by
    refine (jumpPairs_pushPart hpart).trans ?_
    rw [loose_append_singleton, filterMap_append, hc.pending]
    exact ((hc.jumps.append_right _).trans (perm_filterMap_or (fun _ ↦ rfl) _ _).symm).append_right _

end Exact

/-- What every part keeps, a handle keeps. -/
theorem push_induction {P : List Handle → Connector → List Wire → Prop}
    (hP : ∀ {parts c wires h}, Handle.IsPart h → P parts c wires →
      P (parts ++ [h]) (c.pushPart h).1 (wires ++ (c.pushPart h).2)) (h : Handle)
    (hc : P parts c wires) : P (parts ++ h.parts) (c.push h).1 (wires ++ (c.push h).2) := by
  -- the fold of `push`, for any step that joins one part
  have hfold {step : Connector × List Wire → Handle → Connector × List Wire}
      (hstep : ∀ c wires part,
        step (c, wires) part = ((c.pushPart part).1, wires ++ (c.pushPart part).2))
      (hs : List Handle) (hparts : ∀ h ∈ hs, h.IsPart) (parts : List Handle) (c : Connector)
      (more : List Wire) (hc : P parts c (wires ++ more)) :
      P (parts ++ hs) (hs.foldl step (c, more)).1 (wires ++ (hs.foldl step (c, more)).2) := by
    induction hs generalizing parts c more with
    | nil => simpa using hc
    | cons part rest ih =>
      obtain ⟨hpart, hrest⟩ := forall_mem_cons.1 hparts
      rw [foldl_cons, append_cons, hstep]
      refine ih hrest _ _ _ ?_
      rw [← append_assoc]
      exact hP hpart hc
  exact hfold (fun _ _ _ ↦ rfl) h.parts (fun _ ↦ Handle.isPart_of_mem_parts) parts c []
    (by simpa using hc)

/-! ### Jumps that lead back to themselves -/

/-- An alias is followed by steps: to the jump, to its label and past it. -/
theorem Closed.steps_of_alias (h : Closed parts) (hparts : ∀ h ∈ parts, h.IsPart)
    (hl : Stands parts a (some (.goto l))) (hrest : Place parts a rest) :
    ∃ tail there, .goto l :: tail <:+ parts ∧ Place parts (.label l) there ∧
      ReflTransGen (Steps parts) rest (.goto l :: tail) ∧
      TransGen (Steps parts) (.goto l :: tail) there := by
  obtain ⟨d, hd⟩ := h.exists_stands (exists_target_of_stands hl)
  obtain ⟨rest', hrest', hnext⟩ := hl
  obtain rfl := h.place_inj hrest hrest'
  obtain ⟨tail, hsuffix, hsteps⟩ := steps_of_next?_goto parts
    (fun h hh ↦ hparts h (hrest.suffix.subset hh)) hnext
  obtain ⟨there, ⟨before, hlabel⟩, -⟩ := hd
  refine ⟨tail, there, hsuffix.trans hrest.suffix, ⟨before, hlabel⟩, hsteps, ?_⟩
  exact .head (.goto hlabel tail) (.single (.label l there))

theorem Closed.steps_of_aliases (h : Closed parts) (hparts : ∀ h ∈ parts, h.IsPart) {b : Anchor}
    (hab : ReflTransGen (Alias parts) a b) (hrest : Place parts a rest)
    (hthere : Place parts b there) : ReflTransGen (Steps parts) rest there := by
  induction hab using ReflTransGen.head_induction_on generalizing rest with
  | refl => exact h.place_inj hrest hthere ▸ .refl
  | head hstep _ ih =>
    obtain ⟨l, hl, rfl⟩ := hstep
    obtain ⟨tail, mid, -, hmid, hsteps, hsteps'⟩ := h.steps_of_alias hparts hl hrest
    exact hsteps.trans (hsteps'.to_reflTransGen.trans (ih hmid))

/-- A jump that stands on a circle of aliases leads back to itself. -/
theorem Closed.spins_of_alias (h : Closed parts) (hparts : ∀ h ∈ parts, h.IsPart)
    (hcycle : TransGen (Alias parts) a a) (hl : Stands parts a (some (.goto l))) :
    Spins parts l := by
  obtain ⟨b, ⟨l', hl', rfl⟩, hback⟩ := TransGen.head'_iff.1 hcycle
  obtain rfl : l' = l := by simpa using h.stands_inj hl' hl
  obtain ⟨rest, hrest, hnext⟩ := hl
  obtain ⟨tail, there, hsuffix, hthere, hsteps, hsteps'⟩ :=
    h.steps_of_alias hparts ⟨rest, hrest, hnext⟩ hrest
  exact ⟨tail, hsuffix,
    hsteps'.trans_left ((h.steps_of_aliases hparts hback hthere hrest).trans hsteps)⟩

/-- A jump that leads back to itself stands at a label on a circle of aliases, and that label is
jumped to. -/
theorem alias_of_spins (h : Spins parts l) : ∃ m, TransGen (Alias parts) (.label m) (.label m) ∧
      Stands parts (.label m) (some (.goto l)) ∧ ∃ part ∈ parts, part.target? = some m := by
  obtain ⟨rest, hsuffix, hcycle⟩ := h
  have htarget : ∃ part ∈ parts, part.target? = some l :=
    ⟨_, hsuffix.subset (.head _), rfl⟩
  obtain ⟨_, hstep, hback⟩ := TransGen.head'_iff.1 hcycle
  cases hstep with
  | @goto _ before there hlabel =>
    have hstands {d : Option Destination} (hd : next? (.label l :: there) = d) :
        Stands parts (.label l) d := ⟨there, ⟨before, hlabel⟩, hd⟩
    rcases aliases_of_steps hback with hl | ⟨l', m, hl', haliases, hm⟩
    · exact ⟨l, .single ⟨l, hstands hl, rfl⟩, hstands hl, htarget⟩
    · refine ⟨m, .head ⟨l, hm, rfl⟩ (.head' ⟨l', hstands hl', rfl⟩ haliases), hm, ?_⟩
      -- the label is the first one of the aliases, or one of them leads there
      rcases ReflTransGen.cases_tail haliases with heq | ⟨a, -, l₁, hl₁, heq⟩
      · cases heq
        exact exists_target_of_stands (hstands hl')
      · cases heq
        exact exists_target_of_stands hl₁

/-! ### The search for circles -/

/-- Where control goes on from a position by a jump; a position where no jump follows stays. -/
def hop (c : Connector) (a : Anchor) : Anchor :=
  match c.destinations.get? a with
  | some (.goto l) => .label l
  | _ => a

section Search

theorem hop_of_goto (h : c.destinations.get? a = some (.goto l)) : c.hop a = .label l := by
  rw [hop, h]

/-- A position that comes round again has only jumps on the way. -/
theorem exists_goto_of_periodic (ha : c.destinations.get? a = some (.goto l)) (hn : 0 < n)
    (hperiod : Function.IsPeriodicPt c.hop n a) (i : Nat) :
    ∃ l', c.destinations.get? (c.hop^[i] a) = some (.goto l') := by
  by_contra hnone
  have hfixed : c.hop (c.hop^[i] a) = c.hop^[i] a := by
    rw [hop]
    split
    · next l' hl' => exact (hnone ⟨l', hl'⟩).elim
    · rfl
  -- control would stay there and never come back
  have hback : c.hop^[i] a = a := by
    have hle : i ≤ n * (i + 1) := Nat.le_trans (Nat.le_succ i) (Nat.le_mul_of_pos_left _ hn)
    calc c.hop^[i] a = c.hop^[n * (i + 1) - i] (c.hop^[i] a) :=
          (Function.iterate_fixed hfixed _).symm
      _ = c.hop^[n * (i + 1)] a := by rw [← Function.iterate_add_apply, Nat.sub_add_cancel hle]
      _ = a := hperiod.mul_const (i + 1)
  exact hnone ⟨l, by rw [hback, ha]⟩

/-- From a position that comes round again, the search finds the jump that follows there: up to then
it sees every position only once. -/
theorem follow_of_periodic (ha : c.destinations.get? a = some (.goto l)) (hn : 0 < n)
    (hperiod : Function.IsPeriodicPt c.hop n a) {i : Nat} (hi : i ≤ Function.minimalPeriod c.hop a)
    (hseen : ∀ b, b ∈ seen ↔ ∃ j < i, b = c.hop^[j] a)
    (hr : c.follow steps seen (c.hop^[i] a) = .ok r) : r = .loop l := by
  have hpos : 0 < Function.minimalPeriod c.hop a := hperiod.minimalPeriod_pos hn
  induction steps generalizing i seen with
  | zero => cases hr
  | succ steps ih =>
    obtain ⟨l', hl'⟩ := exists_goto_of_periodic ha hn hperiod i
    rw [follow, hl'] at hr
    dsimp only at hr
    split at hr
    · next hmem =>
      obtain ⟨j, hj, heq⟩ := (hseen _).1 hmem
      have hlast : i = Function.minimalPeriod c.hop a := by
        by_contra hne
        have hlt : i < Function.minimalPeriod c.hop a := by omega
        have := Function.iterate_injOn_Iio_minimalPeriod (f := c.hop) (x := a) hlt
          (hj.trans hlt) heq
        omega
      rw [hlast, Function.iterate_minimalPeriod, ha] at hl'
      cases hl'
      exact (Except.ok.inj hr).symm
    · next hnew =>
      have hlt : i < Function.minimalPeriod c.hop a := by
        refine Nat.lt_of_le_of_ne hi fun heq ↦ hnew ((hseen _).2 ⟨0, by omega, ?_⟩)
        rw [heq, Function.iterate_minimalPeriod]
        rfl
      have hhop : c.hop^[i + 1] a = .label l' := by
        rw [Function.iterate_succ_apply', hop_of_goto hl']
      refine ih hlt (fun b ↦ ?_) (hhop.symm ▸ hr)
      rw [mem_cons, hseen]
      constructor
      · rintro (rfl | ⟨j, hj, rfl⟩)
        exacts [⟨i, Nat.lt_succ_self i, rfl⟩, ⟨j, Nat.lt_succ_of_lt hj, rfl⟩]
      · rintro ⟨j, hj, rfl⟩
        rcases Nat.lt_succ_iff_lt_or_eq.1 hj with hj | rfl
        exacts [.inr ⟨j, hj, rfl⟩, .inl rfl]

theorem Settled.get?_of_stands (hc : Settled parts c) (h : Closed parts)
    (ha : Stands parts a (some (.goto l))) : c.destinations.get? a = some (.goto l) := by
  obtain ⟨d, hd⟩ := hc.total a _ ha
  rcases hc.found a d hd with hstands | ⟨hstands, -⟩
  · rw [hd, h.stands_inj ha hstands]
  · cases h.stands_inj ha hstands

/-- What the search reports from a label that is on a circle. -/
theorem Settled.resolve_of_alias (hc : Settled parts c) (h : Closed parts)
    (hcycle : TransGen (Alias parts) a a) (ha : Stands parts a (some (.goto l))) :
    c.resolve a = .ok (.loop l) := by
  have hhop {a b : Anchor} (hab : TransGen (Alias parts) a b) : ∃ n, 0 < n ∧ c.hop^[n] a = b := by
    induction hab with
    | single hstep =>
      obtain ⟨l, hl, rfl⟩ := hstep
      exact ⟨1, Nat.one_pos, hop_of_goto (hc.get?_of_stands h hl)⟩
    | tail _ hstep ih =>
      obtain ⟨l, hl, rfl⟩ := hstep
      obtain ⟨n, hn, rfl⟩ := ih
      refine ⟨n + 1, Nat.succ_pos n, ?_⟩
      rw [Function.iterate_succ_apply', hop_of_goto (hc.get?_of_stands h hl)]
  obtain ⟨n, hn, hperiod⟩ := hhop hcycle
  obtain ⟨r, hr, -⟩ := hc.resolve h ha
  rw [hr, follow_of_periodic (hc.get?_of_stands h ha) hn hperiod (i := 0) (Nat.zero_le _)
    (by simp) hr]

end Search

/-! ### Closing a routine, with every wire once -/

section Close

theorem yields_closeAt (hr : c.resolve a = .ok r) (s : Closing) :
    ∃ s', Yields (c.closeAt a) s r.terminal? s' ∧ s'.wires = s.wires ∧
      (s.emptyLoops.Nodup → s'.emptyLoops.Nodup) ∧
      ∀ l, l ∈ s'.emptyLoops ↔ l ∈ s.emptyLoops ∨ r = .loop l := by
  cases r with
  | terminal | finish => exact ⟨s, (yields_lift.2 ⟨hr, rfl⟩).bind rfl, rfl, id, by simp⟩
  | loop l =>
    have hyields : Yields (c.closeAt a) s none { s with
        notices := s.notices ++ [.emptyLoop c.routine l]
        emptyLoops := if l ∈ s.emptyLoops then s.emptyLoops else s.emptyLoops ++ [l] } :=
      (yields_lift.2 ⟨hr, rfl⟩).bind rfl
    refine ⟨_, hyields, rfl, fun hnodup ↦ ?_, fun l' ↦ ?_⟩
    · dsimp only
      split
      · exact hnodup
      · next hnew => exact hnodup.append (nodup_singleton l) (by simpa using hnew)
    · dsimp only
      split
      · next hmem =>
        refine ⟨.inl, ?_⟩
        rintro (h | h)
        · exact h
        · cases h
          exact hmem
      · simp [eq_comm]

/-- The terminal where control gets to from a position, if there is one. -/
def target? (c : Connector) (a : Anchor) : Option Terminal :=
  (c.resolve a).toOption.bind Resolution.terminal?

/-- The wire of a terminal that jumps to a label. -/
def jumpWire? (c : Connector) (jump : Label × Terminal) : Option Wire :=
  (c.target? (.label jump.1)).map (Wire.mk jump.2)

theorem yields_closeJumps (hentries : ∀ e ∈ entries, ∃ r, c.resolve (.label e.1) = .ok r)
    (s : Closing) : ∃ s', Yields (c.closeJumps entries) s () s' ∧
      s'.wires = s.wires ++ (jumpPairs entries).filterMap c.jumpWire? ∧
      (s.emptyLoops.Nodup → s'.emptyLoops.Nodup) ∧
      ∀ l, l ∈ s'.emptyLoops ↔
        l ∈ s.emptyLoops ∨ ∃ e ∈ entries, c.resolve (.label e.1) = .ok (.loop l) := by
  induction entries generalizing s with
  | nil => exact ⟨s, rfl, by simp [jumpPairs], id, by simp⟩
  | cons e rest ih =>
    obtain ⟨l, sources⟩ := e
    obtain ⟨⟨r, hr⟩, hrest⟩ := forall_mem_cons.1 hentries
    obtain ⟨s₁, hs₁, hwires₁, hnodup₁, hloops₁⟩ := yields_closeAt hr s
    obtain ⟨s₂, hs₂, hwires₂, hnodup₂, hloops₂⟩ := ih hrest { s₁ with
      notices := s₁.notices ++ [.resolved c.routine l r.terminal?]
      wires := s₁.wires ++ (r.terminal?.map fun t ↦ wiresTo t sources).getD [] }
    refine ⟨s₂, ?_, ?_, hnodup₂ ∘ hnodup₁, fun l' ↦ ?_⟩
    · rw [closeJumps]
      exact hs₁.bind (yields_bind.2 ⟨⟨⟩, _, yields_modify.2 rfl, hs₂⟩)
    · have hnew : (sources.map (Prod.mk l)).filterMap c.jumpWire? =
          (r.terminal?.map fun t ↦ wiresTo t sources).getD [] := by
        cases ht : r.terminal? <;>
          simp [Function.comp_def, jumpWire?, target?, hr, ht, wiresTo, Except.toOption]
      have hcons : jumpPairs ((l, sources) :: rest) = sources.map (Prod.mk l) ++ jumpPairs rest :=
        rfl
      rw [hwires₂, hwires₁, ← hnew, hcons, filterMap_append, append_assoc]
    · rw [hloops₂, hloops₁, exists_mem_cons_iff, hr, or_assoc, Except.ok.injEq]

theorem error_closeJumps {e : Label × List Terminal} (he : e ∈ entries)
    (hfault : c.resolve (.label e.1) = .error fault) (s : Closing) :
    ∃ e' ∈ entries, ∃ fault' s', c.resolve (.label e'.1) = .error fault' ∧
      (c.closeJumps entries).run s = (.error fault', s') := by
  induction entries generalizing s with
  | nil => cases he
  | cons first rest ih =>
    obtain ⟨l, sources⟩ := first
    rw [closeJumps]
    cases hr : c.resolve (.label l) with
    | error fault' =>
      have hat : (c.closeAt (.label l)).run s = (.error fault', s) := by
        refine run_bind_of_error ?_
        rw [hr]
        rfl
      exact ⟨(l, sources), .head _, fault', s, hr, run_bind_of_error hat⟩
    | ok r =>
      have hrest : e ∈ rest := by
        rcases mem_cons.1 he with rfl | he
        · cases hr.symm.trans hfault
        · exact he
      obtain ⟨s₁, hs₁, -⟩ := yields_closeAt hr s
      obtain ⟨e', he', fault', s', hfault', hrun⟩ := ih hrest { s₁ with
        notices := s₁.notices ++ [.resolved c.routine l r.terminal?]
        wires := s₁.wires ++ (r.terminal?.map fun t ↦ wiresTo t sources).getD [] }
      refine ⟨e', .tail _ he', fault', s', hfault', ?_⟩
      rw [run_bind_of_ok hs₁]
      exact hrun

/-- A jump that cannot be resolved leads to one whose label is not defined. -/
theorem Settled.unresolved_of_resolve (hc : Settled parts c)
    (hl : ∃ part ∈ parts, part.target? = some l) (hfault : c.resolve (.label l) = .error fault) :
    ∃ l', (∃ part ∈ parts, part.target? = some l') ∧ l' ∉ parts.filterMap Handle.label? ∧
      fault = .unresolvedLabel c.routine l' := by
  obtain ⟨b, hb, hfinds⟩ := hc.finds (.label l)
  rw [hfault] at hfinds
  obtain ⟨hnone, rfl⟩ := hfinds
  obtain ⟨l', rfl, hl'⟩ : ∃ l', b = .label l' ∧ ∃ part ∈ parts, part.target? = some l' := by
    rcases hb.cases_tail with rfl | ⟨a, -, l', hl', rfl⟩
    · exact ⟨l, rfl, hl⟩
    · exact ⟨l', rfl, exists_target_of_stands hl'⟩
  refine ⟨l', hl', fun hdefined ↦ ?_, rfl⟩
  obtain ⟨d, hd⟩ := exists_stands_of_label hdefined
  obtain ⟨d', hd'⟩ := hc.total _ d hd
  cases hnone.symm.trans hd'

end Close

/-! ### The wires of all handles -/

theorem routine_pushPart (c : Connector) (h : Handle) : (c.pushPart h).1.routine = c.routine := by
  cases h <;> rfl

/-- What is known of a connector after some handles. -/
structure Pushed (routine : String) (parts : List Handle) (c : Connector) (wires : List Wire) :
    Prop where
  joined : Joined parts c
  counted : Exact parts c wires
  named (l : Label) (h : ∃ part ∈ parts, part.target? = some l) : l ∈ c.jumps.keys
  routine : c.routine = routine
  simple (h : Handle) (hh : h ∈ parts) : h.IsPart

theorem Pushed.nil (routine : String) : Pushed routine [] { routine } [] :=
  ⟨.nil routine, .nil routine, by simp, rfl, by simp⟩

/-- A handle is joined. -/
theorem Pushed.push (hc : Pushed routine parts c wires) (h : Handle) :
    Pushed routine (parts ++ h.parts) (c.push h).1 (wires ++ (c.push h).2) := by
  refine push_induction (P := Pushed routine) (fun hpart hc ↦ ?_) h hc
  refine ⟨hc.joined.pushPart _, hc.counted.pushPart hpart, fun l hl ↦ ?_, ?_, fun h hh ↦ ?_⟩
  · obtain ⟨part, hpart, hl⟩ := hl
    rw [mem_keys_pushPart]
    rcases mem_append.1 hpart with hpart | hpart
    · exact .inl (hc.named l ⟨part, hpart, hl⟩)
    · exact .inr (mem_singleton.1 hpart ▸ hl)
  · rw [routine_pushPart, hc.routine]
  · rcases mem_append.1 hh with hh | hh
    · exact hc.simple h hh
    · exact mem_singleton.1 hh ▸ hpart

theorem Pushed.pushAll (hc : Pushed routine parts c wires) (handles : List Handle) :
    Pushed routine (parts ++ handles.flatMap Handle.parts) (c.pushAll handles).1
      (wires ++ (c.pushAll handles).2) := by
  induction handles generalizing parts c wires with
  | nil => simpa [Connector.pushAll] using hc
  | cons h rest ih =>
    rw [flatMap_cons, ← append_assoc, Connector.pushAll]
    rw [← append_assoc]
    exact ih (hc.push h)

/-- The terminal where control gets to, by what follows. -/
def arrival? (c : Connector) : Option Destination → Option Terminal
  | some (.terminal t) => some t
  | some (.goto l) => c.target? (.label l)
  | some .finish | none => none

/-- The wire of a terminal, by what follows it. -/
def wireOf? (c : Connector) (e : Terminal × Option Destination) : Option Wire :=
  (c.arrival? e.2).map (Wire.mk e.1)

theorem perm_wires (c : Connector) (es : List (Terminal × Option Destination)) :
    (es.filterMap wire? ++ (es.filterMap jump?).filterMap c.jumpWire?).Perm
      (es.filterMap c.wireOf?) := by
  induction es with
  | nil => exact .refl _
  | cons e es ih =>
    obtain ⟨t, _ | - | _ | l⟩ := e
    · exact ih
    · exact ih.cons _
    · exact ih
    · have hcons : c.wireOf? (t, some (.goto l)) = c.jumpWire? (l, t) := rfl
      rw [filterMap_cons_none (f := wire?) rfl, filterMap_cons_some (f := jump?) rfl,
        filterMap_cons, filterMap_cons, hcons]
      cases c.jumpWire? (l, t) with
      | none => exact ih
      | some w => exact perm_middle.trans (ih.cons w)

/-- Where execution leaves a handle, the handles follow it or a jump to a label that it names. -/
theorem mem_or_goto_of_mem_leaving {e : Terminal × List Handle} (he : e ∈ leaving parts)
    (hh : h ∈ e.2) : h ∈ parts ∨ ∃ l, h = .goto l ∧ ∃ part ∈ parts, part.target? = some l := by
  induction parts with
  | nil => cases he
  | cons part parts ih =>
    have hlater (he : e ∈ leaving parts) :
        h ∈ part :: parts ∨ ∃ l, h = .goto l ∧ ∃ p ∈ part :: parts, p.target? = some l := by
      rcases ih he with hmem | ⟨l, rfl, p, hp, hl⟩
      · exact .inl (.tail _ hmem)
      · exact .inr ⟨l, rfl, p, .tail _ hp, hl⟩
    cases part with
    | basic entry exits =>
      rcases mem_append.1 he with he | he
      · obtain ⟨t, -, rfl⟩ := mem_map.1 he
        exact .inl (.tail _ hh)
      · exact hlater he
    | branch entry onward target jumps =>
      rcases mem_append.1 he with he | he
      · rcases mem_append.1 he with he | he
        · obtain ⟨t, -, rfl⟩ := mem_map.1 he
          exact .inl (.tail _ hh)
        · obtain ⟨t, -, rfl⟩ := mem_map.1 he
          exact .inr ⟨target, mem_singleton.1 hh, _, .head _, rfl⟩
      · exact hlater he
    | pass | goto | label | rollback | ret | multi => exact hlater he

namespace Settled

variable (hc : Settled parts c)

include hc

theorem target?_eq_some (h : Closed parts) (ha : Stands parts a d) :
    c.target? a = some t ↔ Leads parts a t := by
  obtain ⟨r, hr, ht⟩ := hc.resolve h ha
  rw [← ht, target?, hr]
  rfl

theorem arrival?_eq_some (h : Closed parts) (hparts : ∀ h ∈ parts, h.IsPart)
    (hrest : ∀ h ∈ rest, h.IsPart)
    (htarget : ∀ l, next? rest = some (.goto l) → ∃ part ∈ parts, part.target? = some l) :
    c.arrival? (next? rest) = some t ↔ Arrives parts rest t := by
  rw [arrives_iff hparts hrest]
  rcases hnext : next? rest with _ | target | _ | l
  · simp [arrival?]
  · simp [arrival?]
  · simp [arrival?]
  · obtain ⟨d, hd⟩ := h.exists_stands (htarget l hnext)
    simp [arrival?, hc.target?_eq_some h hd]

/-- A circle is reported only for a jump that leads back to itself. -/
theorem spins_of_resolve (h : Closed parts) (hparts : ∀ h ∈ parts, h.IsPart)
    (ha : c.resolve a = .ok (.loop l)) : Spins parts l := by
  obtain ⟨b, -, hfinds⟩ := hc.finds a
  rw [ha] at hfinds
  exact h.spins_of_alias hparts hfinds.2 hfinds.1

end Settled

namespace Pushed

theorem finish_of_closed (hc : Pushed routine parts c wires) (h : Closed parts) :
    ∃ (entry : Option Terminal) (closing : Closing) (target : List Handle → Option Terminal),
      c.finish = (.ok entry, closing) ∧
      (∀ e ∈ leaving parts, ∀ t, target e.2 = some t ↔ Arrives parts e.2 t) ∧
      (wires ++ closing.wires).Perm
        ((leaving parts).filterMap fun e ↦ (target e.2).map (Wire.mk e.1)) ∧
      (∀ t, entry = some t ↔ Arrives parts parts t) ∧
      closing.emptyLoops.Nodup ∧ ∀ l, l ∈ closing.emptyLoops ↔ Spins parts l := by
  have hsettled := hc.joined.settle
  generalize hclosed : ({ c.settle .finish with pending := [] } : Connector) = closed at hsettled
  have hjumps : closed.jumps = c.jumps := by rw [← hclosed, settle]
  have hkeys : ∀ e ∈ closed.jumps.entries, ∃ r, closed.resolve (.label e.1) = .ok r := by
    intro e he
    rw [hjumps] at he
    obtain ⟨d, hd⟩ := h.exists_stands (hc.joined.keys e.1 (mem_map_of_mem he))
    obtain ⟨r, hr, -⟩ := hsettled.resolve h hd
    exact ⟨r, hr⟩
  obtain ⟨s, hs, hwires, hnodup, hloops⟩ := yields_closeJumps hkeys {}
  obtain ⟨r, hr, hentry⟩ := hsettled.resolve h (a := .entry) ⟨parts, rfl, rfl⟩
  obtain ⟨s', hs', hwires', hnodup', hloops'⟩ := yields_closeAt hr s
  refine ⟨r.terminal?, s', fun rest ↦ closed.arrival? (next? rest), ?_,
    fun e he t ↦ ?_, ?_, fun t ↦ ?_, hnodup' (hnodup nodup_nil), fun l ↦ ?_⟩
  · subst hclosed
    exact hs.bind hs'
  · refine hsettled.arrival?_eq_some h hc.simple (fun part hpart ↦ ?_) fun l hl ↦ ?_
    · rcases mem_or_goto_of_mem_leaving he hpart with hpart | ⟨l, rfl, -⟩
      · exact hc.simple part hpart
      · trivial
    · obtain ⟨part, hpart, htarget⟩ := exists_target_of_next? hl
      rcases mem_or_goto_of_mem_leaving he hpart with hpart | ⟨l', rfl, hl'⟩
      · exact ⟨part, hpart, htarget⟩
      · cases htarget
        exact hl'
  · have hclosing : s'.wires = (jumpPairs c.jumps.entries).filterMap closed.jumpWire? := by
      rw [hwires', hwires, hjumps]
      rfl
    rw [hclosing]
    refine ((hc.counted.wires.append (hc.counted.jumps.filterMap _)).trans
      (perm_wires closed _)).trans ?_
    rw [loose, filterMap_map]
    exact .refl _
  · rw [hentry, leads_iff hc.simple]
    simp [Place]
  · rw [hloops', hloops]
    constructor
    · rintro ((hl | ⟨e, -, hl⟩) | rfl)
      · cases hl
      · exact hsettled.spins_of_resolve h hc.simple hl
      · exact hsettled.spins_of_resolve h hc.simple hr
    · intro hl
      obtain ⟨m, hm, hstands, hnamed⟩ := alias_of_spins hl
      obtain ⟨e, he, rfl⟩ := mem_map.1 (hc.named m hnamed)
      exact .inl (.inr ⟨e, hjumps ▸ he, hsettled.resolve_of_alias h hm hstands⟩)

/-- A jump to a label that is not defined is a fault, at such a jump. -/
theorem finish_of_undefined (hc : Pushed routine parts c wires)
    (hl : ∃ part ∈ parts, part.target? = some l) (hundefined : l ∉ parts.filterMap Handle.label?) :
    ∃ l', (∃ part ∈ parts, part.target? = some l') ∧ l' ∉ parts.filterMap Handle.label? ∧
      c.finish.1 = .error (.unresolvedLabel routine l') := by
  have hsettled := hc.joined.settle
  generalize hclosed : ({ c.settle .finish with pending := [] } : Connector) = closed at hsettled
  have hjumps : closed.jumps = c.jumps := by rw [← hclosed, settle]
  have hroutine : closed.routine = routine := by rw [← hclosed, settle, ← hc.routine]
  obtain ⟨e, he, rfl⟩ := mem_map.1 (hc.named l hl)
  have hnone : closed.destinations.get? (.label e.1) = none := by
    by_contra hsome
    obtain ⟨d, hd⟩ := Option.ne_none_iff_exists'.1 hsome
    have hstands : ∃ d, Stands parts (.label e.1) d := by
      rcases hsettled.found _ d hd with hd | ⟨hd, -⟩
      exacts [⟨_, hd⟩, ⟨_, hd⟩]
    obtain ⟨d, rest, ⟨before, rfl⟩, -⟩ := hstands
    exact hundefined (by simp [Handle.label?])
  have hfault : closed.resolve (.label e.1) = .error (closed.unsettled (.label e.1)) := by
    rw [Connector.resolve, follow, hnone]
  obtain ⟨e', he', fault, s, hresolve, hrun⟩ := error_closeJumps (hjumps ▸ he) hfault {}
  rw [hjumps] at he'
  obtain ⟨l', hl', hundefined', rfl⟩ := hsettled.unresolved_of_resolve
    (hc.joined.keys _ (mem_map_of_mem he')) hresolve
  refine ⟨l', hl', hundefined', ?_⟩
  rw [← hroutine]
  subst hclosed
  exact congrArg Prod.fst (run_bind_of_error hrun)

end Pushed

/-- The connector wires exactly the control flow. If no label is defined twice and every jump names
one that is, closing ends well: every terminal where execution leaves a handle is wired once to where
control arrives from there, and not at all if it arrives nowhere; execution enters where control
arrives from the start; and the loops without a block are those of the jumps that lead back to
themselves, each once. A jump to a label that is not defined is reported instead. -/
theorem finish_wires_control (routine : String) (handles : List Handle) :
    let parts := handles.flatMap Handle.parts
    let joined := pushAll { routine } handles
    (Closed parts →
      ∃ (entry : Option Terminal) (closing : Closing) (target : List Handle → Option Terminal),
        joined.1.finish = (.ok entry, closing) ∧
        (∀ e ∈ leaving parts, ∀ t, target e.2 = some t ↔ Arrives parts e.2 t) ∧
        (joined.2 ++ closing.wires).Perm
          ((leaving parts).filterMap fun e ↦ (target e.2).map (Wire.mk e.1)) ∧
        (∀ t, entry = some t ↔ Arrives parts parts t) ∧
        closing.emptyLoops.Nodup ∧ ∀ l, l ∈ closing.emptyLoops ↔ Spins parts l) ∧
    ∀ l, (∃ part ∈ parts, part.target? = some l) → l ∉ parts.filterMap Handle.label? →
      ∃ l', (∃ part ∈ parts, part.target? = some l') ∧ l' ∉ parts.filterMap Handle.label? ∧
        joined.1.finish.1 = .error (.unresolvedLabel routine l') := by
  intro parts joined
  have hpushed : Pushed routine parts joined.1 joined.2 := (Pushed.nil routine).pushAll handles
  exact ⟨hpushed.finish_of_closed, fun _ ↦ hpushed.finish_of_undefined⟩

/-- A block that execution enters at the top and leaves at the bottom. -/
def passThrough (block : Nat) : Handle :=
  .basic ⟨block, .input, 0, .void⟩ [⟨block, .output, 0, .void⟩]

/-- A ring of two jumps, entered from a branch before it, and a loop around a block:
`b0; if (c) goto x; goto y; x: goto y; y: goto x; w: b2; goto w;`. -/
def ring : List Handle :=
  [.multi [passThrough 0, .branch ⟨1, .input, 0, .void⟩ [⟨1, .output, 1, .void⟩] ⟨"x"⟩
      [⟨1, .output, 0, .void⟩]],
    .goto ⟨"y"⟩, .label ⟨"x"⟩, .multi [.pass, .goto ⟨"y"⟩], .multi [.label ⟨"y"⟩, .goto ⟨"x"⟩],
    .label ⟨"w"⟩, passThrough 2, .goto ⟨"w"⟩]

theorem closed_ring : Closed (ring.flatMap Handle.parts) where
  nodup := by decide
  defined l h := by
    have htargets : (ring.flatMap Handle.parts).filterMap Handle.target? ⊆
        (ring.flatMap Handle.parts).filterMap Handle.label? := by decide
    exact htargets (mem_filterMap.2 h)

theorem finish_wires_control_ring :
    (∀ l, Spins (ring.flatMap Handle.parts) l ↔ l = ⟨"x"⟩ ∨ l = ⟨"y"⟩) ∧
    (∀ t, Arrives (ring.flatMap Handle.parts) (ring.flatMap Handle.parts) t ↔
      t = ⟨0, .input, 0, .void⟩) ∧
    (pushAll { routine := "main" } (ring.take 4)).1.finish.1 =
      .error (.unresolvedLabel "main" ⟨"y"⟩) := by
  have hfinish : (pushAll { routine := "main" } ring).1.finish.1 =
      .ok (some ⟨0, .input, 0, .void⟩) := rfl
  have hloops : (pushAll { routine := "main" } ring).1.finish.2.emptyLoops = [⟨"y"⟩, ⟨"x"⟩] := rfl
  obtain ⟨entry, closing, -, hring, -, -, hentry, -, hspins⟩ :=
    (finish_wires_control "main" ring).1 closed_ring
  rw [hring] at hfinish hloops
  have hundefined :
      (⟨"y"⟩ : Label) ∉ ((ring.take 4).flatMap Handle.parts).filterMap Handle.label? := by decide
  obtain ⟨l, ⟨part, hpart, htarget⟩, hl, hfault⟩ := (finish_wires_control "main" (ring.take 4)).2 _
    ⟨.goto ⟨"y"⟩, by simp [ring, Handle.parts], rfl⟩ hundefined
  refine ⟨fun l ↦ ?_, fun t ↦ ?_, ?_⟩
  · rw [← hspins, hloops]
    simp [or_comm]
  · rw [← hentry, Except.ok.inj hfinish]
    simp [eq_comm]
  · have htargets : ∀ l ∈ ((ring.take 4).flatMap Handle.parts).filterMap Handle.target?,
        l ∈ ((ring.take 4).flatMap Handle.parts).filterMap Handle.label? ∨ l = ⟨"y"⟩ := by decide
    rcases htargets l (mem_filterMap.2 ⟨part, hpart, htarget⟩) with hdefined | rfl
    · exact (hl hdefined).elim
    · exact hfault

end Connector

end Wirescript
