import Wirescript.Netlist.Connector
import Wirescript.Proofs.Preparation

/-!
# How handles are connected

What a connector does depends on the handles it is given, and is said here without its tables: a
terminal where execution leaves a handle is wired to what follows it, and a terminal that jumps is
wired to where control gets to from the label. `Connector.Joined` holds along all handles of a
routine, and every position can be resolved if no label is defined twice and all that are named are
defined.
-/

namespace Wirescript

open Relation
open List

variable {a : Anchor} {c : Connector} {h : Handle} {l : Label}
  {seen : List Anchor} {parts rest : List Handle} {steps : Nat} {d : Option Destination}
  {t : Terminal} {κ ν : Type}

/-! ### Keys of tables -/

theorem Table.keys_put_of_mem [DecidableEq κ] {entries : List (κ × ν)} {k : κ}
    (h : k ∈ entries.map Prod.fst) (v : ν) :
    (put entries k v).map Prod.fst = entries.map Prod.fst := by
  induction entries with
  | nil => cases h
  | cons entry rest ih =>
    rw [put]
    split
    · rfl
    · next hne =>
      have hmem : k ∈ rest.map Prod.fst := by simpa [Ne.symm hne] using h
      simp [ih hmem]

theorem Table.put_of_not_mem [DecidableEq κ] {entries : List (κ × ν)} {k : κ}
    (h : k ∉ entries.map Prod.fst) (v : ν) : put entries k v = entries ++ [(k, v)] := by
  induction entries with
  | nil => rfl
  | cons entry rest ih =>
    simp only [map_cons, mem_cons, not_or] at h
    rw [put, if_neg (Ne.symm h.1), ih h.2, cons_append]

theorem Table.nodup_keys_insert [DecidableEq κ] {t : Table κ ν} (h : t.keys.Nodup) (k : κ) (v : ν) :
    (t.insert k v).keys.Nodup := by
  by_cases hk : k ∈ t.keys
  · rw [keys, insert, keys_put_of_mem hk]
    exact h
  · rw [keys, insert, put_of_not_mem hk, map_append]
    exact h.append (nodup_singleton k) (by simpa using hk)

theorem Table.mem_keys_insert [DecidableEq κ] {t : Table κ ν} {k k' : κ} {v : ν} :
    k' ∈ (t.insert k v).keys ↔ k' = k ∨ k' ∈ t.keys := by
  by_cases hk : k ∈ t.keys
  · rw [keys, insert, keys_put_of_mem hk]
    refine ⟨.inr, ?_⟩
    rintro (rfl | h)
    exacts [hk, h]
  · rw [insert, put_of_not_mem hk]
    simp [keys, or_comm]

/-! ### What follows a handle -/

/-- What follows at the start of handles, past those that place nothing. -/
def Destination.next? : List Handle → Option Destination
  | [] => none
  | .pass :: rest | .label _ :: rest | .multi _ :: rest => next? rest
  | .basic entry _ :: _ | .branch entry _ _ _ :: _ => some (.terminal entry)
  | .goto target :: _ => some (.goto target)
  | .rollback :: _ | .ret :: _ => some .finish

theorem Destination.next?_append (xs ys : List Handle) :
    next? (xs ++ ys) = (next? xs).or (next? ys) := by
  induction xs with
  | nil => rfl
  | cons h rest ih => cases h <;> first | exact ih | rfl

theorem Destination.exists_of_next? {d : Destination} (h : next? rest = some d) :
    ∃ part ∈ rest, next? [part] = some d := by
  fun_induction next? rest with
  | case1 => cases h
  | case2 rest ih | case3 _ rest ih | case4 _ rest ih =>
    obtain ⟨part, hpart, hd⟩ := ih h
    exact ⟨part, .tail _ hpart, hd⟩
  | case5 | case6 | case7 | case8 | case9 => exact ⟨_, .head _, h⟩

namespace Handle

/-- The terminals from where execution goes on to the next handle. -/
def onward : Handle → List Terminal
  | .basic _ exits => exits
  | .branch _ fallThrough _ _ => fallThrough
  | _ => []

/-- The terminals from where execution goes to a label. -/
def jumpsTo (target : Label) : Handle → List Terminal
  | .branch _ _ l jumps => if l = target then jumps else []
  | _ => []

/-- The label that a handle names. -/
def target? : Handle → Option Label
  | .goto target | .branch _ _ target _ => some target
  | _ => none

/-- The label that a handle defines. -/
def label? : Handle → Option Label
  | .label l => some l
  | _ => none

end Handle

namespace Connector

/-- The position of an anchor: what is left of the handles there. -/
def Place (parts : List Handle) : Anchor → List Handle → Prop
  | .entry, rest => rest = parts
  | .label l, rest => ∃ before, parts = before ++ .label l :: rest

/-- What follows at a position. -/
def Stands (parts : List Handle) (a : Anchor) (d : Option Destination) : Prop :=
  ∃ rest, Place parts a rest ∧ Destination.next? rest = d

theorem Place.suffix (h : Place parts a rest) : rest <:+ parts := by
  cases a with
  | entry => exact h ▸ suffix_refl _
  | label l =>
    obtain ⟨-, rfl⟩ := h
    exact (suffix_cons _ _).trans (suffix_append _ _)

theorem place_append_singleton : Place (parts ++ [h]) a rest ↔
    (∃ rest', Place parts a rest' ∧ rest = rest' ++ [h]) ∨
      (∃ l, h = .label l ∧ a = .label l) ∧ rest = [] := by
  cases a with
  | entry => simp [Place]
  | label l =>
    constructor
    · rintro ⟨before, hparts⟩
      rcases eq_nil_or_concat rest with rfl | ⟨rest, last, rfl⟩
      · obtain ⟨rfl, hlast⟩ := append_inj' hparts rfl
        exact .inr ⟨⟨l, singleton_inj.1 hlast, rfl⟩, rfl⟩
      · rw [concat_eq_append] at hparts ⊢
        rw [← cons_append, ← append_assoc] at hparts
        obtain ⟨rfl, hlast⟩ := append_inj' hparts rfl
        exact .inl ⟨rest, ⟨before, rfl⟩, by rw [hlast]⟩
    · rintro (⟨rest', ⟨before, rfl⟩, rfl⟩ | ⟨⟨l', rfl, hl⟩, rfl⟩)
      · exact ⟨before, by simp⟩
      · cases hl
        exact ⟨parts, rfl⟩

theorem stands_append_singleton : Stands (parts ++ [h]) a d ↔
    (∃ d', Stands parts a d' ∧ d = d'.or (Destination.next? [h])) ∨
      (∃ l, h = .label l ∧ a = .label l) ∧ d = none := by
  constructor
  · rintro ⟨rest, hrest, rfl⟩
    rcases place_append_singleton.1 hrest with ⟨rest, hplace, rfl⟩ | ⟨hl, rfl⟩
    · exact .inl ⟨_, ⟨rest, hplace, rfl⟩, Destination.next?_append _ _⟩
    · exact .inr ⟨hl, rfl⟩
  · rintro (⟨-, ⟨rest, hrest, rfl⟩, rfl⟩ | ⟨hl, rfl⟩)
    · exact ⟨_, place_append_singleton.2 (.inl ⟨rest, hrest, rfl⟩), Destination.next?_append _ _⟩
    · exact ⟨[], place_append_singleton.2 (.inr ⟨hl, rfl⟩), rfl⟩

theorem stands_none : Stands (parts ++ [h]) a none ↔
      Stands parts a none ∧ Destination.next? [h] = none ∨ ∃ l, h = .label l ∧ a = .label l := by
  rw [stands_append_singleton]
  refine or_congr ⟨?_, ?_⟩ (and_iff_left rfl)
  · rintro ⟨d, hd, hnone⟩
    obtain ⟨rfl, hnext⟩ := Option.or_eq_none_iff.1 hnone.symm
    exact ⟨hd, hnext⟩
  · rintro ⟨hd, hnext⟩
    exact ⟨none, hd, hnext.symm⟩

theorem stands_some {d : Destination} : Stands (parts ++ [h]) a (some d) ↔
      Stands parts a (some d) ∨ Stands parts a none ∧ Destination.next? [h] = some d := by
  rw [stands_append_singleton]
  constructor
  · rintro (⟨- | d', hd', hsome⟩ | ⟨-, hsome⟩)
    · exact .inr ⟨hd', hsome.symm⟩
    · cases hsome
      exact .inl hd'
    · cases hsome
  · rintro (hd | ⟨hd, hnext⟩)
    · exact .inl ⟨some d, hd, rfl⟩
    · exact .inl ⟨none, hd, hnext.symm⟩

/-! ### Joining one handle -/

section Push

theorem mem_waiting_pushPart : a ∈ (c.pushPart h).1.waiting ↔
    a ∈ c.waiting ∧ Destination.next? [h] = none ∨ ∃ l, h = .label l ∧ a = .label l := by
  cases h <;> simp [pushPart, Destination.next?, settle, jump]

theorem get?_foldl_insert [DecidableEq κ] (keys : List κ) (t : Table κ ν) (v : ν) (k : κ) :
    (keys.foldl (fun t k ↦ t.insert k v) t).get? k = if k ∈ keys then some v else t.get? k := by
  induction keys generalizing t with
  | nil => simp
  | cons key rest ih =>
    rw [foldl_cons, ih]
    by_cases hrest : k ∈ rest
    · simp [hrest]
    · by_cases heq : key = k
      · simp [heq]
      · simp [Ne.symm heq, Table.get?_insert_of_ne _ _ heq]

theorem get?_pushPart : (c.pushPart h).1.destinations.get? a =
    (if a ∈ c.waiting then Destination.next? [h] else none).or (c.destinations.get? a) := by
  cases h <;> by_cases hw : a ∈ c.waiting <;>
    simp [pushPart, Destination.next?, settle, jump, get?_foldl_insert, hw]

theorem mem_keys_pushPart :
    l ∈ (c.pushPart h).1.jumps.keys ↔ l ∈ c.jumps.keys ∨ h.target? = some l := by
  cases h <;> simp [pushPart, settle, jump, Handle.target?, Table.mem_keys_insert, or_comm, eq_comm]

end Push

/-! ### Joining handles -/

/-- The connector has been given some handles. -/
structure Joined (parts : List Handle) (c : Connector) : Prop where
  waiting (a : Anchor) : a ∈ c.waiting ↔ Stands parts a none
  found (a : Anchor) (d : Destination) (h : c.destinations.get? a = some d) :
    Stands parts a (some d)
  settled (a : Anchor) (d : Destination) (h : Stands parts a (some d)) :
    (c.destinations.get? a).isSome
  keys (l : Label) (h : l ∈ c.jumps.keys) : ∃ part ∈ parts, part.target? = some l

namespace Joined

theorem nil (routine : String) : Joined [] { routine := routine } where
  waiting a := by cases a <;> simp [Stands, Place, Destination.next?]
  found a d h := by simp [Table.get?, Table.find?] at h
  settled a d h := by cases a <;> simp [Stands, Place, Destination.next?] at h
  keys l h := by cases h

theorem pushPart (hc : Joined parts c) (h : Handle) : Joined (parts ++ [h]) (c.pushPart h).1 where
  waiting a := by rw [mem_waiting_pushPart, hc.waiting, stands_none]
  found a d hd := by
    rw [get?_pushPart] at hd
    rcases Option.or_eq_some_iff.1 hd with hd | ⟨-, hd⟩
    · split at hd
      · next hw => exact stands_some.2 (.inr ⟨(hc.waiting a).1 hw, hd⟩)
      · cases hd
    · exact stands_some.2 (.inl (hc.found a d hd))
  settled a d hd := by
    rw [get?_pushPart]
    rcases stands_some.1 hd with hd | ⟨hd, hnext⟩
    · simp [hc.settled a d hd]
    · simp [(hc.waiting a).2 hd, hnext]
  keys l hl := by
    rcases mem_keys_pushPart.1 hl with hl | htarget
    · obtain ⟨part, hpart, hl⟩ := hc.keys l hl
      exact ⟨part, mem_append_left _ hpart, hl⟩
    · exact ⟨h, by simp, htarget⟩

end Joined

/-! ### Following jumps -/

section Stuck

variable {α : Type} {r : α → α → Prop} {a b c : α}

/-- What goes one way comes past every place on the way to where it stops. -/
theorem reflTransGen_of_stuck (hr : Relator.RightUnique r) (hb : ReflTransGen r a b)
    (hc : ReflTransGen r a c) (hstuck : ∀ d, ¬ r c d) : ReflTransGen r b c := by
  rcases ReflTransGen.total_of_right_unique hr hb hc with hbc | hcb
  · exact hbc
  · rcases hcb.cases_head with rfl | ⟨d, hd, -⟩
    · exact .refl
    · exact absurd hd (hstuck d)

/-- What goes one way and goes round gets nowhere else. -/
theorem not_transGen_of_stuck (hr : Relator.RightUnique r) (hab : ReflTransGen r a b)
    (hstuck : ∀ c, ¬ r b c) : ¬ TransGen r a a := by
  intro hcycle
  induction hab using ReflTransGen.head_induction_on with
  | refl =>
    obtain ⟨c, hc, -⟩ := TransGen.head'_iff.1 hcycle
    exact hstuck c hc
  | head hac _ ih =>
    obtain ⟨c, hc, hback⟩ := TransGen.head'_iff.1 hcycle
    obtain rfl := hr hac hc
    exact ih (TransGen.tail' hback hac)

end Stuck

/-- A jump follows at a position, and control goes to its label. -/
def Alias (parts : List Handle) (a b : Anchor) : Prop :=
  ∃ l, Stands parts a (some (.goto l)) ∧ b = .label l

/-- Control gets from a position to a terminal, past nothing but jumps. -/
def Leads (parts : List Handle) (a : Anchor) (t : Terminal) : Prop :=
  ∃ b, ReflTransGen (Alias parts) a b ∧ Stands parts b (some (.terminal t))

/-- No label is defined twice, and every jump names one that is defined. -/
structure Closed (parts : List Handle) : Prop where
  nodup : (parts.filterMap Handle.label?).Nodup
  defined (l : Label) (h : ∃ part ∈ parts, part.target? = some l) :
    l ∈ parts.filterMap Handle.label?

/-- Code after a label is determined if no label is defined twice. -/
theorem rest_inj {before before' rest' : List Handle}
    (hnodup : ((before ++ .label l :: rest).filterMap Handle.label?).Nodup)
    (h : before ++ .label l :: rest = before' ++ .label l :: rest') : rest = rest' := by
  have hlabel : (Handle.label l).label? = some l := rfl
  induction before generalizing before' with
  | nil =>
    cases before' with
    | nil => exact tail_eq_of_cons_eq h
    | cons first before' =>
      cases h
      simp [filterMap_cons_some hlabel] at hnodup
  | cons first before ih =>
    have htail : ((before ++ .label l :: rest).filterMap Handle.label?).Nodup :=
      hnodup.sublist ((sublist_cons_self first _).filterMap _)
    cases before' with
    | nil =>
      cases h
      simp [filterMap_cons_some hlabel] at hnodup
    | cons first' before' => exact ih htail (List.cons.inj h).2

/-- An anchor has one position if no label is defined twice, and so one thing follows there. -/
theorem Closed.place_inj (h : Closed parts) {rest' : List Handle} (hrest : Place parts a rest)
    (hrest' : Place parts a rest') : rest = rest' := by
  cases a with
  | entry => exact hrest.trans hrest'.symm
  | label l =>
    obtain ⟨before, rfl⟩ := hrest
    obtain ⟨before', heq⟩ := hrest'
    exact rest_inj h.nodup heq

@[inherit_doc Closed.place_inj]
theorem Closed.stands_inj (h : Closed parts) {d' : Option Destination} (hd : Stands parts a d)
    (hd' : Stands parts a d') : d = d' := by
  obtain ⟨rest, hrest, rfl⟩ := hd
  obtain ⟨rest', hrest', rfl⟩ := hd'
  rw [h.place_inj hrest hrest']

/-- Control goes one way. -/
theorem Closed.alias_inj (h : Closed parts) : Relator.RightUnique (Alias parts) := by
  rintro a - - ⟨l, hl, rfl⟩ ⟨l', hl', rfl⟩
  cases h.stands_inj hl hl'
  rfl

/-- A connector that knows for all positions what follows there. -/
structure Settled (parts : List Handle) (c : Connector) : Prop where
  found (a : Anchor) (d : Destination) (h : c.destinations.get? a = some d) :
    Stands parts a (some d) ∨ Stands parts a none ∧ d = .finish
  total (a : Anchor) (d : Option Destination) (h : Stands parts a d) :
    ∃ d', c.destinations.get? a = some d'

theorem Settled.stands (hc : Settled parts c) {d : Destination} (h : c.destinations.get? a = some d)
    (hd : d ≠ .finish) : Stands parts a (some d) :=
  (hc.found a d h).resolve_right fun h ↦ hd h.2

theorem Joined.settle (h : Joined parts c) :
    Settled parts { c.settle .finish with pending := [] } := by
  have hget (a : Anchor) : (c.settle .finish).destinations.get? a =
      if a ∈ c.waiting then some .finish else c.destinations.get? a :=
    get?_foldl_insert c.waiting c.destinations .finish a
  refine ⟨fun a d hd ↦ ?_, fun a d hd ↦ ?_⟩
  · rw [hget] at hd
    split at hd
    · next hw =>
      cases hd
      exact .inr ⟨(h.waiting a).1 hw, rfl⟩
    · exact .inl (h.found a d hd)
  · rw [hget]
    split
    · exact ⟨_, rfl⟩
    · next hw =>
      cases d with
      | none => exact (hw ((h.waiting a).2 hd)).elim
      | some d => exact Option.isSome_iff_exists.1 (h.settled a d hd)

theorem exists_target_of_next? (h : Destination.next? rest = some (.goto l)) :
    ∃ part ∈ rest, part.target? = some l := by
  obtain ⟨part, hpart, hd⟩ := Destination.exists_of_next? h
  exact ⟨part, hpart, by cases part <;> cases hd; rfl⟩

theorem exists_stands_of_label (h : l ∈ parts.filterMap Handle.label?) :
    ∃ d, Stands parts (.label l) d := by
  obtain ⟨part, hpart, hl⟩ := mem_filterMap.1 h
  obtain ⟨before, rest, rfl⟩ := append_of_mem hpart
  obtain rfl : part = .label l := by cases part <;> simp_all [Handle.label?]
  exact ⟨_, rest, ⟨before, rfl⟩, rfl⟩

theorem Closed.exists_stands (h : Closed parts) (hl : ∃ part ∈ parts, part.target? = some l) :
    ∃ d, Stands parts (.label l) d :=
  exists_stands_of_label (h.defined l hl)

/-- Every jump that stands somewhere leads to a position. -/
theorem exists_target_of_stands (hd : Stands parts a (some (.goto l))) :
    ∃ part ∈ parts, part.target? = some l := by
  obtain ⟨rest, hrest, hnext⟩ := hd
  obtain ⟨part, hpart, htarget⟩ := exists_target_of_next? hnext
  exact ⟨part, hrest.suffix.subset hpart, htarget⟩

/-- What following jumps finds at the position where it ends. -/
def Finds (parts : List Handle) (c : Connector) (b : Anchor) : Except Fault Resolution → Prop
  | .error fault => c.destinations.get? b = none ∧ fault = c.unsettled b
  | .ok (.terminal t) => Stands parts b (some (.terminal t))
  | .ok .finish => Stands parts b (some .finish) ∨ Stands parts b none
  | .ok (.loop l) => Stands parts b (some (.goto l)) ∧ TransGen (Alias parts) b b

variable (hc : Settled parts c)

include hc

/-- Following jumps ends, not for want of steps: each step but the last one sees another position
that has a destination. -/
theorem Settled.follow (hseen : seen.Nodup) (hkeys : seen ⊆ c.destinations.keys)
    (hsteps : c.destinations.size < steps + seen.length)
    (hback : ∀ b ∈ seen, TransGen (Alias parts) b a) :
    ∃ b, ReflTransGen (Alias parts) a b ∧ Finds parts c b (c.follow steps seen a) := by
  induction steps generalizing seen a with
  | zero =>
    have hle : seen.length ≤ c.destinations.keys.length := hseen.length_le_of_subset hkeys
    rw [Table.keys, length_map] at hle
    rw [Table.size] at hsteps
    omega
  | succ steps ih =>
    rw [Connector.follow]
    rcases hd : c.destinations.get? a with - | t | - | l
    · exact ⟨a, .refl, hd, rfl⟩
    · exact ⟨a, .refl, hc.stands hd (by simp)⟩
    · exact ⟨a, .refl, (hc.found a _ hd).imp_right And.left⟩
    · have hgoto := hc.stands hd (by simp)
      dsimp only
      split
      · next hmem => exact ⟨a, .refl, hgoto, hback a hmem⟩
      · next hnew =>
        have hkey : a ∈ c.destinations.keys := mem_map_of_mem (Table.mem_of_get? hd)
        obtain ⟨b, hb, hfinds⟩ := ih (a := .label l) (nodup_cons.2 ⟨hnew, hseen⟩)
          (cons_subset.2 ⟨hkey, hkeys⟩) (by rw [length_cons]; omega)
          (forall_mem_cons.2 ⟨.single ⟨l, hgoto, rfl⟩,
            fun b hb ↦ (hback b hb).tail ⟨l, hgoto, rfl⟩⟩)
        exact ⟨b, .head ⟨l, hgoto, rfl⟩ hb, hfinds⟩

theorem Settled.finds (a : Anchor) :
    ∃ b, ReflTransGen (Alias parts) a b ∧ Finds parts c b (c.resolve a) :=
  hc.follow nodup_nil (nil_subset _) (by rw [length_nil]; omega) (by simp)

/-- Resolving a position ends, and finds a terminal exactly where control gets to it. -/
theorem Settled.resolve (h : Closed parts) (ha : Stands parts a d) :
    ∃ r, c.resolve a = .ok r ∧ ∀ t, r.terminal? = some t ↔ Leads parts a t := by
  obtain ⟨b, hb, hfinds⟩ := hc.finds a
  generalize c.resolve a = outcome at hfinds ⊢
  rcases outcome with fault | r
  · obtain ⟨d', hd'⟩ : ∃ d, Stands parts b d := by
      rcases hb.cases_tail with rfl | ⟨b', -, l, hl, rfl⟩
      exacts [⟨d, ha⟩, h.exists_stands (exists_target_of_stands hl)]
    obtain ⟨d', hd'⟩ := hc.total b d' hd'
    cases hfinds.1.symm.trans hd'
  · refine ⟨r, rfl, fun t ↦ ⟨fun ht ↦ ?_, ?_⟩⟩
    · cases r with
      | terminal t' =>
        cases ht
        exact ⟨b, hb, hfinds⟩
      | finish | loop l => cases ht
    · rintro ⟨b', hb', ht⟩
      have hstuck (b'' : Anchor) : ¬ Alias parts b' b'' := by
        rintro ⟨l, hl, -⟩
        cases h.stands_inj ht hl
      have hback := reflTransGen_of_stuck h.alias_inj hb hb' hstuck
      rcases hback.cases_head with rfl | ⟨-, ⟨l, hl, -⟩, -⟩
      · cases r with
        | terminal t' =>
          cases h.stands_inj ht hfinds
          rfl
        | finish => rcases hfinds with hd | hd <;> cases h.stands_inj ht hd
        | loop l => cases h.stands_inj ht hfinds.1
      · cases r with
        | terminal t' => cases h.stands_inj hl hfinds
        | finish => rcases hfinds with hd | hd <;> cases h.stands_inj hl hd
        | loop l' => exact absurd hfinds.2 (not_transGen_of_stuck h.alias_inj hback hstuck)

end Connector

end Wirescript
