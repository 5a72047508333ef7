import Wirescript.Proofs.Renaming

/-!
# Writes one after another

`Trail.Stores` makes some writes in order. A write can be put off behind others if none of them can
be seen in it: their variables have different cells, or they are components of one vector on
different axes. What has been recorded stays the same if only one of the two is recorded at all.
-/

namespace Wirescript

open Memory (store load_insert_of_ne load_insert_of_eq)

variable {axis : Axis} {origin : Origin} {c : Slot} {t : Triple Float32}
  {make : Triple Float32 → Value}

/-! ### Variables that share storage -/

/-- The axes from the cell of a variable to the part of it that the variable is. -/
def Variable.path : Variable → List Axis
  | .slot _ => []
  | .component base axis _ => base.path ++ [axis]

theorem Variable.Like.path_eq {x y : Variable} (h : x.Like y) : x.path = y.path := by
  induction x generalizing y with
  | slot s =>
    cases y with
    | slot s' => rfl
    | component base axis origin => exact h.elim
  | component base axis origin ih =>
    cases y with
    | slot s' => exact h.elim
    | component base' axis' origin' => rw [Variable.path, Variable.path, ih h.2, h.1]

/-- A write to one variable can be seen in the other: one is part of the other, or they are different
variables in one cell. -/
def Variable.Overlaps {κ : Type} (key : Slot → κ) (x y : Variable) : Prop :=
  key x.root = key y.root ∧ (x.root = y.root → x.path <+: y.path ∨ y.path <+: x.path)

theorem Triple.set_comm {α : Type} (t : Triple α) {axis' : Axis} (h : axis ≠ axis') (a b : α) :
    (t.set axis a).set axis' b = (t.set axis' b).set axis a := by
  cases axis <;> cases axis' <;> first | rfl | exact absurd rfl h

section Swaps

variable {κ : Type} [DecidableEq κ] {key : Slot → κ} {m m₁ m₂ : Memory κ} {x y : Variable}
  {v w : Value}

/-- A write to a component puts it into the vector that a cell holds. -/
theorem Memory.store_component {base : Variable}
    (h : m.store key (.component base axis origin) v = .ok m₁) :
    ∃ c f t, ∃ make : Triple Float32 → Value, (make = .vector3 ∨ make = .rotation) ∧
      base = .slot c ∧ v.float? = some f ∧ m.load key (.slot c) = make t ∧
      m₁ = m.insert (key c) (make (t.set axis f)) := by
  unfold store at h
  split at h
  · cases h
  · rename_i f hf
    cases base with
    | component base' axis' origin' =>
      -- a component of a component is a number, and no vector
      cases h
    | slot c =>
      split at h
      · rename_i t ht
        exact ⟨c, f, t, .vector3, .inl rfl, rfl, hf, ht, (Except.ok.inj h).symm⟩
      · rename_i t ht
        exact ⟨c, f, t, .rotation, .inr rfl, rfl, hf, ht, (Except.ok.inj h).symm⟩
      · cases h

theorem Memory.store_component_of_load {f : Float32} (hmake : make = .vector3 ∨ make = .rotation)
    (hf : v.float? = some f) (ht : m.load key (.slot c) = make t) :
    m.store key (.component (.slot c) axis origin) v =
      .ok (m.insert (key c) (make (t.set axis f))) := by
  rcases hmake with rfl | rfl
  · simp only [store, hf, ht]
  · simp only [store, hf, ht]

theorem Memory.make_inj {make' : Triple Float32 → Value} {t' : Triple Float32}
    (hmake : make = .vector3 ∨ make = .rotation) (hmake' : make' = .vector3 ∨ make' = .rotation)
    (h : make t = make' t') : make = make' ∧ t = t' := by
  rcases hmake with rfl | rfl <;> rcases hmake' with rfl | rfl
  · exact ⟨rfl, Value.vector3.inj h⟩
  · cases h
  · cases h
  · exact ⟨rfl, Value.rotation.inj h⟩

/-- Writes to different cells. -/
theorem Memory.store_swap_of_ne (hx : m.store key x v = .ok m₁) (hy : m₁.store key y w = .ok m₂)
    (hne : key x.root ≠ key y.root) :
    ∃ a b, m₁ = m.insert (key x.root) a ∧ m₂ = m₁.insert (key y.root) b ∧
      m.store key y w = .ok (m.insert (key y.root) b) ∧
      store key (m.insert (key y.root) b) x v =
        .ok ((m.insert (key y.root) b).insert (key x.root) a) := by
  have hget : m.get? (key y.root) = m₁.get? (key y.root) := (Memory.get?_store_of_ne hx hne).symm
  obtain ⟨b, rfl, hy'⟩ := Memory.store_congr hget hy
  obtain ⟨a, ha, hx'⟩ := Memory.store_congr
    (Table.get?_insert_of_ne m b (Ne.symm hne) : (m.insert (key y.root) b).get? _ = _) hx
  exact ⟨a, b, ha, rfl, hy', hx'⟩

/-- Writes to components of one vector on different axes. -/
theorem Memory.store_swap_of_eq (hx : m.store key x v = .ok m₁) (hy : m₁.store key y w = .ok m₂)
    (hroot : x.root = y.root) (hpath : ¬ (x.path <+: y.path ∨ y.path <+: x.path)) :
    ∃ a b c, m₁ = m.insert (key x.root) a ∧ m₂ = m₁.insert (key x.root) c ∧
      m.store key y w = .ok (m.insert (key x.root) b) ∧
      store key (m.insert (key x.root) b) x v =
        .ok ((m.insert (key x.root) b).insert (key x.root) c) := by
  cases x with
  | slot s => exact absurd (.inl (List.nil_prefix)) hpath
  | component base axis origin =>
    cases y with
    | slot s => exact absurd (.inr (List.nil_prefix)) hpath
    | component base' axis' origin' =>
      obtain ⟨c, f, t, make, hmake, rfl, hf, ht, rfl⟩ := Memory.store_component hx
      obtain ⟨c', g, t', make', hmake', rfl, hg, ht', rfl⟩ := Memory.store_component hy
      obtain rfl : c = c' := hroot
      rw [Memory.load_insert_self] at ht'
      obtain ⟨rfl, rfl⟩ := Memory.make_inj hmake hmake' ht'
      have haxis : axis ≠ axis' := by
        rintro rfl
        exact hpath (.inl (List.prefix_refl _))
      refine ⟨_, _, _, rfl, rfl, Memory.store_component_of_load hmake hg ht, ?_⟩
      rw [Triple.set_comm t haxis]
      exact Memory.store_component_of_load hmake hf Memory.load_insert_self

end Swaps

section Stores

variable {κ : Type} [DecidableEq κ] {S : Scene κ} {t t₁ t₂ t' u : Trail κ} {x y : Variable}
  {v w : Value} {writes : List (Variable × Value)} {R : Slot → Slot → Prop}

/-- One write can be put off behind another. -/
theorem Trail.store_swap (hx : t.store S x v = .ok t₁) (hy : t₁.store S y w = .ok t₂)
    (h : ¬ x.Overlaps S.key y) (hwatched : S.watched x.root = true → S.watched y.root = false) :
    ∃ t₁' t₂', t.store S y w = .ok t₁' ∧ t₁'.store S x v = .ok t₂' ∧ Linked S S (· = ·) t₂ t₂' := by
  obtain ⟨m₁, hm₁, rfl⟩ := Trail.store_eq_ok.1 hx
  obtain ⟨m₂, hm₂, rfl⟩ := Trail.store_eq_ok.1 hy
  by_cases hkey : S.key x.root = S.key y.root
  · obtain ⟨hroot, hpath⟩ : x.root = y.root ∧ ¬ (x.path <+: y.path ∨ y.path <+: x.path) :=
      Classical.not_imp.1 fun himp ↦ h ⟨hkey, himp⟩
    have hunseen : S.watched x.root = false := by
      cases hx : S.watched x.root with
      | false => rfl
      | true => rw [← hwatched hx, ← hroot, hx]
    obtain ⟨a, b, c, rfl, rfl, hy', hx'⟩ := Memory.store_swap_of_eq hm₁ hm₂ hroot hpath
    refine ⟨_, _, Trail.store_eq_ok.2 ⟨_, hy', rfl⟩, Trail.store_eq_ok.2 ⟨_, hx', rfl⟩,
      fun {s s'} hs ↦ ?_, ?_, rfl⟩
    · subst hs
      by_cases hs : S.key x.root = S.key s
      · exact (load_insert_of_eq hs).trans (load_insert_of_eq hs).symm
      · show Memory.load S.key (Table.insert (Table.insert _ _ _) _ _) _ =
          Memory.load S.key (Table.insert (Table.insert _ _ _) _ _) _
        simp [load_insert_of_ne hs]
    · simp [Variable.record, hunseen, ← hroot]
  · obtain ⟨a, b, rfl, rfl, hy', hx'⟩ := Memory.store_swap_of_ne hm₁ hm₂ hkey
    refine ⟨_, _, Trail.store_eq_ok.2 ⟨_, hy', rfl⟩, Trail.store_eq_ok.2 ⟨_, hx', rfl⟩,
      fun {s s'} hs ↦ ?_, ?_, rfl⟩
    · subst hs
      by_cases hs : S.key x.root = S.key s
      · have hs' : S.key y.root ≠ S.key s := fun hs' ↦ hkey (hs.trans hs'.symm)
        rw [load_insert_of_ne hs', load_insert_of_eq hs, load_insert_of_eq hs]
      · by_cases hs' : S.key y.root = S.key s
        · rw [load_insert_of_eq hs', load_insert_of_ne hs,
            load_insert_of_eq hs']
        · simp only [load_insert_of_ne hs, load_insert_of_ne hs']
    · -- at most one of the two writes is recorded
      by_cases hseen : S.watched x.root = true
      · simp [Variable.record, hwatched hseen, Memory.load_insert_self]
      · simp [Variable.record, if_neg hseen, Memory.load_insert_self]

variable (S) in
/-- Values are written to variables in order. -/
def Trail.Stores : List (Variable × Value) → Trail κ → Trail κ → Prop
  | [], t, t' => t' = t
  | (x, v) :: rest, t, t' => ∃ t₁, t.store S x v = .ok t₁ ∧ Trail.Stores rest t₁ t'

theorem Trail.Stores.spares (h : t.Stores S writes t') {k : κ}
    (hk : ∀ x v, (x, v) ∈ writes → S.key x.root ≠ k) : t'.memory.get? k = t.memory.get? k := by
  induction writes generalizing t with
  | nil =>
    obtain rfl : t' = t := h
    rfl
  | cons write rest ih =>
    obtain ⟨x, v⟩ := write
    obtain ⟨t₁, hstore, h⟩ := h
    rw [ih h fun x v hmem ↦ hk x v (List.mem_cons_of_mem _ hmem),
      Trail.get?_store_of_ne hstore (hk x v (.head _))]

/-- Writes to cells that correspond to themselves are made on both sides. -/
theorem Linked.stores (hm : Linked S S R t u) (hR : R ≤ Eq)
    (hwrites : ∀ x v, (x, v) ∈ writes → R x.root x.root) (h : t.Stores S writes t') :
    ∃ u', u.Stores S writes u' ∧ Linked S S R t' u' := by
  induction writes generalizing t u with
  | nil =>
    obtain rfl : t' = t := h
    exact ⟨u, rfl, hm⟩
  | cons write rest ih =>
    obtain ⟨x, v⟩ := write
    obtain ⟨t₁, hstore, h⟩ := h
    have hx : R x.root x.root := hwrites x v (.head _)
    obtain ⟨u₁, hu₁, hm₁⟩ := hm.store (Variable.Like.refl x) (.refl hR _) (fun _ ↦ hx)
      (fun a b hab ↦ .inl hab) hstore
    obtain ⟨u', hu', hm'⟩ := ih hm₁ (fun y w hmem ↦ hwrites y w (.tail _ hmem)) h
    exact ⟨u', ⟨u₁, hu₁, hu'⟩, hm'⟩

/-- A write on the right of a value that is on the left already. -/
theorem Linked.store_copy {R' : Slot → Slot → Prop} {u' : Trail κ} (hm : Linked S S R t u)
    (hR' : ∀ a b, R' a b → R a b ∨ (b = c ∧ t.memory.load S.key (.slot a) = v))
    (hc : ∀ a b, R' a b → S.key c = S.key b → b = c ∧ t.memory.load S.key (.slot a) = v)
    (hwatched : S.watched c = false) (hstore : u.store S (.slot c) v = .ok u') :
    Linked S S R' t u' := by
  obtain ⟨m, hstore', rfl⟩ := Trail.store_eq_ok.1 hstore
  obtain rfl : u.memory.insert (S.key c) v = m := Except.ok.inj hstore'
  refine ⟨fun {a b} hab ↦ ?_, ?_, hm.events⟩
  · by_cases hkey : S.key c = S.key b
    · obtain ⟨rfl, hload⟩ := hc a b hab hkey
      rw [hload]
      exact Memory.load_insert_self.symm
    · rcases hR' a b hab with hab | ⟨rfl, -⟩
      · rw [hm.load hab]
        exact (load_insert_of_ne hkey).symm
      · exact absurd rfl hkey
  · have hrecord : (Variable.slot c).record S (u.memory.insert (S.key c) v) = [] := by
      rw [Variable.record, show (Variable.slot c).root = c from rfl, hwatched]
      rfl
    rw [hm.log, hrecord, List.append_nil]

theorem Linked.trans_eq (hm : Linked S S R t u) {u' : Trail κ} (h : Linked S S (· = ·) u u') :
    Linked S S R t u' :=
  ⟨fun hab ↦ (hm.load hab).trans (h.load rfl), hm.log.trans h.log, hm.events.trans h.events⟩

/-- A write can be put off behind others that it does not overlap. -/
theorem Trail.Stores.postpone (h : t.Stores S ((x, v) :: writes) t')
    (hapart : ∀ y w, (y, w) ∈ writes → ¬ x.Overlaps S.key y)
    (hwatched : ∀ y w, (y, w) ∈ writes → S.watched x.root = true → S.watched y.root = false) :
    ∃ t₁ t₂, t.Stores S writes t₁ ∧ t₁.store S x v = .ok t₂ ∧ Linked S S (· = ·) t' t₂ := by
  induction writes generalizing t t' with
  | nil =>
    obtain ⟨t₁, hstore, h⟩ := h
    obtain rfl : t' = t₁ := h
    exact ⟨t, t', rfl, hstore, .refl (fun _ _ h ↦ h) t'⟩
  | cons write rest ih =>
    obtain ⟨y, w⟩ := write
    obtain ⟨t₁, hx, t₂, hy, h⟩ := h
    obtain ⟨t₁', t₂', hy', hx', hsame⟩ := Trail.store_swap hx hy (hapart y w (.head _))
      (hwatched y w (.head _))
    obtain ⟨u', hu', hsame'⟩ := hsame.stores (fun _ _ h ↦ h) (fun _ _ _ ↦ rfl) h
    obtain ⟨t₃, t₄, h₃, h₄, hsame''⟩ := ih ⟨t₂', hx', hu'⟩
      (fun y w hmem ↦ hapart y w (.tail _ hmem))
      (fun y w hmem ↦ hwatched y w (.tail _ hmem))
    exact ⟨t₃, t₄, ⟨t₁', hy', h₃⟩, h₄, hsame'.trans_eq hsame''⟩

end Stores

end Wirescript
