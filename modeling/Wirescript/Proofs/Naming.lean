import Mathlib.Data.List.Perm.Subperm
import Wirescript.Program.Storage
import Wirescript.Proofs.Splicing

/-!
# Names of storage keep variables apart

The names that a program is given in the end are as good as cells of its own for every variable. Two
variables that are not global never share a name, and no such variable is given a name that looks
like the storage of a global one, unless the script wrote it that way. So storage names tell apart
what has a cell of its own (`Slot.home`, `Naming.storageKey_image_inj`).
-/

namespace Wirescript

open Memory (storageKey)
open Stmt
open List
open Option
open Table

variable {code : List Stmt} {depth n : Nat} {r : Routine} {α κ : Type} {x : Variable}
  {V : Vocabulary}

/-- No sign that marks the storage of a global stands in front of the name. -/
def Unmarked (name : String) : Prop :=
  name.toList.head? ≠ some '$' ∧ name.toList.head? ≠ some '!'

instance (name : String) : Decidable (Unmarked name) :=
  inferInstanceAs (Decidable (_ ∧ _))

theorem unmarked_append {name rest : String} (h : Unmarked name) (hrest : Unmarked rest) :
    Unmarked (name ++ rest) := by
  unfold Unmarked at h hrest ⊢
  rw [String.toList_append]
  rcases hname : name.toList with - | ⟨c, cs⟩
  · exact hrest
  · rw [hname] at h
    exact h

/-- Where a variable is kept: a global under its storage name, and any other in a cell of its own. -/
def Slot.home (s : Slot) : String ⊕ Slot :=
  if s.role = .global then .inl (storageKey s) else .inr s

theorem Slot.home_eq_home {s s' : Slot} (h : s.home = s'.home) :
    s = s' ∨ (s.role = .global ∧ s'.role = .global) := by
  unfold Slot.home at h
  split at h <;> split at h
  · rename_i hs hs'
    exact .inr ⟨hs, hs'⟩
  · cases h
  · cases h
  · exact .inl (Sum.inr.inj h)

theorem Table.mem_of_get? {ν : Type} [DecidableEq κ] {t : Table κ ν} {k : κ} {v : ν}
    (h : t.get? k = some v) : (k, v) ∈ t.entries := by
  obtain ⟨entries⟩ := t
  replace h : Table.find? entries k = some v := h
  induction entries with
  | nil => cases h
  | cons entry rest ih =>
    obtain ⟨k', v'⟩ := entry
    rw [Table.find?] at h
    split at h
    · rename_i hk
      rw [hk, Option.some.inj h]
      exact .head _
    · exact .tail _ (ih h)

namespace Naming

variable {st : Naming} {s s' a b : Slot} {name : String}

/-! ### Names that are given -/

theorem numbered_inj {n' : Nat} (h : numbered name n = numbered name n') : n = n' := by
  have hlist : (name ++ "_" ++ toString n).toList = (name ++ "_" ++ toString n').toList :=
    congrArg String.toList h
  refine toDigits_inj ?_
  simpa using hlist

theorem unmarked_numbered (h : Unmarked name) (n : Nat) : Unmarked (numbered name n) := by
  show Unmarked (name ++ "_" ++ toString n)
  rw [String.append_assoc]
  refine unmarked_append h ?_
  simp [Unmarked]

/-- Where no number is found, all of them make names in use. -/
theorem mem_of_firstFree_mem {taken : List String} {tries : Nat}
    (h : numbered name (firstFree taken name tries n) ∈ taken) (j : Nat) (hj : j ≤ tries) :
    numbered name (n + j) ∈ taken := by
  induction tries generalizing n j with
  | zero =>
    obtain rfl : j = 0 := by omega
    exact h
  | succ tries ih =>
    rw [firstFree] at h
    split at h
    · rename_i hn
      rcases j with - | j
      · exact hn
      · have hnext := ih h j (by omega)
        rwa [show n + 1 + j = n + (j + 1) by omega] at hnext
    · rename_i hn
      exact absurd h hn

/-- One of any `k + 1` numbers makes a name that is not among `k` names. -/
theorem firstFree_notMem (taken : List String) (name : String) (n : Nat) :
    numbered name (firstFree taken name taken.length n) ∉ taken := by
  intro h
  let names := (List.range (taken.length + 1)).map fun j ↦ numbered name (n + j)
  have hnodup : names.Nodup := by
    refine nodup_range.map_on fun i _ j _ hij ↦ ?_
    have := numbered_inj hij
    omega
  have hsubset : names ⊆ taken := by
    intro x hx
    obtain ⟨j, hj, rfl⟩ := mem_map.1 hx
    exact mem_of_firstFree_mem h j (by simpa [Nat.lt_succ_iff] using hj)
  have hle : names.length ≤ taken.length := (List.Nodup.subperm hnodup hsubset).length_le
  have hlength : names.length = taken.length + 1 := by simp [names]
  omega

/-- What is known about the names given so far. -/
structure Sound (st : Naming) : Prop where
  inj {s s' : Slot} {name : String} (h : st.names.get? s = some name)
    (h' : st.names.get? s' = some name) : s = s'
  role {s : Slot} {name : String} (h : st.names.get? s = some name) : s.role ≠ .global
  unmarked {s : Slot} {name : String} (h : st.names.get? s = some name) (hs : Unmarked s.name) :
    Unmarked name

/-- The variable is global or has been given a name. -/
def Covers (st : Naming) (s : Slot) : Prop := s.role = .global ∨ ∃ name, st.names.get? s = some name

/-- A variable is given a name that is not in use, unless it needs none. -/
theorem add_cases (st : Naming) (s : Slot) : ((st.add s).names = st.names ∧ st.Covers s) ∨
      ∃ name, (st.add s).names = st.names.insert s name ∧ s.role ≠ .global ∧ name ∉ st.taken ∧
        (Unmarked s.name → Unmarked name) := by
  unfold add
  split
  · rename_i h
    refine .inl ⟨rfl, ?_⟩
    rcases Bool.or_eq_true_iff.1 h with h | h
    · exact .inl (of_decide_eq_true h)
    · exact .inr (isSome_iff_exists.1 h)
  · rename_i h
    have hs : s.role ≠ .global := fun hs ↦ h (by simp [hs])
    split
    · exact .inr ⟨_, rfl, hs, firstFree_notMem _ _ _, fun hname ↦ unmarked_numbered hname _⟩
    · rename_i htaken
      exact .inr ⟨_, rfl, hs, htaken, id⟩

theorem Sound.add (h : st.Sound) (s : Slot) : (st.add s).Sound := by
  rcases st.add_cases s with ⟨hnames, -⟩ | ⟨name, hnames, hs, htaken, hmarked⟩
  · exact ⟨fun h₁ h₂ ↦ h.inj (hnames ▸ h₁) (hnames ▸ h₂), fun h₁ ↦ h.role (hnames ▸ h₁),
      fun h₁ ↦ h.unmarked (hnames ▸ h₁)⟩
  -- what was given before is in use, so the new name is none of those
  have hused {s' : Slot} {name' : String} (h' : st.names.get? s' = some name') : name' ≠ name := by
    rintro rfl
    exact htaken (mem_map.2 ⟨_, mem_of_get? h', rfl⟩)
  have hcases {s' : Slot} {name' : String} (h' : (st.add s).names.get? s' = some name') :
      (s = s' ∧ name = name') ∨ st.names.get? s' = some name' := by
    rw [hnames] at h'
    by_cases heq : s = s'
    · rw [heq, get?_insert_self] at h'
      exact .inl ⟨heq, Option.some.inj h'⟩
    · rw [get?_insert_of_ne _ _ heq] at h'
      exact .inr h'
  refine ⟨fun h₁ h₂ ↦ ?_, fun h₁ ↦ ?_, fun h₁ ↦ ?_⟩
  · rcases hcases h₁ with ⟨rfl, rfl⟩ | h₁ <;> rcases hcases h₂ with ⟨rfl, heq⟩ | h₂
    · rfl
    · exact absurd rfl (hused h₂)
    · exact absurd heq.symm (hused h₁)
    · exact h.inj h₁ h₂
  · rcases hcases h₁ with ⟨rfl, rfl⟩ | h₁
    · exact hs
    · exact h.role h₁
  · rcases hcases h₁ with ⟨rfl, rfl⟩ | h₁
    · exact hmarked
    · exact h.unmarked h₁

theorem Covers.add (h : st.Covers s') (s : Slot) : (st.add s).Covers s' := by
  rcases h with hglobal | ⟨name, hname⟩
  · exact .inl hglobal
  rcases st.add_cases s with ⟨hnames, -⟩ | ⟨name', hnames, -⟩
  · exact .inr ⟨name, by rw [hnames, hname]⟩
  · by_cases heq : s = s'
    · exact .inr ⟨name', by rw [hnames, heq, get?_insert_self]⟩
    · exact .inr ⟨name, by rw [hnames, get?_insert_of_ne _ _ heq, hname]⟩

theorem covers_add (st : Naming) (s : Slot) : (st.add s).Covers s := by
  rcases st.add_cases s with ⟨hnames, h⟩ | ⟨name, hnames, -⟩
  · exact h.imp_right fun ⟨name, hname⟩ ↦ ⟨name, by rw [hnames, hname]⟩
  · exact .inr ⟨name, by rw [hnames, get?_insert_self]⟩

theorem slotOf_eq_root (x : Variable) : slotOf x = x.root := by
  induction x with
  | slot s => rfl
  | component base axis origin ih => exact ih

theorem sound_foldl (xs : List Variable) (h : st.Sound) :
    (xs.foldl (fun st x ↦ st.add (slotOf x)) st).Sound := by
  induction xs generalizing st with
  | nil => exact h
  | cons x xs ih => exact ih (h.add _)

theorem covers_foldl (xs : List Variable) (h : st.Covers s) :
    (xs.foldl (fun st x ↦ st.add (slotOf x)) st).Covers s := by
  induction xs generalizing st with
  | nil => exact h
  | cons x xs ih => exact ih (h.add _)

theorem covers_foldl_of_mem {xs : List Variable} (hx : x ∈ xs) (st : Naming) :
    (xs.foldl (fun st x ↦ st.add (slotOf x)) st).Covers x.root := by
  induction xs generalizing st with
  | nil => cases hx
  | cons y xs ih =>
    rcases mem_cons.1 hx with rfl | hx
    · rw [← slotOf_eq_root]
      exact covers_foldl xs (covers_add st _)
    · exact ih hx _

theorem sound_ofBodies (bodies : Bodies) : (ofBodies bodies).Sound := by
  refine sound_foldl _ ⟨fun h _ ↦ ?_, fun h ↦ ?_, fun h _ ↦ ?_⟩ <;> cases h

theorem covers_ofBodies {bodies : Bodies} (hx : x ∈ mentions bodies) :
    (ofBodies bodies).Covers x.root := covers_foldl_of_mem hx _

/-! ### Storage under the names -/

/-- The cell under its new name. -/
def image (st : Naming) (s : Slot) : Slot := { s with name := (st.names.get? s).getD s.name }

theorem moves (st : Naming) : st.substitution.Moves st.image := by
  intro x
  induction x with
  | slot s => exact ⟨trivial, rfl⟩
  | component base axis origin ih => exact ⟨⟨rfl, ih.1⟩, ih.2⟩

theorem modifiers_variableOf (st : Naming) (x : Variable) :
    (st.variableOf x).modifiers = x.modifiers := by
  induction x with
  | slot s => rfl
  | component base axis origin ih => exact ih

theorem head?_storageKey_of_global (hs : s.role = .global) :
    (storageKey s).toList.head? = some '!' ∨
      (storageKey s).toList.head? = some '$' := by
  have hkey : storageKey s = (if s.modifiers.saved then "!" else "$") ++ s.name := by
    simp only [storageKey, Variable.storageName, Variable.isGlobal, hs]
    rfl
  rw [hkey, String.toList_append]
  split
  · exact .inl rfl
  · exact .inr rfl

theorem storageKey_of_local (hs : s.role ≠ .global) : storageKey s = s.name := by
  simp [storageKey, Variable.storageName, Variable.isGlobal, hs, Variable.name]

theorem image_of_global (h : st.Sound) (hs : s.role = .global) : st.image s = s := by
  rcases hname : st.names.get? s with - | name
  · rw [image, hname]
    rfl
  · exact absurd hs (h.role hname)

theorem storageKey_image (hs : s.role ≠ .global) (hcovers : st.Covers s) :
    st.names.get? s = some (storageKey (st.image s)) := by
  obtain ⟨name, hname⟩ := hcovers.resolve_left hs
  have hrole : (st.image s).role ≠ .global := hs
  rw [storageKey_of_local hrole, image, hname]
  rfl

theorem eq_of_storageKey_image (h : st.Sound) (ha : st.Covers a) (hb : st.Covers b)
    (hrole : a.role ≠ .global) (hrole' : b.role ≠ .global)
    (heq : storageKey (st.image a) = storageKey (st.image b)) : a = b := by
  have hname := storageKey_image hrole ha
  rw [heq] at hname
  exact h.inj hname (storageKey_image hrole' hb)

/-- Variables that have been given names stay apart. -/
theorem image_inj (h : st.Sound) (ha : st.Covers a) (hb : st.Covers b)
    (heq : st.image a = st.image b) : a = b := by
  have hrole : (st.image a).role = (st.image b).role := congrArg Slot.role heq
  by_cases hglobal : a.role = .global
  · have hglobal' : b.role = .global := hrole.symm.trans hglobal
    rwa [image_of_global h hglobal, image_of_global h hglobal'] at heq
  · exact eq_of_storageKey_image h ha hb hglobal (fun hb ↦ hglobal (hrole.trans hb))
      (congrArg storageKey heq)

/-- Storage names tell the variables apart that have been given names, except globals of one name. -/
theorem storageKey_image_inj (h : st.Sound) (ha : st.Covers a) (hb : st.Covers b)
    (hmarked : a.role ≠ .global → Unmarked a.name) (hmarked' : b.role ≠ .global → Unmarked b.name) :
    storageKey (st.image a) = storageKey (st.image b) ↔ a.home = b.home := by
  -- a global and another variable do not share a name
  have hmixed {a b : Slot} (ha : a.role = .global) (hb : st.Covers b) (hrole : b.role ≠ .global)
      (hmarked : b.role ≠ .global → Unmarked b.name) :
      storageKey (st.image a) ≠ storageKey (st.image b) := by
    intro heq
    have hname : Unmarked (storageKey (st.image b)) :=
      h.unmarked (storageKey_image hrole hb) (hmarked hrole)
    rw [← heq, image_of_global h ha] at hname
    rcases head?_storageKey_of_global ha with hhead | hhead
    · exact hname.2 hhead
    · exact hname.1 hhead
  by_cases hrole : a.role = .global <;> by_cases hrole' : b.role = .global
  · rw [image_of_global h hrole, image_of_global h hrole', Slot.home, Slot.home, if_pos hrole,
      if_pos hrole', Sum.inl.injEq]
  · simpa [Slot.home, hrole, hrole'] using hmixed hrole hb hrole' hmarked'
  · simpa [Slot.home, hrole, hrole'] using (hmixed hrole' ha hrole hmarked).symm
  · rw [Slot.home, Slot.home, if_neg hrole, if_neg hrole', Sum.inr.injEq]
    refine ⟨eq_of_storageKey_image h ha hb hrole hrole', ?_⟩
    rintro rfl
    rfl

/-! ### Code under the names -/

theorem label?_substitute (st : Naming) (s : Stmt) :
    (s.substitute st.substitution).label? = s.label? := by
  cases s <;> rfl

theorem from?_map_named (st : Naming) (l : Label) (code : List Stmt) :
    from? l (code.map (substitute st.substitution)) =
      (from? l code).map (List.map (substitute st.substitution)) := by
  induction code with
  | nil => rfl
  | cons s rest ih =>
    rw [map_cons, from?, from?, ih, st.label?_substitute]
    rcases from? l rest with - | there
    · simp only [none_or]
      split <;> rfl
    · rfl

end Naming

theorem Table.find?_map {κ' ν ν' : Type} [DecidableEq κ] [DecidableEq κ'] {f : κ → κ'} {g : ν → ν'}
    {entries : List (κ × ν)} {k : κ} (hf : ∀ entry ∈ entries, f entry.1 = f k → entry.1 = k) :
    Table.find? (entries.map fun entry ↦ (f entry.1, g entry.2)) (f k) =
      (Table.find? entries k).map g := by
  induction entries with
  | nil => rfl
  | cons entry rest ih =>
    rw [map_cons, Table.find?, Table.find?, ih fun entry h ↦ hf entry (mem_cons_of_mem _ h)]
    by_cases hk : entry.1 = k
    · rw [if_pos hk, if_pos (congrArg f hk)]
      rfl
    · rw [if_neg hk, if_neg fun heq ↦ hk (hf entry mem_cons_self heq)]

theorem Stmt.flatten_substitute_naming (st : Naming) (body : Stmt) :
    (body.substitute st.substitution).flatten =
      body.flatten.map (substitute st.substitution) := by
  rw [Stmt.flatten_substitute, ← flatMap_singleton' (body.flatten.map _), flatMap_map]
  refine flatMap_congr fun t ht ↦ ?_
  have hblock := isBlock_of_mem_flatten ht
  cases t
  case block => cases hblock
  all_goals rfl

/-! ### Mentions -/

theorem append_subset_append {xs xs' ys ys' : List α} (hx : xs' ⊆ xs) (hy : ys' ⊆ ys) :
    xs' ++ ys' ⊆ xs ++ ys :=
  append_subset.2 ⟨subset_append_of_subset_left _ hx,
    subset_append_of_subset_right _ hy⟩

theorem relates_readVisitor : Visitor.Relates (· ⊆ ·) {} readVisitor mentionVisitor := by
  refine .self (nil_subset _) append_subset_append (fun e ↦ ?_) fun s _ _ h ↦ ?_
  · cases e <;> simp [readVisitor, mentionVisitor]
  · exact append_subset_append (append_subset_append (nil_subset _) h) (nil_subset _)

/-- What is read is mentioned. -/
theorem Expr.reads_subset (e : Expr) : e.reads ⊆ e.visit mentionVisitor := by
  have hreads := relates_readVisitor.visit e
  rwa [e.substitute_empty] at hreads

@[inherit_doc Expr.reads_subset]
theorem Expr.allReads_subset (es : List Expr) :
    Expr.allReads es ⊆ Expr.visitAll mentionVisitor es := by
  have hreads := relates_readVisitor.visitAll es
  rwa [Expr.substituteAll_empty] at hreads

/-- Names keep the form of every statement. What is collected under them is what was collected, with
names. -/
theorem Naming.relates (st : Naming) {v : Visitor α} {f : α → α}
    (expr : ∀ e : Expr, v.expr (e.substitute st.substitution) = (v.expr e).map f)
    (stmt : ∀ s : Stmt, v.stmt (s.substitute st.substitution) = (v.stmt s).map f)
    (last : ∀ s : Stmt, v.last (s.substitute st.substitution) = (v.last s).map f) :
    Visitor.Relates (fun xs ys ↦ xs = ys.map f) st.substitution v v where
  nil := rfl
  append h h' := by rw [h, h', map_append]
  expr := expr
  stmt {s} _ _ _ h := by rw [stmt, h, last, map_append, map_append]
  ret span := by
    rw [Stmt.visit, map_append, map_append, ← stmt, ← last]
    rfl
  retValue span value h := by
    rw [Stmt.visit, map_append, map_append, ← stmt, ← last, ← h]
    rfl

section Mentions

variable {s body : Stmt} {e : Expr}

theorem Expr.mem_mentions_of_read? (hx : e.read? = some x) : x ∈ e.visit mentionVisitor := by
  cases e <;> simp only [Expr.read?, reduceCtorEq, Option.some.injEq] at hx
  subst hx
  exact mem_append_left _ (mem_singleton_self _)

/-- A block mentions what its statements mention. -/
theorem Stmt.mentions_eq (s : Stmt) : s.mentions = Stmt.visitAll mentionVisitor s.flatten := by
  induction s using blockInduction with
  | block span items ih =>
    rw [Stmt.mentions, Stmt.visit, Stmt.flatten, flattenAll_eq_flatMap,
      Stmt.visitAll_eq_flatMap, Stmt.visitAll_eq_flatMap, flatMap_assoc]
    refine (append_nil _).trans (flatMap_congr fun s hs ↦ (ih s hs).trans ?_)
    exact Stmt.visitAll_eq_flatMap _ _
  | single s hs =>
    rw [flatten_of_isBlock hs, Stmt.visitAll_eq_flatMap, flatMap_singleton, Stmt.mentions]

theorem Stmt.Settled.within (hs : s.Settled V) : s.Within V := by
  cases s
  case block | compound | ifThen | ifElse | whileLoop | doWhile | on | expression => exact hs.elim
  all_goals exact hs

/-- Settled code mentions variables of the vocabulary, and the signatures of routines in it. -/
theorem Stmt.AllSettled.of_mem_mentions {P : Variable → Prop} (h : AllSettled V body.flatten)
    (hvar : ∀ x, V.var x → P x) (hroutine : ∀ r, V.routine r → ∀ x ∈ r.formals, P x)
    (hx : x ∈ body.mentions) : P x := by
  have hcallee {callee : Callee} (hcallee : callee.Within V) (x : Variable) (hx : x ∈ callee.formals) :
      P x := by
    cases callee with
    | routine r => exact hroutine r hcallee x hx
    | builtin b type => cases hx
  rw [mentions_eq] at hx
  obtain ⟨s, hs, hx⟩ := exists_of_mem_visitAll hx
  refine (s.within_iff.1 (h s hs).within).visit (fun e he x hx ↦ ?_) (fun s hs x hx ↦ ?_) x hx
  · cases e
    case read =>
      obtain rfl := mem_singleton.1 hx
      exact hvar _ he.2
    case step | assign | compound =>
      obtain rfl := mem_singleton.1 hx
      exact hvar _ he
    case call => exact hcallee he x hx
    all_goals cases hx
  · cases s
    case declare | define | assign | compound =>
      obtain rfl := mem_singleton.1 hx
      exact hvar _ hs
    case call span callee arguments result =>
      rcases mem_append.1 hx with hx | hx
      · exact hcallee hs.1 x hx
      · rcases result with - | y
        · cases hx
        · obtain rfl := mem_singleton.1 hx
          exact hvar _ (hs.2 _ rfl)
    all_goals cases hx

end Mentions

end Wirescript
