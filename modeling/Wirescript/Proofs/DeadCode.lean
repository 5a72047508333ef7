import Wirescript.Flat.Lowered
import Wirescript.Proofs.Execution
import Wirescript.Proofs.Flow

/-!
# Dropping what control cannot reach

A run of flat code stays a run when the statements that the flow graph does not reach are left out
(`Runs.of_dropUnreachable`). What is left is a list of stretches (`kept`): the whole of each run that
is reached, and the marks of the others. The two runs go side by side, always inside a run that is
reached (`Aligned`).

The argument looks at statements only through where control can go after them, so it holds for every
meaning of statements that agrees with `Stmt.endsFlow` and `Stmt.target?`.
-/

namespace Wirescript

open Wirescript.Flow
open List

/-! ### What is left -/

/-- The statements that stay, of runs that are numbered from `id` on. -/
def kept (reached : List Nat) : Nat → List (List Stmt) → List Stmt
  | _, [] => []
  | id, run :: rest =>
    (if id ∈ reached then run else run.filter Stmt.isHint) ++ kept reached (id + 1) rest

theorem kept_append (reached : List Nat) (id : Nat) (xs ys : List (List Stmt)) :
    kept reached id (xs ++ ys) = kept reached id xs ++ kept reached (id + xs.length) ys := by
  induction xs generalizing id with
  | nil => rfl
  | cons x xs ih =>
    rw [cons_append, kept, kept, ih, append_assoc, length_cons,
      Nat.add_right_comm, Nat.add_assoc]

theorem exists_mem_of_mem_kept {reached : List Nat} {id : Nat} {runs : List (List Stmt)} {s : Stmt}
    (h : s ∈ kept reached id runs) : ∃ run ∈ runs, s ∈ run := by
  induction runs generalizing id with
  | nil => cases h
  | cons run rest ih =>
    rcases mem_append.1 h with h | h
    · refine ⟨run, .head _, ?_⟩
      split at h
      · exact h
      · exact mem_of_mem_filter h
    · obtain ⟨other, hother, hs⟩ := ih h
      exact ⟨other, .tail _ hother, hs⟩

/-- A statement is dropped by the flag that stands beside it. -/
def keepFlagged (entry : Stmt × Bool) : Option Stmt :=
  if entry.2 || entry.1.isHint then some entry.1 else none

theorem filterMap_zip_replicate (run : List Stmt) (live : Bool) :
    (run.zip (List.replicate run.length live)).filterMap keepFlagged =
      if live then run else run.filter Stmt.isHint := by
  induction run with
  | nil => cases live <;> rfl
  | cons s run ih =>
    cases live <;> by_cases hs : s.isHint = true <;> simp_all [keepFlagged, replicate_succ]

/-- Flags that follow the nodes of runs keep what `kept` says. -/
theorem filterMap_zip_nodes {all rs : List (List Stmt)} {id position : Nat}
    {nodes : List FlowNode} (reached : List Nat) (h : nodesFrom all id position rs = .ok nodes) :
    (rs.flatten.zip ((nodes.zipIdx id).flatMap fun entry ↦
      List.replicate (entry.1.stop - entry.1.start) (decide (entry.2 ∈ reached)))).filterMap
        keepFlagged = kept reached id rs := by
  induction rs generalizing id position nodes with
  | nil => simp [kept]
  | cons run rest ih =>
    obtain ⟨node, others, rfl, ⟨rfl, hstop⟩, hothers, -⟩ := nodesFrom_cons h
    rw [flatten_cons, zipIdx_cons, flatMap_cons, hstop, Nat.add_sub_cancel_left,
      zip_append (by simp), filterMap_append, filterMap_zip_replicate, ih hothers, kept]
    simp

variable {live : List Stmt}

theorem dropUnreachable_eq {code : List Stmt} (h : dropUnreachable code = .ok live) :
    ∃ f, build code = .ok f ∧ live = kept f.reachableNodes 2 (runs code) := by
  simp only [dropUnreachable, bind, Except.bind] at h
  split at h
  · cases h
  · next f hf =>
    cases h
    obtain ⟨nodes, hnodes, hfnodes⟩ := build_eq_ok hf
    refine ⟨f, hf, ?_⟩
    rw [← filterMap_zip_nodes f.reachableNodes hnodes, flatten_runs, reachable, hfnodes]
    rfl

/-! ### Two runs side by side -/

/-- Control stands at the same statement of both lists. What is still to run of the whole code is a
part of a run that is reached and all runs after it; what is left of them is still to run of the
other one. The part may be used up only at the end of the code. -/
def Aligned (code : List Stmt) (f : Flow) (rest rest' : List Stmt) : Prop :=
  ∃ before pre part after, runs code = before ++ (pre ++ part) :: after ∧
    before.length + 2 ∈ f.reachableNodes ∧ (part = [] → after = []) ∧
    rest = part ++ after.flatten ∧
    rest' = part ++ kept f.reachableNodes (before.length + 3) after

variable {code pre rest rest' : List Stmt} {f : Flow} {s : Stmt}

theorem Aligned.head?_eq (h : Aligned code f rest rest') : rest.head? = rest'.head? := by
  obtain ⟨-, -, part, after, -, -, hpart, rfl, rfl⟩ := h
  cases part with
  | nil =>
    rw [hpart rfl]
    rfl
  | cons s part => rfl

theorem Aligned.eq_nil (h : Aligned code f [] rest') : rest' = [] :=
  head?_eq_none_iff.1 h.head?_eq.symm

/-- The statement that runs next is the same. -/
theorem Aligned.cons (h : Aligned code f (s :: rest) rest') :
    ∃ before pre part after, runs code = before ++ (pre ++ s :: part) :: after ∧
      before.length + 2 ∈ f.reachableNodes ∧ rest = part ++ after.flatten ∧
      rest' = s :: (part ++ kept f.reachableNodes (before.length + 3) after) := by
  obtain ⟨before, pre, part, after, hruns, hreached, hpart, hrest, rfl⟩ := h
  cases part with
  | nil =>
    rw [hpart rfl] at hrest
    cases hrest
  | cons t part =>
    cases hrest
    exact ⟨before, pre, part, after, hruns, hreached, rfl, rfl⟩

/-- Control that goes on to the next statement stays aligned. -/
theorem Aligned.next (hf : build code = .ok f) (h : Aligned code f (s :: rest) rest')
    (hs : s.endsFlow = false) : ∃ tail, rest' = s :: tail ∧ Aligned code f rest tail := by
  obtain ⟨before, pre, part, after, hruns, hreached, rfl, rfl⟩ := h.cons
  refine ⟨_, rfl, ?_⟩
  rcases part with - | ⟨t, part⟩
  · rcases after with - | ⟨run, after⟩
    · exact ⟨before, pre ++ [s], [], [], by simpa using hruns, hreached, fun _ ↦ rfl, rfl, rfl⟩
    · -- the run ends here, so control enters the next one
      have hnext := reached_next hf hruns (by simp) hs hreached
      have hmem : run ∈ runs code := by simp [hruns]
      have hne := ne_nil_of_mem_runs hmem
      refine ⟨before ++ [pre ++ [s]], [], run, after, by simpa using hruns, by simpa using hnext,
        fun h ↦ absurd h hne, rfl, ?_⟩
      rw [kept, if_pos hnext, List.length_append]
      rfl
  · exact ⟨before, pre ++ [s], t :: part, after, by simpa using hruns, hreached, by simp, rfl, rfl⟩

/-- Control that jumps finds the label on both sides, and is aligned there. -/
theorem Aligned.jump (hf : build code = .ok f) {l : Label} (h : Aligned code f (s :: rest) rest')
    (hs : s.target? = some l) : ∃ there there', Stmt.from? l code = some there ∧
      Stmt.from? l (kept f.reachableNodes 2 (runs code)) = some there' ∧
      Aligned code f there there' := by
  obtain ⟨before, pre, part, after, hruns, hreached, -, -⟩ := h.cons
  have hchain : ∀ r ∈ runs code, r.IsChain fun s t ↦ Joined s t := fun _ ↦ isChain_of_mem_runs
  have hjump : s.isJump = true := by cases s <;> first | rfl | cases hs
  have hmem : pre ++ s :: part ∈ runs code := by simp [hruns]
  obtain rfl := eq_nil_of_isChain_of_isJump (hchain _ hmem) hjump
  obtain ⟨before', run, after', hruns', hrun, hafter, hreached'⟩ :=
    reached_target hf hruns (by simp) hs hreached
  have hchain' : ∀ r ∈ run :: after', r.IsChain fun s t ↦ Joined s t :=
    fun r hr ↦ hchain r (hruns' ▸ mem_append_right _ hr)
  refine ⟨run ++ after'.flatten, run ++ kept f.reachableNodes (before'.length + 3) after', ?_, ?_,
    before', [], run, after', hruns', hreached', ?_, rfl, rfl⟩
  · rw [← flatten_runs code, hruns']
    exact from?_flatten hchain' hrun hafter
  · rw [hruns', kept_append, kept, Nat.add_comm 2, if_pos hreached']
    cases run with
    | nil => cases hrun
    | cons t run =>
      refine Stmt.from?_append_cons _ hrun fun u hu ↦ ?_
      rcases mem_append.1 hu with hu | hu
      · rw [label?_eq_none_of_isChain (hchain' _ mem_cons_self) u hu]
        simp
      · obtain ⟨r, hr, hur⟩ := exists_mem_of_mem_kept hu
        exact label?_ne_of_heading? (hchain' r (.tail _ hr)) (hafter r hr) u hur
  · rintro rfl
    cases hrun

theorem Aligned.start (hf : build code = .ok f) (hne : code ≠ []) :
    Aligned code f code (kept f.reachableNodes 2 (runs code)) := by
  obtain ⟨run, after, hruns⟩ := exists_cons_of_ne_nil (mt runs_eq_nil.1 hne)
  have hfirst := reached_first hf hne
  have hmem : run ∈ runs code := by simp [hruns]
  refine ⟨[], [], run, after, hruns, hfirst, fun h ↦ absurd h (ne_nil_of_mem_runs hmem), ?_, ?_⟩
  · rw [← flatten_cons, ← hruns, flatten_runs]
  · rw [hruns, kept, if_pos hfirst]
    rfl

/-- A place in runs lies in one of them only. -/
theorem length_eq_of_rest {before before' after after' : List (List Stmt)}
    {pre' part part' : List Stmt} {s' : Stmt}
    (h : before ++ (pre ++ s :: part) :: after = before' ++ (pre' ++ s' :: part') :: after')
    (hrest : part ++ after.flatten = part' ++ after'.flatten) : before.length = before'.length := by
  have hlength := congrArg List.length hrest
  rcases append_eq_append_iff.1 h with ⟨mid, rfl, hmid⟩ | ⟨mid, rfl, hmid⟩
  all_goals
    cases mid with
    | nil => simp
    | cons run mid =>
      cases hmid
      simp at hlength
      omega

/-- A place of the code has only one partner among the statements that stay. -/
theorem Aligned.unique {rest'' : List Stmt} (h : Aligned code f rest rest')
    (h' : Aligned code f rest rest'') : rest' = rest'' := by
  cases rest with
  | nil => rw [h.eq_nil, h'.eq_nil]
  | cons s rest =>
    obtain ⟨before, pre, part, after, hruns, -, hrest, rfl⟩ := h.cons
    obtain ⟨before', pre', part', after', hruns', -, hrest', rfl⟩ := h'.cons
    have hsplit := hruns.symm.trans hruns'
    have hlength := length_eq_of_rest hsplit (hrest.symm.trans hrest')
    obtain ⟨rfl, htail⟩ := append_inj hsplit hlength
    obtain ⟨-, rfl⟩ := List.cons.inj htail
    rw [append_cancel_right (hrest.symm.trans hrest')]

/-- A statement that stays and is no mark stands in a run that the search finds. -/
theorem exists_of_kept_eq {reached : List Nat} {id : Nat} {runs : List (List Stmt)}
    (h : kept reached id runs = pre ++ s :: rest) (hs : s.isHint = false) :
    ∃ before head part after, runs = before ++ (head ++ s :: part) :: after ∧
      id + before.length ∈ reached ∧ rest = part ++ kept reached (id + before.length + 1) after := by
  induction runs generalizing id pre with
  | nil => simp [kept] at h
  | cons run runs ih =>
    -- the statement stands in what stays of the first run, or behind it
    rcases append_eq_append_iff.1 h with ⟨mid, rfl, hmid⟩ | ⟨mid, hrun, hrest⟩
    · obtain ⟨before, head, part, after, rfl, hreached, rfl⟩ := ih hmid
      refine ⟨run :: before, head, part, after, rfl, ?_, ?_⟩
      · rwa [length_cons, Nat.add_comm before.length, ← Nat.add_assoc]
      · rw [length_cons, Nat.add_comm before.length, ← Nat.add_assoc]
    · cases mid with
      | nil =>
        have hkept : kept reached (id + 1) runs = [] ++ s :: rest := hrest.symm
        obtain ⟨before, head, part, after, rfl, hreached, rfl⟩ := ih hkept
        refine ⟨run :: before, head, part, after, rfl, ?_, ?_⟩
        · rwa [length_cons, Nat.add_comm before.length, ← Nat.add_assoc]
        · rw [length_cons, Nat.add_comm before.length, ← Nat.add_assoc]
      | cons t mid =>
        cases hrest
        split at hrun
        · next hreached => exact ⟨[], pre, mid, runs, by rw [hrun]; rfl, hreached, rfl⟩
        · -- of a run that is not found only marks stay
          have hmem : s ∈ run.filter Stmt.isHint := by rw [hrun]; simp
          rw [(mem_filter.1 hmem).2] at hs
          cases hs

/-- Control can be at every statement that stays and is no mark. -/
theorem Aligned.of_kept_eq (h : kept f.reachableNodes 2 (runs code) = pre ++ s :: rest')
    (hs : s.isHint = false) : ∃ rest, Aligned code f (s :: rest) (s :: rest') := by
  obtain ⟨before, head, part, after, hruns, hreached, rfl⟩ := exists_of_kept_eq h hs
  rw [Nat.add_comm 2] at hreached ⊢
  exact ⟨part ++ after.flatten, before, head, s :: part, after, hruns, hreached, by simp, rfl, rfl⟩

section Ways

variable {goes : Stmt → Option Label} {start start' : List Stmt}
  (hgoes : ∀ s l, goes s = some l → s.target? = some l) (hf : build code = .ok f)
  (hstart : Aligned code f start start')

include hgoes hf hstart

/-- A way through the whole code leads through the statements that stay. -/
theorem Aligned.exists_way (h : Stmt.Way goes code start rest) : ∃ rest',
    Aligned code f rest rest' ∧ Stmt.Way goes (kept f.reachableNodes 2 (runs code)) start' rest' := by
  induction h with
  | refl => exact ⟨start', hstart, .refl⟩
  | next _ hs ih =>
    obtain ⟨rest', haligned, hway⟩ := ih
    obtain ⟨tail, rfl, htail⟩ := haligned.next hf hs
    exact ⟨tail, htail, hway.next hs⟩
  | jump _ hs hthere ih =>
    obtain ⟨rest', haligned, hway⟩ := ih
    obtain ⟨there, there', hfrom, hkept, hthere'⟩ := haligned.jump hf (hgoes _ _ hs)
    cases hthere.symm.trans hfrom
    obtain ⟨_, _, _, _, _, _, _, rfl⟩ := haligned.cons
    exact ⟨there', hthere', hway.jump hs hkept⟩

/-- A way through the statements that stay leads through the whole code. -/
theorem Aligned.exists_way_of_kept
    (h : Stmt.Way goes (kept f.reachableNodes 2 (runs code)) start' rest') :
    ∃ rest, Aligned code f rest rest' ∧ Stmt.Way goes code start rest := by
  induction h with
  | refl => exact ⟨start, hstart, .refl⟩
  | next _ hs ih =>
    obtain ⟨rest, haligned, hway⟩ := ih
    obtain ⟨rest, rfl⟩ := head?_eq_some_iff.1 haligned.head?_eq
    obtain ⟨_, htail, haligned'⟩ := haligned.next hf hs
    cases htail
    exact ⟨rest, haligned', hway.next hs⟩
  | jump _ hs hthere ih =>
    obtain ⟨rest, haligned, hway⟩ := ih
    obtain ⟨rest, rfl⟩ := head?_eq_some_iff.1 haligned.head?_eq
    obtain ⟨place, _, hfrom, hkept, hplace⟩ := haligned.jump hf (hgoes _ _ hs)
    cases hkept.symm.trans hthere
    exact ⟨place, hplace, hway.jump hs hfrom⟩

end Ways

/-! ### Runs -/

section

variable {μ : Type} {step : Stmt → μ → Control → μ → Prop} {m m' : μ}

/-- Steps go where the form of the statement lets them go. -/
structure Directed (step : Stmt → μ → Control → μ → Prop) : Prop where
  next {s : Stmt} {m m' : μ} (h : step s m .next m') : s.endsFlow = false
  jump {s : Stmt} {m m' : μ} {l : Label} (h : step s m (.jump l) m') : s.target? = some l

theorem Runs.aligned (hstep : Directed step) (hf : build code = .ok f)
    (h : Runs step code rest m m') (haligned : Aligned code f rest rest') :
    Runs step (kept f.reachableNodes 2 (runs code)) rest' m m' := by
  induction h generalizing rest' with
  | done m =>
    rw [haligned.eq_nil]
    exact .done m
  | next h _ ih =>
    obtain ⟨tail, rfl, htail⟩ := haligned.next hf (hstep.next h)
    exact .next h (ih htail)
  | stop h =>
    obtain ⟨_, _, _, _, _, _, _, rfl⟩ := haligned.cons
    exact .stop h
  | jump h hthere _ ih =>
    obtain ⟨_, _, _, _, _, _, _, rfl⟩ := haligned.cons
    obtain ⟨there, there', hcode, hkept, hthere'⟩ := haligned.jump hf (hstep.jump h)
    cases hthere.symm.trans hcode
    exact .jump h hkept (ih hthere')

theorem Stmt.directed_step {κ : Type} [DecidableEq κ] {key : Slot → κ}
    {calls : Routine → Memory κ → Memory κ → Prop} {routine : Routine} :
    Directed (Stmt.Step key calls routine) where
  next {s m m'} h := by
    cases s
    case goto | rollback | ret | retValue => exact nomatch h.1
    all_goals rfl
  jump {s m m' l} h := by
    cases s
    case goto => exact congrArg some (Control.jump.inj h.1).symm
    case gotoIf =>
      obtain ⟨v, -, hc, -⟩ := h
      split at hc
      · exact congrArg some (Control.jump.inj hc).symm
      · cases hc
    all_goals first | exact nomatch h.1 | exact h.elim

theorem mem_of_mem_dropUnreachable (hlive : dropUnreachable code = .ok live) (h : s ∈ live) :
    s ∈ code := by
  obtain ⟨f, -, rfl⟩ := dropUnreachable_eq hlive
  obtain ⟨run, hrun, hs⟩ := exists_mem_of_mem_kept h
  rw [← flatten_runs code]
  exact mem_flatten.2 ⟨run, hrun, hs⟩

/-- A run of the whole code is a run of what is left when unreachable statements are dropped. -/
theorem Runs.of_dropUnreachable (hstep : Directed step) (hlive : dropUnreachable code = .ok live)
    (h : Runs step code code m m') : Runs step live live m m' := by
  obtain ⟨f, hf, rfl⟩ := dropUnreachable_eq hlive
  rcases eq_or_ne code [] with rfl | hne
  · exact h
  · exact h.aligned hstep hf (Aligned.start hf hne)

end

end Wirescript
