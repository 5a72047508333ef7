import Mathlib.Data.List.SplitBy
import Wirescript.Machine.Run
import Wirescript.Proofs.Outcome
import Wirescript.Proofs.Reach

/-!
# Runs of statements and the flow between them

The flow graph of flat code works on runs: stretches that are entered at their first statement and
left at their last. Two facts tie the graph to the code. A label that the graph finds at a run is
found by the machine at the same place (`Flow.from?_flatten`), and the nodes that the search
reaches are closed under falling through (`Flow.reached_next`) and under jumps
(`Flow.reached_target`).
-/

namespace Wirescript

open List

variable {l : Label} {after all before rs : List (List Stmt)} {nodes : List FlowNode}
  {code rest run : List Stmt} {found : List Nat} {id next position : Nat} {last s : Stmt}

/-! ### Finding a label -/

namespace Stmt

/-- A label is looked up from the back. -/
theorem from?_append (l : Label) (xs ys : List Stmt) :
    from? l (xs ++ ys) = (from? l ys).or ((from? l xs).map (· ++ ys)) := by
  induction xs with
  | nil => simp [from?]
  | cons s xs ih =>
    rw [cons_append, from?, from?, ih]
    split <;> cases from? l ys <;> cases from? l xs <;> rfl

theorem from?_eq_none {xs : List Stmt} (h : ∀ s ∈ xs, s.label? ≠ some l) : from? l xs = none := by
  induction xs with
  | nil => rfl
  | cons s xs ih =>
    rw [from?, ih fun t ht ↦ h t (mem_cons_of_mem _ ht), if_neg (h s mem_cons_self)]
    rfl

/-- The last definition of a label is where its code begins. -/
theorem from?_append_cons {ys : List Stmt} (xs : List Stmt) (hs : s.label? = some l)
    (hys : ∀ t ∈ ys, t.label? ≠ some l) : from? l (xs ++ s :: ys) = some (s :: ys) := by
  rw [from?_append, from?, from?_eq_none hys, if_pos hs]
  rfl

theorem from?_suffix {there : List Stmt} (h : from? l code = some there) : there <:+ code := by
  induction code with
  | nil => cases h
  | cons s rest ih =>
    rw [from?] at h
    rcases hrest : from? l rest with - | found
    · rw [hrest] at h
      split at h
      · cases h
        exact suffix_refl _
      · cases h
    · rw [hrest] at h
      cases h
      exact (ih hrest).trans (suffix_cons s rest)

theorem exists_cons_of_from? {there : List Stmt} (h : from? l code = some there) :
    ∃ s rest, there = s :: rest ∧ s.label? = some l := by
  induction code with
  | nil => cases h
  | cons s rest ih =>
    rw [from?] at h
    rcases hrest : from? l rest with - | found
    · rw [hrest] at h
      split at h
      · next hs =>
        cases h
        exact ⟨s, rest, rfl, hs⟩
      · cases h
    · rw [hrest] at h
      cases h
      exact ih hrest

/-! ### Ways through code -/

/-- A way from one place in the code to another: control goes on to the next statement, or it takes one
of the jumps that the function tells. -/
inductive Way (goes : Stmt → Option Label) (code start : List Stmt) : List Stmt → Prop
  | refl : Way goes code start start
  | next {s : Stmt} {rest : List Stmt} (h : Way goes code start (s :: rest))
      (hs : s.endsFlow = false) : Way goes code start rest
  | jump {s : Stmt} {l : Label} {rest there : List Stmt} (h : Way goes code start (s :: rest))
      (hs : goes s = some l) (hthere : from? l code = some there) : Way goes code start there

namespace Way

variable {goes : Stmt → Option Label} {start mid : List Stmt}

theorem trans (h : Way goes code start mid) (h' : Way goes code mid rest) :
    Way goes code start rest := by
  induction h' with
  | refl => exact h
  | next _ hs ih => exact .next ih hs
  | jump _ hs hthere ih => exact .jump ih hs hthere

theorem suffix (h : Way goes code start rest) (hstart : start <:+ code) : rest <:+ code := by
  induction h with
  | refl => exact hstart
  | next _ _ ih => exact (suffix_cons _ _).trans ih
  | jump _ _ hthere _ => exact from?_suffix hthere

/-- Control goes through statements that do not end it. -/
theorem through {xs ys : List Stmt} (h : Way goes code start (xs ++ ys))
    (hxs : ∀ s ∈ xs, s.endsFlow = false) : Way goes code start ys := by
  induction xs with
  | nil => exact h
  | cons s xs ih =>
    obtain ⟨hs, hxs⟩ := forall_mem_cons.1 hxs
    exact ih (h.next hs) hxs

end Way

end Stmt

namespace Flow

/-! ### Runs -/

/-- Two statements that stand next to each other in one run. -/
def Joined (s t : Stmt) : Bool := !s.isJump && t.label?.isNone

theorem flatten_runs (code : List Stmt) : (runs code).flatten = code := flatten_splitBy _ code

theorem ne_nil_of_mem_runs (h : run ∈ runs code) : run ≠ [] := ne_nil_of_mem_splitBy h

theorem isChain_of_mem_runs (h : run ∈ runs code) : run.IsChain fun s t ↦ Joined s t :=
  isChain_of_mem_splitBy h

theorem runs_eq_nil : runs code = [] ↔ code = [] := splitBy_eq_nil

/-- Nothing but the first statement of a run is a label. -/
theorem label?_eq_none_of_isChain (h : (s :: rest).IsChain fun s t ↦ Joined s t) :
    ∀ t ∈ rest, t.label? = none := by
  induction rest generalizing s with
  | nil => simp
  | cons t rest ih =>
    rw [isChain_cons_cons] at h
    have ht : t.label? = none := by simpa [Joined] using (Bool.and_eq_true_iff.1 h.1).2
    intro u hu
    rcases mem_cons.1 hu with rfl | hu
    · exact ht
    · exact ih h.2 u hu

/-- Nothing follows a jump in its run. -/
theorem eq_nil_of_isChain_of_isJump {pre : List Stmt}
    (h : (pre ++ s :: rest).IsChain fun s t ↦ Joined s t) (hs : s.isJump = true) : rest = [] := by
  have hsuffix := h.suffix (suffix_append pre (s :: rest))
  cases rest with
  | nil => rfl
  | cons t rest =>
    have hjoined := (isChain_cons_cons.1 hsuffix).1
    simp [Joined, hs] at hjoined

/-- The label that begins a run. -/
def heading? (run : List Stmt) : Option Label := run.head?.bind Stmt.label?

theorem label?_ne_of_heading? (hchain : run.IsChain fun s t ↦ Joined s t)
    (h : heading? run ≠ some l) : ∀ s ∈ run, s.label? ≠ some l := by
  cases run with
  | nil => simp
  | cons s rest =>
    intro t ht
    rcases mem_cons.1 ht with rfl | ht
    · exact h
    · rw [label?_eq_none_of_isChain hchain t ht]
      simp

/-! ### The node of a label -/

/-- Either no run has the label and the search keeps what it had, or the answer is the last run that
has it. -/
theorem foldl_heading (rs : List (List Stmt)) (n : Nat) (acc : Option Nat) (h : (rs.zipIdx n).foldl
      (fun found (run, id) ↦ if run.head?.bind Stmt.label? = some l then some id else found) acc
        = some id) : (acc = some id ∧ ∀ r ∈ rs, heading? r ≠ some l) ∨
      ∃ before run after, rs = before ++ run :: after ∧ id = before.length + n ∧
        heading? run = some l ∧ ∀ r ∈ after, heading? r ≠ some l := by
  induction rs generalizing n acc with
  | nil => exact Or.inl ⟨h, by simp⟩
  | cons r rs ih =>
    rcases ih (n + 1) _ h with ⟨hacc, hnone⟩ | ⟨before, run, after, rfl, rfl, hrun, hafter⟩
    · replace hacc : (if heading? r = some l then some n else acc) = some id := hacc
      by_cases hr : heading? r = some l
      · rw [if_pos hr] at hacc
        exact Or.inr ⟨[], r, rs, rfl, by simpa using (Option.some.inj hacc).symm, hr, hnone⟩
      · rw [if_neg hr] at hacc
        refine Or.inl ⟨hacc, fun t ht ↦ ?_⟩
        rcases mem_cons.1 ht with rfl | ht
        · exact hr
        · exact hnone t ht
    · refine Or.inr ⟨r :: before, run, after, rfl, ?_, hrun, hafter⟩
      simp only [length_cons]
      omega

/-- The node of a label is the last run that the label begins. -/
theorem exists_of_nodeOf? (h : nodeOf? all l = some id) :
    ∃ before run after, all = before ++ run :: after ∧ id = before.length + 2 ∧
      heading? run = some l ∧ ∀ r ∈ after, heading? r ≠ some l := by
  rcases foldl_heading all 2 none h with ⟨hnone, -⟩ | h
  · cases hnone
  · exact h

/-- Jumping to a label enters the run that the graph has for it. -/
theorem from?_flatten (hchain : ∀ r ∈ run :: after, r.IsChain fun s t ↦ Joined s t)
    (hrun : heading? run = some l) (hafter : ∀ r ∈ after, heading? r ≠ some l) :
    Stmt.from? l (before ++ run :: after).flatten = some (run ++ after.flatten) := by
  cases run with
  | nil => cases hrun
  | cons s rest =>
    rw [flatten_append]
    refine Stmt.from?_append_cons _ hrun fun t ht ↦ ?_
    rcases mem_append.1 ht with ht | ht
    · rw [label?_eq_none_of_isChain (hchain _ mem_cons_self) t ht]
      simp
    · obtain ⟨r, hr, htr⟩ := mem_flatten.1 ht
      exact label?_ne_of_heading? (hchain r (.tail _ hr)) (hafter r hr) t htr

/-! ### Nodes -/

/-- Each run has its node: it spans the run, and its successors are those of the last statement. -/
theorem nodesFrom_cons (h : nodesFrom all id position (run :: rs) = .ok nodes) :
    ∃ node others, nodes = node :: others ∧
      (node.start = position ∧ node.stop = position + run.length) ∧
      nodesFrom all (id + 1) (position + run.length) rs = .ok others ∧
      ∀ last, run.getLast? = some last →
        successors all (if rs.isEmpty then finish else id + 1) last = .ok node.successors := by
  rw [nodesFrom] at h
  obtain ⟨successors, hsuccessors, h⟩ := bind_eq_ok.1 h
  obtain ⟨others, hothers, h⟩ := bind_eq_ok.1 h
  cases h
  refine ⟨_, _, rfl, ⟨rfl, rfl⟩, hothers, fun last hlast ↦ ?_⟩
  simpa [hlast] using hsuccessors

/-- Runs have nodes unless a jump at the end of one of them names a label that begins none. -/
theorem outcome_nodesFrom {F : Fault → Prop}
    (hF : ∀ run ∈ rs, ∀ last l, run.getLast? = some last → last.target? = some l → nodeOf? all l =
      none → F (.internal (.undefinedLabel l))) :
    Outcome F (fun _ ↦ True) (nodesFrom all id position rs) := by
  induction rs generalizing id position with
  | nil => trivial
  | cons run rest ih =>
    obtain ⟨hrun, hrest⟩ := forall_mem_cons.1 hF
    have hsuccessors (next : Nat) : Outcome F (fun _ ↦ True)
        ((run.getLast?.map (successors all next)).getD (.ok [next])) := by
      rcases hlast : run.getLast? with - | last
      · trivial
      · show Outcome _ _ (successors all next last)
        unfold successors
        split
        · trivial
        · next l htarget =>
          split
          · next hnode => exact hrun last l hlast htarget hnode
          · trivial
    exact (hsuccessors _).bind fun _ _ ↦ (ih hrest).bind fun _ _ ↦ trivial

/-- The nodes of runs, seen from one of them. -/
theorem exists_node_of_nodesFrom
    (h : nodesFrom all id position (before ++ run :: after) = .ok nodes) :
    ∃ node, nodes[before.length]? = some node ∧ ∀ last, run.getLast? = some last →
        successors all (if after.isEmpty then finish else id + before.length + 1) last =
          .ok node.successors := by
  induction before generalizing id position nodes with
  | nil =>
    obtain ⟨node, others, rfl, -, -, hsuccessors⟩ := nodesFrom_cons h
    exact ⟨node, rfl, hsuccessors⟩
  | cons r before ih =>
    obtain ⟨node, others, rfl, -, hothers, -⟩ := nodesFrom_cons h
    obtain ⟨found, hfound, hsuccessors⟩ := ih hothers
    refine ⟨found, hfound, fun last hlast ↦ ?_⟩
    rw [← hsuccessors last hlast, length_cons,
      show id + 1 + before.length + 1 = id + (before.length + 1) + 1 by omega]

theorem length_of_nodesFrom (h : nodesFrom all id position rs = .ok nodes) :
    nodes.length = rs.length := by
  induction rs generalizing id position nodes with
  | nil =>
    cases h
    rfl
  | cons run rest ih =>
    obtain ⟨-, others, rfl, -, hothers, -⟩ := nodesFrom_cons h
    rw [length_cons, length_cons, ih hothers]

/-- What a graph is made of. -/
theorem build_eq_ok {f : Flow} (h : build code = .ok f) :
    ∃ nodes, nodesFrom (runs code) 2 0 (runs code) = .ok nodes ∧
      f.nodes = ⟨0, 0, [if (runs code).isEmpty then finish else 2]⟩ :: ⟨0, 0, []⟩ :: nodes := by
  simp only [build, bind, Except.bind] at h
  split at h
  · cases h
  · next nodes hnodes =>
    cases h
    exact ⟨nodes, hnodes, rfl⟩

section

variable (h : successors all next last = .ok found)

include h

/-- A successor of a statement is the node of its target, or what follows it. -/
theorem mem_successors {b : Nat} (hb : b ∈ found) :
    b = finish ∨ b = next ∨ ∃ l, last.target? = some l ∧ nodeOf? all l = some b := by
  rw [successors] at h
  rcases htarget : last.target? with - | l <;> simp only [htarget] at h
  · cases h
    by_cases hend : last.endsFlow = true <;> simp_all
  · rcases hnode : nodeOf? all l with - | id <;> simp only [hnode] at h
    · cases h
    · cases h
      by_cases hend : last.endsFlow = true <;> simp_all
      rcases hb with rfl | rfl
      · exact Or.inr (Or.inr rfl)
      · exact Or.inr (Or.inl rfl)

/-- Control that does not end at a statement goes on to what follows. -/
theorem next_mem_successors (hend : last.endsFlow = false) : next ∈ found := by
  rw [successors] at h
  rcases htarget : last.target? with - | l <;> simp only [htarget] at h
  · cases h
    simp [hend]
  · rcases hnode : nodeOf? all l with - | id <;> simp only [hnode] at h
    · cases h
    · cases h
      simp [hend]

/-- A jump leads to the node of its target, which exists. -/
theorem target_mem_successors (htarget : last.target? = some l) :
    ∃ id ∈ found, nodeOf? all l = some id := by
  rw [successors, htarget] at h
  rcases hnode : nodeOf? all l with - | id <;> simp only [hnode] at h
  · cases h
  · cases h
    by_cases hend : last.endsFlow = true <;> simp [hend]

end

/-! ### What the search reaches -/

variable {f : Flow} (h : build code = .ok f)

include h

theorem length_nodes : f.nodes.length = (runs code).length + 2 := by
  obtain ⟨nodes, hnodes, hf⟩ := build_eq_ok h
  rw [hf, length_cons, length_cons, length_of_nodesFrom hnodes]

/-- The node of a run is followed by the successors of its last statement. -/
theorem successors_eq_successorsOf (hruns : runs code = before ++ run :: after)
    (hlast : run.getLast? = some last) :
    successors (runs code) (if after.isEmpty then finish else before.length + 3) last =
      .ok (f.successorsOf (before.length + 2)) := by
  obtain ⟨nodes, hnodes, hf⟩ := build_eq_ok h
  nth_rewrite 2 [hruns] at hnodes
  obtain ⟨node, hnode, hsuccessors⟩ := exists_node_of_nodesFrom hnodes
  have hget : f.nodes[before.length + 2]? = some node := by rw [hf]; exact hnode
  rw [successorsOf, hget, show before.length + 3 = 2 + before.length + 1 by omega]
  exact hsuccessors last hlast

/-- All edges lead to nodes of the graph. -/
theorem lt_length_of_mem_successorsOf {a b : Nat} (hb : b ∈ f.successorsOf a) :
    b < f.nodes.length := by
  have hlength := length_nodes h
  obtain ⟨nodes, -, hf⟩ := build_eq_ok h
  match a with
  | 0 =>
    have hb : b = if (runs code).isEmpty then finish else 2 := by simpa [successorsOf, hf] using hb
    rcases hruns : runs code with - | ⟨r, rs⟩ <;> simp_all [finish]
  | 1 => simp [successorsOf, hf] at hb
  | k + 2 =>
    by_cases hk : k < (runs code).length
    · have hsplit : runs code = (runs code).take k ++ (runs code)[k] :: (runs code).drop (k + 1) := by
        simp
      have hne := ne_nil_of_mem_runs (getElem_mem hk)
      have hsucc := successors_eq_successorsOf h hsplit (getLast?_eq_some_getLast hne)
      have htake : ((runs code).take k).length = k := by simp; omega
      rw [htake] at hsucc
      rcases mem_successors hsucc hb with rfl | rfl | ⟨l, -, hl⟩
      · simp [hlength, finish]
      · rcases hdrop : (runs code).drop (k + 1) with - | ⟨r, rs⟩
        · simp [hlength, finish]
        · have := congrArg List.length hdrop
          simp only [length_drop, length_cons] at this
          simp only [isEmpty_cons, Bool.false_eq_true, if_false]
          omega
      · obtain ⟨before, run, after, hruns, rfl, -, -⟩ := exists_of_nodeOf? hl
        rw [hlength, hruns]
        simp only [List.length_append, length_cons]
        omega
    · have hnone : f.nodes[k + 2]? = none := getElem?_eq_none (by omega)
      simp [successorsOf, hnone] at hb

/-- What the search reaches is closed. -/
theorem mem_reachableNodes_of_successor {a b : Nat} (ha : a ∈ f.reachableNodes)
    (hb : b ∈ f.successorsOf a) : b ∈ f.reachableNodes := by
  have htargets : ∀ a, ∀ b ∈ f.successorsOf a, b ∈ List.range f.nodes.length :=
    fun _ _ hb ↦ mem_range.2 (lt_length_of_mem_successorsOf h hb)
  exact Reach.closure_closed (by simp) htargets ha hb

/-- Control starts in the first run. -/
theorem reached_first (hne : code ≠ []) : 2 ∈ f.reachableNodes := by
  have hstart : start ∈ f.reachableNodes := Reach.mem_closure_of_mem_roots (by simp)
  refine mem_reachableNodes_of_successor h hstart ?_
  obtain ⟨nodes, -, hf⟩ := build_eq_ok h
  have hruns : (runs code).isEmpty = false := by
    rw [isEmpty_eq_false_iff]
    exact mt runs_eq_nil.1 hne
  simp [successorsOf, hf, start, hruns]

/-- Control that leaves a run at its end enters the next one. -/
theorem reached_next {next : List Stmt} (hruns : runs code = before ++ run :: next :: after)
    (hlast : run.getLast? = some last) (hend : last.endsFlow = false)
    (hrun : before.length + 2 ∈ f.reachableNodes) : before.length + 3 ∈ f.reachableNodes := by
  refine mem_reachableNodes_of_successor h hrun ?_
  exact next_mem_successors (successors_eq_successorsOf h hruns hlast) hend

/-- Control that jumps enters the run of the label. -/
theorem reached_target (hruns : runs code = before ++ run :: after)
    (hlast : run.getLast? = some last) (htarget : last.target? = some l)
    (hrun : before.length + 2 ∈ f.reachableNodes) :
    ∃ before' run' after', runs code = before' ++ run' :: after' ∧ heading? run' = some l ∧
      (∀ r ∈ after', heading? r ≠ some l) ∧ before'.length + 2 ∈ f.reachableNodes := by
  obtain ⟨id, hid, hnode⟩ :=
    target_mem_successors (successors_eq_successorsOf h hruns hlast) htarget
  obtain ⟨before', run', after', hruns', rfl, hheading, hafter⟩ := exists_of_nodeOf? hnode
  exact ⟨before', run', after', hruns', hheading, hafter,
    mem_reachableNodes_of_successor h hrun hid⟩

end Flow

end Wirescript
