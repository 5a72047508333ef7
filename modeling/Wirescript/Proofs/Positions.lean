import Wirescript.Proofs.NormalForm

/-!
# Reachability of positions

Control moves between the positions of flat code one statement at a time: to the next position, or
to where a label is defined. The graph knows nothing of positions; it is built of runs and searched
node by node. The two are tied by the code that is left at a position: `Stmt.visited_iff` reads the
places that control gets to as positions, and a position lies in exactly one run.
-/

namespace Wirescript

open List

variable {node : FlowNode} {l : Label} {all rs : List (List Stmt)} {nodes : List FlowNode}
  {run : List Stmt} {i id position : Nat} {s : Stmt}

namespace Stmt

/-- The label is defined at the position, and not again behind it. -/
structure DefinesLast (code : List Stmt) (l : Label) (i : Nat) : Prop where
  here : code[i]?.bind label? = some l
  behind : ∀ j, i < j → code[j]?.bind label? ≠ some l

/-- Control can go from a position to another one: to the next unless the statement ends the flow, and
to the label that it names. -/
def StepsTo (code : List Stmt) (i j : Nat) : Prop :=
  ∃ s, code[i]? = some s ∧
    (s.endsFlow = false ∧ j = i + 1 ∨ ∃ l, s.target? = some l ∧ DefinesLast code l j)

/-- Control can come to a position from the first one. -/
def ComesTo (code : List Stmt) : Nat → Prop := Relation.ReflTransGen (StepsTo code) 0

variable {code rest there : List Stmt}

theorem definesLast_succ : DefinesLast (s :: code) l (i + 1) ↔ DefinesLast code l i := by
  constructor
  · rintro ⟨here, behind⟩
    exact ⟨by simpa using here, fun j hj ↦ by simpa using behind (j + 1) (by omega)⟩
  · rintro ⟨here, behind⟩
    refine ⟨by simpa using here, fun j hj ↦ ?_⟩
    obtain ⟨k, rfl⟩ := Nat.exists_eq_add_of_lt hj
    exact behind _ (by omega)

theorem definesLast_zero : DefinesLast (s :: code) l 0 ↔ s.label? = some l ∧ l ∉ labels code := by
  have hmem : l ∈ labels code ↔ ∃ j : Nat, code[j]?.bind label? = some l := by
    rw [labels, mem_filterMap]
    simp only [Option.bind_eq_some_iff, mem_iff_getElem?]
    constructor
    · rintro ⟨t, ⟨j, ht⟩, hl⟩
      exact ⟨j, t, ht, hl⟩
    · rintro ⟨j, t, ht, hl⟩
      exact ⟨t, ⟨j, ht⟩, hl⟩
  constructor
  · rintro ⟨here, behind⟩
    refine ⟨by simpa using here, fun h ↦ ?_⟩
    obtain ⟨j, hj⟩ := hmem.1 h
    exact behind (j + 1) (by omega) hj
  · rintro ⟨hs, hnone⟩
    refine ⟨hs, fun j hj h ↦ ?_⟩
    obtain ⟨k, rfl⟩ := Nat.exists_eq_succ_of_ne_zero hj.ne'
    exact hnone (hmem.2 ⟨k, h⟩)

/-- A label is looked up at its last position. -/
theorem from?_eq_some_iff :
    from? l code = some there ↔ ∃ i, DefinesLast code l i ∧ there = code.drop i := by
  induction code with
  | nil =>
    simp only [from?, reduceCtorEq, false_iff]
    rintro ⟨i, ⟨here, -⟩, -⟩
    simp at here
  | cons s code ih =>
    have hsplit : (∃ i, DefinesLast (s :: code) l i ∧ there = (s :: code).drop i) ↔
        (s.label? = some l ∧ l ∉ labels code) ∧ there = s :: code ∨ from? l code = some there := by
      rw [ih]
      constructor
      · rintro ⟨_ | i, h, rfl⟩
        · exact .inl ⟨definesLast_zero.1 h, rfl⟩
        · exact .inr ⟨i, definesLast_succ.1 h, rfl⟩
      · rintro (⟨h, rfl⟩ | ⟨i, h, rfl⟩)
        · exact ⟨0, definesLast_zero.2 h, rfl⟩
        · exact ⟨i + 1, definesLast_succ.2 h, rfl⟩
    rw [hsplit, from?]
    rcases hrest : from? l code with - | found
    · have hnone := from?_eq_none_iff.1 hrest
      by_cases hs : s.label? = some l <;> simp [hnone, eq_comm]
    · have hmem : l ∈ labels code := by
        by_contra h
        rw [from?_eq_none_iff.2 h] at hrest
        cases hrest
      simp [hmem]

theorem exists_of_cons_eq_drop (h : s :: rest = code.drop i) :
    i < code.length ∧ code[i]? = some s ∧ rest = code.drop (i + 1) := by
  have hlt : i < code.length := by
    by_contra hge
    rw [drop_eq_nil_iff.2 (by omega)] at h
    cases h
  rw [drop_eq_getElem_cons hlt] at h
  cases h
  exact ⟨hlt, getElem?_eq_getElem hlt, rfl⟩

/-- The places that control gets to are the code that is left at the positions that it comes to. -/
theorem visited_iff :
    Visited code rest ↔ ∃ i, ComesTo code i ∧ i ≤ code.length ∧ rest = code.drop i := by
  constructor
  · intro h
    induction h with
    | refl => exact ⟨0, .refl, Nat.zero_le _, rfl⟩
    | @next s rest _ hs ih =>
      obtain ⟨i, hi, -, hdrop⟩ := ih
      obtain ⟨hlt, hget, rfl⟩ := exists_of_cons_eq_drop hdrop
      exact ⟨i + 1, hi.tail ⟨s, hget, .inl ⟨hs, rfl⟩⟩, hlt, rfl⟩
    | @jump s l _ _ _ hs hthere ih =>
      obtain ⟨i, hi, -, hdrop⟩ := ih
      obtain ⟨hlt, hget, rfl⟩ := exists_of_cons_eq_drop hdrop
      obtain ⟨j, hj, rfl⟩ := from?_eq_some_iff.1 hthere
      refine ⟨j, hi.tail ⟨s, hget, .inr ⟨l, hs, hj⟩⟩, ?_, rfl⟩
      obtain ⟨t, ht, -⟩ := Option.bind_eq_some_iff.1 hj.here
      exact (List.getElem?_eq_some_iff.1 ht).1.le
  · rintro ⟨i, hi, -, rfl⟩
    induction hi with
    | refl => exact .refl
    | @tail i j _ hstep ih =>
      obtain ⟨s, hs, hj⟩ := hstep
      obtain ⟨hlt, rfl⟩ := List.getElem?_eq_some_iff.1 hs
      rw [drop_eq_getElem_cons hlt] at ih
      rcases hj with ⟨hend, rfl⟩ | ⟨l, hl, hj⟩
      · exact ih.next hend
      · exact ih.jump hl (from?_eq_some_iff.2 ⟨j, hj, rfl⟩)

theorem comesTo_iff (hi : i ≤ code.length) : ComesTo code i ↔ Visited code (code.drop i) := by
  rw [visited_iff]
  refine ⟨fun h ↦ ⟨i, h, hi, rfl⟩, ?_⟩
  rintro ⟨j, h, hj, hdrop⟩
  have hlength := congrArg List.length hdrop
  simp only [length_drop] at hlength
  rwa [show i = j by omega]

end Stmt

namespace Flow

open Stmt (Visited ComesTo)

variable {code : List Stmt} {f : Flow}

/-! ### Labels that are not defined -/

/-- A label without a node begins no run. -/
theorem heading?_ne_of_nodeOf? (h : nodeOf? rs l = none) (hrun : run ∈ rs) :
    heading? run ≠ some l := by
  have hfold (n : Nat) (acc : Option Nat) (hacc : acc.isSome = true ∨ ∃ r ∈ rs, heading? r = some l) :
      ((rs.zipIdx n).foldl
        (fun found entry ↦ if heading? entry.1 = some l then some entry.2 else found) acc).isSome := by
    clear h hrun
    induction rs generalizing n acc with
    | nil => simpa using hacc
    | cons r rs ih => by_cases hr : heading? r = some l <;> simp_all
  intro hl
  have hsome : (nodeOf? rs l).isSome := hfold 2 none (.inr ⟨run, hrun, hl⟩)
  rw [h] at hsome
  cases hsome

theorem isJump_of_target? (h : s.target? = some l) : s.isJump = true := by
  cases s <;> first | rfl | cases h

/-- There is no graph exactly if a jump names a label that no statement defines. -/
theorem build_eq_error_iff : (∃ e, build code = .error e) ↔
      ∃ s ∈ code, ∃ l, s.target? = some l ∧ ∀ t ∈ code, t.label? ≠ some l := by
  constructor
  · rintro ⟨e, he⟩
    have hbuild : Outcome (fun _ ↦ ∃ s ∈ code, ∃ l, s.target? = some l ∧
        ∀ t ∈ code, t.label? ≠ some l) (fun _ ↦ True) (build code) := by
      refine (outcome_nodesFrom fun run hrun last l hlast htarget hnode ↦ ?_).bind fun _ _ ↦ trivial
      refine ⟨last, ?_, l, htarget, fun t ht ↦ ?_⟩
      · rw [← flatten_runs code]
        exact mem_flatten.2 ⟨run, hrun, mem_of_getLast? hlast⟩
      · rw [← flatten_runs code] at ht
        obtain ⟨r, hr, htr⟩ := mem_flatten.1 ht
        exact label?_ne_of_heading? (isChain_of_mem_runs hr) (heading?_ne_of_nodeOf? hnode hr) t htr
    rwa [he] at hbuild
  · rintro ⟨s, hs, l, htarget, hnone⟩
    rcases hf : build code with e | f
    · exact ⟨e, rfl⟩
    · -- a jump ends its run, and the graph has a node for its label
      rw [← flatten_runs code] at hs
      obtain ⟨run, hrun, hs⟩ := mem_flatten.1 hs
      obtain ⟨before, after, hruns⟩ := append_of_mem hrun
      obtain ⟨pre, part, rfl⟩ := append_of_mem hs
      obtain rfl := eq_nil_of_isChain_of_isJump (isChain_of_mem_runs hrun)
        (isJump_of_target? htarget)
      obtain ⟨id, -, hnode⟩ :=
        target_mem_successors (successors_eq_successorsOf hf hruns (by simp)) htarget
      obtain ⟨before', run', after', hruns', -, hheading, -⟩ := exists_of_nodeOf? hnode
      obtain ⟨t, ht, hl⟩ := Option.bind_eq_some_iff.1 hheading
      refine absurd hl (hnone t ?_)
      rw [← flatten_runs code, hruns']
      exact mem_flatten.2 ⟨run', by simp, mem_of_head? ht⟩

/-! ### Nodes and positions -/

/-- The nodes cover the positions from one to another, each beginning where the one before it stops,
and none of them is empty. -/
def Tiles (stop : Nat) : Nat → List FlowNode → Prop
  | start, [] => start = stop
  | start, node :: rest => node.start = start ∧ start < node.stop ∧ Tiles stop node.stop rest

theorem tiles_of_nodesFrom (h : nodesFrom all id position rs = .ok nodes)
    (hrs : ∀ run ∈ rs, run ≠ []) : Tiles (position + rs.flatten.length) position nodes := by
  induction rs generalizing id position nodes with
  | nil =>
    cases h
    rfl
  | cons run rs ih =>
    obtain ⟨hrun, hrs⟩ := forall_mem_cons.1 hrs
    obtain ⟨node, others, rfl, ⟨hstart, hstop⟩, hothers, -⟩ := nodesFrom_cons h
    refine ⟨hstart, ?_, ?_⟩
    · have := length_pos_iff.2 hrun
      omega
    · rw [hstop, flatten_cons, List.length_append, ← Nat.add_assoc]
      exact ih hothers hrs

/-- A node spans its run. -/
theorem exists_of_mem_nodes (h : nodesFrom all id position rs = .ok nodes) (hnode : node ∈ nodes) :
    ∃ before run after, rs = before ++ run :: after ∧
      node.start = position + before.flatten.length ∧ node.stop = node.start + run.length := by
  induction rs generalizing id position nodes with
  | nil =>
    cases h
    cases hnode
  | cons run rs ih =>
    obtain ⟨first, others, rfl, ⟨hstart, hstop⟩, hothers, -⟩ := nodesFrom_cons h
    rcases mem_cons.1 hnode with rfl | hnode
    · exact ⟨[], run, rs, rfl, hstart, by rw [hstop, hstart]⟩
    · obtain ⟨before, run', after, rfl, hstart', hstop'⟩ := ih hothers hnode
      refine ⟨run :: before, run', after, rfl, ?_, hstop'⟩
      rw [hstart', flatten_cons, List.length_append, Nat.add_assoc]

/-- Within a node labels stand first and jumps last. -/
theorem first_and_last_of_mem_nodes (h : nodesFrom (runs code) 2 0 (runs code) = .ok nodes)
    (hnode : node ∈ nodes) (hstart : node.start ≤ i) (hstop : i < node.stop)
    (hs : code[i]? = some s) :
    (s.label?.isSome = true → i = node.start) ∧ (s.isJump = true → i + 1 = node.stop) := by
  obtain ⟨before, run, after, hruns, hbegins, hends⟩ := exists_of_mem_nodes h hnode
  have hmem : run ∈ runs code := by simp [hruns]
  have hchain := isChain_of_mem_runs hmem
  obtain ⟨k, rfl⟩ := Nat.exists_eq_add_of_le hstart
  have hk : run[k]? = some s := by
    rw [← flatten_runs code, hruns, flatten_append, flatten_cons, hbegins, Nat.zero_add,
      getElem?_append_right (by omega), Nat.add_sub_cancel_left,
      getElem?_append_left (by omega)] at hs
    exact hs
  obtain ⟨hlt, rfl⟩ := List.getElem?_eq_some_iff.1 hk
  constructor
  · intro hlabel
    cases run with
    | nil => simp at hlt
    | cons t rest =>
      rcases k with _ | k
      · rfl
      · rw [getElem_cons_succ, label?_eq_none_of_isChain hchain _ (getElem_mem _)] at hlabel
        cases hlabel
  · intro hjump
    have hsplit : run = run.take k ++ run[k] :: run.drop (k + 1) := by simp
    rw [hsplit] at hchain
    have hrest := drop_eq_nil_iff.1 (eq_nil_of_isChain_of_isJump hchain hjump)
    omega

/-! ### What is reached -/

/-- Every position lies in a run. -/
theorem exists_run_of_lt (hi : i < code.length) :
    ∃ before head s part after, runs code = before ++ (head ++ s :: part) :: after ∧
      i = before.flatten.length + head.length ∧ code.drop i = s :: part ++ after.flatten := by
  have hflatten : (runs code).flatten = code.take i ++ code.drop i := by
    rw [flatten_runs, take_append_drop]
  have htake : i = (code.take i).length := by simp; omega
  rcases flatten_eq_append_iff.1 hflatten with
    ⟨before, later, hruns, hbefore, hlater⟩ | ⟨before, head, s, part, after, hruns, hbefore, hafter⟩
  · -- the position is the first one of a run
    cases later with
    | nil =>
      have := drop_eq_nil_iff.1 hlater
      omega
    | cons run after =>
      obtain ⟨s, part, rfl⟩ := exists_cons_of_ne_nil
        (ne_nil_of_mem_runs (show run ∈ runs code by simp [hruns]))
      refine ⟨before, [], s, part, after, hruns, ?_, hlater⟩
      rw [← hbefore, ← htake, length_nil, Nat.add_zero]
  · refine ⟨before, head, s, part, after, hruns, ?_, hafter⟩
    rw [← List.length_append, ← hbefore, ← htake]

theorem length_flags (rs : List (List Stmt)) (n : Nat) (b : Nat → Bool) :
    ((rs.zipIdx n).flatMap fun entry ↦ List.replicate entry.1.length (b entry.2)).length =
      rs.flatten.length := by
  induction rs generalizing n with
  | nil => rfl
  | cons run rs ih =>
    rw [zipIdx_cons, flatMap_cons, List.length_append, ih, flatten_cons,
      List.length_append, length_replicate]

section

variable (hf : build code = .ok f) {before after : List (List Stmt)}

include hf

/-- The flags of a list of statements follow its runs. -/
theorem reachable_eq : f.reachable = ((runs code).zipIdx 2).flatMap fun entry ↦
      List.replicate entry.1.length (decide (entry.2 ∈ f.reachableNodes)) := by
  have hflags {all rs : List (List Stmt)} {id position n : Nat} {nodes : List FlowNode}
      (h : nodesFrom all id position rs = .ok nodes) :
      ((nodes.zipIdx n).flatMap fun entry ↦
        List.replicate (entry.1.stop - entry.1.start) (decide (entry.2 ∈ f.reachableNodes))) =
        (rs.zipIdx n).flatMap fun entry ↦
          List.replicate entry.1.length (decide (entry.2 ∈ f.reachableNodes)) := by
    induction rs generalizing id position n nodes with
    | nil =>
      cases h
      rfl
    | cons run rs ih =>
      obtain ⟨node, others, rfl, ⟨rfl, hstop⟩, hothers, -⟩ := nodesFrom_cons h
      rw [zipIdx_cons, zipIdx_cons, flatMap_cons, flatMap_cons, hstop,
        Nat.add_sub_cancel_left, ih hothers]
  obtain ⟨nodes, hnodes, hfnodes⟩ := build_eq_ok hf
  rw [reachable, hfnodes, ← hflags hnodes]
  rfl

theorem length_reachable : f.reachable.length = code.length := by
  have hlength := length_flags (runs code) 2 fun id ↦ decide (id ∈ f.reachableNodes)
  rwa [flatten_runs, ← reachable_eq hf] at hlength

/-- The flag of a position says whether the search finds its run. -/
theorem getElem?_reachable (hruns : runs code = before ++ run :: after) {k : Nat}
    (hk : k < run.length) : f.reachable[before.flatten.length + k]? =
      some (decide (before.length + 2 ∈ f.reachableNodes)) := by
  have hbefore := length_flags before 2 fun id ↦ decide (id ∈ f.reachableNodes)
  rw [reachable_eq hf, hruns, zipIdx_append, flatMap_append, zipIdx_cons,
    flatMap_cons, getElem?_append_right (by omega), hbefore, Nat.add_sub_cancel_left,
    getElem?_append_left (by simpa using hk), getElem?_replicate, if_pos hk,
    Nat.add_comm 2]

/-- The search finds the run of every place that control gets to. -/
theorem reached_of_visited {head part : List Stmt}
    (hruns : runs code = before ++ (head ++ s :: part) :: after)
    (h : Visited code (s :: part ++ after.flatten)) : before.length + 2 ∈ f.reachableNodes := by
  have hne : code ≠ [] := by
    rintro rfl
    simp [runs] at hruns
  obtain ⟨rest', haligned, -⟩ := (Aligned.start hf hne).exists_way (fun _ _ ↦ id) hf h
  obtain ⟨before', pre, part', after', hruns', hreached, hrest, -⟩ := haligned.cons
  rwa [length_eq_of_rest (hruns.symm.trans hruns') hrest]

theorem reachable_iff (i : Nat) :
    f.reachable[i]? = some true ↔ i < code.length ∧ ComesTo code i := by
  by_cases hi : i < code.length
  · obtain ⟨before, head, s, part, after, hruns, rfl, hdrop⟩ := exists_run_of_lt hi
    rw [getElem?_reachable hf hruns (by simp), Option.some.injEq, decide_eq_true_eq,
      and_iff_right hi, Stmt.comesTo_iff hi.le, hdrop]
    exact ⟨way_of_reached (fun _ _ _ _ ↦ .jump) hf hruns, reached_of_visited hf hruns⟩
  · rw [getElem?_eq_none (by rw [length_reachable hf]; omega)]
    simp [hi]

theorem fallsThrough_iff : f.fallsThrough = true ↔ ComesTo code code.length := by
  rw [Stmt.comesTo_iff le_rfl, drop_length]
  refine ⟨fun h ↦ ?_, fallsThrough_of_visited hf⟩
  rcases eq_nil_or_concat' (runs code) with hnil | ⟨before, run, hruns⟩
  · rw [runs_eq_nil.1 hnil]
    exact .refl
  · -- the exit is the last run, whose last statement lets control go on
    have hmem : run ∈ runs code := by simp [hruns]
    obtain ⟨head, last, rfl⟩ := (eq_nil_or_concat' run).resolve_left (ne_nil_of_mem_runs hmem)
    have hlast : code.getLast? = some last := by
      rw [← flatten_runs code, hruns]
      simp
    rw [fallsThrough, exit_of_build hf, hlast] at h
    cases hend : last.endsFlow with
    | true => simp [hend] at h
    | false =>
      simp only [hend, Bool.false_eq_true, if_false, decide_eq_true_eq] at h
      rw [hruns, List.length_append] at h
      exact (way_of_reached (fun _ _ _ _ ↦ .jump) hf hruns h).next hend

end

/-- What a graph knows of the positions of its code. -/
structure Exact (f : Flow) (code : List Stmt) : Prop where
  /-- The nodes but start and end divide the positions. -/
  tiles : Tiles code.length 0 (f.nodes.drop 2)
  /-- A label stands first in its node and a jump last. -/
  ends : ∀ node ∈ f.nodes.drop 2, ∀ i s, node.start ≤ i → i < node.stop → code[i]? = some s →
    (s.label?.isSome = true → i = node.start) ∧ (s.isJump = true → i + 1 = node.stop)
  /-- Every position has a flag. -/
  flags : f.reachable.length = code.length
  reached : ∀ i, f.reachable[i]? = some true ↔ i < code.length ∧ ComesTo code i
  falls : f.fallsThrough = true ↔ ComesTo code code.length

/-- Reachability is exact. There is no graph just if a jump, reached or not, names a label that no
statement defines; otherwise the graph divides the positions into runs, and it finds just the
positions, the one behind the last included, that control can come to step by step. -/
theorem exact_of_build (code : List Stmt) : ((∃ e, build code = .error e) ↔
      ∃ s ∈ code, ∃ l, s.target? = some l ∧ ∀ t ∈ code, t.label? ≠ some l) ∧
    ∀ f, build code = .ok f → f.Exact code := by
  refine ⟨build_eq_error_iff, fun f hf ↦ ?_⟩
  obtain ⟨nodes, hnodes, hfnodes⟩ := build_eq_ok hf
  have hdrop : f.nodes.drop 2 = nodes := by rw [hfnodes]; rfl
  refine ⟨?_, ?_, length_reachable hf, reachable_iff hf, fallsThrough_iff hf⟩
  · have htiles := tiles_of_nodesFrom hnodes fun run hrun ↦ ne_nil_of_mem_runs hrun
    rwa [flatten_runs, Nat.zero_add, ← hdrop] at htiles
  · rw [hdrop]
    exact fun node hnode i s hstart hstop hs ↦
      first_and_last_of_mem_nodes hnodes hnode hstart hstop hs

/-- Code that jumps over a cycle, to the later one of two definitions of a label. -/
def detour : List Stmt :=
  let ahead : Label := ⟨"ahead"⟩
  let again : Label := ⟨"again"⟩
  [.goto default ahead, .label default again, .label default ahead, .goto default again,
    .label default ahead, .nop default]

theorem exact_detour : ∃ f, build detour = .ok f ∧ f.Exact detour ∧
      f.reachable = [true, false, false, false, true, true] ∧ f.fallsThrough = true :=
  ⟨_, rfl, (exact_of_build detour).2 _ rfl, by decide, by decide⟩

end Flow

end Wirescript
