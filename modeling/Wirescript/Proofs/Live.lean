import Wirescript.Proofs.Handlers

/-!
# Live code

Code is live if control gets to every statement of it: it falls there from the statement before, or
the statement is a label that some jump names. Removal of dead code leaves live code
(`live_of_dropUnreachable`). The flow graph counts a rollback as a jump, and live code does not; the
difference is made up by the handlers of lowered code, whose rollbacks lead only where the jump past
the handler leads.

What the search in the flow graph finds is tied to places in the code by one rule
(`Flow.of_mem_reachableNodes`): a property of places that holds at the start and is kept by every step
of control holds at everything that is found. So there is a way to every statement that is found, and
it leads through what is left (`Flow.way_of_dropUnreachable`).
-/

namespace Wirescript

open List

variable {b : Bool} {l : Label} {L : Label → Prop} {after before : List (List Stmt)}
  {Q : Prop} {pre run : List Stmt} {id : Nat} {last s : Stmt}

namespace Stmt

/-- The label that control goes to from a statement. A rollback goes nowhere. -/
def jump? : Stmt → Option Label
  | .goto _ l | .gotoIf _ l _ _ | .gotoOn _ l _ _ => some l
  | _ => none

/-! ### Places that control gets to -/

theorem target?_of_jump? (h : s.jump? = some l) : s.target? = some l := by
  cases s <;> first | exact h | cases h

/-- A jump is a rollback, or control goes to its label. -/
theorem jump?_of_target? (h : s.target? = some l) :
    s.jump? = some l ∨ ∃ span, s = .rollback span l := by
  cases s with
  | rollback span after =>
    cases h
    exact .inr ⟨span, rfl⟩
  | _ => exact .inl h

/-- The code that is left when control has come to a place of a code. Nothing goes on at the label of
a rollback. -/
abbrev Reached (code rest : List Stmt) : Prop := Way jump? code code rest

namespace Reached

variable {code rest there : List Stmt}

/-- Control stays in the zones of code, and where it is in a handler it gets past the handler, too. -/
theorem exists_zoned {A : List (Label × Zone)} (hA : (A.map Prod.fst).Nodup)
    (hcode : Zoned Q A none code none) (h : Reached code rest) : ∃ z, Zoned Q A z rest none ∧
      ∀ after, z = some after → ∀ there, from? after code = some there → Reached code there := by
  induction h with
  | refl => exact ⟨none, hcode, fun _ h ↦ by cases h⟩
  | next _ hs ih =>
    obtain ⟨z, hzoned, hpast⟩ := ih
    exact ⟨z, hzoned.next hs, hpast⟩
  | @jump s _ _ _ h hs hthere ih =>
    obtain ⟨z, hzoned, hpast⟩ := ih
    cases s
    case goto | gotoIf => exact ⟨z, .jump hA hcode hzoned hs hthere, hpast⟩
    case gotoOn =>
      cases hzoned with
      | cons hsided _ _ => exact hsided.elim
      | event hl _ =>
        cases hs
        refine ⟨_, hcode.at_label hA hl hthere, fun after hafter place hplace ↦ ?_⟩
        cases hafter
        exact (h.next rfl).jump rfl hplace
    all_goals cases hs

/-- Every jump of code is taken, those of rollbacks too. -/
theorem target (hcode : Divided Q code) (h : Reached code (s :: rest)) (hs : s.target? = some l)
    (hthere : from? l code = some there) : Reached code there := by
  rcases jump?_of_target? hs with hs | ⟨span, rfl⟩
  · exact h.jump hs hthere
  · obtain ⟨A, hA, hzoned⟩ := hcode
    obtain ⟨z, hrest, hpast⟩ := h.exists_zoned hA hzoned
    cases hrest with
    | cons hsided _ _ => exact hpast l hsided there hthere

end Reached

end Stmt

namespace Flow

open Stmt (Divided Reached Way)

variable {code : List Stmt} {f : Flow}

theorem endsFlow_of_isJump (h : s.isJump = false) : s.endsFlow = false := by
  cases s <;> first | rfl | cases h

/-- Nothing but the last statement of a run is a jump. -/
theorem endsFlow_of_mem_run (hruns : runs code = before ++ (pre ++ [last]) :: after) (hs : s ∈ pre)
    : s.endsFlow = false := by
  refine endsFlow_of_isJump (Bool.eq_false_iff.2 fun hjump ↦ ?_)
  obtain ⟨xs, ys, rfl⟩ := append_of_mem hs
  have hmem : (xs ++ s :: ys) ++ [last] ∈ runs code := by simp [hruns]
  have hchain := isChain_of_mem_runs hmem
  rw [append_assoc] at hchain
  simpa using eq_nil_of_isChain_of_isJump hchain hjump

/-- A property of places holds at the start of the run that a node stands for. -/
def Holds (P : List Stmt → Prop) (code : List Stmt) (id : Nat) : Prop :=
  ∀ before run after, runs code = before ++ run :: after → id = before.length + 2 →
    P (run ++ after.flatten)

/-- Control goes from a statement to the end, to what follows or to the node of its target. -/
theorem cases_of_mem_successors {rs : List (List Stmt)} {next b : Nat} {found : List Nat}
    (h : successors rs next last = .ok found) (hb : b ∈ found) :
    (b = finish ∧ last.endsFlow = true ∧ last.target? = none) ∨ (b = next ∧ last.endsFlow = false) ∨
      ∃ l, last.target? = some l ∧ nodeOf? rs l = some b := by
  rw [successors] at h
  rcases htarget : last.target? with - | l <;> simp only [htarget] at h
  · cases h
    cases hend : last.endsFlow <;> simp_all
  · rcases hnode : nodeOf? rs l with - | id <;> simp only [hnode] at h
    · cases h
    · cases h
      cases hend : last.endsFlow <;> simp_all
      exact hb.symm.imp_right Eq.symm

section

variable {P : List Stmt → Prop} (hf : build code = .ok f)
  (hnext : ∀ s rest, P (s :: rest) → s.endsFlow = false → P rest)
  (htarget : ∀ s rest l there, P (s :: rest) → s.target? = some l →
    Stmt.from? l code = some there → P there)

include hf hnext htarget

theorem Holds.successor (hruns : runs code = before ++ run :: after) (h : P (run ++ after.flatten))
    {b : Nat} (hb : b ∈ f.successorsOf (before.length + 2)) : Holds P code b := by
  have hmem : run ∈ runs code := by simp [hruns]
  obtain ⟨pre, last, rfl⟩ := (eq_nil_or_concat' run).resolve_left (ne_nil_of_mem_runs hmem)
  have hthrough {xs ys : List Stmt} (hxs : ∀ s ∈ xs, s.endsFlow = false) (h : P (xs ++ ys)) :
      P ys := by
    induction xs with
    | nil => exact h
    | cons s xs ih =>
      obtain ⟨hs, hxs⟩ := forall_mem_cons.1 hxs
      exact ih hxs (hnext s _ h hs)
  have hlast : P (last :: after.flatten) := by
    rw [append_assoc] at h
    exact hthrough (fun s ↦ endsFlow_of_mem_run hruns) h
  have hend : (pre ++ [last]).getLast? = some last := by simp
  rcases cases_of_mem_successors (successors_eq_successorsOf hf hruns hend) hb with
    ⟨rfl, -, -⟩ | ⟨rfl, hend⟩ | ⟨l, hl, hnode⟩
  · intro _ _ _ _ hid
    simp [finish] at hid
  · -- control falls out of the run
    have hfall := hnext _ _ hlast hend
    cases after with
    | nil =>
      intro _ _ _ _ hid
      simp [finish] at hid
    | cons run' after =>
      intro before' run'' after' hruns' hid
      have hlength : (before ++ [pre ++ [last]]).length = before'.length := by
        simp at hid ⊢
        omega
      have hsplit : (before ++ [pre ++ [last]]) ++ run' :: after = before' ++ run'' :: after' := by
        rw [← hruns', hruns]
        simp
      obtain ⟨-, heq⟩ := append_inj hsplit hlength
      cases heq
      exact hfall
  · obtain ⟨before₁, run₁, after₁, hruns₁, rfl, hheading, hafter⟩ := exists_of_nodeOf? hnode
    intro before' run' after' hruns' hid
    obtain ⟨-, heq⟩ := append_inj (hruns₁.symm.trans hruns') (by omega)
    cases heq
    have hchain : ∀ r ∈ run₁ :: after₁, r.IsChain fun s t ↦ Joined s t :=
      fun r hr ↦ isChain_of_mem_runs (hruns₁ ▸ mem_append_right _ hr)
    have hfrom : Stmt.from? l (before₁ ++ run₁ :: after₁).flatten =
        some (run₁ ++ after₁.flatten) := from?_flatten hchain hheading hafter
    rw [← hruns₁, flatten_runs] at hfrom
    exact htarget _ _ _ _ hlast hl hfrom

/-- What holds at the start and is kept by every step of control holds at all that the search
finds. -/
theorem of_mem_reachableNodes (hstart : P code) (h : id ∈ f.reachableNodes) : Holds P code id := by
  refine Reach.of_mem_closure ?_ (fun id hid b hb ↦ ?_) h
  · simp [Holds, start]
  · rcases id with _ | _ | k
    · obtain ⟨nodes, -, hnodes⟩ := build_eq_ok hf
      have hb : b = if (runs code).isEmpty then finish else 2 := by
        simpa [successorsOf, hnodes] using hb
      rcases hruns : runs code with - | ⟨run, after⟩
      · obtain rfl := runs_eq_nil.1 hruns
        rw [hb, hruns]
        intro _ _ _ _ hid
        simp [finish] at hid
      · rw [hb, hruns]
        intro before run' after' hruns' hid
        obtain rfl : before = [] := length_eq_zero_iff.1 (by simpa using hid.symm)
        rw [← flatten_cons, ← nil_append (run' :: after'), ← hruns', flatten_runs]
        exact hstart
    · obtain ⟨nodes, -, hnodes⟩ := build_eq_ok hf
      simp [successorsOf, hnodes] at hb
    · have hk : k < (runs code).length := by
        by_contra hk
        have hnone : f.nodes[k + 2]? = none :=
          getElem?_eq_none (by rw [length_nodes hf]; omega)
        simp [successorsOf, hnone] at hb
      have hsplit : runs code = (runs code).take k ++ (runs code)[k] :: (runs code).drop (k + 1) := by
        simp
      have htake : ((runs code).take k).length = k := by
        simp
        omega
      refine Holds.successor hf hnext htarget hsplit (hid _ _ _ hsplit (by rw [htake])) ?_
      rwa [htake]

end

section

variable {goes : Stmt → Option Label}
  (hall : ∀ s rest l there, Way goes code code (s :: rest) → s.target? = some l →
    Stmt.from? l code = some there → Way goes code code there)

include hall

/-- Control gets to every statement of a run that the search finds. -/
theorem way_of_reached (hf : build code = .ok f) {head part : List Stmt}
    (hruns : runs code = before ++ (head ++ s :: part) :: after)
    (hreached : before.length + 2 ∈ f.reachableNodes) :
    Way goes code code (s :: part ++ after.flatten) := by
  have hentered : Way goes code code ((head ++ s :: part) ++ after.flatten) :=
    of_mem_reachableNodes hf (fun _ _ h hs ↦ h.next hs) hall .refl hreached before _ after hruns rfl
  have hhead : ∀ t ∈ head, t.endsFlow = false := by
    obtain ⟨init, last, hlast⟩ := (eq_nil_or_concat' (s :: part)).resolve_left (by simp)
    rw [hlast, ← append_assoc] at hruns
    exact fun t ht ↦ endsFlow_of_mem_run hruns (mem_append_left _ ht)
  rw [append_assoc] at hentered
  exact hentered.through hhead

/-- Control gets to every statement that stays and is no mark. -/
theorem way_of_dropUnreachable (hgoes : ∀ s l, goes s = some l → s.target? = some l)
    {live rest : List Stmt} (hlive : dropUnreachable code = .ok live) (h : live = pre ++ s :: rest)
    (hs : s.isHint = false) : Way goes live live (s :: rest) := by
  obtain ⟨f, hf, rfl⟩ := dropUnreachable_eq hlive
  obtain ⟨place, haligned⟩ := Aligned.of_kept_eq h hs
  obtain ⟨before, head, part, after, hruns, hreached, rfl, -⟩ := haligned.cons
  have hne : code ≠ [] := by
    rintro rfl
    simp [runs] at hruns
  obtain ⟨_, haligned', hway⟩ :=
    (Aligned.start hf hne).exists_way hgoes hf (way_of_reached hall hf hruns hreached)
  rwa [haligned'.unique haligned] at hway

end

end Flow

/-! ### Live code -/

namespace Stmt

/-- The labels that control goes to from code. -/
def jumps (code : List Stmt) : List Label := code.filterMap jump?

/-- Control gets to every statement but marks: it falls from the one before, or the statement is a
label that is jumped to. The flags say if control comes in at the start and goes on at the end. -/
inductive Live (L : Label → Prop) : Bool → List Stmt → Bool → Prop
  | nil (b : Bool) : Live L b [] b
  | mark {b b' : Bool} {s : Stmt} {rest : List Stmt} (hs : s.isHint = true) (h : Live L b rest b') :
      Live L b (s :: rest) b'
  | label {b b' : Bool} {s : Stmt} {l : Label} {rest : List Stmt} (hs : s.label? = some l)
      (hl : L l) (h : Live L true rest b') : Live L b (s :: rest) b'
  | step {b' : Bool} {s : Stmt} {rest : List Stmt} (hs : s.isHint = false)
      (h : Live L (!s.endsFlow) rest b') : Live L true (s :: rest) b'

theorem label?_of_isHint (h : s.isHint = true) : s.label? = none := by
  cases s <;> first | rfl | cases h

namespace Live

variable {L' : Label → Prop} {b₁ b₂ : Bool} {xs ys : List Stmt}

theorem append (h : Live L b xs b₁) (h' : Live L b₁ ys b₂) : Live L b (xs ++ ys) b₂ := by
  induction h with
  | nil b => exact h'
  | mark hs _ ih => exact .mark hs (ih h')
  | label hs hl _ ih => exact .label hs hl (ih h')
  | step hs _ ih => exact .step hs (ih h')

theorem split (h : Live L b (xs ++ ys) b₂) : ∃ b₁, Live L b xs b₁ ∧ Live L b₁ ys b₂ := by
  induction xs generalizing b with
  | nil => exact ⟨b, .nil b, h⟩
  | cons s xs ih =>
    cases h with
    | mark hs h =>
      obtain ⟨b₁, hxs, hys⟩ := ih h
      exact ⟨b₁, .mark hs hxs, hys⟩
    | label hs hl h =>
      obtain ⟨b₁, hxs, hys⟩ := ih h
      exact ⟨b₁, .label hs hl hxs, hys⟩
    | step hs h =>
      obtain ⟨b₁, hxs, hys⟩ := ih h
      exact ⟨b₁, .step hs hxs, hys⟩

theorem uncons (h : Live L b (s :: xs) b₂) : ∃ b₁, Live L b [s] b₁ ∧ Live L b₁ xs b₂ := by
  exact h.split

theorem suffix (h : Live L b (xs ++ ys) b₂) : ∃ b₁, Live L b₁ ys b₂ := by
  obtain ⟨b₁, -, hys⟩ := h.split
  exact ⟨b₁, hys⟩

theorem mono (h : Live L b xs b₁) (hL : ∀ l, L l → L' l) : Live L' b xs b₁ := by
  induction h with
  | nil b => exact .nil b
  | mark hs _ ih => exact .mark hs ih
  | label hs hl _ ih => exact .label hs (hL _ hl) ih
  | step hs _ ih => exact .step hs ih

/-- Code that never leaves the straight way, apart from jumps inside it. -/
theorem falling (h : ∀ s ∈ xs, s.endsFlow = false) : Live L true xs true := by
  induction xs with
  | nil => exact .nil true
  | cons s rest ih =>
    obtain ⟨hs, hrest⟩ := forall_mem_cons.1 h
    by_cases hmark : s.isHint = true
    · exact .mark hmark (ih hrest)
    · have hstep : Live L (!s.endsFlow) rest true := by
        rw [hs]
        exact ih hrest
      exact .step (Bool.eq_false_iff.2 hmark) hstep

/-- Control that has come to a statement which goes on comes to the next one. -/
theorem next (h : Live L true (s :: xs) b) (hs : s.endsFlow = false) : Live L true xs b := by
  cases h with
  | mark _ h | label _ _ h => exact h
  | step _ h =>
    rw [hs] at h
    exact h

/-- A label of live code is a place that control gets to. -/
theorem at_label (h : Live L b (s :: xs) b₁) (hs : s.label? = some l) :
    Live L true (s :: xs) b₁ := by
  cases h with
  | mark hmark _ => cases (label?_of_isHint hmark).symm.trans hs
  | label hl' hl h => exact .label hl' hl h
  | step hmark h => exact .step hmark h

end Live

end Stmt

open Wirescript.Flow
open Stmt (Divided Reached Live Way)

variable {code rest : List Stmt} {f : Flow}

/-- Code is live if control gets to every statement of it that is no mark. The induction is on what is
left of the code; the flag may be down only where control does not fall into it. -/
theorem live_of_reached (h : ∀ {pre s rest}, code = pre ++ s :: rest → s.isHint = false →
      Reached code (s :: rest)) (hcode : code = pre ++ rest) (hb : (pre = [] ∨ ∃ before s,
        pre = before ++ [s] ∧ s.endsFlow = false ∧ Reached code (s :: rest)) → b = true) :
    ∃ b', Live (· ∈ Stmt.jumps code) b rest b' := by
  induction rest generalizing pre b with
  | nil => exact ⟨b, .nil b⟩
  | cons s rest ih =>
    have hcode' : code = (pre ++ [s]) ++ rest := by simpa using hcode
    -- control falls to a place, or jumps there
    have hentered (hs : Reached code (s :: rest)) :
        b = true ∨ ∃ l, s.label? = some l ∧ l ∈ Stmt.jumps code := by
      generalize hplace : s :: rest = place at hs
      cases hs with
      | refl => exact .inl (hb (.inl (append_left_eq_self.1 (hplace ▸ hcode.symm))))
      | @next t _ ht hends =>
        subst hplace
        obtain ⟨before, hbefore⟩ := ht.suffix (suffix_refl _)
        have heq : (before ++ [t]) ++ s :: rest = pre ++ s :: rest := by
          rw [← hcode, ← hbefore]
          simp
        exact .inl (hb (.inr ⟨before, t, (append_cancel_right heq).symm, hends, ht⟩))
      | @jump t l _ _ ht hl hthere =>
        subst hplace
        obtain ⟨u, tail, heq, hu⟩ := Stmt.exists_cons_of_from? hthere
        cases heq
        exact .inr ⟨l, hu, mem_filterMap.2 ⟨t, (ht.suffix (suffix_refl _)).subset (.head _), hl⟩⟩
    have hfalls {c : Bool} (hc : s.endsFlow = false → Reached code (s :: rest) → c = true) :
        ∃ b', Live (· ∈ Stmt.jumps code) c rest b' := by
      refine ih hcode' fun hpre ↦ ?_
      obtain hpre | ⟨before, t, hpre, hends, ht⟩ := hpre
      · simp at hpre
      · obtain ⟨rfl, heq⟩ := append_inj' hpre rfl
        cases heq
        exact hc hends ht
    by_cases hs : s.isHint = true
    · obtain ⟨b', hrest⟩ := hfalls fun _ hreached ↦ by
        rcases hentered hreached with hb | ⟨l, hl, -⟩
        · exact hb
        · cases (Stmt.label?_of_isHint hs).symm.trans hl
      exact ⟨b', .mark hs hrest⟩
    · replace hs := Bool.eq_false_iff.2 hs
      rcases hentered (h hcode hs) with rfl | ⟨l, hl, hjump⟩
      · obtain ⟨b', hrest⟩ := hfalls (c := !s.endsFlow) fun hends _ ↦ by rw [hends]; rfl
        exact ⟨b', .step hs hrest⟩
      · obtain ⟨b', hrest⟩ := hfalls (c := true) fun _ _ ↦ rfl
        exact ⟨b', .label hl hjump hrest⟩

theorem live_of_dropUnreachable {live : List Stmt} (hcode : Divided Q code)
    (h : dropUnreachable code = .ok live) : ∃ b, Live (· ∈ Stmt.jumps live) true live b :=
  live_of_reached (way_of_dropUnreachable (fun _ _ _ _ ↦ Reached.target hcode)
    (fun _ _ ↦ Stmt.target?_of_jump?) h) (nil_append _).symm fun _ ↦ rfl

/-- Control gets from the start of code to its end, or to a return. -/
def Stmt.CanEnd (code : List Stmt) : Prop := ∃ rest, Reached code rest ∧ Stmt.Leaves rest

/-- Control that can get to the end of live code falls there, or returns. -/
theorem Stmt.Live.ends (h : Live L true code b) (hend : CanEnd code) :
    b = true ∨ ∃ s ∈ code, Leaves [s] := by
  have hlive {rest : List Stmt} (hreached : Reached code rest) : Live L true rest b := by
    induction hreached with
    | refl => exact h
    | next _ hs ih => exact ih.next hs
    | jump _ _ hthere _ =>
      obtain ⟨before, rfl⟩ := Stmt.from?_suffix hthere
      obtain ⟨t, tail, rfl, ht⟩ := Stmt.exists_cons_of_from? hthere
      obtain ⟨b₁, hb₁⟩ := h.suffix
      exact hb₁.at_label ht
  obtain ⟨rest, hreached, hleaves⟩ := hend
  cases rest with
  | nil =>
    cases hlive hreached
    exact .inl rfl
  | cons s rest =>
    refine .inr ⟨s, (hreached.suffix (suffix_refl _)).subset (.head _), ?_⟩
    cases s <;> exact hleaves

end Wirescript
