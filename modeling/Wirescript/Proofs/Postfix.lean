import Wirescript.Proofs.Ordered

/-!
# Old values inside of expressions

A count that yields the old value may stand anywhere in an expression. Extraction stores it late, and
the extracted body does what the body does with counts stored late (`Stmt.InTime`). If nothing looks
at the variable in the meantime (`Stmt.Unobserved`), this is what evaluation from left to right does,
in which the count is stored at once. Otherwise it need not be (`reorders_counts`).
-/

namespace Wirescript

/-- **Counts are stored in order, as long as nothing looks.** A flat body whose effects can be
separated from its values, and whose labels are not among those that extraction makes up, is extracted.
The machine runs the extracted body as the body runs with its counts stored late. If nothing looks at
what is counted before it is stored, then also as the body runs with its expressions evaluated from
left to right. -/
theorem Extracted.ends_of_unobserved {κ : Type} [DecidableEq κ] (S : Frame κ) (body : Stmt)
    (hbody : ∀ s ∈ body.flatten, s.Separable S)
    (hlabels : ∀ l ∈ Stmt.labels body.flatten, ∀ n, l ≠ .numbered S.routine.name "skip" n) :
    ∃ x, extract S.routine body = .ok x ∧ ∀ bodies : Bodies, bodies.get? S.routine = some x.body →
        (∀ r m m', S.calls r m m' → ∃ depth, Performs S.key bodies depth r m m') →
        ∀ m M, (Runs (Stmt.InTime S.key S.calls S.routine) body.flatten body.flatten m M →
            S.Ends bodies x m M) ∧
          ((∀ s ∈ body.flatten, s.Unobserved S) → m.Typed S.types →
            Runs (Stmt.InOrder S.key S.calls S.routine) body.flatten body.flatten m M →
            S.Ends bodies x m M) := by
  have hskip (l : Label) (hl : l ∈ Stmt.labels body.flatten) : ¬ S.Skip l := by
    rintro ⟨n, hn⟩
    exact hlabels l hl n hn
  obtain ⟨x, hx, hruns⟩ := Extracted.exists_runs_of_unobserved hbody hskip
  refine ⟨x, hx, fun bodies hbodies hcalls m M ↦ ⟨fun h ↦ ?_, fun hu hm h ↦ ?_⟩⟩
  · obtain ⟨M', hM', hextracted⟩ := hruns m M (.inl h)
    exact hextracted.ends hM' hbodies hcalls
  · obtain ⟨M', hM', hextracted⟩ := hruns m M (.inr ⟨hu, hm, h⟩)
    exact hextracted.ends hM' hbodies hcalls

/-- Counts before something that runs first, and in an argument of a call:
`g = x++ + (g = x); f(x++, g)`. -/
def sampleCounts : Stmt :=
  let old : Expr := Build.step sampleX false false default
  .block default [
    .assign default sampleG (Build.binary .add old
      (Build.assign sampleG (Build.read sampleX default) default) default),
    .expression default (Build.call (.routine relay) [old, Build.read sampleG default] default)]

theorem separable_sampleCounts (s : Stmt) (hs : s ∈ sampleCounts.flatten) :
    s.Separable Frame.sample := by
  obtain rfl | rfl : s = _ ∨ s = _ := by simpa [sampleCounts, Stmt.flatten, Stmt.flattenAll] using hs
  · exact ⟨typed_sampleG, rfl, ⟨⟨rfl, typed_sampleX, rfl⟩,
      ⟨⟨rfl, typed_sampleX⟩, typed_sampleG, rfl, rfl⟩, rfl, exists_sum⟩, ⟨rfl, rfl, rfl, rfl⟩, rfl, rfl,
      rfl⟩
  · refine ⟨⟨⟨rfl, typed_sampleX, rfl⟩, ⟨rfl, typed_sampleG⟩, trivial⟩, ⟨rfl, rfl, trivial⟩,
      ⟨rfl, rfl, trivial⟩, ⟨rfl, fits_relay (by simp; exact ⟨rfl, rfl⟩)⟩, ?_, ?_⟩
    · exact ⟨by decide, by decide, trivial⟩
    · rintro r h
      cases h
      refine ⟨fun _ x hx ↦ ?_, ⟨fun _ x hx ↦ ?_, trivial⟩⟩
      · obtain rfl : x = sampleG := by simpa [Build.read] using hx
        decide
      · cases hx

/-- The routine has nothing to do with the variable that is counted. -/
theorem leavesAlone_relay (arguments : List Expr) :
    relay.LeavesAlone Frame.sample arguments [⟨sampleX, false, default⟩] := by
  have hapart (k : String) (hk : "x" ≠ k) :
      ¬ Counted Memory.storageKey [⟨sampleX, false, default⟩] k := by
    rintro ⟨c, hc, rfl⟩
    obtain rfl := List.mem_singleton.1 hc
    exact hk rfl
  refine ⟨fun p hp ↦ ?_, fun x hx ↦ ?_, fun p a hmem href ↦ ?_, fun m m' h k hk ↦ ?_,
    fun m m' μ h hμ ↦ ?_⟩
  · obtain rfl | rfl : p = relayParameter 5 "p" ∨ p = relayParameter 6 "q" := by
      simpa [relay, Routine.declare] using hp
    all_goals exact hapart _ (by decide)
  · cases hx
  · obtain rfl | rfl : p = relayParameter 5 "p" ∨ p = relayParameter 6 "q" := by
      simpa [relay, Routine.declare] using (List.of_mem_zip hmem).1
    all_goals cases href
  · refine Memory.get?_store_of_ne h.2 ?_
    rintro rfl
    exact hapart _ (by decide) hk
  · obtain ⟨μ', h', halong⟩ := h.exists_alongside hμ (hapart _ (by decide)) (hapart _ (by decide))
    exact ⟨μ', h', halong.agrees⟩

theorem unobserved_sampleCounts (s : Stmt) (hs : s ∈ sampleCounts.flatten) :
    s.Unobserved Frame.sample := by
  obtain rfl | rfl : s = _ ∨ s = _ := by simpa [sampleCounts, Stmt.flatten, Stmt.flattenAll] using hs
  · refine ⟨⟨trivial, ⟨trivial, apart_nil _⟩, fun _ hfirst ↦ ?_⟩, apart_nil _⟩
    simp [Build.assign, Expr.isEager] at hfirst
  · refine ⟨⟨trivial, ⟨trivial, trivial, fun _ ↦ apart_nil _⟩, fun _ x hx ↦ ?_⟩, fun r hr ↦ ?_⟩
    · obtain rfl : x = sampleG := by simpa [Build.read] using hx
      rintro ⟨c, hc, heq⟩
      obtain rfl := List.mem_singleton.1 hc
      revert heq
      decide
    · cases hr
      exact leavesAlone_relay _

theorem runs_sampleCounts :
    Runs (Stmt.InOrder Memory.storageKey RelayCalls sampleMain) sampleCounts.flatten
      sampleCounts.flatten ⟨[("x", .float 2)]⟩
      ⟨[("x", .float 4), ("$g", .float 5), ("p", .float 3), ("q", .float 5)]⟩ := by
  obtain ⟨-, hthree, hfour, -, hsum, -⟩ := compute?_sums
  refine .next ⟨rfl, .float 5, ⟨[("x", .float 3), ("$g", .float 3)]⟩,
    ⟨.float 2, ⟨[("x", .float 3)]⟩, ?_, ?_⟩, rfl⟩ ?_
  · exact ⟨.float 3, ⟨hthree, rfl⟩, rfl⟩
  · rw [if_neg (by decide)]
    exact ⟨.float 3, ⟨_, ⟨rfl, rfl⟩, rfl⟩, hsum⟩
  refine .next ⟨rfl, [.float 3, .float 5], ⟨[("x", .float 4), ("$g", .float 5)]⟩, ?_, _,
    ⟨⟨[("x", .float 4), ("$g", .float 5), ("p", .float 3), ("q", .float 5)]⟩, _, ?_, ⟨rfl, rfl⟩, ?_⟩,
    rfl⟩ (.done _)
  · exact ⟨.float 3, _, _, ⟨.float 4, ⟨hfour, rfl⟩, rfl⟩,
      ⟨.float 5, _, _, ⟨rfl, rfl⟩, ⟨rfl, rfl⟩, rfl⟩, rfl⟩
  · exact ⟨_, rfl, _, rfl, rfl⟩
  · exact ⟨_, rfl, _, rfl, rfl⟩

theorem Extracted.ends_of_unobserved_sampleCounts : ∃ x, extract sampleMain sampleCounts = .ok x ∧
      Frame.sample.Ends ⟨[(sampleMain, x.body), (relay, relayBody)]⟩ x ⟨[("x", .float 2)]⟩
        ⟨[("x", .float 4), ("$g", .float 5), ("p", .float 3), ("q", .float 5)]⟩ := by
  obtain ⟨x, hx, hends⟩ := Extracted.ends_of_unobserved Frame.sample sampleCounts
    separable_sampleCounts fun l hl ↦ by cases hl
  refine ⟨x, hx, (hends _ ?_ (fun _ _ _ hcall ↦ ⟨1, hcall.performs rfl⟩) _ _).2
    unobserved_sampleCounts (typed_sampleMemory rfl 2) runs_sampleCounts⟩
  simp [Table.get?, Table.find?, Frame.sample]

/-! ### Counts that something looks at -/

/-- `g = g++`. -/
def countedTarget : Stmt := .assign default sampleG (Build.step sampleG false false default)

/-- `g = x++ + x`. -/
def countedOperand : Stmt :=
  .assign default sampleG (Build.binary .add (Build.step sampleX false false default)
    (Build.read sampleX default) default)

def sampleH : Variable := .slot ⟨.declared 7, "h", .float, .global, {}⟩

/-- Looks at a variable that it is not given. -/
def watcher : Routine := .declare 1 "f" [relayParameter 5 "p"] .void {}

def watcherBody : Stmt := .assign default sampleH (Build.read sampleG default)

/-- `f(g++)`. -/
def countedArgument : Stmt :=
  .expression default (Build.call (.routine watcher) [Build.step sampleG false false default] default)

theorem runs_countedTarget :
    Runs (Stmt.InOrder Memory.storageKey (Performs Memory.storageKey {} 1) sampleMain)
      countedTarget.flatten countedTarget.flatten {} ⟨[("$g", .float 0)]⟩ :=
  .next ⟨rfl, .float 0, ⟨[("$g", .float 1)]⟩,
    ⟨.float 1, ⟨compute?_sums.1, rfl⟩, rfl⟩, rfl⟩ (.done _)

theorem runs_countedOperand :
    Runs (Stmt.InOrder Memory.storageKey (Performs Memory.storageKey {} 1) sampleMain)
      countedOperand.flatten countedOperand.flatten {} ⟨[("x", .float 1), ("$g", .float 1)]⟩ := by
  refine .next ⟨rfl, .float 1, ⟨[("x", .float 1)]⟩, ⟨.float 0, ⟨[("x", .float 1)]⟩, ?_, ?_⟩, rfl⟩
    (.done _)
  · exact ⟨.float 1, ⟨compute?_sums.1, rfl⟩, rfl⟩
  · rw [if_neg (by decide)]
    exact ⟨.float 1, ⟨rfl, rfl⟩, compute?_sums.1⟩

theorem runs_countedArgument : Runs (Stmt.InOrder Memory.storageKey
        (Performs Memory.storageKey ⟨[(watcher, watcherBody)]⟩ 1) sampleMain)
      countedArgument.flatten countedArgument.flatten {}
      ⟨[("$g", .float 1), ("p", .float 0), ("$h", .float 1)]⟩ := by
  have hcall : Performs Memory.storageKey ⟨[(watcher, watcherBody)]⟩ 1 watcher
      ⟨[("$g", .float 1), ("p", .float 0)]⟩
      ⟨[("$g", .float 1), ("p", .float 0), ("$h", .float 1)]⟩ :=
    ⟨watcherBody, rfl, .next ⟨rfl, .float 1, rfl, rfl⟩ (.done _)⟩
  refine .next ⟨rfl, [.float 0], ⟨[("$g", .float 1)]⟩, ?_, _, ⟨_, _, ?_, hcall, ?_⟩, rfl⟩ (.done _)
  · exact ⟨.float 0, _, _, ⟨.float 1, ⟨compute?_sums.1, rfl⟩, rfl⟩, ⟨rfl, rfl⟩, rfl⟩
  · exact ⟨_, rfl, rfl⟩
  · exact ⟨_, rfl, rfl⟩

/-- A count that yields the old value is stored after the enclosing assignment, after an operand to its
right has been read and after the enclosing call. With or without counts, effects change places in a
body that has a temporary of its own, a label that extraction makes up, or an argument that reads a
parameter which is written before it. -/
theorem reorders_counts :
    Reorders {} sampleMain countedTarget "$g" ∧ Reorders {} sampleMain countedOperand "$g" ∧
      Reorders ⟨[(watcher, watcherBody)]⟩ sampleMain countedArgument "$h" ∧
      Reorders {} sampleMain staleSum "$g" ∧ Reorders {} sampleMain twiceLabelled "$g" ∧
      Reorders ⟨[(relay, relayBody)]⟩ sampleMain relayed "$g" := by
  have htarget : extractedCell {} sampleMain countedTarget "$g" = some (some (.float 1)) := by
    decide +kernel
  have hoperand : extractedCell {} sampleMain countedOperand "$g" = some (some (.float 0)) := by
    decide +kernel
  have hargument : extractedCell ⟨[(watcher, watcherBody)]⟩ sampleMain countedArgument "$h" =
      some (some (.float 0)) := by
    decide +kernel
  exact ⟨.of_extractedCell runs_countedTarget htarget (by decide +kernel),
    .of_extractedCell runs_countedOperand hoperand (by decide +kernel),
    .of_extractedCell runs_countedArgument hargument (by decide +kernel), reorders_staleSum,
    reorders_twiceLabelled, reorders_relayed⟩

end Wirescript
