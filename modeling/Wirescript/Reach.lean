/-!
# Reachability in a finite graph

The nodes that can be reached from some roots, in the order of their distance. A round takes in all
new successors of the nodes that the round before took in, so there are at most as many rounds with
news as there are nodes.
-/

namespace Wirescript.Reach

variable {α : Type} [DecidableEq α]

/-- The successors of the frontier that have not been seen, each once. -/
def news (next : α → List α) (seen frontier : List α) : List α :=
  ((frontier.flatMap next).filter fun a ↦ decide (a ∉ seen)).eraseDups

/-- Takes in the news for at most the given number of rounds. -/
def grow (next : α → List α) : Nat → List α → List α → List α
  | 0, seen, _ => seen
  | rounds + 1, seen, frontier =>
    match news next seen frontier with
    | [] => seen
    | fresh => grow next rounds (seen ++ fresh) fresh

/-- Everything that can be reached from the roots in a graph of at most `size` nodes. -/
def closure (next : α → List α) (size : Nat) (roots : List α) : List α :=
  grow next size roots.eraseDups roots.eraseDups

end Wirescript.Reach
