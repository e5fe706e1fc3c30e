import Mathlib.Data.List.Dedup
import Poet.Lib.ListOps

/-!
# Breadth-first order

`bfs next n seen queue` are the nodes that a breadth-first search takes from the queue, in order, with
`next a` the nodes it puts in when it takes `a`. Nodes in `seen` are skipped.
-/

namespace Poet

variable {α : Type} [DecidableEq α] {next : α → List α} {a : α} {n : Nat} {seen q : List α}

def bfs (next : α → List α) : Nat → List α → List α → List α
  | 0, _, _ => []
  | _, _, [] => []
  | n + 1, seen, a :: q =>
    if a ∈ seen then bfs next n seen q
    else a :: bfs next n (a :: seen) (q ++ next a).eraseDups

@[simp] theorem bfs_nil (n : Nat) : bfs next n seen [] = [] := by cases n <;> rfl

theorem bfs_skip (h : a ∈ seen) : bfs next (n + 1) seen (a :: q) = bfs next n seen q := by
  rw [bfs, if_pos h]

theorem bfs_visit (h : a ∉ seen) :
    bfs next (n + 1) seen (a :: q) = a :: bfs next n (a :: seen) (q ++ next a).eraseDups := by
  rw [bfs, if_neg h]

/-- A node with no next ones only leaves the queue. -/
theorem bfs_leaf (h : a ∉ seen) (hq : q.Nodup) (hn : next a = []) :
    bfs next (n + 1) seen (a :: q) = a :: bfs next n (a :: seen) q := by
  rw [bfs_visit h, hn, List.append_nil, eraseDups_of_nodup hq]

end Poet
