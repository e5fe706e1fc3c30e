import Mathlib.Data.List.Nodup
import Mathlib.Data.List.Perm.Subperm

/-!
# Topological order by a queue

A node is put into the queue when the last of its predecessors is taken from it. For a set `S` that is
closed under predecessors this takes every node of `S` once, after all its predecessors: the
invariant of the queue is `QueueInv`, the sequence of the nodes taken is `Dequeues`.
-/

namespace Poet

variable {α : Type} [DecidableEq α] {pred succ : α → List α} {S seen q order : List α} {e x : α}

/-- The successors of `e` in `S` whose predecessors are all taken once `e` is. -/
def readySuccs (pred succ : α → List α) (S seen : List α) (e : α) : List α :=
  (succ e).filter fun x => x ∈ S ∧ ∀ p ∈ pred x, p ∈ e :: seen

/-- The nodes in the order in which they are taken from the queue. -/
inductive Dequeues (pred succ : α → List α) (S : List α) : List α → List α → List α → Prop where
  | nil (seen : List α) : Dequeues pred succ S seen [] []
  | cons {seen : List α} {e : α} {q order : List α}
      (h : Dequeues pred succ S (e :: seen) (q ++ readySuccs pred succ S seen e) order) :
      Dequeues pred succ S seen (e :: q) (e :: order)

/-- The queue has the nodes of `S` that are not taken and have no predecessor left, each once. -/
structure QueueInv (pred : α → List α) (S seen q : List α) : Prop where
  nodup : (seen ++ q).Nodup
  mem : ∀ x ∈ seen ++ q, x ∈ S
  ready : ∀ x ∈ seen ++ q, ∀ p ∈ pred x, p ∈ seen
  complete : ∀ x ∈ S, (∀ p ∈ pred x, p ∈ seen) → x ∈ seen ++ q

/-- A graph with its edges in both directions, without repetitions and without cycles. -/
structure Dag (pred succ : α → List α) (rank : α → Nat) : Prop where
  mem_succ : ∀ {x y}, y ∈ succ x ↔ x ∈ pred y
  succ_nodup : ∀ x, (succ x).Nodup
  rank_lt : ∀ {x y}, x ∈ pred y → rank x < rank y

theorem mem_readySuccs :
    x ∈ readySuccs pred succ S seen e ↔ x ∈ succ e ∧ x ∈ S ∧ ∀ p ∈ pred x, p ∈ e :: seen := by
  simp [readySuccs]

namespace QueueInv

variable {rank : α → Nat}

theorem step (hD : Dag pred succ rank) (h : QueueInv pred S seen (e :: q)) :
    QueueInv pred S (e :: seen) (q ++ readySuccs pred succ S seen e) where
  nodup := by
    have hperm : (seen ++ e :: q).Perm (e :: (seen ++ q)) := List.perm_middle
    have hnd : (e :: (seen ++ q)).Nodup := hperm.nodup_iff.1 h.nodup
    rw [List.cons_append, ← List.append_assoc, ← List.cons_append, List.nodup_append]
    refine ⟨hnd, (hD.succ_nodup e).filter _, fun x hx y hy hxy => ?_⟩
    -- a new node has `e` as a predecessor, and those of the old ones were all taken before
    subst hxy
    obtain ⟨hsucc, -, -⟩ := mem_readySuccs.1 hy
    have he : e ∈ seen := h.ready x (hperm.mem_iff.2 hx) e (hD.mem_succ.1 hsucc)
    exact (List.nodup_cons.1 hnd).1 (List.mem_append_left q he)
  mem x hx := by
    rcases List.mem_append.1 hx with hx | hx
    · exact h.mem x (by simp at hx ⊢; grind)
    · rcases List.mem_append.1 hx with hx | hx
      · exact h.mem x (by simp [hx])
      · exact (mem_readySuccs.1 hx).2.1
  ready x hx p hp := by
    rcases List.mem_append.1 hx with hx | hx
    · exact List.mem_cons_of_mem e (h.ready x (by simp at hx ⊢; grind) p hp)
    · rcases List.mem_append.1 hx with hx | hx
      · exact List.mem_cons_of_mem e (h.ready x (by simp [hx]) p hp)
      · exact (mem_readySuccs.1 hx).2.2 p hp
  complete x hx hpred := by
    by_cases he : e ∈ pred x
    · have hnew : x ∈ readySuccs pred succ S seen e := mem_readySuccs.2 ⟨hD.mem_succ.2 he, hx, hpred⟩
      simp [hnew]
    · have hold : x ∈ seen ++ e :: q := by
        refine h.complete x hx fun p hp => ?_
        rcases List.mem_cons.1 (hpred p hp) with rfl | hseen
        · exact absurd hp he
        · exact hseen
      simp at hold ⊢
      grind

omit [DecidableEq α] in
/-- With an empty queue all of `S` is taken. -/
theorem mem_seen (hD : Dag pred succ rank) (hS : ∀ x ∈ S, ∀ p ∈ pred x, p ∈ S)
    (h : QueueInv pred S seen []) (hx : x ∈ S) : x ∈ seen := by
  induction hn : rank x using Nat.strongRecOn generalizing x with
  | ind n ih =>
    have hpred : ∀ p ∈ pred x, p ∈ seen := fun p hp =>
      ih (rank p) (hn ▸ hD.rank_lt hp) (hS x hx p hp) rfl
    simpa using h.complete x hx hpred

theorem exists_dequeues (hD : Dag pred succ rank) (h : QueueInv pred S seen q) :
    ∃ order, Dequeues pred succ S seen q order := by
  -- each node taken leaves fewer of `S`
  induction hn : S.length - seen.length using Nat.strongRecOn generalizing seen q with
  | ind n ih =>
    cases q with
    | nil => exact ⟨[], .nil seen⟩
    | cons e q =>
      have hnext := h.step hD
      have hlen : (e :: seen).length ≤ S.length :=
        (List.subperm_of_subset (List.nodup_append.1 hnext.nodup).1
          fun x hx => hnext.mem x (List.mem_append_left _ hx)).length_le
      rw [List.length_cons] at hlen
      obtain ⟨order, horder⟩ := ih (S.length - (e :: seen).length) (by simp; omega) hnext rfl
      exact ⟨e :: order, .cons horder⟩

end QueueInv

/-- The nodes of `S` that are not in `seen`, each once and after its predecessors. -/
structure TopOrder (pred : α → List α) (S seen order : List α) : Prop where
  nodup : order.Nodup
  mem_iff : ∀ x, x ∈ order ↔ x ∈ S ∧ x ∉ seen
  after : ∀ pre x post, order = pre ++ x :: post → ∀ p ∈ pred x, p ∈ seen ∨ p ∈ pre

theorem Dequeues.topOrder {rank : α → Nat} (hD : Dag pred succ rank)
    (hS : ∀ x ∈ S, ∀ p ∈ pred x, p ∈ S) (h : Dequeues pred succ S seen q order)
    (hq : QueueInv pred S seen q) : TopOrder pred S seen order := by
  induction h with
  | nil seen =>
    refine ⟨List.nodup_nil, fun x => ?_, fun pre x post h => by simp at h⟩
    have := hq.mem_seen hD hS (x := x)
    simp
    exact this
  | @cons seen e q order h ih =>
    have hnext := ih (hq.step hD)
    have he : e ∉ seen ∧ e ∈ S := by
      have hnd := List.nodup_append.1 hq.nodup
      exact ⟨fun hmem => hnd.2.2 e hmem e List.mem_cons_self rfl, hq.mem e (by simp)⟩
    refine ⟨List.nodup_cons.2 ⟨fun hmem => ?_, hnext.nodup⟩, fun x => ?_, fun pre x post heq p hp => ?_⟩
    · exact ((hnext.mem_iff e).1 hmem).2 List.mem_cons_self
    · rw [List.mem_cons, hnext.mem_iff]
      by_cases hx : x = e
      · simp [hx, he]
      · simp [hx]
    · cases pre with
      | nil =>
        obtain ⟨rfl, rfl⟩ := List.cons.inj heq
        exact .inl (hq.ready e (by simp) p hp)
      | cons y pre =>
        obtain ⟨rfl, rfl⟩ := List.cons.inj heq
        rcases hnext.after pre x post rfl p hp with hseen | hpre
        · rcases List.mem_cons.1 hseen with rfl | hseen
          · exact .inr List.mem_cons_self
          · exact .inl hseen
        · exact .inr (List.mem_cons_of_mem _ hpre)

end Poet
