import Mathlib.Algebra.Order.BigOperators.Group.List
import Mathlib.Algebra.Order.Group.Nat
import Mathlib.Data.DFinsupp.WellFounded
import Mathlib.Data.Finset.Card
import Mathlib.Data.Finset.Lattice.Fold
import Mathlib.Data.Multiset.DershowitzManna
import Mathlib.Data.Set.Card
import Mathlib.Logic.Relation
import Poet.Lib.ListOps

/-!
# Measures for worklists

A worklist over a graph without cycles ends because an item weighs more than all the items that can
take its place: `exists_weight`. Where cycles pass through nodes whose values can only change
finitely often, each such node has a component in a function that decreases: `wellFounded_component`.
Where the ranks of items change as the worklist goes on, the multiset of the ranks decreases if all
that is new or changed ranks below the item that is taken: `isDershowitzMannaLT_worklist`.

A sequence whose changes all decrease a number changes at most that many times: `encard_changes_le`.
-/

namespace Poet

/-- A relation without cycles that starts from finitely many elements has no infinite chain. -/
theorem wellFounded_of_acyclic {α : Type} {r : α → α → Prop} (S : Finset α)
    (hS : ∀ a b, r a b → a ∈ S) (hacyc : ∀ a, ¬ Relation.TransGen r a a) :
    WellFounded fun b a => r a b := by
  classical
  -- the elements that can be reached become fewer
  have hrank : ∀ b a, r a b → (S.filter (Relation.ReflTransGen r b)).card <
      (S.filter (Relation.ReflTransGen r a)).card := by
    intro b a hab
    apply Finset.card_lt_card
    have hsub : S.filter (Relation.ReflTransGen r b) ⊆ S.filter (Relation.ReflTransGen r a) := by
      intro u hu
      rw [Finset.mem_filter] at hu ⊢
      exact ⟨hu.1, hu.2.head hab⟩
    rw [Finset.ssubset_iff_of_subset hsub]
    refine ⟨a, Finset.mem_filter.2 ⟨hS a b hab, .refl⟩, fun ha => ?_⟩
    exact hacyc a (.head' hab (Finset.mem_filter.1 ha).2)
  exact Subrelation.wf (fun {b a} h => hrank b a h) (measure _).wf

/-- Weights of nodes, and of edges `e`, with those that satisfy `P` leading on to `tgt e`: a node
weighs as much as its edges together. -/
theorem exists_weight {α β : Type} (out : α → List β) (tgt : β → α) (P : β → Prop)
    [DecidablePred P] (hwf : WellFounded fun b a => ∃ e ∈ out a, P e ∧ tgt e = b) :
    ∃ w : α → Nat, ∀ a, w a = ((out a).map fun e => if P e then 1 + w (tgt e) else 1).sum := by
  let F : ∀ a, (∀ b, (∃ e ∈ out a, P e ∧ tgt e = b) → Nat) → Nat := fun a ih =>
    ((out a).attach.map fun e => if h : P e.1 then 1 + ih (tgt e.1) ⟨e.1, e.2, h, rfl⟩ else 1).sum
  refine ⟨hwf.fix F, fun a => ?_⟩
  rw [hwf.fix_eq]
  simp only [F, dite_eq_ite]
  conv_rhs => rw [← List.attach_map_subtype_val (out a), List.map_map]
  rfl

/-- Functions on a finite type, one component of which gets smaller at a time. -/
theorem wellFounded_component {ι β : Type} [LinearOrder ι] [Finite ι] {r : β → β → Prop}
    (hr : WellFounded r) :
    WellFounded fun f g : ι → β => ∃ i, r (f i) (g i) ∧ ∀ j, j ≠ i → f j = g j := by
  have hlex : WellFounded (Pi.Lex (· < ·) fun {_ : ι} => r) := Pi.Lex.wellFounded _ fun _ => hr
  apply Subrelation.wf _ hlex
  rintro f g ⟨i, hi, hne⟩
  exact ⟨i, fun j hj => hne j hj.ne, hi⟩

/-- Without its repetitions a list does not weigh more. -/
theorem sum_map_eraseDups_le {α : Type} [BEq α] (f : α → Nat) (l : List α) :
    (l.eraseDups.map f).sum ≤ (l.map f).sum := by
  induction hn : l.length using Nat.strong_induction_on generalizing l with
  | _ n ih =>
    cases l with
    | nil => simp
    | cons a l =>
      have hfilter := List.length_filter_le (fun b => !b == a) l
      have hle := ih _ (by simp at hn; omega) (l.filter fun b => !b == a) rfl
      have hsub : ((l.filter fun b => !b == a).map f).sum ≤ (l.map f).sum :=
        (List.filter_sublist.map f).sum_le_sum (by simp)
      rw [List.eraseDups_cons, List.map_cons, List.map_cons, List.sum_cons, List.sum_cons]
      omega

theorem isDershowitzMannaLT_cons {α : Type} [Preorder α] (a : α) (M : Multiset α) :
    Multiset.IsDershowitzMannaLT M (a ::ₘ M) :=
  ⟨M, 0, {a}, Multiset.singleton_ne_zero a, (add_zero M).symm, by
    rw [add_comm, Multiset.singleton_add], fun y hy => absurd hy (Multiset.notMem_zero y)⟩

/-- An item `a` is taken from a worklist and others are put on it. -/
theorem isDershowitzMannaLT_worklist {α : Type} [BEq α] [LawfulBEq α] {f g : α → Nat} {a : α}
    {wl new : List α} (hnew : ∀ b ∈ new, g b < f a) (hold : ∀ b ∈ wl, g b = f b ∨ g b < f a) :
    Multiset.IsDershowitzMannaLT (Multiset.map g ↑(wl ++ new).eraseDups)
      (Multiset.map f ↑(a :: wl)) := by
  -- what does not rank below `a` was there before, with the same rank
  let l : Multiset α := ↑(wl ++ new).eraseDups
  have hkept : ∀ b ∈ l.filter fun b => ¬ g b < f a, b ∈ wl ∧ g b = f b := by
    intro b hb
    obtain ⟨hmem, hge⟩ := Multiset.mem_filter.1 hb
    rcases List.mem_append.1 (List.mem_eraseDups.1 (Multiset.mem_coe.1 hmem)) with h | h
    · exact ⟨h, (hold b h).resolve_right hge⟩
    · exact absurd (hnew b h) hge
  have hsub : (l.filter fun b => ¬ g b < f a).map g ≤ Multiset.map f ↑wl := by
    rw [Multiset.map_congr rfl fun b hb => (hkept b hb).2]
    apply Multiset.map_le_map
    have hnodup : (l.filter fun b => ¬ g b < f a).Nodup :=
      Multiset.Nodup.filter _ (Multiset.coe_nodup.2 (nodup_eraseDups _))
    exact (Multiset.le_iff_subset hnodup).2 fun b hb => (hkept b hb).1
  obtain ⟨rest, hrest⟩ := Multiset.le_iff_exists_add.1 hsub
  refine ⟨(l.filter fun b => ¬ g b < f a).map g, (l.filter fun b => g b < f a).map g,
    f a ::ₘ rest, Multiset.cons_ne_zero, ?_, ?_, ?_⟩
  · rw [← Multiset.map_add, add_comm, Multiset.filter_add_not]
  · rw [Multiset.add_cons, ← hrest, ← Multiset.cons_coe, Multiset.map_cons]
  · intro y hy
    obtain ⟨b, hb, rfl⟩ := Multiset.mem_map.1 hy
    exact ⟨f a, Multiset.mem_cons_self _ _, (Multiset.mem_filter.1 hb).2⟩

theorem encard_changes_le {α : Type} (s : Nat → α) (μ : α → Nat)
    (h : ∀ k, s (k + 1) ≠ s k → μ (s (k + 1)) < μ (s k)) :
    {k | s (k + 1) ≠ s k}.encard ≤ μ (s 0) := by
  classical
  have hcount : ∀ n, ((Finset.range n).filter fun k => s (k + 1) ≠ s k).card + μ (s n) ≤ μ (s 0) := by
    intro n
    induction n with
    | zero => simp
    | succ n ih =>
      rw [Finset.range_add_one, Finset.filter_insert]
      by_cases hn : s (n + 1) ≠ s n
      · rw [if_pos hn, Finset.card_insert_of_notMem (by simp)]
        have := h n hn
        omega
      · rw [if_neg hn, not_not.1 hn]
        exact ih
  by_contra hlt
  -- one change too many: they all come before some index
  obtain ⟨t, ht, hcard⟩ := Set.exists_subset_encard_eq (Order.add_one_le_of_lt (not_le.1 hlt))
  have hfin : t.Finite := Set.finite_of_encard_eq_coe (k := μ (s 0) + 1) (by simpa using hcard)
  have hsub : hfin.toFinset ⊆ (Finset.range (hfin.toFinset.sup id + 1)).filter
      fun k => s (k + 1) ≠ s k := by
    intro k hk
    have hle : k ≤ hfin.toFinset.sup id := Finset.le_sup (f := id) hk
    exact Finset.mem_filter.2 ⟨Finset.mem_range.2 (by omega), ht (hfin.mem_toFinset.1 hk)⟩
  have hle := Finset.card_le_card hsub
  have hsize : hfin.toFinset.card = μ (s 0) + 1 := by
    rw [hfin.encard_eq_coe_toFinset_card] at hcard
    exact_mod_cast hcard
  have := hcount (hfin.toFinset.sup id + 1)
  omega

end Poet
