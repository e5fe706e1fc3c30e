import Mathlib.Data.Set.Card
import Mathlib.Data.Set.Finite.Lattice

/-!
# Computation trees

`next s` are the children of the state `s`, each with the label of the edge to it, or `none` where
they are not defined. The tree from `s` has a node for each walk from `s`; it is finite if there are
finitely many walks and every state on them has its children (`FiniteTree`).

* `FiniteTree.induction`: what holds of a state if it holds of its children holds at the root.
* `FiniteTree.of_rank`: a tree along which a number gets smaller is finite.
* `encard_leafPaths`: where the labels of the children differ, the paths to the leaves below a state
  are those below its children, counted together.
-/

namespace Poet

variable {σ L : Type} {next : σ → Option (List (L × σ))} {s t u : σ} {a : L} {p : List L}
  {cs : List (L × σ)}

/-- The labels on a path from one state to another. -/
inductive Walk (next : σ → Option (List (L × σ))) : σ → List L → σ → Prop where
  | nil (s : σ) : Walk next s [] s
  | cons {s t u : σ} {cs : List (L × σ)} {a : L} {p : List L} (hs : next s = some cs)
      (hc : (a, t) ∈ cs) (hw : Walk next t p u) : Walk next s (a :: p) u

/-- The paths from `s` to the states without children. -/
def leafPaths (next : σ → Option (List (L × σ))) (s : σ) : Set (List L) :=
  {p | ∃ u, Walk next s p u ∧ next u = some []}

structure FiniteTree (next : σ → Option (List (L × σ))) (s : σ) : Prop where
  defined : ∀ p u, Walk next s p u → ∃ cs, next u = some cs
  finite : {p | ∃ u, Walk next s p u}.Finite

theorem walk_nil : Walk next s [] u ↔ u = s := by
  constructor
  · rintro ⟨⟩
    rfl
  · rintro rfl
    exact .nil u

theorem walk_cons (hs : next s = some cs) :
    Walk next s (a :: p) u ↔ ∃ t, (a, t) ∈ cs ∧ Walk next t p u := by
  constructor
  · rintro (_ | ⟨hs', hc, hw⟩)
    obtain rfl := Option.some.inj (hs.symm.trans hs')
    exact ⟨_, hc, hw⟩
  · rintro ⟨t, hc, hw⟩
    exact .cons hs hc hw

namespace FiniteTree

theorem child (h : FiniteTree next s) (hs : next s = some cs) (hc : (a, t) ∈ cs) :
    FiniteTree next t where
  defined p u hw := h.defined (a :: p) u (.cons hs hc hw)
  finite := by
    refine Set.Finite.of_finite_image (h.finite.subset ?_) (List.cons_injective (a := a)).injOn
    rintro _ ⟨p, ⟨u, hw⟩, rfl⟩
    exact ⟨u, .cons hs hc hw⟩

/-- The walks from a child are walks from the state, and there is the empty one besides. -/
theorem ncard_child (h : FiniteTree next s) (hs : next s = some cs) (hc : (a, t) ∈ cs) :
    {p | ∃ u, Walk next t p u}.ncard < {p | ∃ u, Walk next s p u}.ncard := by
  rw [← Set.ncard_image_of_injective _ (List.cons_injective (a := a))]
  refine Set.ncard_lt_ncard ⟨?_, fun hsub => ?_⟩ h.finite
  · rintro _ ⟨p, ⟨u, hw⟩, rfl⟩
    exact ⟨u, .cons hs hc hw⟩
  · obtain ⟨p, -, hp⟩ := hsub (show [] ∈ {p | ∃ u, Walk next s p u} from ⟨s, .nil s⟩)
    cases hp

theorem induction {motive : σ → Prop} (h : FiniteTree next s)
    (step : ∀ s cs, FiniteTree next s → next s = some cs → (∀ a t, (a, t) ∈ cs → motive t) →
      motive s) : motive s := by
  induction hn : {p | ∃ u, Walk next s p u}.ncard using Nat.strong_induction_on generalizing s with
  | _ n ih =>
    subst hn
    obtain ⟨cs, hs⟩ := h.defined [] s (.nil s)
    exact step s cs h hs fun a t hc => ih _ (h.ncard_child hs hc) (h.child hs hc) rfl

/-- Steps that lower a rank lead to a finite tree; `R` holds of the states on it. -/
theorem of_rank {R : σ → Prop} (ρ : σ → Nat)
    (hstep : ∀ s, R s → ∃ cs, next s = some cs ∧ ∀ c ∈ cs, R c.2 ∧ ρ c.2 < ρ s) (hR : R s) :
    FiniteTree next s := by
  induction hn : ρ s using Nat.strong_induction_on generalizing s with
  | _ n ih =>
    subst hn
    obtain ⟨cs, hs, hcs⟩ := hstep s hR
    have hsub : ∀ c ∈ cs, FiniteTree next c.2 := fun c hc => ih _ (hcs c hc).2 (hcs c hc).1 rfl
    refine ⟨fun p u hw => ?_, ?_⟩
    · cases p with
      | nil => exact ⟨cs, walk_nil.1 hw ▸ hs⟩
      | cons a p =>
        obtain ⟨t, hc, hw⟩ := (walk_cons hs).1 hw
        exact (hsub _ hc).defined p u hw
    · have hbelow : (⋃ c ∈ {c | c ∈ cs}, (c.1 :: ·) '' {p | ∃ u, Walk next c.2 p u}).Finite :=
        Set.Finite.biUnion cs.finite_toSet fun c hc => (hsub c hc).finite.image _
      refine ((Set.finite_singleton []).union hbelow).subset ?_
      rintro p ⟨u, hw⟩
      cases p with
      | nil => exact .inl rfl
      | cons a p =>
        obtain ⟨t, hc, hw⟩ := (walk_cons hs).1 hw
        exact .inr (Set.mem_biUnion (x := (a, t)) hc ⟨p, ⟨u, hw⟩, rfl⟩)

end FiniteTree

/-! ## Counting the leaves -/

theorem leafPaths_leaf (hs : next s = some []) : leafPaths next s = {[]} := by
  ext p
  cases p with
  | nil => simpa [leafPaths, walk_nil] using hs
  | cons a p => simp [leafPaths, walk_cons hs]

/-- The paths below the children `cs`, with the labels of the edges to these. -/
def pathsBelow (next : σ → Option (List (L × σ))) (cs : List (L × σ)) : Set (List L) :=
  {p | ∃ c ∈ cs, ∃ q ∈ leafPaths next c.2, p = c.1 :: q}

theorem leafPaths_node (hs : next s = some cs) (hne : cs ≠ []) :
    leafPaths next s = pathsBelow next cs := by
  ext p
  cases p with
  | nil =>
    have hleaf : next s ≠ some [] := by simpa [hs] using hne
    simp [leafPaths, pathsBelow, walk_nil, hleaf]
  | cons a p =>
    simp only [leafPaths, pathsBelow, Set.mem_ofPred_eq, walk_cons hs, List.cons.injEq]
    constructor
    · rintro ⟨u, ⟨t, hc, hw⟩, hu⟩
      exact ⟨(a, t), hc, p, ⟨u, hw, hu⟩, rfl, rfl⟩
    · rintro ⟨⟨_, t⟩, hc, _, ⟨u, hw, hu⟩, rfl, rfl⟩
      exact ⟨u, ⟨t, hc, hw⟩, hu⟩

theorem encard_pathsBelow (hnd : (cs.map (·.1)).Nodup) :
    (pathsBelow next cs).encard = (cs.map fun c => (leafPaths next c.2).encard).sum := by
  induction cs with
  | nil => simp [pathsBelow]
  | cons c cs ih =>
    obtain ⟨hc, hnd⟩ := List.nodup_cons.1 hnd
    have hunion : pathsBelow next (c :: cs) =
        (c.1 :: ·) '' leafPaths next c.2 ∪ pathsBelow next cs := by
      ext p
      simp [pathsBelow, eq_comm]
    have hdisj : Disjoint ((c.1 :: ·) '' leafPaths next c.2) (pathsBelow next cs) := by
      rw [Set.disjoint_left]
      rintro _ ⟨q, -, rfl⟩ ⟨c', hc', q', -, heq⟩
      exact hc (List.mem_map.2 ⟨c', hc', (List.cons.inj heq).1.symm⟩)
    rw [hunion, Set.encard_union_eq hdisj, List.cons_injective.encard_image, ih hnd, List.map_cons,
      List.sum_cons]

theorem encard_leafPaths (hs : next s = some cs) (hne : cs ≠ []) (hnd : (cs.map (·.1)).Nodup) :
    (leafPaths next s).encard = (cs.map fun c => (leafPaths next c.2).encard).sum := by
  rw [leafPaths_node hs hne, encard_pathsBelow hnd]

end Poet
