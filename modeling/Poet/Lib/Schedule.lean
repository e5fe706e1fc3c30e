import Mathlib.Data.Finset.Card
import Mathlib.Logic.Relation
import Poet.Lib.Measure

/-!
# Running the elements of an order one by one

An element of a finite set is ready when all that is before it has been run. A scheduler that knows
only some of the edges can run an element too early. It never does if and only if each edge it does
not know follows from those it knows: `ready_iff_ready`.
-/

namespace Poet

variable {α : Type}

/-- `x` has not been run, and all that is before it has. -/
structure Ready (E : Finset α) (r : α → α → Prop) (run : List α) (x : α) : Prop where
  mem : x ∈ E
  fresh : x ∉ run
  pre : ∀ y, r y x → y ∈ run

/-- The elements run so far, the last one first. -/
inductive Schedule (E : Finset α) (r : α → α → Prop) : List α → Prop where
  | nil : Schedule E r []
  | cons {run : List α} {x : α} (h : Schedule E r run) (hx : Ready E r run x) :
      Schedule E r (x :: run)

variable {E : Finset α} {r s : α → α → Prop} {run : List α} {x y : α}

theorem Schedule.pre_mem (h : Schedule E r run) (hx : x ∈ run) (hyx : r y x) : y ∈ run := by
  induction h with
  | nil => simp at hx
  | cons h hz ih =>
    rcases List.mem_cons.1 hx with rfl | hx
    · exact List.mem_cons_of_mem _ (hz.pre y hyx)
    · exact List.mem_cons_of_mem _ (ih hx)

theorem Schedule.closed (h : Schedule E r run) (hx : x ∈ run) (hyx : Relation.ReflTransGen r y x) :
    y ∈ run := by
  induction hyx using Relation.ReflTransGen.head_induction_on with
  | refl => exact hx
  | head hyz _ ih => exact h.pre_mem ih hyz

/-- Some element that has not been run is ready, in a set that has all that is before its elements. -/
theorem exists_ready {D : Finset α} (hwf : WellFounded r) (hD : D ⊆ E)
    (hclosed : ∀ x ∈ D, ∀ y, r y x → y ∈ D) (hx : x ∈ D) (hrun : x ∉ run) :
    ∃ y ∈ D, Ready E r run y := by
  obtain ⟨y, ⟨hyD, hy⟩, hmin⟩ := hwf.has_min {y | y ∈ D ∧ y ∉ run} ⟨x, hx, hrun⟩
  refine ⟨y, hyD, hD hyD, hy, fun z hzy => ?_⟩
  by_contra hz
  exact hmin z ⟨hclosed y hyD z hzy, hz⟩ hzy

/-- Such a set can be run. -/
theorem exists_schedule {D : Finset α} (hwf : WellFounded r) (hD : D ⊆ E)
    (hclosed : ∀ x ∈ D, ∀ y, r y x → y ∈ D) :
    ∃ run, Schedule E r run ∧ ∀ x, x ∈ run ↔ x ∈ D := by
  classical
  -- every part of `D` that has been run can be completed, by induction on what is missing
  have hgen (n : Nat) : ∀ run, Schedule E r run → (∀ x ∈ run, x ∈ D) →
      (D \ run.toFinset).card = n → ∃ run, Schedule E r run ∧ ∀ x, x ∈ run ↔ x ∈ D := by
    induction n with
    | zero =>
      intro run h hsub hcard
      refine ⟨run, h, fun x => ⟨hsub x, fun hx => ?_⟩⟩
      rw [Finset.card_eq_zero, Finset.sdiff_eq_empty_iff_subset] at hcard
      simpa using hcard hx
    | succ n ih =>
      intro run h hsub hcard
      obtain ⟨x, hx⟩ : (D \ run.toFinset).Nonempty := by
        rw [← Finset.card_pos]
        omega
      obtain ⟨hxD, hxrun⟩ : x ∈ D ∧ x ∉ run := by simpa using hx
      obtain ⟨y, hyD, hy⟩ := exists_ready hwf hD hclosed hxD hxrun
      have hmissing : D \ (y :: run).toFinset = (D \ run.toFinset).erase y := by
        ext z
        simp only [Finset.mem_sdiff, List.mem_toFinset, List.mem_cons, Finset.mem_erase]
        tauto
      have hyin : y ∈ D \ run.toFinset := by simp [hyD, hy.fresh]
      refine ih (y :: run) (h.cons hy) ?_ ?_
      · simpa using ⟨hyD, hsub⟩
      · rw [hmissing, Finset.card_erase_of_mem hyin]
        omega
  exact hgen _ [] .nil (by simp) rfl

/-- Whether the edges of `r` are enough to tell when an element is ready in the order `s`. -/
theorem ready_iff_ready (hle : ∀ y x, r y x → s y x) (hs : ∀ y x, s y x → y ∈ E ∧ x ∈ E)
    (hacyc : ∀ x, ¬ Relation.TransGen s x x) :
    (∀ run, Schedule E r run → ∀ x, Ready E r run x ↔ Ready E s run x) ↔
      ∀ y x, s y x → Relation.TransGen r y x := by
  classical
  have htrans {y x : α} (h : Relation.TransGen r y x) : Relation.TransGen s y x :=
    Relation.TransGen.mono hle _ _ h
  have hwf : WellFounded r := by
    refine wellFounded_of_acyclic (r := fun x y => r y x) E (fun x y h => (hs y x (hle y x h)).2) ?_
    intro x hx
    exact hacyc x (htrans (Relation.transGen_swap.1 hx))
  constructor
  · -- run all that is before `x` in the edges of `r`, then `x` is ready
    intro h y x hyx
    obtain ⟨run, hrun, hmem⟩ := exists_schedule (D := E.filter fun z => Relation.TransGen r z x) hwf
      (Finset.filter_subset _ _) fun z hz w hw => by
        simp only [Finset.mem_filter] at hz ⊢
        exact ⟨(hs w z (hle w z hw)).1, hz.2.head hw⟩
    simp only [Finset.mem_filter] at hmem
    have hready : Ready E r run x := by
      refine ⟨(hs y x hyx).2, fun hx => ?_, fun z hz => ?_⟩
      · exact hacyc x (htrans ((hmem x).1 hx).2)
      · exact (hmem z).2 ⟨(hs z x (hle z x hz)).1, .single hz⟩
    exact ((hmem y).1 (((h run hrun x).1 hready).pre y hyx)).2
  · intro h run hrun x
    constructor
    · intro hx
      refine ⟨hx.mem, hx.fresh, fun y hyx => ?_⟩
      obtain ⟨z, hyz, hzx⟩ := Relation.TransGen.tail'_iff.1 (h y x hyx)
      exact hrun.closed (hx.pre z hzx) hyz
    · intro hx
      exact ⟨hx.mem, hx.fresh, fun y hyx => hx.pre y (hle y x hyx)⟩

end Poet
