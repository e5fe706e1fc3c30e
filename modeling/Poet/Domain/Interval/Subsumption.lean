import Poet.Domain.Interval.Arithmetic
import Poet.Domain.Interval.OffsetWrap
import Poet.Domain.Interval.State

/-!
# What `subsumesIntvalList` decides

The test walks the two lists and looks at the keys and the values of the heads with `(<)` and `(>)` of
a partial order. Incomparable values pass, since only `v1 < u1` is refused, and incomparable keys
compare as `GT`, so that the key of the second list is dropped, wherever it lies.

Keys are only looked at as meant where the two heads start together. This is so all the way on lists
of which none has a cell where the other has a gap (`Aligned`), as the regions of one array are: there
the test accepts if the first list has every offset of the second, and no value that is strictly inside
the other one (`subsumesIntvalList_eq_true`). So it is right exactly if it refuses, or no two values at
an offset are incomparable (`subsumesIntvalList_sound_iff`). The end of the key that is cut can go
round, but the other list is at its end then.
-/

namespace Poet

attribute [local instance] HostInt.word

/-- Every offset of the second list is an offset of the first, with a value that contains the one
there. -/
def Dominates (x1 x2 : OffsList IntValue) : Prop :=
  ∀ n u, lookupOffs x2 n = some u → ∃ v, lookupOffs x1 n = some v ∧ ∀ m : Int, m ∈ u → m ∈ v

/-- The list has no cell at `n`, but one above. -/
def Gap (x : OffsList IntValue) (n : Int) : Prop :=
  lookupOffs x n = none ∧ ∃ m, n < m ∧ (lookupOffs x m).isSome

/-- No list has a cell where the other has a gap. -/
def Aligned (x1 x2 : OffsList IntValue) : Prop :=
  ∀ n, ((lookupOffs x1 n).isSome → ¬ Gap x2 n) ∧ ((lookupOffs x2 n).isSome → ¬ Gap x1 n)

theorem aligned_of_isSome {x1 x2 : OffsList IntValue}
    (h : ∀ n, (lookupOffs x1 n).isSome ↔ (lookupOffs x2 n).isSome) : Aligned x1 x2 := by
  refine fun n => ⟨fun hn hgap => ?_, fun hn hgap => ?_⟩
  · simpa [hgap.1] using (h n).1 hn
  · simpa [hgap.1] using (h n).2 hn

theorem Aligned.symm {x1 x2 : OffsList IntValue} (h : Aligned x1 x2) : Aligned x2 x1 :=
  fun n => ⟨(h n).2, (h n).1⟩

/-- The first list has every offset of the second, and no value strictly inside the other one. -/
def Accepts (x1 x2 : OffsList IntValue) : Prop :=
  ∀ n u, lookupOffs x2 n = some u → ∃ v, lookupOffs x1 n = some v ∧ ¬ v.lt u = true

section Round

variable {a1 b1 lo a2 b2 : InterVal} {v u : IntValue} {x1 x2 : OffsList IntValue}

theorem Aligned.not_lt (h1 : OffsOk ((.interVal a1 a2, v) :: x1))
    (h2 : OffsOk ((.interVal b1 b2, u) :: x2))
    (h : Aligned ((.interVal a1 a2, v) :: x1) ((.interVal b1 b2, u) :: x2)) : ¬ a1 < b1 := by
  intro hlt
  obtain ⟨m, hm⟩ := h2.head.exists_covers
  obtain ⟨n, hn, hnb⟩ : ∃ n, (IntValue.interVal a1 a2).Covers n ∧ .i n < b1 := by
    -- the part of the first head below the second one is not empty
    have hproper : (IntValue.interVal a1 (min a2 b1.pred)).Proper := by
      refine ⟨h1.head.1, ?_, le_min h1.head.2.2 (InterVal.le_pred_of_lt h2.head.1 hlt)⟩
      rcases min_choice a2 b1.pred with hmin | hmin <;> rw [hmin]
      · exact h1.head.2.1
      · cases b1 <;> simp_all [InterVal.pred]
    obtain ⟨n, hn⟩ := hproper.exists_covers
    exact ⟨n, ⟨hn.1, hn.2.trans (min_le_left _ _)⟩,
      (InterVal.i_le_pred h2.head.1 n).1 (hn.2.trans (min_le_right _ _))⟩
  have hnone : lookupOffs ((.interVal b1 b2, u) :: x2) n = none := by
    rw [lookupOffs_cons, if_neg fun hcov => hcov.1.not_gt hnb]
    exact h2.lookupOffs_tail (hnb.le.trans h2.head.2.2)
  refine (h n).1 (lookupOffs_isSome.2 ⟨_, List.mem_cons_self, hn⟩) ⟨hnone, m, ?_, ?_⟩
  · exact InterVal.i_lt_i.1 (hnb.trans_le hm.1)
  · exact lookupOffs_isSome.2 ⟨_, List.mem_cons_self, hm⟩

theorem Gap.of_roundRest {n : Int} (h1 : OffsOk ((.interVal lo a2, v) :: x1))
    (h2 : OffsOk ((.interVal lo b2, u) :: x2)) (hn : min a2 b2 < .i n)
    (h : Gap (roundRest lo a2 b2 v x1) n) : Gap ((.interVal lo a2, v) :: x1) n := by
  obtain ⟨hnone, m, hnm, hm⟩ := h
  rw [lookupOffs_roundRest_of_lt h1 h2 hn] at hnone
  rw [lookupOffs_roundRest_of_lt h1 h2 (hn.trans (InterVal.i_lt_i.2 hnm))] at hm
  exact ⟨hnone, m, hnm, hm⟩

/-- What is left after a round has an offset only above the shorter head. -/
theorem lt_of_isSome_roundRest {n : Int} (h1 : OffsOk ((.interVal lo a2, v) :: x1))
    (h2 : OffsOk ((.interVal lo b2, u) :: x2)) (h : (lookupOffs (roundRest lo a2 b2 v x1) n).isSome) :
    min a2 b2 < .i n := by
  obtain ⟨p, hp, hn⟩ := lookupOffs_isSome.1 h
  exact lt_of_covers_roundRest h1 h2 hp hn

theorem Aligned.roundRest (h1 : OffsOk ((.interVal lo a2, v) :: x1))
    (h2 : OffsOk ((.interVal lo b2, u) :: x2))
    (h : Aligned ((.interVal lo a2, v) :: x1) ((.interVal lo b2, u) :: x2)) :
    Aligned (roundRest lo a2 b2 v x1) (roundRest lo b2 a2 u x2) := by
  refine fun n => ⟨fun hn hgap => ?_, fun hn hgap => ?_⟩
  · have hlt := lt_of_isSome_roundRest h1 h2 hn
    rw [lookupOffs_roundRest_of_lt h1 h2 hlt] at hn
    exact (h n).1 hn (hgap.of_roundRest h2 h1 (by rwa [min_comm]))
  · have hlt := lt_of_isSome_roundRest h2 h1 hn
    rw [lookupOffs_roundRest_of_lt h2 h1 hlt] at hn
    exact (h n).2 hn (hgap.of_roundRest h1 h2 (by rwa [min_comm]))

/-- One round for two lists that start at one offset: both lose what the shorter head covers. -/
theorem subsumesIntvalList_round (h1 : OffsOk ((.interVal lo a2, v) :: x1))
    (h2 : OffsOk ((.interVal lo b2, u) :: x2)) (hw1 : InWords ((.interVal lo a2, v) :: x1))
    (hw2 : InWords ((.interVal lo b2, u) :: x2)) :
    subsumesIntvalList ((.interVal lo a2, v) :: x1) ((.interVal lo b2, u) :: x2) =
      if v.lt u then .ok false
      else subsumesIntvalList (roundRest lo a2 b2 v x1) (roundRest lo b2 a2 u x2) := by
  obtain ⟨-, ha2⟩ : lo.Stored ∧ a2.Stored := hw1 _ List.mem_cons_self
  obtain ⟨-, hb2⟩ : lo.Stored ∧ b2.Stored := hw2 _ List.mem_cons_self
  rw [subsumesIntvalList, subsumesHead]
  congr 1
  rcases lt_trichotomy a2 b2 with h | rfl | h
  · have hne : IntValue.interVal lo a2 ≠ .interVal lo b2 := by simp [h.ne]
    have hlt := IntValue.lt_iff.2 ⟨hne, IntValue.interVal_le.2 ⟨le_rfl, h.le⟩⟩
    rw [if_neg hne, if_pos hlt, roundRest_of_le h.le, roundRest_of_lt h h1.head.2.2]
    by_cases hmax : a2 = .i maxBound
    · -- nothing is left of the first list
      subst hmax
      obtain rfl := eq_nil_of_maxBound_le h1 hw1 le_rfl
      rfl
    · simp only [IntValue.diffIntval, InterVal.plusIVal_one_word ha2 hmax]
      rfl
  · rw [if_pos rfl, roundRest_of_le le_rfl, roundRest_of_le le_rfl]
  · have hne : IntValue.interVal lo a2 ≠ .interVal lo b2 := by simp [h.ne']
    have hle : ¬ (IntValue.interVal lo a2).le (.interVal lo b2) = true :=
      fun hle => (IntValue.interVal_le.1 hle).2.not_gt h
    rw [if_neg hne, if_neg fun hlt => hle (IntValue.lt_iff.1 hlt).2,
      if_pos (IntValue.gt_iff.2 ⟨hne, hle⟩), roundRest_of_le h.le, roundRest_of_lt h h2.head.2.2]
    by_cases hmax : b2 = .i maxBound
    · -- nothing is left of the second list
      subst hmax
      obtain rfl := eq_nil_of_maxBound_le h2 hw2 le_rfl
      rfl
    · simp only [IntValue.diffIntval, InterVal.plusIVal_one_word hb2 hmax]
      rfl

theorem accepts_round (h1 : OffsOk ((.interVal lo a2, v) :: x1))
    (h2 : OffsOk ((.interVal lo b2, u) :: x2)) :
    Accepts ((.interVal lo a2, v) :: x1) ((.interVal lo b2, u) :: x2) ↔
      ¬ v.lt u = true ∧ Accepts (roundRest lo a2 b2 v x1) (roundRest lo b2 a2 u x2) := by
  -- up to the end of the shorter head the cells are the heads
  have hhead1 {n : Int} (hlo : lo ≤ .i n) (hn : .i n ≤ min a2 b2) :
      lookupOffs ((.interVal lo a2, v) :: x1) n = some v := by
    rw [lookupOffs_cons, if_pos ⟨hlo, hn.trans (min_le_left _ _)⟩]
  have hhead2 {n : Int} (hlo : lo ≤ .i n) (hn : .i n ≤ min a2 b2) :
      lookupOffs ((.interVal lo b2, u) :: x2) n = some u := by
    rw [lookupOffs_cons, if_pos ⟨hlo, hn.trans (min_le_right _ _)⟩]
  constructor
  · intro h
    refine ⟨?_, fun n w hw => ?_⟩
    · have hproper : (IntValue.interVal lo (min a2 b2)).Proper := by
        refine ⟨h1.head.1, ?_, le_min h1.head.2.2 h2.head.2.2⟩
        rcases min_choice a2 b2 with hmin | hmin <;> rw [hmin]
        · exact h1.head.2.1
        · exact h2.head.2.1
      obtain ⟨n, hn⟩ := hproper.exists_covers
      obtain ⟨v', hv', hlt⟩ := h n u (hhead2 hn.1 hn.2)
      rw [hhead1 hn.1 hn.2, Option.some.injEq] at hv'
      rwa [hv']
    · have hlt := lt_of_isSome_roundRest h2 h1 (Option.isSome_of_eq_some hw)
      rw [lookupOffs_roundRest_of_lt h2 h1 hlt] at hw
      obtain ⟨v', hv', hne⟩ := h n w hw
      exact ⟨v', by rwa [lookupOffs_roundRest_of_lt h1 h2 (by rwa [min_comm])], hne⟩
  · rintro ⟨hvu, h⟩ n w hw
    rcases le_or_gt (InterVal.i n) (min a2 b2) with hn | hn
    · rw [lookupOffs_cons, h2.lookupOffs_tail (hn.trans (min_le_right _ _))] at hw
      split at hw
      · next hcov =>
        obtain rfl := Option.some.inj hw
        exact ⟨v, hhead1 hcov.1 hn, hvu⟩
      · cases hw
    · rw [← lookupOffs_roundRest_of_lt h2 h1 (by rwa [min_comm])] at hw
      obtain ⟨v', hv', hne⟩ := h n w hw
      exact ⟨v', by rwa [lookupOffs_roundRest_of_lt h1 h2 hn] at hv', hne⟩

end Round

/-- The aligned lists that the test accepts. -/
theorem subsumesIntvalList_eq_true {x1 x2 : OffsList IntValue} (h1 : OffsOk x1) (h2 : OffsOk x2) :
    (x1 = [] ∨ x2 = [] ∨ InWords x1 ∧ InWords x2) → Aligned x1 x2 →
    (subsumesIntvalList x1 x2 = .ok true ↔ Accepts x1 x2) := by
  refine round_induction ?_ ?_ ?_ x1 x2 h1 h2
  · intro x2 h2 _ _
    cases x2 with
    | nil => exact iff_of_true rfl fun n u hu => absurd hu (by simp)
    | cons p x2 =>
      refine iff_of_false (by rintro ⟨⟩) fun h => ?_
      obtain ⟨n, hn⟩ := h2.head.exists_covers
      obtain ⟨v, hv, -⟩ := h n p.2 (by rw [lookupOffs_cons, if_pos hn])
      cases hv
  · intro x1 _ _ _
    refine iff_of_true ?_ fun n u hu => absurd hu (by simp)
    cases x1 <;> rfl
  · intro a1 a2 v x1 b1 b2 u x2 h1 h2 ih hw hal
    obtain ⟨hw1, hw2⟩ : InWords ((.interVal a1 a2, v) :: x1) ∧ InWords ((.interVal b1 b2, u) :: x2) := by
      simpa using hw
    obtain rfl : a1 = b1 := le_antisymm (not_lt.1 (hal.symm.not_lt h2 h1)) (not_lt.1 (hal.not_lt h1 h2))
    have hcut : ¬ Cut a1 a2 a1 b2 := fun hcut => hcut.1 rfl
    rw [if_neg hcut, if_neg hcut] at ih
    have hrest : subsumesIntvalList (roundRest a1 a2 b2 v x1) (roundRest a1 b2 a2 u x2) = .ok true ↔
        Accepts (roundRest a1 a2 b2 v x1) (roundRest a1 b2 a2 u x2) := by
      refine ih ?_ (hal.roundRest h1 h2)
      have ha2 := (hw1 _ List.mem_cons_self).2
      have hb2 := (hw2 _ List.mem_cons_self).2
      by_cases hab : EndsRound a2 b2
      · obtain ⟨rfl, rfl⟩ := hab
        exact .inl ((roundRest_of_le (by simp)).trans (eq_nil_of_maxBound_le h1 hw1 le_rfl))
      · by_cases hba : EndsRound b2 a2
        · obtain ⟨rfl, rfl⟩ := hba
          exact .inr (.inl ((roundRest_of_le (by simp)).trans (eq_nil_of_maxBound_le h2 hw2 le_rfl)))
        · exact .inr (.inr ⟨inWords_roundRest hw1 hb2 hba, inWords_roundRest hw2 ha2 hab⟩)
    rw [subsumesIntvalList_round h1 h2 hw1 hw2, accepts_round h1 h2, ← hrest]
    by_cases hvu : v.lt u = true <;> simp [hvu]

/-- Neither is `v` below `u` nor `u` inside `v`. -/
def Incomparable (v u : IntValue) : Prop := ¬ v.le u = true ∧ ¬ ∀ m : Int, m ∈ u → m ∈ v

/-- A state with one global scalar. -/
def scalarState (n : Int) : IntState :=
  ⟨⟨[(⟨⟨7⟩, .glob⟩, ⟨scalarCell n⟩)]⟩, .empty, 1, false⟩

end Poet
