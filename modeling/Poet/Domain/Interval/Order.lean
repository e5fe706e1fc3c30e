import Poet.Domain.Interval.Arithmetic
import Poet.Domain.Interval.OffsetMerge

/-!
# Intervals as sets of integers

`Plain` values are the non-empty intervals (`Proper`) and the two constants.
On plain values the order of `Domain/Interval/Value.hs` is inclusion of the sets that the values
stand for, `meet` is the intersection and `join` the least plain value above both arguments. Two
plain values stand for all integers, `top` and the interval without bounds.
-/

namespace Poet

namespace IntValue

variable {u v w : IntValue} {a b c d : InterVal} {n m : Int}

/-- `IntBot`, `IntTop` and the non-empty intervals. -/
def Plain (v : IntValue) : Prop := v = .bot ∨ v = .top ∨ v.Proper

theorem proper_of_mem (h : n ∈ interVal a b) : Proper (.interVal a b) := by
  obtain ⟨h1, h2⟩ := mem_interVal.1 h
  refine ⟨?_, ?_, h1.trans h2⟩
  · rintro rfl
    simp at h1
  · rintro rfl
    simp at h2

theorem plain_of_mem (h : n ∈ interVal a b) : Plain (.interVal a b) :=
  .inr (.inr (proper_of_mem h))

theorem Plain.cases (h : v.Plain) :
    v = .bot ∨ v = .top ∨ ∃ a b n, v = .interVal a b ∧ n ∈ interVal a b := by
  rcases h with rfl | rfl | h
  · exact .inl rfl
  · exact .inr (.inl rfl)
  · obtain ⟨a, b, rfl⟩ := h.exists_interVal
    obtain ⟨n, hn⟩ := h.exists_covers
    exact .inr (.inr ⟨a, b, n, rfl, hn⟩)

/-! ## Inclusion -/

/-- Below every integer there is one in an interval without a lower bound. -/
theorem lower_le_of_subset (hn : n ∈ interVal a b) (hsub : ∀ k, k ∈ interVal a b → c ≤ .i k) :
    c ≤ a := by
  cases a with
  | plusInf => exact InterVal.le_plusInf c
  | i k => exact hsub k ⟨le_refl _, hn.1.trans hn.2⟩
  | minusInf =>
    cases c with
    | minusInf => exact le_refl _
    | plusInf => exact absurd (hsub n hn) (InterVal.not_plusInf_le_i n)
    | i k =>
      have hle : (.i (min n (k - 1)) : InterVal) ≤ .i n := InterVal.i_le_i.2 (Int.min_le_left _ _)
      have hk := InterVal.i_le_i.1 (hsub (min n (k - 1)) ⟨InterVal.minusInf_le _, hle.trans hn.2⟩)
      omega

theorem upper_le_of_subset (hn : n ∈ interVal a b) (hsub : ∀ k, k ∈ interVal a b → .i k ≤ d) :
    b ≤ d := by
  cases b with
  | minusInf => exact InterVal.minusInf_le d
  | i k => exact hsub k ⟨hn.1.trans hn.2, le_refl _⟩
  | plusInf =>
    cases d with
    | plusInf => exact le_refl _
    | minusInf => exact absurd (hsub n hn) (InterVal.not_i_le_minusInf n)
    | i k =>
      have hle : (.i n : InterVal) ≤ .i (max n (k + 1)) := InterVal.i_le_i.2 (Int.le_max_left _ _)
      have hk := InterVal.i_le_i.1 (hsub (max n (k + 1)) ⟨hn.1.trans hle, InterVal.le_plusInf _⟩)
      omega

theorem interVal_subset_iff (hn : n ∈ interVal a b) :
    (∀ k, k ∈ interVal a b → k ∈ interVal c d) ↔ c ≤ a ∧ b ≤ d := by
  constructor
  · intro h
    exact ⟨lower_le_of_subset hn fun k hk => (h k hk).1, upper_le_of_subset hn fun k hk => (h k hk).2⟩
  · rintro ⟨hca, hbd⟩ k hk
    exact ⟨hca.trans hk.1, hk.2.trans hbd⟩

/-- Only the interval without bounds has every integer. -/
theorem forall_mem_interVal : (∀ k, k ∈ interVal a b) ↔ a = .minusInf ∧ b = .plusInf := by
  constructor
  · intro h
    have hall : (0 : Int) ∈ interVal .minusInf .plusInf := by decide
    have hle := (interVal_subset_iff hall).1 fun k _ => h k
    exact ⟨le_antisymm hle.1 (InterVal.minusInf_le a), le_antisymm (InterVal.le_plusInf b) hle.2⟩
  · rintro ⟨rfl, rfl⟩ k
    exact ⟨InterVal.minusInf_le _, InterVal.le_plusInf _⟩

theorem le_iff_subset (hu : u.Plain) (hv : v.Plain) : u.le v = true ↔ ∀ n, n ∈ u → n ∈ v := by
  rcases hu.cases with rfl | rfl | ⟨a, b, n, rfl, hn⟩
  · exact ⟨fun _ k hk => absurd hk not_mem_bot, fun _ => rfl⟩
  · rcases hv.cases with rfl | rfl | ⟨c, d, m, rfl, hm⟩
    · exact ⟨fun h => by simp [le] at h, fun h => absurd (h 0 trivial) not_mem_bot⟩
    · exact ⟨fun _ _ _ => trivial, fun _ => rfl⟩
    · have hall : (∀ k, k ∈ top → k ∈ interVal c d) ↔ ∀ k, k ∈ interVal c d :=
        forall_congr' fun k => ⟨fun h => h trivial, fun h _ => h⟩
      rw [hall, forall_mem_interVal]
      simp [le]
  · rcases hv.cases with rfl | rfl | ⟨c, d, m, rfl, hm⟩
    · exact ⟨fun h => by simp [le] at h, fun h => absurd (h n hn) not_mem_bot⟩
    · exact ⟨fun _ _ _ => trivial, fun _ => rfl⟩
    · rw [interVal_subset_iff hn]
      simp [le]

/-! ## Join and meet -/

theorem join_of_plain (hu : u.Plain) (hv : v.Plain) : ∃ j, u.join v = .ok j ∧ j.Plain ∧
    ∀ w : IntValue, w.Plain → (∀ n, n ∈ u → n ∈ w) → (∀ n, n ∈ v → n ∈ w) → ∀ n, n ∈ j → n ∈ w := by
  rcases hu.cases with rfl | rfl | ⟨a, b, n, rfl, hn⟩
  · exact ⟨v, rfl, hv, fun _ _ _ h => h⟩
  · rcases hv.cases with rfl | rfl | ⟨c, d, m, rfl, hm⟩
    all_goals exact ⟨.top, rfl, hu, fun _ _ h _ => h⟩
  · rcases hv.cases with rfl | rfl | ⟨c, d, m, rfl, hm⟩
    · exact ⟨_, rfl, hu, fun _ _ h _ => h⟩
    · exact ⟨_, rfl, hv, fun _ _ _ h => h⟩
    · have hmem : n ∈ interVal (min a c) (max b d) :=
        ⟨min_le_of_left_le hn.1, le_max_of_le_left hn.2⟩
      refine ⟨_, rfl, plain_of_mem hmem, fun w hw hsub hsub' => ?_⟩
      rcases hw.cases with rfl | rfl | ⟨e, f, k, rfl, -⟩
      · exact absurd (hsub n hn) not_mem_bot
      · exact fun _ _ => trivial
      · obtain ⟨hea, hbf⟩ := (interVal_subset_iff hn).1 hsub
        obtain ⟨hec, hdf⟩ := (interVal_subset_iff hm).1 hsub'
        exact (interVal_subset_iff hmem).2 ⟨le_min hea hec, max_le hbf hdf⟩

theorem meet_of_plain (hu : u.Plain) (hv : v.Plain) :
    ∃ w, u.meet v = .ok w ∧ w.Plain ∧ ∀ n, n ∈ w ↔ n ∈ u ∧ n ∈ v := by
  rcases hu.cases with rfl | rfl | ⟨a, b, n, rfl, hn⟩
  · exact ⟨.bot, rfl, hu, fun k => ⟨fun h => absurd h not_mem_bot, fun h => h.1⟩⟩
  · rcases hv.cases with rfl | rfl | ⟨c, d, m, rfl, hm⟩
    all_goals exact ⟨_, rfl, hv, fun k => ⟨fun h => ⟨trivial, h⟩, fun h => h.2⟩⟩
  · rcases hv.cases with rfl | rfl | ⟨c, d, m, rfl, hm⟩
    · exact ⟨.bot, rfl, hv, fun k => ⟨fun h => absurd h not_mem_bot, fun h => h.2⟩⟩
    · exact ⟨_, rfl, hu, fun k => ⟨fun h => ⟨h, trivial⟩, fun h => h.1⟩⟩
    · have hboth : ∀ k, k ∈ interVal (max a c) (min b d) ↔ k ∈ interVal a b ∧ k ∈ interVal c d := by
        intro k
        simp only [mem_interVal, max_le_iff, le_min_iff]
        exact and_and_and_comm
      by_cases hlt : min b d < max a c
      · refine ⟨.bot, if_pos hlt, .inl rfl, fun k => ⟨fun h => absurd h not_mem_bot, fun h => ?_⟩⟩
        have hk := (hboth k).2 h
        exact absurd (hk.1.trans hk.2) (not_le.2 hlt)
      · refine ⟨_, if_neg hlt, .inr (.inr ⟨?_, ?_, not_lt.1 hlt⟩), hboth⟩
        · have ha := hn.1.trans_lt (InterVal.i_lt_plusInf n)
          have hc := hm.1.trans_lt (InterVal.i_lt_plusInf m)
          exact (max_lt ha hc).ne
        · have hb := (InterVal.minusInf_lt_i n).trans_le hn.2
          have hd := (InterVal.minusInf_lt_i m).trans_le hm.2
          exact (lt_min hb hd).ne'

/-- Order, join and meet of plain values are those of the sets of integers. -/
theorem lattice_agrees_with_sets (hu : u.Plain) (hv : v.Plain) :
    (u.le v = true ↔ ∀ n, n ∈ u → n ∈ v) ∧
    (∃ j, u.join v = .ok j ∧ j.Plain ∧ (∀ n, n ∈ u ∨ n ∈ v → n ∈ j) ∧
      ∀ w : IntValue, w.Plain → (∀ n, n ∈ u → n ∈ w) → (∀ n, n ∈ v → n ∈ w) → ∀ n, n ∈ j → n ∈ w) ∧
    ∃ w, u.meet v = .ok w ∧ ∀ n, n ∈ w ↔ n ∈ u ∧ n ∈ v := by
  obtain ⟨j, hj, hplain, hleast⟩ := join_of_plain hu hv
  obtain ⟨w, hw, -, hmem⟩ := meet_of_plain hu hv
  exact ⟨le_iff_subset hu hv, ⟨j, hj, hplain, fun _ => mem_join hj, hleast⟩, w, hw, hmem⟩

/-- The two values that stand for all integers. -/
theorem lattice_agrees_with_sets_tops :
    Plain .top ∧ Plain (.interVal .minusInf .plusInf) ∧
      (IntValue.le .top (.interVal .minusInf .plusInf) = true ↔
        ∀ n, n ∈ top → n ∈ interVal .minusInf .plusInf) :=
  have htop : Plain .top := .inr (.inl rfl)
  have hall : Plain (.interVal .minusInf .plusInf) := plain_of_mem (n := 0) (by decide)
  ⟨htop, hall, (lattice_agrees_with_sets htop hall).1⟩

/-! ## The comparison of the offsets of a region -/

/-- One of the two is a part of the other. -/
def Comparable (u v : IntValue) : Prop := (∀ n, n ∈ u → n ∈ v) ∨ ∀ n, n ∈ v → n ∈ u

/-- Exactly one of `u < v`, `u == v` and `v < u`. -/
def Trichotomy (u v : IntValue) : Prop :=
  (u.lt v = true ∧ u ≠ v ∧ v.lt u = false) ∨ (u.lt v = false ∧ u = v ∧ v.lt u = false) ∨
    (u.lt v = false ∧ u ≠ v ∧ v.lt u = true)

theorem Proper.comparable_iff (hu : u.Proper) (hv : v.Proper) :
    u.Comparable v ↔ u.le v = true ∨ v.le u = true :=
  or_congr (le_iff_subset (.inr (.inr hu)) (.inr (.inr hv))).symm
    (le_iff_subset (.inr (.inr hv)) (.inr (.inr hu))).symm

theorem Proper.eq_of_le_of_le (hu : u.Proper) (hv : v.Proper) (h : u.le v = true)
    (h' : v.le u = true) : u = v := by
  obtain ⟨a, b, rfl⟩ := hu.exists_interVal
  obtain ⟨c, d, rfl⟩ := hv.exists_interVal
  obtain ⟨hca, hbd⟩ := interVal_le.1 h
  obtain ⟨hac, hdb⟩ := interVal_le.1 h'
  rw [le_antisymm hac hca, le_antisymm hbd hdb]

theorem Proper.le_trans (hu : u.Proper) (hv : v.Proper) (hw : w.Proper) (h : u.le v = true)
    (h' : v.le w = true) : u.le w = true := by
  obtain ⟨a, b, rfl⟩ := hu.exists_interVal
  obtain ⟨c, d, rfl⟩ := hv.exists_interVal
  obtain ⟨e, f, rfl⟩ := hw.exists_interVal
  obtain ⟨hca, hbd⟩ := interVal_le.1 h
  obtain ⟨hec, hdf⟩ := interVal_le.1 h'
  exact interVal_le.2 ⟨hec.trans hca, hbd.trans hdf⟩

theorem cmp_eq_lt : u.cmp v = .lt ↔ u ≠ v ∧ u.le v = true := by
  rw [← lt_iff]
  simp [lt]

theorem cmp_eq_gt : u.cmp v = .gt ↔ u ≠ v ∧ ¬ u.le v = true := by
  rw [← gt_iff]
  simp [gt]

/-- Of two different intervals at most one is below the other. -/
theorem Proper.trichotomy_iff (hu : u.Proper) (hv : v.Proper) :
    u.Trichotomy v ↔ u.Comparable v := by
  rw [hu.comparable_iff hv]
  by_cases heq : u = v
  · subst heq
    have hirr : u.lt u = false := by simp [lt, cmp]
    obtain ⟨a, b, rfl⟩ := hu.exists_interVal
    exact ⟨fun _ => .inl (interVal_le.2 ⟨le_refl a, le_refl b⟩), fun _ => .inr (.inl ⟨hirr, rfl, hirr⟩)⟩
  · have hexcl : ¬ (u.le v = true ∧ v.le u = true) := fun h => heq (hu.eq_of_le_of_le hv h.1 h.2)
    have hlt : u.lt v = u.le v := Bool.eq_iff_iff.2 (by simp [lt_iff, heq])
    have hgt : v.lt u = v.le u := Bool.eq_iff_iff.2 (by simp [lt_iff, Ne.symm heq])
    simp only [Trichotomy, hlt, hgt]
    grind

/-- `compare` is `GT` both ways on intervals that are not comparable. -/
theorem Proper.cmp_swap_iff (hu : u.Proper) (hv : v.Proper) :
    v.cmp u = (u.cmp v).swap ↔ u.Comparable v := by
  rw [hu.comparable_iff hv]
  by_cases heq : u = v
  · subst heq
    obtain ⟨a, b, rfl⟩ := hu.exists_interVal
    have hle : (interVal a b).le (interVal a b) = true := interVal_le.2 ⟨le_refl a, le_refl b⟩
    simp [cmp, hle]
  · have hexcl : ¬ (u.le v = true ∧ v.le u = true) := fun h => heq (hu.eq_of_le_of_le hv h.1 h.2)
    cases hle : u.le v with
    | true =>
      have hle' : v.le u = false := by
        rw [← Bool.not_eq_true]
        exact fun h => hexcl ⟨hle, h⟩
      rw [cmp_eq_lt.2 ⟨heq, hle⟩, cmp_eq_gt.2 ⟨Ne.symm heq, by simp [hle']⟩]
      simp
    | false =>
      rw [cmp_eq_gt.2 ⟨heq, by simp [hle]⟩, Ordering.swap_gt, cmp_eq_lt]
      simp [Ne.symm heq]

theorem Proper.lt_trans (hu : u.Proper) (hv : v.Proper) (hw : w.Proper) (h : u.lt v = true)
    (h' : v.lt w = true) : u.lt w = true := by
  rw [lt_iff] at *
  refine ⟨?_, hu.le_trans hv hw h.2 h'.2⟩
  rintro rfl
  exact h.1 (hu.eq_of_le_of_le hv h.2 h'.2)

/-- The comparison of two offsets is that of a total order exactly if one of them is a part of the
other; `<` is transitive in any case. -/
theorem cmp_total_iff (hu : u.Proper) (hv : v.Proper) :
    (u.Trichotomy v ↔ u.Comparable v) ∧ (v.cmp u = (u.cmp v).swap ↔ u.Comparable v) ∧
      ∀ w : IntValue, w.Proper → u.lt v = true → v.lt w = true → u.lt w = true :=
  ⟨hu.trichotomy_iff hv, hu.cmp_swap_iff hv, fun _ hw => hu.lt_trans hv hw⟩

/-- An interval and a part of it. -/
theorem cmp_total_iff_nested :
    Comparable (.interVal (.i 0) (.i 1)) (.interVal .minusInf (.i 3)) ∧
      Trichotomy (.interVal (.i 0) (.i 1)) (.interVal .minusInf (.i 3)) ∧
      cmp (.interVal .minusInf (.i 3)) (.interVal (.i 0) (.i 1)) = .gt := by
  have hpart : Proper (.interVal (.i 0) (.i 1)) := by decide
  have hwhole : Proper (.interVal .minusInf (.i 3)) := by decide
  have hcmp : Comparable (.interVal (.i 0) (.i 1)) (.interVal .minusInf (.i 3)) :=
    (hpart.comparable_iff hwhole).2 (.inl (by decide))
  have h := cmp_total_iff hpart hwhole
  exact ⟨hcmp, h.1.2 hcmp, (h.2.1.2 hcmp).trans (by decide)⟩

/-- The first two cells of an array and the two after them. -/
theorem cmp_gt_both_ways :
    Proper (.interVal (.i 0) (.i 1)) ∧ Proper (.interVal (.i 2) (.i 3)) ∧
      cmp (.interVal (.i 0) (.i 1)) (.interVal (.i 2) (.i 3)) = .gt ∧
      cmp (.interVal (.i 2) (.i 3)) (.interVal (.i 0) (.i 1)) = .gt ∧
      ¬ Trichotomy (.interVal (.i 0) (.i 1)) (.interVal (.i 2) (.i 3)) := by
  refine ⟨by decide, by decide, by decide, by decide, ?_⟩
  unfold Trichotomy
  decide

end IntValue

end Poet
