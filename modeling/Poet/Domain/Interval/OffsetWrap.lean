import Poet.Domain.Interval.OffsetPointwise
import Poet.Domain.Interval.Word

/-!
# The merge of offset lists on machine words

The merge cuts keys with `+ 1` and `- 1` on their bounds, which are words. A bound goes round in two
places: below, where one list starts at minus infinity and the other at the least word, and above,
where one list ends at the greatest word and the other at plus infinity. Below, the first key of the
result then has every word. Above, the last key starts at the least word and not above the greatest
one; it is the last that is looked at, so this is seen exactly where neither list has an offset.
Everywhere else the words are the exact bounds (`genIntvalList_word`).
-/

namespace Poet

attribute [local instance] HostInt.word

variable {ν : Type}

/-- The bounds of the keys are words. -/
def InWords (x : OffsList ν) : Prop := ∀ p ∈ x, p.1.InWord

/-- `x1` starts at minus infinity and `x2` at the least word. -/
def WrapsBelowIn (x1 x2 : OffsList ν) : Prop :=
  (∃ a2 v, (.interVal .minusInf a2, v) ∈ x1) ∧ ∃ b2 u, (.interVal (.i minBound) b2, u) ∈ x2

def WrapsBelow (x1 x2 : OffsList ν) : Prop := WrapsBelowIn x1 x2 ∨ WrapsBelowIn x2 x1

/-- `x1` ends at the greatest word and `x2` at plus infinity. -/
def WrapsAboveIn (x1 x2 : OffsList ν) : Prop :=
  (∃ a1 v, (.interVal a1 (.i maxBound), v) ∈ x1) ∧ ∃ b1 u, (.interVal b1 .plusInf, u) ∈ x2

def WrapsAbove (x1 x2 : OffsList ν) : Prop := WrapsAboveIn x1 x2 ∨ WrapsAboveIn x2 x1

namespace InterVal

variable {b : InterVal}

theorem Stored.minBound_le (h : b.Stored) (hb : b ≠ .minusInf) : .i minBound ≤ b := by
  cases b with
  | i n => exact i_le_i.2 h.1
  | plusInf => exact le_plusInf _
  | minusInf => exact absurd rfl hb

theorem Stored.le_maxBound (h : b.Stored) (hb : b ≠ .plusInf) : b ≤ .i maxBound := by
  cases b with
  | i n => exact i_le_i.2 h.2
  | plusInf => exact absurd rfl hb
  | minusInf => exact minusInf_le _

theorem Stored.eq_plusInf (h : b.Stored) (hb : .i maxBound < b) : b = .plusInf := by
  by_contra hne
  exact absurd hb (h.le_maxBound hne).not_gt

theorem Stored.eq_minusInf (h : b.Stored) (hb : b < .i minBound) : b = .minusInf := by
  by_contra hne
  exact absurd hb (h.minBound_le hne).not_gt

end InterVal

/-! ## One round -/

section Round

variable {fn : ν → ν → ν} {a1 a2 b1 b2 : InterVal} {v u w w' : ν} {x1 x2 : OffsList ν}

/-- The heads end at the greatest word and at plus infinity. -/
def EndsRound (a2 b2 : InterVal) : Prop := a2 = .i maxBound ∧ b2 = .plusInf

theorem pred_word (ha1 : a1.Stored) (hb1 : b1.Stored)
    (hbelow : ¬ (a1 = .minusInf ∧ b1 = .i minBound)) (hlt : a1 < b1) :
    b1.subIVal (.i 1) = .ok b1.pred := by
  refine InterVal.subIVal_one_word hb1 ?_
  rintro rfl
  exact hbelow ⟨ha1.eq_minusInf hlt, rfl⟩

theorem cutFits_word (ha1 : a1.Stored) (ha2 : a2.Stored) (hb1 : b1.Stored) (hb2 : b2.Stored)
    (hbelow : ¬ (a1 = .minusInf ∧ b1 = .i minBound)) (habove : ¬ EndsRound a2 b2) :
    CutFits a1 a2 b1 b2 where
  succ _ hlt := by
    refine InterVal.plusIVal_one_word ha2 ?_
    rintro rfl
    exact habove ⟨rfl, hb2.eq_plusInf hlt⟩
  pred _ := pred_word ha1 hb1 hbelow

theorem inWords_roundRest (h1 : InWords ((.interVal a1 a2, v) :: x1)) (hb2 : b2.Stored)
    (habove : ¬ EndsRound b2 a2) : InWords (roundRest a1 a2 b2 w x1) := by
  obtain ⟨ha1, ha2⟩ : a1.Stored ∧ a2.Stored := h1 _ List.mem_cons_self
  intro p hp
  rcases mem_roundRest.1 hp with ⟨hlt, rfl⟩ | hp
  · refine ⟨?_, ha2⟩
    have hsucc : b2.succ.Stored := by
      cases b2 with
      | plusInf => trivial
      | minusInf => trivial
      | i n =>
        refine ⟨by have := hb2.1; omega, ?_⟩
        by_contra hn
        have hmax : n = maxBound := by
          have := hb2.2
          omega
        exact habove ⟨by rw [hmax], ha2.eq_plusInf (hmax ▸ hlt)⟩
    rcases max_choice a1 b2.succ with h | h <;> rw [h] <;> assumption
  · exact h1 p (List.mem_cons_of_mem _ hp)

theorem minBound_lt_succ (hb2 : b2.Stored) (hne : b2 ≠ .minusInf) : .i minBound < b2.succ := by
  cases b2 with
  | plusInf => simp [InterVal.succ]
  | minusInf => exact absurd rfl hne
  | i n =>
    have := hb2.1
    simp only [InterVal.succ, InterVal.i_lt_i]
    omega

/-- What is left of a list starts above the least word, unless it is a key of the list. -/
theorem WrapsBelowIn.of_roundRest (h1 : OffsOk ((.interVal a1 a2, v) :: x1))
    (h2 : OffsOk ((.interVal b1 b2, u) :: x2)) (ha2 : a2.Stored) (hb2 : b2.Stored)
    (h : WrapsBelowIn (roundRest a1 a2 b2 w x1) (roundRest b1 b2 a2 w' x2)) :
    WrapsBelowIn ((.interVal a1 a2, v) :: x1) ((.interVal b1 b2, u) :: x2) := by
  obtain ⟨⟨c2, z, hc⟩, d2, z', hd⟩ := h
  refine ⟨⟨c2, z, ?_⟩, d2, z', ?_⟩
  · rcases mem_roundRest.1 hc with ⟨-, heq⟩ | hc
    · have hmax : .minusInf = max a1 b2.succ := (IntValue.interVal.inj (congrArg Prod.fst heq)).1
      have hlt := (minBound_lt_succ hb2 h2.head.2.1).trans_le (hmax ▸ le_max_right a1 b2.succ)
      exact absurd hlt (InterVal.not_lt_minusInf _)
    · exact List.mem_cons_of_mem _ hc
  · rcases mem_roundRest.1 hd with ⟨-, heq⟩ | hd
    · have hmax : .i minBound = max b1 a2.succ := (IntValue.interVal.inj (congrArg Prod.fst heq)).1
      exact absurd ((minBound_lt_succ ha2 h1.head.2.1).trans_le (hmax ▸ le_max_right b1 a2.succ))
        (lt_irrefl _)
    · exact List.mem_cons_of_mem _ hd

/-- The ends of the lists stay where they are. -/
theorem wrapsAboveIn_roundRest (w w' : ν) (h1 : OffsOk ((.interVal a1 a2, v) :: x1))
    (h2 : OffsOk ((.interVal b1 b2, u) :: x2)) (hw1 : InWords ((.interVal a1 a2, v) :: x1))
    (hw2 : InWords ((.interVal b1 b2, u) :: x2)) (habove : ¬ EndsRound a2 b2) :
    WrapsAboveIn (roundRest a1 a2 b2 w x1) (roundRest b1 b2 a2 w' x2) ↔
      WrapsAboveIn ((.interVal a1 a2, v) :: x1) ((.interVal b1 b2, u) :: x2) := by
  constructor
  · rintro ⟨⟨c1, z, hc⟩, d1, z', hd⟩
    constructor
    · rcases mem_roundRest.1 hc with ⟨-, heq⟩ | hc
      · obtain rfl : .i maxBound = a2 := (IntValue.interVal.inj (congrArg Prod.fst heq)).2
        exact ⟨a1, v, List.mem_cons_self⟩
      · exact ⟨c1, z, List.mem_cons_of_mem _ hc⟩
    · rcases mem_roundRest.1 hd with ⟨-, heq⟩ | hd
      · obtain rfl : .plusInf = b2 := (IntValue.interVal.inj (congrArg Prod.fst heq)).2
        exact ⟨b1, u, List.mem_cons_self⟩
      · exact ⟨d1, z', List.mem_cons_of_mem _ hd⟩
  · rintro ⟨⟨c1, z, hc⟩, d1, z', hd⟩
    have hlt {k1 k2 : InterVal} {y : ν} {x : OffsList ν} {b1 b2 : InterVal} {u : ν}
        (h : OffsOk ((.interVal b1 b2, u) :: x)) (hw : InWords ((.interVal b1 b2, u) :: x))
        (hk : (.interVal k1 k2, y) ∈ x) : b2 < .i maxBound := by
      have hk' := List.mem_cons_of_mem (.interVal b1 b2, u) hk
      have hbefore : b2 < k1 := h.above hk
      exact hbefore.trans_le ((hw _ hk').1.le_maxBound (h.proper _ hk').1)
    rcases List.mem_cons.1 hc with hc | hc <;> rcases List.mem_cons.1 hd with hd | hd
    · obtain ⟨⟨rfl, rfl⟩, rfl⟩ : (c1 = a1 ∧ .i maxBound = a2) ∧ z = v := by simpa using hc
      obtain ⟨⟨rfl, rfl⟩, rfl⟩ : (d1 = b1 ∧ .plusInf = b2) ∧ z' = u := by simpa using hd
      exact absurd ⟨rfl, rfl⟩ habove
    · obtain ⟨⟨rfl, rfl⟩, rfl⟩ : (c1 = a1 ∧ .i maxBound = a2) ∧ z = v := by simpa using hc
      exact ⟨⟨_, w, mem_roundRest.2 (.inl ⟨hlt h2 hw2 hd, rfl⟩)⟩, d1, z', mem_roundRest.2 (.inr hd)⟩
    · obtain ⟨⟨rfl, rfl⟩, rfl⟩ : (d1 = b1 ∧ .plusInf = b2) ∧ z' = u := by simpa using hd
      have hlt' := (hlt h1 hw1 hc).trans (InterVal.i_lt_plusInf _)
      exact ⟨⟨c1, z, mem_roundRest.2 (.inr hc)⟩, _, w', mem_roundRest.2 (.inl ⟨hlt', rfl⟩)⟩
    · exact ⟨⟨c1, z, mem_roundRest.2 (.inr hc)⟩, d1, z', mem_roundRest.2 (.inr hd)⟩

/-- A key up to the greatest word or to plus infinity is the last one. -/
theorem eq_nil_of_maxBound_le (h : OffsOk ((.interVal a1 a2, v) :: x1))
    (hw : InWords ((.interVal a1 a2, v) :: x1)) (ha2 : .i maxBound ≤ a2) : x1 = [] := by
  cases x1 with
  | nil => rfl
  | cons p x1 =>
    obtain ⟨k, y⟩ := p
    have hmem : (k, y) ∈ (IntValue.interVal a1 a2, v) :: (k, y) :: x1 := by simp
    obtain ⟨c, d, rfl⟩ := (h.proper _ hmem).exists_interVal
    have hbefore : a2 < c := h.above List.mem_cons_self
    have hc := (hw _ hmem).1.le_maxBound (h.proper _ hmem).1
    exact absurd (ha2.trans_lt hbefore) hc.not_gt

theorem maxBound_plusIVal_one : (InterVal.i maxBound).plusIVal (.i 1) = .ok (.i minBound) := by
  decide

/-- The last round, with `[b1, +inf]` cut above the greatest word. -/
theorem genIntvalList_endsRound (hb1 : b1 ≤ .i maxBound) (ha : a1 ≤ .i maxBound)
    (hp : a1 < b1 → b1.subIVal (.i 1) = .ok b1.pred)
    (hp' : b1 < a1 → a1.subIVal (.i 1) = .ok a1.pred) :
    genIntvalList fn [(.interVal a1 (.i maxBound), v)] [(.interVal b1 .plusInf, u)] =
      .ok (roundOut fn a1 (.i maxBound) b1 .plusInf v u ++
        [(.interVal (.i minBound) .plusInf, if Cut a1 (.i maxBound) b1 .plusInf then v else u)]) := by
  have hend : compare (.i maxBound) InterVal.plusInf = .lt := compare_lt_iff_lt.2 (by simp)
  have hend' : compare InterVal.plusInf (.i maxBound) = .gt := compare_gt_iff_gt.2 (by simp)
  rw [genIntvalList, genHead]
  rcases lt_trichotomy a1 b1 with h1 | rfl | h1
  · have hcut : Cut a1 (.i maxBound) b1 .plusInf := ⟨h1.ne, by simp, by simp, hb1⟩
    rw [roundOut_of_lt h1 hb1 (by simp), if_pos hcut]
    simp only [compare_lt_iff_lt.2 h1, hend, hp h1, maxBound_plusIVal_one]
    rcases hb1.eq_or_lt with h3 | h3
    · simp only [h3, compare_eq_iff_eq.2]
      rfl
    · simp only [compare_gt_iff_gt.2 h3]
      rfl
  · have hcut : ¬ Cut a1 (.i maxBound) a1 .plusInf := fun h => h.1 rfl
    rw [roundOut_of_eq ha (by simp), if_neg hcut]
    simp only [compare_eq_iff_eq.2, hend, maxBound_plusIVal_one]
    rfl
  · have hcut : Cut a1 (.i maxBound) b1 .plusInf := ⟨h1.ne', by simp, by simp, hb1⟩
    rw [roundOut_of_gt h1 (by simp) ha, if_pos hcut]
    simp only [compare_gt_iff_gt.2 h1, hend', hp' h1, maxBound_plusIVal_one]
    rfl

/-- The last round, with `[a1, +inf]` cut above the greatest word. -/
theorem genIntvalList_endsRound' (hb1 : b1 ≤ .i maxBound) (ha : a1 ≤ .i maxBound)
    (hp : a1 < b1 → b1.subIVal (.i 1) = .ok b1.pred)
    (hp' : b1 < a1 → a1.subIVal (.i 1) = .ok a1.pred) :
    genIntvalList fn [(.interVal a1 .plusInf, v)] [(.interVal b1 (.i maxBound), u)] =
      .ok (roundOut fn a1 .plusInf b1 (.i maxBound) v u ++
        [(.interVal (.i minBound) .plusInf, if Cut a1 .plusInf b1 (.i maxBound) then u else v)]) := by
  have hend : compare (.i maxBound) InterVal.plusInf = .lt := compare_lt_iff_lt.2 (by simp)
  have hend' : compare InterVal.plusInf (.i maxBound) = .gt := compare_gt_iff_gt.2 (by simp)
  rw [genIntvalList, genHead]
  rcases lt_trichotomy a1 b1 with h1 | rfl | h1
  · have hcut : Cut a1 .plusInf b1 (.i maxBound) := ⟨h1.ne, by simp, ha, by simp⟩
    rw [roundOut_of_lt h1 (by simp) hb1, if_pos hcut]
    simp only [compare_lt_iff_lt.2 h1, hend', hp h1, maxBound_plusIVal_one]
    rfl
  · have hcut : ¬ Cut a1 .plusInf a1 (.i maxBound) := fun h => h.1 rfl
    rw [roundOut_of_eq (by simp) ha, if_neg hcut]
    simp only [compare_eq_iff_eq.2, hend', maxBound_plusIVal_one]
    rfl
  · have hcut : Cut a1 .plusInf b1 (.i maxBound) := ⟨h1.ne', by simp, ha, by simp⟩
    rw [roundOut_of_gt h1 ha (by simp), if_pos hcut]
    simp only [compare_gt_iff_gt.2 h1, hend, hp' h1, maxBound_plusIVal_one]
    rcases ha.eq_or_lt with h3 | h3
    · simp only [h3, compare_eq_iff_eq.2]
      rfl
    · simp only [compare_gt_iff_gt.2 h3]
      rfl

end Round

/-! ## The whole merge -/

/-- The merge of unbounded integers. -/
abbrev genExact (fn : ν → ν → ν) (x1 x2 : OffsList ν) : Except DomErr (OffsList ν) :=
  @genIntvalList HostInt.unbounded ν fn x1 x2

theorem genExact_round (fn : ν → ν → ν) {a1 a2 b1 b2 : InterVal} (v u : ν) {x1 x2 : OffsList ν}
    (h1 : OffsOk ((.interVal a1 a2, v) :: x1)) (h2 : OffsOk ((.interVal b1 b2, u) :: x2)) :
    genExact fn ((.interVal a1 a2, v) :: x1) ((.interVal b1 b2, u) :: x2) =
      (roundOut fn a1 a2 b1 b2 v u ++ ·) <$>
        genExact fn (roundRest a1 a2 b2 (if Cut a1 a2 b1 b2 then u else v) x1)
          (roundRest b1 b2 a2 (if Cut a1 a2 b1 b2 then v else u) x2) :=
  @genIntvalList_round ν HostInt.unbounded fn _ _ _ _ v u x1 x2 h1.head h2.head
    (cutFits_unbounded ..) (cutFits_unbounded ..)

/-- The result on words is the exact one, or that with another start of its last key. -/
def MergesLikeExact (fn : ν → ν → ν) (x1 x2 : OffsList ν) : Prop :=
  (¬ WrapsAbove x1 x2 ∧ genIntvalList fn x1 x2 = genExact fn x1 x2) ∨
    WrapsAbove x1 x2 ∧ ∃ r w,
      genExact fn x1 x2 = .ok (r ++ [(.interVal (.i (maxBound + 1)) .plusInf, w)]) ∧
      genIntvalList fn x1 x2 = .ok (r ++ [(.interVal (.i minBound) .plusInf, w)])

section Rounds

variable {fn : ν → ν → ν} {a1 a2 b1 b2 : InterVal} {v u : ν} {x1 x2 : OffsList ν}

/-- The last round: `[b1, +inf]` is cut above the greatest word. -/
theorem mergesLikeExact_endsRound (h1 : OffsOk ((.interVal a1 (.i maxBound), v) :: x1))
    (h2 : OffsOk ((.interVal b1 .plusInf, u) :: x2))
    (hw1 : InWords ((.interVal a1 (.i maxBound), v) :: x1))
    (hw2 : InWords ((.interVal b1 .plusInf, u) :: x2))
    (hp : a1 < b1 → b1.subIVal (.i 1) = .ok b1.pred)
    (hp' : b1 < a1 → a1.subIVal (.i 1) = .ok a1.pred) :
    MergesLikeExact fn ((.interVal a1 (.i maxBound), v) :: x1) ((.interVal b1 .plusInf, u) :: x2) := by
  have hround := genExact_round fn v u h1 h2
  obtain rfl := eq_nil_of_maxBound_le h1 hw1 le_rfl
  obtain rfl := eq_nil_of_maxBound_le h2 hw2 (by simp)
  have hle := (hw2 _ List.mem_cons_self).1.le_maxBound h2.head.1
  refine .inr ⟨.inl ⟨⟨_, _, List.mem_cons_self⟩, _, _, List.mem_cons_self⟩, _, _, ?_,
    genIntvalList_endsRound hle h1.head.2.2 hp hp'⟩
  rw [hround, roundRest_of_le (by simp), roundRest_of_lt (by simp) hle]
  rfl

theorem mergesLikeExact_endsRound' (h1 : OffsOk ((.interVal a1 .plusInf, v) :: x1))
    (h2 : OffsOk ((.interVal b1 (.i maxBound), u) :: x2))
    (hw1 : InWords ((.interVal a1 .plusInf, v) :: x1))
    (hw2 : InWords ((.interVal b1 (.i maxBound), u) :: x2))
    (hp : a1 < b1 → b1.subIVal (.i 1) = .ok b1.pred)
    (hp' : b1 < a1 → a1.subIVal (.i 1) = .ok a1.pred) :
    MergesLikeExact fn ((.interVal a1 .plusInf, v) :: x1) ((.interVal b1 (.i maxBound), u) :: x2) := by
  have hround := genExact_round fn v u h1 h2
  obtain rfl := eq_nil_of_maxBound_le h2 hw2 le_rfl
  obtain rfl := eq_nil_of_maxBound_le h1 hw1 (by simp)
  have hle := (hw1 _ List.mem_cons_self).1.le_maxBound h1.head.1
  refine .inr ⟨.inr ⟨⟨_, _, List.mem_cons_self⟩, _, _, List.mem_cons_self⟩, _, _, ?_,
    genIntvalList_endsRound' h2.head.2.2 hle hp hp'⟩
  rw [hround, roundRest_of_lt (by simp) hle, roundRest_of_le (by simp)]
  rfl

/-- Any other round puts the same cells out on both hosts. -/
theorem MergesLikeExact.round {y1 y2 out : OffsList ν} (h : MergesLikeExact fn y1 y2)
    (hiff : WrapsAbove y1 y2 ↔ WrapsAbove x1 x2)
    (hexact : genExact fn x1 x2 = (out ++ ·) <$> genExact fn y1 y2)
    (hword : genIntvalList fn x1 x2 = (out ++ ·) <$> genIntvalList fn y1 y2) :
    MergesLikeExact fn x1 x2 := by
  unfold MergesLikeExact
  rw [hexact, hword]
  rcases h with ⟨hno, heq⟩ | ⟨hwrap, r, w, hr, hr'⟩
  · exact .inl ⟨mt hiff.2 hno, by rw [heq]⟩
  · refine .inr ⟨hiff.1 hwrap, out ++ r, w, ?_, ?_⟩
    · rw [hr, List.append_assoc]
      rfl
    · rw [hr', List.append_assoc]
      rfl

end Rounds

theorem genIntvalList_word (fn : ν → ν → ν) {x1 x2 : OffsList ν} (h1 : OffsOk x1) (h2 : OffsOk x2) :
    InWords x1 → InWords x2 → ¬ WrapsBelow x1 x2 → MergesLikeExact fn x1 x2 := by
  refine round_induction ?_ ?_ ?_ x1 x2 h1 h2
  · intro x2 _ _ _ _
    refine .inl ⟨?_, rfl⟩
    rintro (⟨⟨_, _, h⟩, -⟩ | ⟨-, _, _, h⟩) <;> cases h
  · intro x1 _ _ _ _
    refine .inl ⟨?_, ?_⟩
    · rintro (⟨-, _, _, h⟩ | ⟨⟨_, _, h⟩, -⟩) <;> cases h
    · exact (genIntvalList_nil_right fn x1).trans
        (@genIntvalList_nil_right HostInt.unbounded ν fn x1).symm
  · intro a1 a2 v x1 b1 b2 u x2 h1 h2 ih hw1 hw2 hbelow
    obtain ⟨ha1, ha2⟩ : a1.Stored ∧ a2.Stored := hw1 _ List.mem_cons_self
    obtain ⟨hb1, hb2⟩ : b1.Stored ∧ b2.Stored := hw2 _ List.mem_cons_self
    have hlow : ¬ (a1 = .minusInf ∧ b1 = .i minBound) := by
      rintro ⟨rfl, rfl⟩
      exact hbelow (.inl ⟨⟨_, _, List.mem_cons_self⟩, _, _, List.mem_cons_self⟩)
    have hlow' : ¬ (b1 = .minusInf ∧ a1 = .i minBound) := by
      rintro ⟨rfl, rfl⟩
      exact hbelow (.inr ⟨⟨_, _, List.mem_cons_self⟩, _, _, List.mem_cons_self⟩)
    have hp := pred_word ha1 hb1 hlow
    have hp' := pred_word hb1 ha1 hlow'
    by_cases hab : EndsRound a2 b2
    · obtain ⟨rfl, rfl⟩ := hab
      exact mergesLikeExact_endsRound h1 h2 hw1 hw2 hp hp'
    by_cases hba : EndsRound b2 a2
    · obtain ⟨rfl, rfl⟩ := hba
      exact mergesLikeExact_endsRound' h1 h2 hw1 hw2 hp hp'
    -- what is left over starts at a word, and the ends stay where they are
    have hrest := ih (inWords_roundRest hw1 hb2 hba) (inWords_roundRest hw2 ha2 hab)
      (mt (Or.imp (WrapsBelowIn.of_roundRest h1 h2 ha2 hb2)
        (WrapsBelowIn.of_roundRest h2 h1 hb2 ha2)) hbelow)
    exact hrest.round
      (or_congr (wrapsAboveIn_roundRest _ _ h1 h2 hw1 hw2 hab)
        (wrapsAboveIn_roundRest _ _ h2 h1 hw2 hw1 hba))
      (genExact_round fn v u h1 h2)
      (genIntvalList_round fn v u x1 x2 h1.head h2.head
        (cutFits_word ha1 ha2 hb1 hb2 hlow hab) (cutFits_word hb1 hb2 ha1 ha2 hlow' hba))

/-! ## Below -/

section Below

variable {fn : ν → ν → ν} {a2 b2 : InterVal} {v u : ν} {x1 x2 r : OffsList ν}

/-- The keys that start below are the heads. -/
theorem WrapsBelowIn.heads (h1 : OffsOk x1) (h2 : OffsOk x2) (hw1 : InWords x1) (hw2 : InWords x2)
    (h : WrapsBelowIn x1 x2) :
    ∃ a2 v y1 b2 u y2, x1 = (.interVal .minusInf a2, v) :: y1 ∧ .i minBound ≤ a2 ∧
      x2 = (.interVal (.i minBound) b2, u) :: y2 ∧ .i minBound ≤ b2 := by
  obtain ⟨⟨a2, v, ha⟩, b2, u, hb⟩ := h
  have hale := (hw1 _ ha).2.minBound_le (h1.proper _ ha).2.1
  have hble := (h2.proper _ hb).2.2
  match x1, x2, ha, hb with
  | (k, v') :: y1, (l, u') :: y2, ha, hb =>
    obtain ⟨c1, c2, rfl⟩ := h1.exists_interVal
    obtain ⟨d1, d2, rfl⟩ := h2.exists_interVal
    have ha' : (.interVal .minusInf a2, v) = (IntValue.interVal c1 c2, v') := by
      refine (List.mem_cons.1 ha).resolve_right fun hmem => ?_
      exact InterVal.not_lt_minusInf c2 (h1.above hmem)
    have hb' : (.interVal (.i minBound) b2, u) = (IntValue.interVal d1 d2, u') := by
      refine (List.mem_cons.1 hb).resolve_right fun hmem => ?_
      have hlt : d2 < .i minBound := h2.above hmem
      exact absurd hlt ((hw2 _ List.mem_cons_self).2.minBound_le h2.head.2.1).not_gt
    exact ⟨a2, v, y1, b2, u, y2, by rw [ha'], hale, by rw [hb'], hble⟩

theorem minBound_subIVal_one : (InterVal.i minBound).subIVal (.i 1) = .ok (.i maxBound) := by
  decide

theorem covers_minBound : (IntValue.interVal .minusInf (.i maxBound)).Covers minBound := by
  decide

/-- The part of the first head below the second one goes round to the greatest word. -/
theorem lookupOffs_wrapsBelow (ha : .i minBound ≤ a2)
    (h : genIntvalList fn ((.interVal .minusInf a2, v) :: x1)
      ((.interVal (.i minBound) b2, u) :: x2) = .ok r) : lookupOffs r minBound = some v := by
  have hlt : compare InterVal.minusInf (.i minBound) = .lt := compare_lt_iff_lt.2 (by simp)
  have hhead {r' : OffsList ν} :
      lookupOffs ((.interVal .minusInf (.i maxBound), v) :: r') minBound = some v := by
    rw [lookupOffs_cons, if_pos covers_minBound]
  simp only [genIntvalList, genHead, hlt, minBound_subIVal_one, ok_bind] at h
  split at h
  · obtain ⟨_, -, h⟩ := bind_eq_ok.1 h
    obtain rfl := Except.ok.inj h
    exact hhead
  · split at h
    · next hcmp => exact absurd (compare_lt_iff_lt.1 hcmp) ha.not_gt
    · obtain ⟨_, -, h⟩ := bind_eq_ok.1 h
      obtain ⟨_, -, h⟩ := bind_eq_ok.1 h
      obtain rfl := Except.ok.inj h
      exact hhead
  · obtain ⟨_, -, h⟩ := bind_eq_ok.1 h
    obtain ⟨_, -, h⟩ := bind_eq_ok.1 h
    obtain rfl := Except.ok.inj h
    exact hhead

theorem lookupOffs_wrapsBelow' (hb : .i minBound ≤ b2)
    (h : genIntvalList fn ((.interVal (.i minBound) a2, v) :: x1)
      ((.interVal .minusInf b2, u) :: x2) = .ok r) : lookupOffs r minBound = some u := by
  have hgt : compare (.i minBound) InterVal.minusInf = .gt := compare_gt_iff_gt.2 (by simp)
  have hhead {r' : OffsList ν} :
      lookupOffs ((.interVal .minusInf (.i maxBound), u) :: r') minBound = some u := by
    rw [lookupOffs_cons, if_pos covers_minBound]
  simp only [genIntvalList, genHead, hgt, minBound_subIVal_one, ok_bind] at h
  split at h
  · obtain ⟨_, -, h⟩ := bind_eq_ok.1 h
    obtain rfl := Except.ok.inj h
    exact hhead
  · split at h
    · next hcmp => exact absurd (compare_lt_iff_lt.1 hcmp) hb.not_gt
    · obtain ⟨_, -, h⟩ := bind_eq_ok.1 h
      obtain ⟨_, -, h⟩ := bind_eq_ok.1 h
      obtain rfl := Except.ok.inj h
      exact hhead
  · obtain ⟨_, -, h⟩ := bind_eq_ok.1 h
    obtain ⟨_, -, h⟩ := bind_eq_ok.1 h
    obtain rfl := Except.ok.inj h
    exact hhead

/-- A merge that goes round below is not pointwise: the first list's value stands where the merged one
should. -/
theorem WrapsBelow.not_pointwise [Nontrivial ν] (h1 : OffsOk x1) (h2 : OffsOk x2) (hw1 : InWords x1)
    (hw2 : InWords x2) (h : WrapsBelow x1 x2) : ¬ Pointwise x1 x2 := by
  intro hp
  have hlook {c d : InterVal} {z : ν} {y : OffsList ν} (hc : c ≤ .i minBound) (hd : .i minBound ≤ d) :
      lookupOffs ((.interVal c d, z) :: y) minBound = some z := by
    rw [lookupOffs_cons, if_pos ⟨hc, hd⟩]
  rcases h with h | h
  · obtain ⟨a2, v, y1, b2, u, y2, rfl, ha, rfl, hb⟩ := h.heads h1 h2 hw1 hw2
    obtain ⟨w, hw⟩ := exists_ne v
    obtain ⟨r, hr, hval⟩ := hp fun _ _ => w
    have hmin := hval minBound
    rw [lookupOffs_wrapsBelow ha hr, hlook (by simp) ha, hlook le_rfl hb] at hmin
    exact hw (Option.some.inj hmin).symm
  · obtain ⟨b2, u, y2, a2, v, y1, rfl, hb, rfl, ha⟩ := h.heads h2 h1 hw2 hw1
    obtain ⟨w, hw⟩ := exists_ne u
    obtain ⟨r, hr, hval⟩ := hp fun _ _ => w
    have hmin := hval minBound
    rw [lookupOffs_wrapsBelow' hb hr, hlook (by simp) hb, hlook le_rfl ha] at hmin
    exact hw (Option.some.inj hmin).symm

end Below

/-! ## Above -/

/-- The last key of the result starts at the least word: nothing changes if the rest of the result
has every word. -/
theorem lookupOffs_last {r : OffsList ν} {w : ν} {n : Int}
    (hcov : minBound ≤ n →
      (lookupOffs (r ++ [(.interVal (.i (maxBound + 1)) .plusInf, w)]) n).isSome) :
    lookupOffs (r ++ [(.interVal (.i minBound) .plusInf, w)]) n =
      lookupOffs (r ++ [(.interVal (.i (maxBound + 1)) .plusInf, w)]) n := by
  simp only [lookupOffs_append, lookupOffs_cons, lookupOffs_nil, covers_interVal, InterVal.i_le_i,
    InterVal.le_plusInf, and_true] at hcov ⊢
  cases hr : lookupOffs r n with
  | some z => rfl
  | none =>
    rw [hr, Option.none_or] at hcov
    simp only [Option.none_or]
    by_cases hn : minBound ≤ n
    · have hmax : maxBound + 1 ≤ n := by
        by_contra hlt
        simp [hlt] at hcov
        omega
      rw [if_pos hn, if_pos hmax]
    · have hmax : ¬ maxBound + 1 ≤ n := by
        rw [minBound_eq] at hn
        rw [maxBound_eq]
        omega
      rw [if_neg hn, if_neg hmax]

/-- Above, a merge is pointwise if the exact one is and the two lists have every word. -/
theorem pointwise_word_iff {x1 x2 : OffsList ν} (h1 : OffsOk x1) (h2 : OffsOk x2) (hw1 : InWords x1)
    (hw2 : InWords x2) (hbelow : ¬ WrapsBelow x1 x2) :
    Pointwise x1 x2 ↔ @Pointwise ν HostInt.unbounded x1 x2 ∧
      (WrapsAbove x1 x2 → ∀ n, minBound ≤ n → (lookupOffs x1 n).isSome ∨ (lookupOffs x2 n).isSome) := by
  by_cases habove : WrapsAbove x1 x2
  · have hfn (fn : ν → ν → ν) :=
      ((genIntvalList_word fn h1 h2 hw1 hw2 hbelow).resolve_left fun h => h.1 habove).2
    have hcov {fn : ν → ν → ν} {R : OffsList ν} (hR : genExact fn x1 x2 = .ok R) (n : Int) :
        (lookupOffs R n).isSome ↔ (lookupOffs x1 n).isSome ∨ (lookupOffs x2 n).isSome := by
      obtain ⟨R', hR', -, hcov⟩ := genIntvalList_ok fn h1 h2
      obtain rfl := Except.ok.inj (hR'.symm.trans hR)
      exact hcov n
    constructor
    · intro hp
      have hall : ∀ n, minBound ≤ n → (lookupOffs x1 n).isSome ∨ (lookupOffs x2 n).isSome := by
        intro n hn
        obtain ⟨r, w, -, hword⟩ := hfn fun v _ => v
        obtain ⟨R, hR, hval⟩ := hp fun v _ => v
        obtain rfl := Except.ok.inj (hword.symm.trans hR)
        have hsome : (lookupOffs (r ++ [(.interVal (.i minBound) .plusInf, w)]) n).isSome := by
          rw [lookupOffs_append, lookupOffs_cons, if_pos ⟨InterVal.i_le_i.2 hn, by simp⟩]
          cases lookupOffs r n <;> rfl
        rw [hval] at hsome
        cases hl : lookupOffs x1 n <;> cases hl' : lookupOffs x2 n <;> simp_all
      refine ⟨fun fn => ?_, fun _ => hall⟩
      obtain ⟨r, w, hexact, hword⟩ := hfn fn
      obtain ⟨R, hR, hval⟩ := hp fn
      obtain rfl := Except.ok.inj (hword.symm.trans hR)
      refine ⟨_, hexact, fun n => ?_⟩
      rw [← lookupOffs_last fun hn => (hcov hexact n).2 (hall n hn)]
      exact hval n
    · rintro ⟨hp, hall⟩ fn
      obtain ⟨r, w, hexact, hword⟩ := hfn fn
      obtain ⟨R, hR, hval⟩ := hp fn
      obtain rfl := Except.ok.inj (hexact.symm.trans hR)
      refine ⟨_, hword, fun n => ?_⟩
      rw [lookupOffs_last fun hn => (hcov hexact n).2 (hall habove n hn)]
      exact hval n
  · have heq (fn : ν → ν → ν) : genIntvalList fn x1 x2 = genExact fn x1 x2 :=
      ((genIntvalList_word fn h1 h2 hw1 hw2 hbelow).resolve_right fun h => habove h.1).2
    simp only [Pointwise, heq, habove, false_implies, and_true]

/-- Looking any offset up in `genIntvalList fn x1 x2` gives the merged value, whatever `fn` is,
exactly if the lists agree and no bound that goes round can be seen. -/
theorem genIntvalList_pointwise_iff [Nontrivial ν] {x1 x2 : OffsList ν} (h1 : OffsOk x1)
    (h2 : OffsOk x2) (hw1 : InWords x1) (hw2 : InWords x2) :
    (∀ fn : ν → ν → ν, ∃ r, genIntvalList fn x1 x2 = .ok r ∧
      ∀ n, lookupOffs r n = Option.merge fn (lookupOffs x1 n) (lookupOffs x2 n)) ↔
    Agree x1 x2 ∧ ¬ WrapsBelow x1 x2 ∧
      (WrapsAbove x1 x2 →
        ∀ n, minBound ≤ n → (lookupOffs x1 n).isSome ∨ (lookupOffs x2 n).isSome) := by
  by_cases hbelow : WrapsBelow x1 x2
  · exact iff_of_false (hbelow.not_pointwise h1 h2 hw1 hw2) fun h => h.2.1 hbelow
  · rw [← pointwise_iff_agree h1 h2]
    exact (pointwise_word_iff h1 h2 hw1 hw2 hbelow).trans
      (and_congr_right' (iff_and_self.2 fun _ => hbelow))

/-- A scalar: one cell at offset 0 with the value `n`. -/
def scalarCell (n : Int) : OffsList IntValue := [(ToValue.kVal 0, ToValue.kVal n)]

theorem offsOk_scalarCell (n : Int) : OffsOk (scalarCell n) := offsOk_singleton (by decide)

instance : Nontrivial IntValue := ⟨.top, .bot, by decide⟩

/-- Scalars are merged pointwise: their keys are equal, so they agree. -/
theorem genIntvalList_scalars_pointwise_iff :
    Agree (scalarCell 5) (scalarCell 7) ∧
    ∀ fn : IntValue → IntValue → IntValue, ∃ r,
      genIntvalList fn (scalarCell 5) (scalarCell 7) = .ok r ∧
        ∀ n, lookupOffs r n =
          Option.merge fn (lookupOffs (scalarCell 5) n) (lookupOffs (scalarCell 7) n) := by
  have hw (n : Int) : InWords (scalarCell n) := by
    intro p hp
    obtain rfl := List.mem_singleton.1 hp
    show (ToValue.kVal 0 : IntValue).InWord
    decide
  have hin (n m : Int) : AgreeIn (scalarCell n) (scalarCell m) := by
    intro a1 a2 v ha b1 b2 u hb hne
    cases List.mem_singleton.1 ha
    cases List.mem_singleton.1 hb
    exact absurd rfl hne
  have hagree : Agree (scalarCell 5) (scalarCell 7) := ⟨hin 5 7, hin 7 5⟩
  refine ⟨hagree, (genIntvalList_pointwise_iff (offsOk_scalarCell 5) (offsOk_scalarCell 7) (hw 5)
    (hw 7)).2 ⟨hagree, ?_, ?_⟩⟩
  · rintro (⟨⟨a2, v, h⟩, -⟩ | ⟨⟨a2, v, h⟩, -⟩) <;> simp [scalarCell, ToValue.kVal] at h
  · rintro (⟨-, a2, v, h⟩ | ⟨-, a2, v, h⟩) <;> simp [scalarCell, ToValue.kVal] at h

/-- Writing 1 to the offsets 0 to 5 of an array that holds 2 at the offsets 3 to 8 also changes the
offset 7; and writing 1 to all offsets from 0 to the greatest word where 2 stands from 0 on gives the
offset -5 a value. -/
theorem genIntvalList_overwrites_beyond :
    (let x1 : OffsList IntValue := [(.interVal (.i 0) (.i 5), ToValue.kVal 1)]
     let x2 : OffsList IntValue := [(.interVal (.i 3) (.i 8), ToValue.kVal 2)]
     OffsOk x1 ∧ OffsOk x2 ∧ ∃ r, genIntvalList (fun v _ => v) x1 x2 = .ok r ∧
      lookupOffs r 7 = some (ToValue.kVal 1) ∧
      Option.merge (fun v _ => v) (lookupOffs x1 7) (lookupOffs x2 7) = some (ToValue.kVal 2)) ∧
    let x1 : OffsList IntValue := [(.interVal (.i 0) (.i maxBound), ToValue.kVal 1)]
    let x2 : OffsList IntValue := [(.interVal (.i 0) .plusInf, ToValue.kVal 2)]
    OffsOk x1 ∧ OffsOk x2 ∧ ∃ r, genIntvalList (fun v _ => v) x1 x2 = .ok r ∧
      lookupOffs r (-5) = some (ToValue.kVal 2) ∧
      Option.merge (fun v _ => v) (lookupOffs x1 (-5)) (lookupOffs x2 (-5)) = none := by
  refine ⟨⟨offsOk_singleton (by decide), offsOk_singleton (by decide), _, rfl, ?_, ?_⟩,
    offsOk_singleton (by decide), offsOk_singleton (by decide), _, rfl, ?_, ?_⟩ <;> decide

end Poet
