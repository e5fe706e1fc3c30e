import Poet.Domain.Interval.OffsetMerge

/-!
# When the merge of two offset lists is pointwise

`genIntvalList fn x1 x2` should have at each offset `fn v u` where both lists have a value, and the
one value where only one has. It does not: in the four branches in which the heads overlap, start
apart and end apart, the remainder of the longer head is put back with the value of the shorter one.
`pointwise_iff_agree` says for which lists this cannot be seen (`Agree`): whenever a key
starts inside a key of the other list, at an offset whose predecessor its own list does not cover,
and the two end apart, they have the same value. Lists with equal keys, as those of scalars, are such
lists. Integers are unbounded here.
-/

namespace Poet

attribute [local instance] HostInt.unbounded

variable {ν : Type}

/-- Each offset has the values of the two lists, merged with `fn`. -/
def Pointwise [HostInt] (x1 x2 : OffsList ν) : Prop :=
  ∀ fn : ν → ν → ν, ∃ r, genIntvalList fn x1 x2 = .ok r ∧
    ∀ n, lookupOffs r n = Option.merge fn (lookupOffs x1 n) (lookupOffs x2 n)

/-- The key `[c,_]` of `x` opens in the key `k`: its lower bound lies inside `k` and `x` does not cover
the offset before it. -/
def OpensIn (k : IntValue) (c : InterVal) (x : OffsList ν) : Prop :=
  ∃ n, c = .i (n + 1) ∧ k.Covers n ∧ lookupOffs x n = none

/-- Every key of `x2` that opens in an overlapping key of `x1` and ends elsewhere has its value. -/
def AgreeIn (x1 x2 : OffsList ν) : Prop :=
  ∀ a1 a2 v, (.interVal a1 a2, v) ∈ x1 → ∀ b1 b2 u, (.interVal b1 b2, u) ∈ x2 → a2 ≠ b2 →
    (∃ n, (IntValue.interVal a1 a2).Covers n ∧ (IntValue.interVal b1 b2).Covers n) →
    OpensIn (.interVal a1 a2) b1 x2 → v = u

/-- Overlapping keys that end apart, one of which opens in the other, have the same value. -/
def Agree (x1 x2 : OffsList ν) : Prop := AgreeIn x1 x2 ∧ AgreeIn x2 x1

section Round

variable {a1 a2 b1 b2 : InterVal} {v u : ν} {x1 x2 : OffsList ν}

/-- The result after a round, offset by offset. -/
theorem exists_round (fn : ν → ν → ν) (h1 : OffsOk ((.interVal a1 a2, v) :: x1))
    (h2 : OffsOk ((.interVal b1 b2, u) :: x2)) :
    ∃ r, genIntvalList fn (roundRest a1 a2 b2 (if Cut a1 a2 b1 b2 then u else v) x1)
        (roundRest b1 b2 a2 (if Cut a1 a2 b1 b2 then v else u) x2) = .ok r ∧
      genIntvalList fn ((.interVal a1 a2, v) :: x1) ((.interVal b1 b2, u) :: x2) =
        .ok (roundOut fn a1 a2 b1 b2 v u ++ r) ∧
      ∀ n, (.i n ≤ min a2 b2 → lookupOffs r n = none) ∧
        lookupOffs (roundOut fn a1 a2 b1 b2 v u ++ r) n =
          if .i n ≤ min a2 b2 then
            Option.merge fn (lookupOffs ((.interVal a1 a2, v) :: x1) n)
              (lookupOffs ((.interVal b1 b2, u) :: x2) n)
          else lookupOffs r n := by
  obtain ⟨r, hr, -, hcov⟩ := genIntvalList_ok fn
    (offsOk_roundRest (w := if Cut a1 a2 b1 b2 then u else v) h1 h2.head.2.1)
    (offsOk_roundRest (w := if Cut a1 a2 b1 b2 then v else u) h2 h1.head.2.1)
  refine ⟨r, hr, by
    rw [genIntvalList_round fn v u x1 x2 h1.head h2.head (cutFits_unbounded ..)
      (cutFits_unbounded ..), hr]
    rfl, fun n => ?_⟩
  have hnone (hn : .i n ≤ min a2 b2) : lookupOffs r n = none := by
    have := hcov n
    rw [lookupOffs_roundRest h1 h2.head.2.1, lookupOffs_roundRest h2 h1.head.2.1, min_comm b2 a2,
      if_pos hn, if_pos hn] at this
    simpa using this
  refine ⟨hnone, ?_⟩
  rw [lookupOffs_append, lookupOffs_roundOut fn n h1 h2]
  split
  · rename_i hn
    rw [hnone hn, Option.or_none]
  · rw [Option.none_or]

/-- Where nothing lies below `n`, the result at `n` is the merged value. -/
theorem lookupOffs_first (fn : ν → ν → ν) {x1 x2 r : OffsList ν} (h1 : OffsOk x1) (h2 : OffsOk x2)
    (hr : genIntvalList fn x1 x2 = .ok r) {n : Int}
    (hn1 : ∀ m < n, lookupOffs x1 m = none) (hn2 : ∀ m < n, lookupOffs x2 m = none) :
    lookupOffs r n = Option.merge fn (lookupOffs x1 n) (lookupOffs x2 n) := by
  -- a key that covers nothing below `n` ends at `n` or above
  have hend {a b : InterVal} {v : ν} {x : OffsList ν} (h : OffsOk ((.interVal a b, v) :: x))
      (hn : ∀ m < n, lookupOffs ((.interVal a b, v) :: x) m = none) : .i n ≤ b := by
    obtain ⟨m, hm⟩ := h.head.exists_covers
    by_contra hb
    have hmn : m < n := InterVal.i_lt_i.1 (hm.2.trans_lt (not_le.1 hb))
    exact lookupOffs_eq_none.1 (hn m hmn) _ List.mem_cons_self hm
  match x1, x2, h1, h2 with
  | [], x2, _, _ =>
    obtain rfl : x2 = r := Except.ok.inj hr
    cases lookupOffs x2 n <;> rfl
  | p :: x1, [], _, _ =>
    obtain rfl : p :: x1 = r := Except.ok.inj ((genIntvalList_nil_right fn _).symm.trans hr)
    cases lookupOffs (p :: x1) n <;> rfl
  | (a, v) :: x1, (b, u) :: x2, h1, h2 =>
    obtain ⟨a1, a2, rfl⟩ := h1.exists_interVal
    obtain ⟨b1, b2, rfl⟩ := h2.exists_interVal
    obtain ⟨r', -, hr', hlook⟩ := exists_round fn h1 h2
    obtain rfl : _ = r := Except.ok.inj (hr'.symm.trans hr)
    rw [(hlook n).2, if_pos (le_min (hend h1 hn1) (hend h2 hn2))]

/-- The first offset above the shorter head has the merged values of what is left. -/
theorem lookupOffs_next {fn : ν → ν → ν} {w1 w2 : ν} {r : OffsList ν} {m : Int}
    (h1 : OffsOk ((.interVal a1 a2, v) :: x1)) (h2 : OffsOk ((.interVal b1 b2, u) :: x2))
    (hr : genIntvalList fn (roundRest a1 a2 b2 w1 x1) (roundRest b1 b2 a2 w2 x2) = .ok r)
    (hm : min a2 b2 = .i m) :
    lookupOffs r (m + 1) = Option.merge fn (lookupOffs ((.interVal a1 a2, w1) :: x1) (m + 1))
      (lookupOffs ((.interVal b1 b2, w2) :: x2) (m + 1)) := by
  have hrest1 (n : Int) := lookupOffs_roundRest (n := n) (w := w1) h1 h2.head.2.1
  have hrest2 (n : Int) := lookupOffs_roundRest (n := n) (w := w2) h2 h1.head.2.1
  simp only [min_comm b2 a2, hm, InterVal.i_le_i] at hrest1 hrest2
  have hfirst := lookupOffs_first fn (offsOk_roundRest h1 h2.head.2.1)
    (offsOk_roundRest h2 h1.head.2.1) hr (n := m + 1)
    (fun k hk => by rw [hrest1, if_pos (by omega)]) (fun k hk => by rw [hrest2, if_pos (by omega)])
  rwa [hrest1, hrest2, if_neg (by omega), if_neg (by omega)] at hfirst

/-- A pointwise merge never cuts two heads with different values. -/
theorem Pointwise.of_cut (h1 : OffsOk ((.interVal a1 a2, v) :: x1))
    (h2 : OffsOk ((.interVal b1 b2, u) :: x2))
    (hp : Pointwise ((.interVal a1 a2, v) :: x1) ((.interVal b1 b2, u) :: x2))
    (hcut : Cut a1 a2 b1 b2) : v = u := by
  obtain ⟨-, ha2, -⟩ := h1.head
  obtain ⟨-, hb2, -⟩ := h2.head
  -- the end of the shorter head is an offset
  obtain ⟨m, hm⟩ : ∃ m, min a2 b2 = .i m := by
    have hne := hcut.2.1
    cases a2 <;> cases b2 <;> simp_all [min_def]
    split <;> exact ⟨_, rfl⟩
  have hmerge (fn : ν → ν → ν) :
      Option.merge fn (lookupOffs ((.interVal a1 a2, v) :: x1) (m + 1))
        (lookupOffs ((.interVal b1 b2, u) :: x2) (m + 1)) =
      Option.merge fn (lookupOffs ((.interVal a1 a2, u) :: x1) (m + 1))
        (lookupOffs ((.interVal b1 b2, v) :: x2) (m + 1)) := by
    obtain ⟨r, hr, hR, hlook⟩ := exists_round fn h1 h2
    obtain ⟨R, hR', hval⟩ := hp fn
    obtain rfl : _ = R := Except.ok.inj (hR.symm.trans hR')
    rw [← hval, (hlook (m + 1)).2, hm, if_neg (by simp)]
    rw [if_pos hcut, if_pos hcut] at hr
    exact lookupOffs_next h1 h2 hr hm
  -- the longer head covers that offset: look at its value alone
  rcases lt_or_gt_of_ne hcut.2.1 with h | h
  · rw [min_eq_left h.le] at hm
    have hcov : (IntValue.interVal b1 b2).Covers (m + 1) :=
      ⟨(hcut.2.2.2.trans hm.le).trans (by simp), by
        simpa [hm, InterVal.succ] using InterVal.succ_le_of_lt ha2 h⟩
    have hsnd := hmerge fun _ y => y
    rw [lookupOffs_cons (.interVal b1 b2, u), lookupOffs_cons (.interVal b1 b2, v), if_pos hcov,
      if_pos hcov] at hsnd
    have hright (o : Option ν) (y : ν) : Option.merge (fun _ y => y) o (some y) = some y := by
      cases o <;> rfl
    rw [hright, hright] at hsnd
    exact (Option.some.inj hsnd).symm
  · rw [min_eq_right h.le] at hm
    have hcov : (IntValue.interVal a1 a2).Covers (m + 1) :=
      ⟨(hcut.2.2.1.trans hm.le).trans (by simp), by
        simpa [hm, InterVal.succ] using InterVal.succ_le_of_lt hb2 h⟩
    have hfst := hmerge fun x _ => x
    rw [lookupOffs_cons (.interVal a1 a2, v), lookupOffs_cons (.interVal a1 a2, u), if_pos hcov,
      if_pos hcov] at hfst
    have hleft (o : Option ν) (y : ν) : Option.merge (fun x _ => x) (some y) o = some y := by
      cases o <;> rfl
    rw [hleft, hleft] at hfst
    exact Option.some.inj hfst

/-- The merge of two lists is pointwise if the heads have one value where they are cut and the merge
of what is left is pointwise. -/
theorem pointwise_round (h1 : OffsOk ((.interVal a1 a2, v) :: x1))
    (h2 : OffsOk ((.interVal b1 b2, u) :: x2)) (hcut : Cut a1 a2 b1 b2 → v = u) :
    Pointwise ((.interVal a1 a2, v) :: x1) ((.interVal b1 b2, u) :: x2) ↔
      Pointwise (roundRest a1 a2 b2 (if Cut a1 a2 b1 b2 then u else v) x1)
        (roundRest b1 b2 a2 (if Cut a1 a2 b1 b2 then v else u) x2) := by
  have hw1 : (if Cut a1 a2 b1 b2 then u else v) = v := by
    split <;> simp_all
  have hw2 : (if Cut a1 a2 b1 b2 then v else u) = u := by
    split <;> simp_all
  refine forall_congr' fun fn => ?_
  obtain ⟨r, hr, hR, hlook⟩ := exists_round fn h1 h2
  rw [hr, hR, hw1, hw2]
  simp only [Except.ok.injEq, exists_eq_left', lookupOffs_roundRest h1 h2.head.2.1,
    lookupOffs_roundRest h2 h1.head.2.1, min_comm b2 a2]
  refine forall_congr' fun n => ?_
  rw [(hlook n).2]
  split
  · rename_i hn
    simp [(hlook n).1 hn]
  · rfl

theorem mem_roundRest {w : ν} {x : OffsList ν} {p : IntValue × ν} :
    p ∈ roundRest a1 a2 b2 w x ↔
      (b2 < a2 ∧ p = (.interVal (max a1 b2.succ) a2, w)) ∨ p ∈ x := by
  unfold roundRest
  split
  · rename_i h
    simp [h.not_gt]
  · rename_i h
    simp [not_le.1 h]

/-- A list without the part up to the end of the shorter head. -/
theorem lookupOffs_roundRest_of_lt {n : Int} (h1 : OffsOk ((.interVal a1 a2, v) :: x1))
    (h2 : OffsOk ((.interVal b1 b2, u) :: x2)) (hn : min a2 b2 < .i n) :
    lookupOffs (roundRest a1 a2 b2 v x1) n = lookupOffs ((.interVal a1 a2, v) :: x1) n := by
  rw [lookupOffs_roundRest h1 h2.head.2.1, if_neg hn.not_ge]

theorem lt_of_covers_roundRest {n : Int} {p : IntValue × ν}
    (h1 : OffsOk ((.interVal a1 a2, v) :: x1)) (h2 : OffsOk ((.interVal b1 b2, u) :: x2))
    (hp : p ∈ roundRest a1 a2 b2 v x1) (hn : p.1.Covers n) : min a2 b2 < .i n := by
  by_contra hle
  have hnone := lookupOffs_roundRest (n := n) (w := v) h1 h2.head.2.1
  rw [if_pos (not_lt.1 hle)] at hnone
  exact lookupOffs_eq_none.1 hnone p hp hn

/-- A key of what is left is a key of the list, or the end of the head above the other head. -/
theorem exists_mem_of_mem_roundRest {c1 c2 : InterVal} {w : ν}
    (h : (.interVal c1 c2, w) ∈ roundRest a1 a2 b2 v x1) :
    ∃ c, (.interVal c c2, w) ∈ (IntValue.interVal a1 a2, v) :: x1 ∧ c ≤ c1 ∧
      (c = c1 ∨ (c1 = b2.succ ∧ b2 < a2)) := by
  rcases mem_roundRest.1 h with ⟨hlt, heq⟩ | h
  · obtain ⟨⟨rfl, rfl⟩, rfl⟩ : (c1 = max a1 b2.succ ∧ c2 = a2) ∧ w = v := by simpa using heq
    refine ⟨a1, List.mem_cons_self, le_max_left _ _, ?_⟩
    rcases max_choice a1 b2.succ with hmax | hmax <;> rw [hmax]
    · exact .inl rfl
    · exact .inr ⟨rfl, hlt⟩
  · exact ⟨c1, List.mem_cons_of_mem _ h, le_rfl, .inl rfl⟩

theorem opensIn_of_lt (h2 : OffsOk ((.interVal b1 b2, u) :: x2)) (hlt : a1 < b1) (hle : b1 ≤ a2) :
    OpensIn (.interVal a1 a2) b1 ((.interVal b1 b2, u) :: x2) := by
  obtain ⟨hb1, -, hble⟩ := h2.head
  cases b1 with
  | plusInf => exact absurd rfl hb1
  | minusInf => simp at hlt
  | i k =>
    have hk : InterVal.i (k - 1) ≤ .i k := InterVal.i_le_i.2 (by omega)
    refine ⟨k - 1, by simp, ⟨InterVal.le_pred_of_lt hb1 hlt, hk.trans hle⟩, ?_⟩
    rw [lookupOffs_cons, h2.lookupOffs_tail (hk.trans hble)]
    simp [covers_interVal]

/-- Lists that agree are never cut at different values. -/
theorem AgreeIn.of_cut (h1 : OffsOk ((.interVal a1 a2, v) :: x1))
    (h2 : OffsOk ((.interVal b1 b2, u) :: x2))
    (hag : AgreeIn ((.interVal a1 a2, v) :: x1) ((.interVal b1 b2, u) :: x2))
    (hcut : Cut a1 a2 b1 b2) (hlt : a1 < b1) : v = u := by
  obtain ⟨-, hne, -, hle⟩ := hcut
  obtain ⟨ha1, ha2, hale⟩ := h1.head
  obtain ⟨hb1, hb2, hble⟩ := h2.head
  have hcommon : (IntValue.interVal b1 (min a2 b2)).Proper := by
    refine ⟨hb1, ?_, le_min hle hble⟩
    rcases min_choice a2 b2 with h | h <;> rw [h] <;> assumption
  obtain ⟨n, hn⟩ := hcommon.exists_covers
  exact hag a1 a2 v List.mem_cons_self b1 b2 u List.mem_cons_self hne
    ⟨n, ⟨hlt.le.trans hn.1, hn.2.trans (min_le_left _ _)⟩, hn.1, hn.2.trans (min_le_right _ _)⟩
    (opensIn_of_lt h2 hlt hle)

/-- A round without a cut of different values changes nothing for `AgreeIn`. -/
theorem agreeIn_round (h1 : OffsOk ((.interVal a1 a2, v) :: x1))
    (h2 : OffsOk ((.interVal b1 b2, u) :: x2)) (hcut : Cut a1 a2 b1 b2 → v = u) :
    AgreeIn ((.interVal a1 a2, v) :: x1) ((.interVal b1 b2, u) :: x2) ↔
      AgreeIn (roundRest a1 a2 b2 v x1) (roundRest b1 b2 a2 u x2) := by
  constructor
  · intro hag c1 c2 w hc d1 d2 z hd hne ⟨k, hkc, hkd⟩ ⟨n, hdn, hcn, hnone⟩
    obtain ⟨c, hc', hcle, -⟩ := exists_mem_of_mem_roundRest hc
    obtain ⟨d, hd', hdle, hdeq⟩ := exists_mem_of_mem_roundRest hd
    -- `n` lies above the shorter head, so `[d1,d2]` was not cut at its lower end
    have hn := lt_of_covers_roundRest h1 h2 hc hcn
    have hd1 : d = d1 := by
      rcases hdeq with h | ⟨hsucc, hlt⟩
      · exact h
      · rw [min_eq_left hlt.le] at hn
        have := (InterVal.succ_le_i h1.head.2.1 n).2 hn
        rw [← hsucc, hdn, InterVal.i_le_i] at this
        omega
    subst hd1
    refine hag c c2 w hc' d d2 z hd' hne ⟨k, ⟨hcle.trans hkc.1, hkc.2⟩, hkd⟩
      ⟨n, hdn, ⟨hcle.trans hcn.1, hcn.2⟩, ?_⟩
    rwa [lookupOffs_roundRest_of_lt h2 h1 (by rwa [min_comm])] at hnone
  · intro hag c1 c2 w hc d1 d2 z hd hne ⟨k, hkc, hkd⟩ ⟨n, hdn, hcn, hnone⟩
    have hnd : InterVal.i n < d1 := by simp [hdn]
    have hnk : n < k := InterVal.i_lt_i.1 (hnd.trans_le hkd.1)
    by_cases hn : InterVal.i n ≤ min a2 b2
    · -- up to the end of the shorter head the two keys are the heads, and they are cut
      obtain ⟨hna, hnb⟩ := le_min_iff.1 hn
      rcases List.mem_cons.1 hc with hc | hc
      · rcases List.mem_cons.1 hd with hd | hd
        · obtain ⟨⟨rfl, rfl⟩, rfl⟩ : (c1 = a1 ∧ c2 = a2) ∧ w = v := by simpa using hc
          obtain ⟨⟨rfl, rfl⟩, rfl⟩ : (d1 = b1 ∧ d2 = b2) ∧ z = u := by simpa using hd
          exact hcut ⟨(hcn.1.trans_lt hnd).ne, hne, hkc.1.trans hkd.2, hkd.1.trans hkc.2⟩
        · have hbd : b2 < d1 := h2.above hd
          have hbn : b2 ≤ .i n := by
            simpa [hdn, InterVal.pred] using InterVal.le_pred_of_lt (by simp [hdn]) hbd
          exact absurd ⟨h2.head.2.2.trans hbn, hnb⟩
            (lookupOffs_eq_none.1 hnone _ List.mem_cons_self)
      · exact absurd hcn (lookupOffs_eq_none.1 (h1.lookupOffs_tail hna) _ hc)
    · rw [not_le] at hn
      have hd' : (.interVal d1 d2, z) ∈ roundRest b1 b2 a2 u x2 := by
        rcases List.mem_cons.1 hd with hd | hd
        · obtain ⟨⟨rfl, rfl⟩, rfl⟩ : (d1 = b1 ∧ d2 = b2) ∧ z = u := by simpa using hd
          have hlt : a2 < .i n := (min_lt_iff.1 hn).resolve_right
            (hnd.le.trans h2.head.2.2).not_gt
          have hsucc : a2.succ ≤ d1 := ((InterVal.succ_le_i h1.head.2.1 n).2 hlt).trans hnd.le
          refine mem_roundRest.2 (.inl ⟨hlt.trans (hnd.trans_le h2.head.2.2), ?_⟩)
          rw [max_eq_left hsucc]
        · exact mem_roundRest.2 (.inr hd)
      obtain ⟨c, hc', hcov⟩ : ∃ c, (.interVal c c2, w) ∈ roundRest a1 a2 b2 v x1 ∧
          ∀ m, n ≤ m → (IntValue.interVal c1 c2).Covers m → (IntValue.interVal c c2).Covers m := by
        rcases List.mem_cons.1 hc with hc | hc
        · obtain ⟨⟨rfl, rfl⟩, rfl⟩ : (c1 = a1 ∧ c2 = a2) ∧ w = v := by simpa using hc
          have hlt : b2 < .i n := (min_lt_iff.1 hn).resolve_left hcn.2.not_gt
          refine ⟨max c1 b2.succ, mem_roundRest.2 (.inl ⟨hlt.trans_le hcn.2, rfl⟩), ?_⟩
          intro m hnm hm
          have hsucc : b2.succ ≤ .i n := (InterVal.succ_le_i h2.head.2.1 n).2 hlt
          exact ⟨max_le hm.1 (hsucc.trans (InterVal.i_le_i.2 hnm)), hm.2⟩
        · exact ⟨c1, mem_roundRest.2 (.inr hc), fun _ _ h => h⟩
      refine hag c c2 w hc' d1 d2 z hd' hne ⟨k, hcov k hnk.le hkc, hkd⟩
        ⟨n, hdn, hcov n le_rfl hcn, ?_⟩
      rwa [lookupOffs_roundRest_of_lt h2 h1 (by rwa [min_comm])]

end Round

/-- The merge of two well-formed offset lists is pointwise for every function exactly if the lists
agree. -/
theorem pointwise_iff_agree {x1 x2 : OffsList ν} (h1 : OffsOk x1) (h2 : OffsOk x2) :
    Pointwise x1 x2 ↔ Agree x1 x2 := by
  refine round_induction ?_ ?_ ?_ x1 x2 h1 h2
  · intro x2 _
    refine iff_of_true (fun fn => ⟨x2, rfl, fun n => ?_⟩) ⟨?_, ?_⟩
    · cases lookupOffs x2 n <;> rfl
    · intro _ _ _ h
      exact absurd h List.not_mem_nil
    · intro _ _ _ _ _ _ _ h
      exact absurd h List.not_mem_nil
  · intro x1 _
    refine iff_of_true (fun fn => ⟨x1, genIntvalList_nil_right fn x1, fun n => ?_⟩) ⟨?_, ?_⟩
    · cases lookupOffs x1 n <;> rfl
    · intro _ _ _ _ _ _ _ h
      exact absurd h List.not_mem_nil
    · intro _ _ _ h
      exact absurd h List.not_mem_nil
  · intro a1 a2 v x1 b1 b2 u x2 h1 h2 ih
    have hcutsymm (h : Cut a1 a2 b1 b2) : Cut b1 b2 a1 a2 := ⟨h.1.symm, h.2.1.symm, h.2.2.2, h.2.2.1⟩
    by_cases hcut : Cut a1 a2 b1 b2 → v = u
    · have hw1 : (if Cut a1 a2 b1 b2 then u else v) = v := by
        split <;> simp_all
      have hw2 : (if Cut a1 a2 b1 b2 then v else u) = u := by
        split <;> simp_all
      rw [pointwise_round h1 h2 hcut, ih, hw1, hw2]
      refine and_congr (agreeIn_round h1 h2 hcut).symm (agreeIn_round h2 h1 ?_).symm
      exact fun h => (hcut ⟨h.1.symm, h.2.1.symm, h.2.2.2, h.2.2.1⟩).symm
    · -- both sides fail at the cut
      obtain ⟨hc, hne⟩ := Classical.not_imp.1 hcut
      refine iff_of_false (fun hp => hne (hp.of_cut h1 h2 hc)) fun hag => hne ?_
      rcases lt_or_gt_of_ne hc.1 with hlt | hlt
      · exact hag.1.of_cut h1 h2 hc hlt
      · exact (hag.2.of_cut h2 h1 (hcutsymm hc) hlt).symm

end Poet
