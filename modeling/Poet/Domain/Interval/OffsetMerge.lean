import Mathlib.Tactic.Order
import Poet.Domain.Interval.Offset

/-!
# What `genIntvalList` computes

An offset list stands for a partial function from integers to values (`lookupOffs`). One round of
`genIntvalList` has fourteen branches; `genIntvalList_round` gives them as one equation: with heads
`[a1,a2]` and `[b1,b2]` a round emits the cells of the two heads up to `min a2 b2` and goes on with
what is left of them.
-/

namespace Poet

namespace IntValue

/-- The offset `n` lies in the key. -/
def Covers : IntValue → Int → Prop
  | .interVal a b, n => a ≤ .i n ∧ .i n ≤ b
  | _, _ => False

instance : ∀ (k : IntValue) (n : Int), Decidable (k.Covers n)
  | .interVal a b, n => inferInstanceAs (Decidable (a ≤ .i n ∧ .i n ≤ b))
  | .top, _ => isFalse id
  | .bot, _ => isFalse id
  | .val _, _ => isFalse id

/-- A non-empty interval with lower bound `MinusInf` or `I n` and upper bound `I n` or `PlusInf`. -/
def Proper : IntValue → Prop
  | .interVal a b => a ≠ .plusInf ∧ b ≠ .minusInf ∧ a ≤ b
  | _ => False

instance : ∀ k : IntValue, Decidable k.Proper
  | .interVal a b => inferInstanceAs (Decidable (a ≠ .plusInf ∧ b ≠ .minusInf ∧ a ≤ b))
  | .top => isFalse id
  | .bot => isFalse id
  | .val _ => isFalse id

/-- The first key ends before the second starts. -/
def Before : IntValue → IntValue → Prop
  | .interVal _ b, .interVal c _ => b < c
  | _, _ => False

end IntValue

variable {ν : Type}

/-- The value of the first key that covers `n`. -/
def lookupOffs (x : OffsList ν) (n : Int) : Option ν :=
  (x.find? fun p => decide (p.1.Covers n)).map (·.2)

/-- Keys are non-empty intervals, pairwise disjoint and strictly increasing. -/
structure OffsOk (x : OffsList ν) : Prop where
  proper : ∀ p ∈ x, p.1.Proper
  sorted : x.Pairwise fun p q => p.1.Before q.1

/-! ## Offset lists as partial functions -/

theorem covers_interVal {a b : InterVal} {n : Int} :
    (IntValue.interVal a b).Covers n ↔ a ≤ .i n ∧ .i n ≤ b := Iff.rfl

@[simp] theorem lookupOffs_nil (n : Int) : lookupOffs ([] : OffsList ν) n = none := rfl

theorem lookupOffs_cons (p : IntValue × ν) (x : OffsList ν) (n : Int) :
    lookupOffs (p :: x) n = if p.1.Covers n then some p.2 else lookupOffs x n := by
  by_cases h : p.1.Covers n <;> simp [lookupOffs, h]

theorem isSome_lookupOffs_cons (k : IntValue) (v : ν) (x : OffsList ν) (n : Int) :
    (lookupOffs ((k, v) :: x) n).isSome ↔ k.Covers n ∨ (lookupOffs x n).isSome := by
  rw [lookupOffs_cons]
  split <;> simp_all

theorem lookupOffs_append (x y : OffsList ν) (n : Int) :
    lookupOffs (x ++ y) n = (lookupOffs x n).or (lookupOffs y n) := by
  simp [lookupOffs, List.find?_append, Option.map_or]

theorem lookupOffs_eq_none {x : OffsList ν} {n : Int} :
    lookupOffs x n = none ↔ ∀ p ∈ x, ¬ p.1.Covers n := by
  simp [lookupOffs]

theorem lookupOffs_isSome {x : OffsList ν} {n : Int} :
    (lookupOffs x n).isSome ↔ ∃ p ∈ x, p.1.Covers n := by
  simp [lookupOffs]

/-- A proper key has an offset. -/
theorem IntValue.Proper.exists_covers {k : IntValue} (h : k.Proper) : ∃ n, k.Covers n := by
  match k with
  | .interVal (.i a) b => exact ⟨a, le_rfl, h.2.2⟩
  | .interVal .minusInf (.i b) => exact ⟨b, by simp, le_rfl⟩
  | .interVal .minusInf .plusInf => exact ⟨0, by simp, by simp⟩

theorem IntValue.Proper.exists_interVal {k : IntValue} (h : k.Proper) : ∃ a b, k = .interVal a b := by
  match k, h with
  | .interVal a b, _ => exact ⟨a, b, rfl⟩

/-- For proper keys, `Before` can be read off the offsets. -/
theorem IntValue.Proper.before_iff {k l : IntValue} (hk : k.Proper) (hl : l.Proper) :
    k.Before l ↔ ∀ n m, k.Covers n → l.Covers m → n < m := by
  match k, l with
  | .interVal a b, .interVal c d =>
    obtain ⟨ha, hb, hab⟩ := hk
    obtain ⟨hc, hd, hcd⟩ := hl
    constructor
    · intro (h : b < c) n m hn hm
      exact InterVal.i_lt_i.1 ((hn.2.trans_lt h).trans_le hm.1)
    · intro h
      show b < c
      obtain ⟨n, hn⟩ := IntValue.Proper.exists_covers (k := .interVal a b) ⟨ha, hb, hab⟩
      obtain ⟨m, hm⟩ := IntValue.Proper.exists_covers (k := .interVal c d) ⟨hc, hd, hcd⟩
      cases b with
      | minusInf => exact absurd rfl hb
      | plusInf =>
        -- `max n m` is an offset of the first key that is not below `m`
        have := h (max n m) m ⟨hn.1.trans (by simp), by simp⟩ hm
        omega
      | i b =>
        cases c with
        | plusInf => exact absurd rfl hc
        | minusInf =>
          have := h n (min n m) hn ⟨by simp, (InterVal.i_le_i.2 (by omega)).trans hm.2⟩
          omega
        | i c => exact InterVal.i_lt_i.2 (h b c ⟨hab, le_rfl⟩ ⟨le_rfl, hcd⟩)

namespace OffsOk

theorem tail {p : IntValue × ν} {x : OffsList ν} (h : OffsOk (p :: x)) : OffsOk x :=
  ⟨fun q hq => h.proper q (List.mem_cons_of_mem p hq), (List.pairwise_cons.1 h.sorted).2⟩

theorem head {p : IntValue × ν} {x : OffsList ν} (h : OffsOk (p :: x)) : p.1.Proper :=
  h.proper p List.mem_cons_self

/-- The keys of the tail are above the head. -/
theorem above {p q : IntValue × ν} {x : OffsList ν} (h : OffsOk (p :: x)) (hq : q ∈ x) :
    p.1.Before q.1 :=
  (List.pairwise_cons.1 h.sorted).1 q hq

/-- The head of a well-formed list is an interval. -/
theorem exists_interVal {k : IntValue} {v : ν} {x : OffsList ν} (h : OffsOk ((k, v) :: x)) :
    ∃ a b, k = .interVal a b :=
  h.head.exists_interVal

/-- No key of the tail covers an offset up to the end of the head. -/
theorem lookupOffs_tail {a b : InterVal} {v : ν} {x : OffsList ν} {n : Int}
    (h : OffsOk ((.interVal a b, v) :: x)) (hn : .i n ≤ b) : lookupOffs x n = none := by
  rw [lookupOffs_eq_none]
  intro q hq hcov
  have hbefore := h.above hq
  match q, hbefore with
  | (.interVal c d, _), (hbc : b < c) => exact absurd (hn.trans_lt hbc) (not_lt.2 hcov.1)

/-- The keys are disjoint: a cell that covers an offset is the one found there. -/
theorem lookupOffs_of_mem {x : OffsList ν} {p : IntValue × ν} {n : Int} (h : OffsOk x) (hp : p ∈ x)
    (hn : p.1.Covers n) : lookupOffs x n = some p.2 := by
  induction x with
  | nil => cases hp
  | cons q x ih =>
    obtain ⟨k, v⟩ := q
    obtain ⟨a, b, rfl⟩ := h.exists_interVal
    rw [lookupOffs_cons]
    rcases List.mem_cons.1 hp with rfl | hp
    · exact if_pos hn
    · rw [if_neg fun hcov => lookupOffs_eq_none.1 (h.lookupOffs_tail hcov.2) p hp hn]
      exact ih h.tail hp

/-- Two well-formed lists, one below the other. -/
theorem append {x y : OffsList ν} (hx : OffsOk x) (hy : OffsOk y)
    (h : ∀ n m, (lookupOffs x n).isSome → (lookupOffs y m).isSome → n < m) : OffsOk (x ++ y) where
  proper p hp := (List.mem_append.1 hp).elim (hx.proper p) (hy.proper p)
  sorted := by
    refine List.pairwise_append.2 ⟨hx.sorted, hy.sorted, fun p hp q hq => ?_⟩
    rw [(hx.proper p hp).before_iff (hy.proper q hq)]
    exact fun n m hn hm => h n m (lookupOffs_isSome.2 ⟨p, hp, hn⟩) (lookupOffs_isSome.2 ⟨q, hq, hm⟩)

end OffsOk

/-! ## One round -/

/-- The cells one round emits for the heads `([a1,a2], v)` and `([b1,b2], u)`: the part of the head
that starts first, then the common part. -/
def roundOut (fn : ν → ν → ν) (a1 a2 b1 b2 : InterVal) (v u : ν) : OffsList ν :=
  (if a1 < b1 then [(.interVal a1 (min a2 b1.pred), v)]
    else if b1 < a1 then [(.interVal b1 (min b2 a1.pred), u)] else []) ++
  (if max a1 b1 ≤ min a2 b2 then [(.interVal (max a1 b1) (min a2 b2), fn v u)] else [])

/-- What is left of a list whose head was `[a1,a2]` above the bound `b2`, the other head's end. The
remainder of the head gets the value `w`. -/
def roundRest (a1 a2 b2 : InterVal) (w : ν) (x : OffsList ν) : OffsList ν :=
  if a2 ≤ b2 then x else (.interVal (max a1 b2.succ) a2, w) :: x

/-- The heads overlap, start apart and end apart. In these rounds the source gives the remainder of
the longer head the value of the other one. -/
def Cut (a1 a2 b1 b2 : InterVal) : Prop := a1 ≠ b1 ∧ a2 ≠ b2 ∧ a1 ≤ b2 ∧ b1 ≤ a2

instance (a1 a2 b1 b2 : InterVal) : Decidable (Cut a1 a2 b1 b2) :=
  inferInstanceAs (Decidable (_ ∧ _ ∧ _ ∧ _))

section Shapes

variable {fn : ν → ν → ν} {a1 a2 b1 b2 : InterVal} {v u w : ν} {x : OffsList ν}

theorem roundOut_of_lt (h1 : a1 < b1) (h : b1 ≤ a2) (hb : b1 ≤ b2) :
    roundOut fn a1 a2 b1 b2 v u =
      [(.interVal a1 b1.pred, v), (.interVal b1 (min a2 b2), fn v u)] := by
  have hleft : min a2 b1.pred = b1.pred := min_eq_right ((InterVal.pred_le b1).trans h)
  have hcommon : b1 ≤ min a2 b2 := by order
  simp only [roundOut, if_pos h1, hleft, max_eq_right h1.le, if_pos hcommon]
  rfl

theorem roundOut_of_eq (ha : a1 ≤ a2) (hb : a1 ≤ b2) :
    roundOut fn a1 a2 a1 b2 v u = [(.interVal a1 (min a2 b2), fn v u)] := by
  have hcommon : a1 ≤ min a2 b2 := by order
  simp only [roundOut, lt_irrefl, if_false, max_self, if_pos hcommon]
  rfl

theorem roundOut_of_gt (h1 : b1 < a1) (h : a1 ≤ b2) (ha : a1 ≤ a2) :
    roundOut fn a1 a2 b1 b2 v u =
      [(.interVal b1 a1.pred, u), (.interVal a1 (min a2 b2), fn v u)] := by
  have hleft : min b2 a1.pred = a1.pred := min_eq_right ((InterVal.pred_le a1).trans h)
  have hcommon : a1 ≤ min a2 b2 := by order
  simp only [roundOut, if_neg h1.not_gt, if_pos h1, hleft, max_eq_left h1.le, if_pos hcommon]
  rfl

theorem roundOut_of_before (h : a2 < b1) (ha : a1 ≤ a2) (hb1 : b1 ≠ .plusInf) :
    roundOut fn a1 a2 b1 b2 v u = [(.interVal a1 a2, v)] := by
  have hleft : min a2 b1.pred = a2 := min_eq_left (InterVal.le_pred_of_lt hb1 h)
  have hcommon : ¬ max a1 b1 ≤ min a2 b2 := by order
  simp only [roundOut, if_pos (ha.trans_lt h), if_neg hcommon, hleft]
  rfl

theorem roundOut_of_after (h : b2 < a1) (hb : b1 ≤ b2) (ha1 : a1 ≠ .plusInf) :
    roundOut fn a1 a2 b1 b2 v u = [(.interVal b1 b2, u)] := by
  have hleft : min b2 a1.pred = b2 := min_eq_left (InterVal.le_pred_of_lt ha1 h)
  have hcommon : ¬ max a1 b1 ≤ min a2 b2 := by order
  simp only [roundOut, if_neg (hb.trans_lt h).not_gt, if_pos (hb.trans_lt h), if_neg hcommon, hleft]
  rfl

theorem roundRest_of_le (h : a2 ≤ b2) : roundRest a1 a2 b2 w x = x := if_pos h

theorem roundRest_of_lt (h : b2 < a2) (ha : a1 ≤ b2) :
    roundRest a1 a2 b2 w x = (.interVal b2.succ a2, w) :: x := by
  rw [roundRest, if_neg h.not_ge, max_eq_right (ha.trans (InterVal.le_succ b2))]

theorem roundRest_of_after (h : b2 < a1) (ha : a1 ≤ a2) (hb2 : b2 ≠ .minusInf) :
    roundRest a1 a2 b2 w x = (.interVal a1 a2, w) :: x := by
  rw [roundRest, if_neg (h.trans_le ha).not_ge,
    max_eq_left (InterVal.succ_le_of_lt hb2 h)]

end Shapes

/-- Where `[b1,b2]` is cut at the end of `[a1,a2]`, or `[a1,a2]` at the start of `[b1,b2]`, the host
stores the bound next to the cut. -/
structure CutFits [HostInt] (a1 a2 b1 b2 : InterVal) : Prop where
  succ : b1 ≤ a2 → a2 < b2 → a2.plusIVal (.i 1) = .ok a2.succ
  pred : b1 ≤ a2 → a1 < b1 → b1.subIVal (.i 1) = .ok b1.pred

theorem genIntvalList_round [HostInt] (fn : ν → ν → ν) {a1 a2 b1 b2 : InterVal} (v u : ν)
    (x1 x2 : OffsList ν) (ha : (IntValue.interVal a1 a2).Proper)
    (hb : (IntValue.interVal b1 b2).Proper) (hab : CutFits a1 a2 b1 b2)
    (hba : CutFits b1 b2 a1 a2) :
    genIntvalList fn ((.interVal a1 a2, v) :: x1) ((.interVal b1 b2, u) :: x2) =
      (roundOut fn a1 a2 b1 b2 v u ++ ·) <$>
        genIntvalList fn (roundRest a1 a2 b2 (if Cut a1 a2 b1 b2 then u else v) x1)
          (roundRest b1 b2 a2 (if Cut a1 a2 b1 b2 then v else u) x2) := by
  obtain ⟨ha1, ha2, hale⟩ := ha
  obtain ⟨hb1, hb2, hble⟩ := hb
  have hceq {a b : InterVal} (h : a = b) : compare a b = .eq := compare_eq_iff_eq.2 h
  have hclt {a b : InterVal} (h : a < b) : compare a b = .lt := compare_lt_iff_lt.2 h
  have hcgt {a b : InterVal} (h : b < a) : compare a b = .gt := compare_gt_iff_gt.2 h
  rw [genIntvalList, genHead]
  -- the splits are those of the source: the lower bounds, then the upper bounds
  rcases lt_trichotomy a1 b1 with h1 | rfl | h1
  · rcases lt_trichotomy a2 b2 with h2 | rfl | h2
    · by_cases h3 : a2 < b1
      · have hcut : ¬ Cut a1 a2 b1 b2 := fun h => h3.not_ge h.2.2.2
        rw [roundOut_of_before h3 hale hb1, roundRest_of_le h2.le,
          roundRest_of_after h3 hble ha2, if_neg hcut]
        simp only [hclt h1, hclt h2, hclt h3]
        rfl
      · have hcut : Cut a1 a2 b1 b2 := ⟨h1.ne, h2.ne, by order, not_lt.1 h3⟩
        rw [roundOut_of_lt h1 (not_lt.1 h3) hble, roundRest_of_le h2.le,
          roundRest_of_lt h2 (not_lt.1 h3), if_pos hcut, min_eq_left h2.le]
        rcases (not_lt.1 h3).eq_or_lt with h4 | h4
        · simp only [hclt h1, hclt h2, hceq h4.symm, hab.succ h4.le h2, hab.pred h4.le h1]
          rfl
        · simp only [hclt h1, hclt h2, hcgt h4, hab.succ h4.le h2, hab.pred h4.le h1]
          rfl
    · rw [roundOut_of_lt h1 hble hble, roundRest_of_le le_rfl, roundRest_of_le le_rfl, min_self]
      simp only [hclt h1, hceq, hab.pred hble h1]
      rfl
    · have hcut : Cut a1 a2 b1 b2 := ⟨h1.ne, h2.ne', by order, by order⟩
      rw [roundOut_of_lt h1 (by order) hble, roundRest_of_lt h2 (by order),
        roundRest_of_le h2.le, if_pos hcut, min_eq_right h2.le]
      simp only [hclt h1, hcgt h2, hba.succ (h1.le.trans hble) h2, hab.pred (hble.trans h2.le) h1]
      rfl
  · have hcut : ¬ Cut a1 a2 a1 b2 := fun h => h.1 rfl
    rw [roundOut_of_eq hale hble, if_neg hcut, if_neg hcut]
    rcases lt_trichotomy a2 b2 with h2 | rfl | h2
    · rw [roundRest_of_le h2.le, roundRest_of_lt h2 hale, min_eq_left h2.le]
      simp only [hceq, hclt h2, hab.succ hale h2]
      rfl
    · rw [roundRest_of_le le_rfl, roundRest_of_le le_rfl, min_self]
      simp only [hceq]
      rfl
    · rw [roundRest_of_lt h2 hble, roundRest_of_le h2.le, min_eq_right h2.le]
      simp only [hceq, hcgt h2, hba.succ hble h2]
      rfl
  · rcases lt_trichotomy b2 a2 with h2 | rfl | h2
    · by_cases h3 : b2 < a1
      · have hcut : ¬ Cut a1 a2 b1 b2 := fun h => h3.not_ge h.2.2.1
        rw [roundOut_of_after h3 hble ha1, roundRest_of_after h3 hale hb2,
          roundRest_of_le h2.le, if_neg hcut]
        simp only [hcgt h1, hclt h2, hclt h3]
        rfl
      · have hcut : Cut a1 a2 b1 b2 := ⟨h1.ne', h2.ne', not_lt.1 h3, by order⟩
        rw [roundOut_of_gt h1 (not_lt.1 h3) hale, roundRest_of_lt h2 (not_lt.1 h3),
          roundRest_of_le h2.le, if_pos hcut, min_eq_right h2.le]
        rcases (not_lt.1 h3).eq_or_lt with h4 | h4
        · simp only [hcgt h1, hclt h2, hceq h4.symm, hba.succ h4.le h2, hba.pred h4.le h1]
          rfl
        · simp only [hcgt h1, hclt h2, hcgt h4, hba.succ h4.le h2, hba.pred h4.le h1]
          rfl
    · rw [roundOut_of_gt h1 hale hale, roundRest_of_le le_rfl, roundRest_of_le le_rfl, min_self]
      simp only [hcgt h1, hceq, hba.pred hale h1]
      rfl
    · have hcut : Cut a1 a2 b1 b2 := ⟨h1.ne', h2.ne, by order, by order⟩
      rw [roundOut_of_gt h1 (by order) hale, roundRest_of_le h2.le,
        roundRest_of_lt h2 (by order), if_pos hcut, min_eq_left h2.le]
      simp only [hcgt h1, hcgt h2, hab.succ (h1.le.trans hale) h2, hba.pred (hale.trans h2.le) h1]
      rfl

theorem cutFits_unbounded (a1 a2 b1 b2 : InterVal) : @CutFits HostInt.unbounded a1 a2 b1 b2 :=
  @CutFits.mk HostInt.unbounded _ _ _ _ (fun _ _ => InterVal.plusIVal_one a2)
    fun _ _ => InterVal.subIVal_one b1

/-! ## The lists of a round -/

section Round

variable {fn : ν → ν → ν} {a1 a2 b1 b2 : InterVal} {v u w : ν} {x x1 x2 : OffsList ν} {n : Int}

theorem offsOk_roundRest (h : OffsOk ((.interVal a1 a2, v) :: x)) (hb2 : b2 ≠ .minusInf) :
    OffsOk (roundRest a1 a2 b2 w x) := by
  obtain ⟨ha1, ha2, hale⟩ := h.head
  unfold roundRest
  split
  · exact h.tail
  · rename_i hlt
    rw [not_le] at hlt
    have hsucc : b2.succ ≤ a2 := InterVal.succ_le_of_lt hb2 hlt
    refine ⟨?_, List.pairwise_cons.2 ⟨fun q hq => ?_, h.tail.sorted⟩⟩
    · rintro q (_ | ⟨_, hq⟩)
      · refine ⟨?_, ha2, max_le hale hsucc⟩
        rcases max_choice a1 b2.succ with h | h <;> rw [h]
        · exact ha1
        · cases b2 <;> simp_all [InterVal.succ]
      · exact h.tail.proper q hq
    · -- the remainder ends where the head ended
      have hbefore := h.above hq
      obtain ⟨k, u⟩ := q
      cases k with
      | interVal c d => exact hbefore
      | bot | top | val => exact hbefore

/-- What is left of a list covers nothing up to the end of the shorter head, and above that what
the list covers. -/
theorem lookupOffs_roundRest (h : OffsOk ((.interVal a1 a2, v) :: x)) (hb2 : b2 ≠ .minusInf) :
    lookupOffs (roundRest a1 a2 b2 w x) n =
      if .i n ≤ min a2 b2 then none else lookupOffs ((.interVal a1 a2, w) :: x) n := by
  have htail : InterVal.i n ≤ a2 → lookupOffs x n = none := h.lookupOffs_tail
  unfold roundRest
  split
  · rename_i hle
    by_cases hn : InterVal.i n ≤ a2
    · simp [htail hn, hn, hn.trans hle]
    · simp [lookupOffs_cons, covers_interVal, hn]
  · have hcov : (IntValue.interVal (max a1 b2.succ) a2).Covers n ↔
        (IntValue.interVal a1 a2).Covers n ∧ b2 < .i n := by
      simp only [covers_interVal, max_le_iff, InterVal.succ_le_i hb2]
      exact and_right_comm
    rw [lookupOffs_cons, lookupOffs_cons]
    simp only [hcov]
    by_cases hn : InterVal.i n ≤ a2
    · by_cases hnb : InterVal.i n ≤ b2
      · simp [hn, hnb, hnb.not_gt, htail hn]
      · simp [hnb, not_le.1 hnb]
    · simp [covers_interVal, hn]

theorem offsOk_singleton {k : IntValue} (h : k.Proper) : OffsOk [(k, v)] :=
  ⟨by simpa using h, List.pairwise_singleton _ _⟩

theorem offsOk_pair {k l : IntValue} (hk : k.Proper) (hl : l.Proper) (h : k.Before l) :
    OffsOk [(k, v), (l, u)] :=
  ⟨by simp [hk, hl], List.pairwise_pair.2 h⟩

theorem offsOk_roundOut (ha : (IntValue.interVal a1 a2).Proper)
    (hb : (IntValue.interVal b1 b2).Proper) : OffsOk (roundOut fn a1 a2 b1 b2 v u) := by
  obtain ⟨ha1, ha2, hale⟩ := ha
  obtain ⟨hb1, hb2, hble⟩ := hb
  have hmin : min a2 b2 ≠ .minusInf := by
    rcases min_choice a2 b2 with h | h <;> rw [h] <;> assumption
  by_cases h3 : a2 < b1
  · rw [roundOut_of_before h3 hale hb1]
    exact offsOk_singleton ⟨ha1, ha2, hale⟩
  by_cases h4 : b2 < a1
  · rw [roundOut_of_after h4 hble ha1]
    exact offsOk_singleton ⟨hb1, hb2, hble⟩
  rw [not_lt] at h3 h4
  -- the heads overlap
  rcases lt_trichotomy a1 b1 with h1 | rfl | h1
  · rw [roundOut_of_lt h1 h3 hble]
    refine offsOk_pair ⟨ha1, ?_, InterVal.le_pred_of_lt hb1 h1⟩ ⟨hb1, hmin, le_min h3 hble⟩ ?_
    · cases b1 <;> simp_all [InterVal.pred]
    · show b1.pred < b1
      cases b1 <;> simp_all [InterVal.pred]
  · rw [roundOut_of_eq hale hble]
    exact offsOk_singleton ⟨ha1, hmin, le_min hale hble⟩
  · rw [roundOut_of_gt h1 h4 hale]
    refine offsOk_pair ⟨hb1, ?_, InterVal.le_pred_of_lt ha1 h1⟩ ⟨ha1, hmin, le_min hale h4⟩ ?_
    · cases a1 <;> simp_all [InterVal.pred]
    · show a1.pred < a1
      cases a1 <;> simp_all [InterVal.pred]

/-- Up to the end of the shorter head a round emits what the two lists have there, merged; it emits
nothing above. -/
theorem lookupOffs_roundOut (fn : ν → ν → ν) (n : Int) (h1 : OffsOk ((.interVal a1 a2, v) :: x1))
    (h2 : OffsOk ((.interVal b1 b2, u) :: x2)) :
    lookupOffs (roundOut fn a1 a2 b1 b2 v u) n =
      if .i n ≤ min a2 b2 then
        Option.merge fn (lookupOffs ((.interVal a1 a2, v) :: x1) n)
          (lookupOffs ((.interVal b1 b2, u) :: x2) n)
      else none := by
  obtain ⟨ha1, ha2, hale⟩ := h1.head
  obtain ⟨hb1, hb2, hble⟩ := h2.head
  have hmerge : (if .i n ≤ min a2 b2 then
      Option.merge fn (lookupOffs ((.interVal a1 a2, v) :: x1) n)
        (lookupOffs ((.interVal b1 b2, u) :: x2) n) else none) =
      if .i n ≤ min a2 b2 then
        Option.merge fn (if a1 ≤ .i n then some v else none) (if b1 ≤ .i n then some u else none)
      else none := by
    by_cases hn : InterVal.i n ≤ min a2 b2
    · obtain ⟨hna, hnb⟩ := le_min_iff.1 hn
      simp [hna, hnb, lookupOffs_cons, covers_interVal, h1.lookupOffs_tail hna,
        h2.lookupOffs_tail hnb]
    · rw [if_neg hn, if_neg hn]
  rw [hmerge]
  by_cases h3 : a2 < b1
  · rw [roundOut_of_before h3 hale hb1]
    simp only [lookupOffs_cons, lookupOffs_nil, covers_interVal, le_min_iff, ite_and]
    split_ifs <;> first | rfl | (exfalso; order)
  by_cases h4 : b2 < a1
  · rw [roundOut_of_after h4 hble ha1]
    simp only [lookupOffs_cons, lookupOffs_nil, covers_interVal, le_min_iff, ite_and]
    split_ifs <;> first | rfl | (exfalso; order)
  rw [not_lt] at h3 h4
  rcases lt_trichotomy a1 b1 with h5 | rfl | h5
  · rw [roundOut_of_lt h5 h3 hble]
    simp only [lookupOffs_cons, lookupOffs_nil, covers_interVal, InterVal.i_le_pred hb1,
      le_min_iff, ite_and]
    split_ifs <;> first | rfl | (exfalso; order)
  · rw [roundOut_of_eq hale hble]
    simp only [lookupOffs_cons, lookupOffs_nil, covers_interVal, le_min_iff, ite_and]
    split_ifs <;> rfl
  · rw [roundOut_of_gt h5 h4 hale]
    simp only [lookupOffs_cons, lookupOffs_nil, covers_interVal, InterVal.i_le_pred ha1,
      le_min_iff, ite_and]
    split_ifs <;> first | rfl | (exfalso; order)

end Round

/-- Induction along the rounds: one head of the two lists goes in each of them. -/
@[elab_as_elim]
theorem round_induction {P : OffsList ν → OffsList ν → Prop}
    (nil_left : ∀ x2, OffsOk x2 → P [] x2) (nil_right : ∀ x1, OffsOk x1 → P x1 [])
    (round : ∀ a1 a2 v x1 b1 b2 u x2,
      OffsOk ((.interVal a1 a2, v) :: x1) → OffsOk ((.interVal b1 b2, u) :: x2) →
      P (roundRest a1 a2 b2 (if Cut a1 a2 b1 b2 then u else v) x1)
        (roundRest b1 b2 a2 (if Cut a1 a2 b1 b2 then v else u) x2) →
      P ((.interVal a1 a2, v) :: x1) ((.interVal b1 b2, u) :: x2))
    (x1 x2 : OffsList ν) (h1 : OffsOk x1) (h2 : OffsOk x2) : P x1 x2 := by
  induction hlen : x1.length + x2.length using Nat.strong_induction_on generalizing x1 x2 with
  | _ len ih =>
    match x1, x2, h1, h2 with
    | [], x2, _, h2 => exact nil_left x2 h2
    | (a, v) :: x1, [], h1, _ => exact nil_right _ h1
    | (a, v) :: x1, (b, u) :: x2, h1, h2 =>
      obtain ⟨a1, a2, rfl⟩ := h1.exists_interVal
      obtain ⟨b1, b2, rfl⟩ := h2.exists_interVal
      refine round a1 a2 v x1 b1 b2 u x2 h1 h2 (ih _ ?_ _ _ (offsOk_roundRest h1 h2.head.2.1)
        (offsOk_roundRest h2 h1.head.2.1) rfl)
      subst hlen
      unfold roundRest
      rcases le_total a2 b2 with h | h
      · rw [if_pos h]
        split <;> simp only [List.length_cons] <;> omega
      · rw [if_pos h]
        split <;> simp only [List.length_cons] <;> omega

/-! ## The representation invariant

Integers are unbounded here. -/

attribute [local instance] HostInt.unbounded

/-- On well-formed lists `genIntvalList` returns a well-formed list that covers what one of the two
covers. -/
theorem genIntvalList_ok (fn : ν → ν → ν) {x1 x2 : OffsList ν} (h1 : OffsOk x1) (h2 : OffsOk x2) :
    ∃ r, genIntvalList fn x1 x2 = .ok r ∧ OffsOk r ∧
      ∀ n, (lookupOffs r n).isSome ↔ (lookupOffs x1 n).isSome ∨ (lookupOffs x2 n).isSome := by
  refine round_induction ?_ ?_ ?_ x1 x2 h1 h2
  · intro x2 h2
    exact ⟨x2, rfl, h2, by simp⟩
  · intro x1 h1
    exact ⟨x1, genIntvalList_nil_right fn x1, h1, by simp⟩
  · intro a1 a2 v x1 b1 b2 u x2 h1 h2 ih
    obtain ⟨r, hr, hrok, hcov⟩ := ih
    rw [genIntvalList_round fn v u x1 x2 h1.head h2.head (cutFits_unbounded ..)
      (cutFits_unbounded ..), hr]
    have hout (n : Int) := lookupOffs_roundOut fn n h1 h2
    simp only [lookupOffs_roundRest h1 h2.head.2.1, lookupOffs_roundRest h2 h1.head.2.1,
      min_comm b2 a2] at hcov
    refine ⟨_, rfl, (offsOk_roundOut h1.head h2.head).append hrok fun n m hn hm => ?_, fun n => ?_⟩
    · -- the round emits up to the end of the shorter head, the rest of the run above it
      rw [hout] at hn
      rw [hcov] at hm
      by_cases hm' : InterVal.i m ≤ min a2 b2
      · rw [if_pos hm', if_pos hm'] at hm
        simp at hm
      · by_cases hn' : InterVal.i n ≤ min a2 b2
        · exact InterVal.i_lt_i.1 (hn'.trans_lt (not_le.1 hm'))
        · rw [if_neg hn'] at hn
          simp at hn
    · rw [lookupOffs_append, Option.isSome_or, Bool.or_eq_true, hcov, hout]
      by_cases hn : InterVal.i n ≤ min a2 b2
      · simp only [if_pos hn]
        generalize lookupOffs ((.interVal a1 a2, v) :: x1) n = o1
        generalize lookupOffs ((.interVal b1 b2, u) :: x2) n = o2
        cases o1 <;> cases o2 <;> simp
      · simp only [if_neg hn, isSome_lookupOffs_cons, Option.isSome_none, Bool.false_eq_true,
          false_or]

end Poet
