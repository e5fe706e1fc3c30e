import Mathlib.Tactic.Ring
import Poet.Domain.Interval.Order
import Poet.Domain.Interval.Word

/-!
# Division of intervals

`iDivide` cuts the divisor at zero, divides by each part (`intervalDiv`) and joins the results. The
bounds are divided with Haskell's `div`, which rounds down, while C rounds towards zero. The two only
differ on negative quotients, and there the greatest quotient is rounded too far down. This is seen
where no quotient is greater than that one: all of them are negative, and the bound next to zero is
not a multiple of the divisor (`RoundsDown`). The host also has no quotient of the least word by -1
(`Overflows`). Otherwise the result has all quotients of C.

Division by a negative part is division by its negation of the negated dividend, so the bounds are
compared with the quotients for positive divisors only.
-/

namespace Poet

attribute [local instance] HostInt.word

/-! ## Integer quotients -/

section Quotient

variable {n x m y : Int}

theorem tdiv_of_nonneg (hx : 0 ≤ x) : x.tdiv y = x / y := Int.tdiv_eq_ediv_of_nonneg hx

theorem tdiv_of_neg (hx : x < 0) : x.tdiv y = -((-x) / y) := by
  rw [← tdiv_of_nonneg (by omega : 0 ≤ -x), Int.neg_tdiv, Int.neg_neg]

theorem tdiv_nonpos_of_neg (hx : x < 0) (hy : 0 < y) : x.tdiv y ≤ 0 := by
  rw [tdiv_of_neg hx]
  have := Int.ediv_nonneg (by omega : 0 ≤ -x) hy.le
  omega

theorem tdiv_nonneg_of_nonneg (hx : 0 ≤ x) (hy : 0 < y) : 0 ≤ x.tdiv y := by
  rw [tdiv_of_nonneg hx]
  exact Int.ediv_nonneg hx hy.le

/-- A quotient of positive numbers shrinks with the dividend and with a greater divisor. -/
theorem ediv_le_ediv_of_nonneg (hn : 0 ≤ n) (hnx : n ≤ x) (hy : 0 < y) (hym : y ≤ m) :
    n / m ≤ x / y := by
  have hq : 0 ≤ n / m := Int.ediv_nonneg hn (by omega)
  rw [Int.le_ediv_iff_mul_le hy]
  calc n / m * y ≤ n / m * m := Int.mul_le_mul_of_nonneg_left hym hq
    _ ≤ n := Int.ediv_mul_le n (by omega)
    _ ≤ x := hnx

/-- A negative dividend, rounded down, is below the truncated quotient by a greater divisor. -/
theorem ediv_le_tdiv_of_neg (hn : n < 0) (hnx : n ≤ x) (hm : 0 < m) (hmy : m ≤ y) :
    n / m ≤ x.tdiv y := by
  have hq : n / m < 0 := Int.ediv_neg_of_neg_of_pos hn hm
  rcases Int.lt_or_le x 0 with hx | hx
  · have hle : (-x) / y ≤ -(n / m) := by
      apply Int.ediv_le_of_le_mul (by omega)
      calc -x ≤ -n := by omega
        _ ≤ -(n / m) * m := by
          have := Int.ediv_mul_le n hm.ne'
          rw [Int.neg_mul]
          omega
        _ ≤ -(n / m) * y := Int.mul_le_mul_of_nonneg_left hmy (by omega)
    rw [tdiv_of_neg hx]
    omega
  · have := tdiv_nonneg_of_nonneg hx (by omega : 0 < y)
    omega

/-- Rounding down and rounding towards zero differ on a negative dividend that is no multiple. -/
theorem ediv_lt_tdiv (hn : n < 0) (hm : 0 < m) (hdvd : ¬ m ∣ n) : n / m < n.tdiv m := by
  rw [tdiv_of_neg hn]
  have hdiv := Int.mul_ediv_add_emod n m
  have hmod := Int.emod_pos_of_not_dvd hdvd
  have hneg : (-n) / m ≤ -(n / m) - 1 := by
    apply Int.le_of_lt_add_one
    rw [Int.ediv_lt_iff_lt_mul hm]
    have : (-(n / m) - 1 + 1) * m = -(m * (n / m)) := by ring
    rw [this]
    rcases hmod with h | h <;> omega
  omega

/-- The only quotient of words that is no word. -/
theorem fdiv_fits (hn : minBound ≤ n) (hn' : n ≤ maxBound) (hm : m ≠ 0)
    (h : ¬ (n = minBound ∧ m = -1)) : minBound ≤ n.fdiv m ∧ n.fdiv m ≤ maxBound := by
  simp only [minBound_eq, maxBound_eq] at hn hn' h ⊢
  rcases Int.lt_or_gt_of_ne hm with hm | hm
  · rw [← Int.neg_fdiv_neg, Int.fdiv_eq_ediv_of_nonneg _ (by omega)]
    constructor
    · rw [Int.le_ediv_iff_mul_le (by omega)]
      omega
    · apply Int.le_of_lt_add_one
      rw [Int.ediv_lt_iff_lt_mul (by omega)]
      omega
  · rw [Int.fdiv_eq_ediv_of_nonneg _ hm.le]
    constructor
    · rw [Int.le_ediv_iff_mul_le hm]
      omega
    · apply Int.le_of_lt_add_one
      rw [Int.ediv_lt_iff_lt_mul hm]
      omega

end Quotient

namespace InterVal

variable {a b c d u w : InterVal} {n m x y : Int}

/-- What `divide` returns if the divisor is not zero. -/
def quot : InterVal → InterVal → InterVal
  | .i n, .i m => .i (n.fdiv m)
  | .plusInf, .i m => if 0 < m then .plusInf else .minusInf
  | .minusInf, .i m => if 0 < m then .minusInf else .plusInf
  | _, _ => .i 0

theorem divide_eq_quot (hu : u.Stored) (hw : w ≠ .i 0) (h : ¬ (u = .i minBound ∧ w = .i (-1))) :
    u.divide w = .ok (u.quot w) := by
  cases w with
  | plusInf =>
    cases u with
    | i n => by_cases hn : n = 0 <;> simp [divide, quot, hn]
    | _ => rfl
  | minusInf =>
    cases u with
    | i n => by_cases hn : n = 0 <;> simp [divide, quot, hn]
    | _ => rfl
  | i m =>
    have hm : m ≠ 0 := by simpa using hw
    cases u with
    | i n =>
      have hfits : HostInt.fits (n.fdiv m) = true :=
        fits_word.2 (fdiv_fits hu.1 hu.2 hm (by simpa using h))
      by_cases hn : n = 0
      · simp [divide, quot, hn]
      · simp [divide, quotient, quot, hm, hfits]
    | plusInf =>
      rcases Int.lt_or_gt_of_ne hm with h | h
      · simp [divide, mulIVal, mulInf, signumIVal, quot, Int.sign_eq_neg_one_of_neg h, h.not_gt]
      · simp [divide, mulIVal, mulInf, signumIVal, quot, Int.sign_eq_one_of_pos h, h]
    | minusInf =>
      rcases Int.lt_or_gt_of_ne hm with h | h
      · simp [divide, mulIVal, mulInf, signumIVal, quot, Int.sign_eq_neg_one_of_neg h, h.not_gt]
      · simp [divide, mulIVal, mulInf, signumIVal, quot, Int.sign_eq_one_of_pos h, h]

theorem divide_pos (hu : u.Stored) (hw : .i 1 ≤ w) : u.divide w = .ok (u.quot w) := by
  refine divide_eq_quot hu ?_ ?_
  · rintro rfl
    simp at hw
  · rintro ⟨-, rfl⟩
    simp at hw

theorem divide_neg (hu : u.Stored) (hw : w ≤ .i (-1)) (h : ¬ (u = .i minBound ∧ w = .i (-1))) :
    u.divide w = .ok (u.quot w) := by
  refine divide_eq_quot hu ?_ h
  rintro rfl
  simp at hw

/-- The exact negation of a bound. -/
def opp : InterVal → InterVal
  | .i n => .i (-n)
  | .plusInf => .minusInf
  | .minusInf => .plusInf

/-- A negative divisor: both bounds are negated. -/
theorem quot_opp (hw : w ≠ .i 0) : u.opp.quot w.opp = u.quot w := by
  cases w with
  | plusInf => cases u <;> rfl
  | minusInf => cases u <;> rfl
  | i m =>
    have hm : m ≠ 0 := by simpa using hw
    cases u with
    | i n => simp [opp, quot]
    | plusInf =>
      rcases Int.lt_or_gt_of_ne hm with h | h
      · simp [opp, quot, h, h.not_gt]
      · simp [opp, quot, h, h.not_gt]
    | minusInf =>
      rcases Int.lt_or_gt_of_ne hm with h | h
      · simp [opp, quot, h, h.not_gt]
      · simp [opp, quot, h, h.not_gt]

/-! ## Bounds of the quotients by positive divisors -/

theorem quot_i_pos (hm : 0 < m) : (i n).quot (i m) = i (n / m) := by
  simp [quot, Int.fdiv_eq_ediv_of_nonneg n hm.le]

/-- A divisor between `c` and `d`, with `c` positive. -/
structure PosDivisor (c d : InterVal) (y : Int) : Prop where
  one_le : .i 1 ≤ c
  lower : c ≤ .i y
  upper : .i y ≤ d

namespace PosDivisor

theorem pos (h : PosDivisor c d y) : 0 < y := by
  have := i_le_i.1 (h.one_le.trans h.lower)
  omega

theorem exists_lower (h : PosDivisor c d y) : ∃ m, c = i m ∧ 0 < m ∧ m ≤ y := by
  obtain ⟨hone, hlow, -⟩ := h
  cases c with
  | i m =>
    simp only [i_le_i] at hone hlow
    exact ⟨m, rfl, by omega, hlow⟩
  | plusInf => simp at hlow
  | minusInf => simp at hone

theorem exists_upper (h : PosDivisor c d y) : d = plusInf ∨ ∃ m, d = i m ∧ y ≤ m := by
  have hup := h.upper
  cases d with
  | i m => exact .inr ⟨m, rfl, i_le_i.1 hup⟩
  | plusInf => exact .inl rfl
  | minusInf => simp at hup

theorem lower_le (h : PosDivisor c d y) (ha : a ≤ .i x) :
    min (a.quot c) (a.quot d) ≤ .i (x.tdiv y) := by
  have hy := h.pos
  obtain ⟨k, rfl, hk, hky⟩ := h.exists_lower
  cases a with
  | plusInf => simp at ha
  | minusInf => simp [quot, hk]
  | i n =>
    have hnx : n ≤ x := i_le_i.1 ha
    rcases Int.lt_or_le n 0 with hn | hn
    · apply min_le_of_left_le
      rw [quot_i_pos hk]
      exact i_le_i.2 (ediv_le_tdiv_of_neg hn hnx hk hky)
    · apply min_le_of_right_le
      rcases h.exists_upper with rfl | ⟨m, rfl, hym⟩
      · exact i_le_i.2 (tdiv_nonneg_of_nonneg (hn.trans hnx) hy)
      · rw [quot_i_pos (by omega), tdiv_of_nonneg (hn.trans hnx)]
        exact i_le_i.2 (ediv_le_ediv_of_nonneg hn hnx hy hym)

/-- The greatest bound is not rounded: it is not negative, or a multiple of the greatest divisor. -/
def Exact (b d : InterVal) : Prop := ∀ n m, b = .i n → d = .i m → n < 0 → m ∣ n

theorem exact_of_nonneg (hb : .i 0 ≤ b) : Exact b d := by
  rintro n m rfl - hn
  have := i_le_i.1 hb
  omega

theorem le_upper (h : PosDivisor c d y) (hb : .i x ≤ b) (hex : Exact b d) :
    .i (x.tdiv y) ≤ max (b.quot c) (b.quot d) := by
  have hy := h.pos
  obtain ⟨k, rfl, hk, hky⟩ := h.exists_lower
  cases b with
  | minusInf => simp at hb
  | plusInf => simp [quot, hk]
  | i n =>
    have hxn : x ≤ n := i_le_i.1 hb
    rcases Int.lt_or_le n 0 with hn | hn
    · apply le_max_of_le_right
      have hx : x < 0 := by omega
      rcases h.exists_upper with rfl | ⟨m, rfl, hym⟩
      · exact i_le_i.2 (tdiv_nonpos_of_neg hx hy)
      · rw [quot_i_pos (by omega), tdiv_of_neg hx, i_le_i]
        have hle : (-n) / m ≤ (-x) / y := ediv_le_ediv_of_nonneg (by omega) (by omega) hy hym
        rw [Int.neg_ediv_of_dvd (hex n m rfl rfl hn)] at hle
        omega
    · apply le_max_of_le_left
      rw [quot_i_pos hk, i_le_i]
      rcases Int.lt_or_le x 0 with hx | hx
      · exact (tdiv_nonpos_of_neg hx hy).trans (Int.ediv_nonneg hn hk.le)
      · rw [tdiv_of_nonneg hx]
        exact ediv_le_ediv_of_nonneg hx hxn hk hky

theorem upper_lt (h : PosDivisor c (.i m) m) (hn : n < 0) (hdvd : ¬ m ∣ n) :
    max ((i n).quot c) ((i n).quot (.i m)) < .i (n.tdiv m) := by
  have hm := h.pos
  obtain ⟨k, rfl, hk, hkm⟩ := h.exists_lower
  have hlt : n / m < n.tdiv m := ediv_lt_tdiv hn hm hdvd
  rw [quot_i_pos hk, quot_i_pos hm]
  refine max_lt (i_lt_i.2 ?_) (i_lt_i.2 hlt)
  -- a smaller divisor gives a smaller quotient of a negative number
  have hle : n / k ≤ n / m := by
    rw [Int.le_ediv_iff_mul_le hm]
    have hneg : n / k < 0 := Int.ediv_neg_of_neg_of_pos hn hk
    calc n / k * m ≤ n / k * k := Int.mul_le_mul_of_nonpos_left hneg.le hkm
      _ ≤ n := Int.ediv_mul_le n hk.ne'
  omega

theorem upper_nonneg (h : PosDivisor c d y) (hb : .i 0 ≤ b) :
    .i 0 ≤ max (b.quot c) (b.quot d) := by
  have hle := h.le_upper hb (exact_of_nonneg hb)
  simpa using hle

end PosDivisor

/-! ## Negative divisors -/

@[simp] theorem opp_le_opp : a.opp ≤ b.opp ↔ b ≤ a := by
  cases a <;> cases b <;> simp [opp]

@[simp] theorem opp_i : (i n).opp = i (-n) := rfl

theorem eq_of_opp_eq_i (h : a.opp = i n) : a = i (-n) := by
  cases a with
  | i k =>
    have hk : -k = n := by simpa using h
    rw [← hk, Int.neg_neg]
  | plusInf => cases h
  | minusInf => cases h

/-- A divisor between `c` and `d`, with `d` negative. -/
structure NegDivisor (c d : InterVal) (y : Int) : Prop where
  le_neg_one : d ≤ .i (-1)
  lower : c ≤ .i y
  upper : .i y ≤ d

namespace NegDivisor

theorem opp (h : NegDivisor c d y) : PosDivisor d.opp c.opp (-y) where
  one_le := by
    rw [show i 1 = (i (-1)).opp from rfl, opp_le_opp]
    exact h.le_neg_one
  lower := by
    rw [← opp_i, opp_le_opp]
    exact h.upper
  upper := by
    rw [← opp_i, opp_le_opp]
    exact h.lower

theorem upper_ne_zero (h : NegDivisor c d y) : d ≠ .i 0 := by
  rintro rfl
  have := i_le_i.1 h.le_neg_one
  omega

theorem lower_ne_zero (h : NegDivisor c d y) : c ≠ .i 0 := by
  rintro rfl
  have := i_le_i.1 ((h.lower.trans h.upper).trans h.le_neg_one)
  omega

theorem quot_lower (h : NegDivisor c d y) : u.opp.quot c.opp = u.quot c :=
  quot_opp h.lower_ne_zero

theorem quot_upper (h : NegDivisor c d y) : u.opp.quot d.opp = u.quot d :=
  quot_opp h.upper_ne_zero

theorem lower_le (h : NegDivisor c d y) (hb : .i x ≤ b) :
    min (b.quot c) (b.quot d) ≤ .i (x.tdiv y) := by
  have hle := h.opp.lower_le (a := b.opp) (x := -x) (by rwa [← opp_i, opp_le_opp])
  rwa [h.quot_lower, h.quot_upper, min_comm, Int.neg_tdiv_neg] at hle

theorem le_upper (h : NegDivisor c d y) (ha : a ≤ .i x)
    (hex : PosDivisor.Exact a.opp c.opp) :
    .i (x.tdiv y) ≤ max (a.quot c) (a.quot d) := by
  have hle := h.opp.le_upper (x := -x) (by rwa [← opp_i, opp_le_opp]) hex
  rwa [h.quot_lower, h.quot_upper, max_comm, Int.neg_tdiv_neg] at hle

theorem upper_lt (h : NegDivisor (.i m) d m) (hn : 0 < n) (hdvd : ¬ m ∣ n) :
    max ((i n).quot (.i m)) ((i n).quot d) < .i (n.tdiv m) := by
  have hlt := h.opp.upper_lt (n := -n) (by omega) (by rwa [Int.neg_dvd, Int.dvd_neg])
  rwa [← opp_i (n := n), h.quot_upper, ← opp_i (n := m), quot_opp h.lower_ne_zero, max_comm,
    Int.neg_tdiv_neg] at hlt

theorem upper_nonneg (h : NegDivisor c d y) (ha : a ≤ .i 0) :
    .i 0 ≤ max (a.quot c) (a.quot d) := by
  have hle := h.opp.upper_nonneg (b := a.opp) (by
    rw [show i 0 = (i 0).opp from rfl, opp_le_opp]
    exact ha)
  rwa [h.quot_lower, h.quot_upper, max_comm] at hle

end NegDivisor

end InterVal

namespace IntValue

variable {a b c d : InterVal} {x y : Int}

/-! ## The two parts of the divisor -/

/-- The least word is a bound of the dividend and -1 is in the divisor. -/
def Overflows (a b c d : InterVal) : Prop :=
  (a = .i minBound ∨ b = .i minBound) ∧ c ≤ .i (-1) ∧ .i (-1) ≤ d

/-- The quotients by the positive part of `[c, d]`. -/
def posPart (a b c d : InterVal) : IntValue :=
  if d < .i 1 then .bot
  else .interVal (min (a.quot (max c (.i 1))) (a.quot d)) (max (b.quot (max c (.i 1))) (b.quot d))

/-- The quotients by the negative part of `[c, d]`. -/
def negPart (a b c d : InterVal) : IntValue :=
  if .i (-1) < c then .bot
  else .interVal (min (b.quot c) (b.quot (min d (.i (-1))))) (max (a.quot c) (a.quot (min d (.i (-1)))))

theorem intervalDiv_pos (hw : InWord (.interVal a b)) (hcd : c ≤ d) :
    ((interVal c d).meet (.interVal (.i 1) .plusInf) >>= (interVal a b).intervalDiv) =
      .ok (posPart a b c d) := by
  have hmin : min d .plusInf = d := min_eq_left (InterVal.le_plusInf d)
  have hlt : d < max c (.i 1) ↔ d < .i 1 := by simp [hcd.not_gt]
  simp only [meet, posPart, hmin, hlt]
  by_cases hd : d < .i 1
  · simp [hd, intervalDiv]
  · have hone : .i 1 ≤ max c (.i 1) := le_max_right c _
    have hd1 : .i 1 ≤ d := not_lt.1 hd
    simp [hd, intervalDiv, InterVal.divide_pos hw.1 hone, InterVal.divide_pos hw.1 hd1,
      InterVal.divide_pos hw.2 hone, InterVal.divide_pos hw.2 hd1]

theorem intervalDiv_neg (hw : InWord (.interVal a b)) (hcd : c ≤ d) (hno : ¬ Overflows a b c d) :
    ((interVal c d).meet (.interVal .minusInf (.i (-1))) >>= (interVal a b).intervalDiv) =
      .ok (negPart a b c d) := by
  have hmax : max c .minusInf = c := max_eq_left (InterVal.minusInf_le c)
  have hlt : min d (.i (-1)) < c ↔ .i (-1) < c := by simp [hcd.not_gt]
  simp only [meet, negPart, hmax, hlt]
  by_cases hc : .i (-1) < c
  · simp [hc, intervalDiv]
  · have hc1 : c ≤ .i (-1) := not_lt.1 hc
    have hone : min d (.i (-1)) ≤ .i (-1) := min_le_right d _
    have hpos : ¬ .i 1 ≤ c := by
      intro h
      exact hc (lt_of_lt_of_le (by simp) h)
    -- a divisor -1 and the least word would overflow
    have hfits {u w : InterVal} (hu : u = a ∨ u = b) (hd : w = .i (-1) → .i (-1) ≤ d) :
        ¬ (u = .i minBound ∧ w = .i (-1)) := by
      rintro ⟨rfl, hw⟩
      exact hno ⟨hu.imp Eq.symm Eq.symm, hc1, hd hw⟩
    have hdc : c = .i (-1) → .i (-1) ≤ d := fun h => h ▸ hcd
    have hdd : min d (.i (-1)) = .i (-1) → .i (-1) ≤ d := min_eq_right_iff.1
    simp [hc, hpos, intervalDiv, InterVal.divide_neg hw.1 hc1 (hfits (.inl rfl) hdc),
      InterVal.divide_neg hw.1 hone (hfits (.inl rfl) hdd),
      InterVal.divide_neg hw.2 hc1 (hfits (.inr rfl) hdc),
      InterVal.divide_neg hw.2 hone (hfits (.inr rfl) hdd)]

theorem iDivide_eq [SimpleC] (hw : InWord (.interVal a b)) (hcd : c ≤ d) (hno : ¬ Overflows a b c d) :
    (interVal a b).iDivide (.interVal c d) = (posPart a b c d).join (negPart a b c d) := by
  have hpos := intervalDiv_pos hw hcd
  have hneg := intervalDiv_neg hw hcd hno
  show (do
    let pos ← (interVal a b).intervalDiv (← (interVal c d).meet (.interVal (.i 1) .plusInf))
    let neg ← (interVal a b).intervalDiv (← (interVal c d).meet (.interVal .minusInf (.i (-1))))
    pos.join neg) = _
  rw [← bind_assoc, hpos, ok_bind, ← bind_assoc, hneg, ok_bind]

/-- The quotient of the least word by -1 is computed, and it is an `error`. -/
theorem Overflows.iDivide_ne_ok [SimpleC] (h : Overflows a b c d) (w : IntValue) :
    (interVal a b).iDivide (.interVal c d) ≠ .ok w := by
  obtain ⟨hmin, hc, hd⟩ := h
  have herr : (InterVal.i minBound).divide (.i (-1)) = .error (.error "arithmetic overflow") := by
    decide
  have hmeet : (interVal c d).meet (.interVal .minusInf (.i (-1))) =
      .ok (.interVal c (.i (-1))) := by
    simp [meet, min_eq_right hd, hc.not_gt]
  intro hw
  obtain ⟨_, -, hw⟩ := bind_eq_ok.1 hw
  obtain ⟨_, -, hw⟩ := bind_eq_ok.1 hw
  obtain ⟨_, hm, hw⟩ := bind_eq_ok.1 hw
  obtain ⟨_, hdiv, -⟩ := bind_eq_ok.1 hw
  obtain rfl := Except.ok.inj (hmeet.symm.trans hm)
  obtain ⟨_, -, hdiv⟩ := bind_eq_ok.1 hdiv
  obtain ⟨_, ha, hdiv⟩ := bind_eq_ok.1 hdiv
  obtain ⟨_, -, hdiv⟩ := bind_eq_ok.1 hdiv
  obtain ⟨_, hb, -⟩ := bind_eq_ok.1 hdiv
  rcases hmin with rfl | rfl
  · exact absurd (herr.symm.trans ha) (by simp)
  · exact absurd (herr.symm.trans hb) (by simp)

/-- What the code gets for the divisors of one sign: nothing if there is none, and otherwise bounds
for the quotients. The upper one may fail if it was rounded (`exact` says when it was not), but is
not negative if zero is on the side of the dividend that gives the greatest quotient (`zero`). -/
structure PartBounds (part : IntValue) (a b : InterVal) (ys : Int → Prop) (exact zero : Prop) (lo hi : InterVal) :
    Prop where
  eq : part = .interVal lo hi
  lower : ∀ x y, x ∈ interVal a b → ys y → lo ≤ .i (x.tdiv y)
  upper : exact → ∀ x y, x ∈ interVal a b → ys y → .i (x.tdiv y) ≤ hi
  nonneg : zero → .i 0 ≤ hi

theorem posPart_bounds (hv : Proper (.interVal c d)) (hd : ¬ d < .i 1) :
    ∃ lo hi, PartBounds (posPart a b c d) a b (fun y => 0 < y ∧ y ∈ interVal c d)
      (InterVal.PosDivisor.Exact b d) (.i 0 ≤ b) lo hi := by
  have hdiv : ∀ y, 0 < y → y ∈ interVal c d → InterVal.PosDivisor (max c (.i 1)) d y :=
    fun y hy hm => ⟨le_max_right c _, max_le hm.1 (InterVal.i_le_i.2 hy), hm.2⟩
  refine ⟨_, _, if_neg hd, fun x y hx hy => (hdiv y hy.1 hy.2).lower_le hx.1,
    fun hex x y hx hy => (hdiv y hy.1 hy.2).le_upper hx.2 hex, fun hb => ?_⟩
  -- some positive integer is in the divisor
  obtain ⟨k, hk⟩ := hv.exists_covers
  have hmax : (max k 1 : Int) ∈ interVal c d := by
    rcases le_total k 1 with h | h
    · rw [max_eq_right h]
      exact ⟨hk.1.trans (InterVal.i_le_i.2 h), not_lt.1 hd⟩
    · rwa [max_eq_left h]
  exact (hdiv (max k 1) (by omega) hmax).upper_nonneg hb

theorem negPart_bounds (hv : Proper (.interVal c d)) (hc : ¬ .i (-1) < c) :
    ∃ lo hi, PartBounds (negPart a b c d) a b (fun y => y < 0 ∧ y ∈ interVal c d)
      (InterVal.PosDivisor.Exact a.opp c.opp) (a ≤ .i 0) lo hi := by
  have hdiv : ∀ y, y < 0 → y ∈ interVal c d → InterVal.NegDivisor c (min d (.i (-1))) y :=
    fun y hy hm => ⟨min_le_right d _, hm.1, le_min hm.2 (InterVal.i_le_i.2 (by omega))⟩
  refine ⟨_, _, if_neg hc, fun x y hx hy => (hdiv y hy.1 hy.2).lower_le hx.2,
    fun hex x y hx hy => (hdiv y hy.1 hy.2).le_upper hx.1 hex, fun ha => ?_⟩
  obtain ⟨k, hk⟩ := hv.exists_covers
  have hmin : (min k (-1) : Int) ∈ interVal c d := by
    rcases le_total k (-1) with h | h
    · rwa [min_eq_left h]
    · rw [min_eq_right h]
      exact ⟨not_lt.1 hc, (InterVal.i_le_i.2 h).trans hk.2⟩
  exact (hdiv (min k (-1)) (by omega) hmin).upper_nonneg ha

/-! ## The quotients of C -/

/-- All quotients are negative, and the greatest one has a remainder. -/
def RoundsDown (a b c d : InterVal) : Prop :=
  (∃ n m, b = .i n ∧ d = .i m ∧ n < 0 ∧ 0 < m ∧ ¬ m ∣ n ∧ .i 0 ≤ c) ∨
    ∃ n m, a = .i n ∧ c = .i m ∧ 0 < n ∧ m < 0 ∧ ¬ m ∣ n ∧ d ≤ .i 0

theorem exact_of_not_roundsDown_pos (h : ¬ RoundsDown a b c d) (hd : ¬ d < .i 1)
    (hc : .i (-1) < c) : InterVal.PosDivisor.Exact b d := by
  rintro n m rfl rfl hn
  by_contra hdvd
  refine h (.inl ⟨n, m, rfl, rfl, hn, ?_, hdvd, ?_⟩)
  · simp at hd
    omega
  · exact InterVal.succ_le_of_lt (by simp) hc

theorem exact_of_not_roundsDown_neg (h : ¬ RoundsDown a b c d) (hd : d < .i 1)
    (hc : ¬ .i (-1) < c) : InterVal.PosDivisor.Exact a.opp c.opp := by
  intro n m hn hm hneg
  obtain rfl := InterVal.eq_of_opp_eq_i hn
  obtain rfl := InterVal.eq_of_opp_eq_i hm
  by_contra hdvd
  refine h (.inr ⟨-n, -m, rfl, rfl, by omega, ?_, by simpa using hdvd, ?_⟩)
  · simp at hc
    omega
  · exact InterVal.le_pred_of_lt (by simp) hd

theorem RoundsDown.missed [SimpleC] (h : RoundsDown a b c d) (hu : Proper (.interVal a b))
    (hw : InWord (.interVal a b)) (hv : Proper (.interVal c d)) (hno : ¬ Overflows a b c d) :
    ∃ w x y, (interVal a b).iDivide (.interVal c d) = .ok w ∧ x ∈ interVal a b ∧
      y ∈ interVal c d ∧ y ≠ 0 ∧ ¬ x.tdiv y ∈ w := by
  rw [iDivide_eq hw hv.2.2 hno]
  rcases h with ⟨n, m, rfl, rfl, hn, hm, hdvd, hc⟩ | ⟨n, m, rfl, rfl, hn, hm, hdvd, hd⟩
  · have hneg : negPart a (.i n) c (.i m) = .bot := if_pos ((by simp : (.i (-1) : InterVal) < .i 0).trans_le hc)
    have hpos : ¬ (.i m : InterVal) < .i 1 := by
      simp
      omega
    have hdiv : InterVal.PosDivisor (max c (.i 1)) (.i m) m :=
      ⟨le_max_right c _, max_le hv.2.2 (InterVal.i_le_i.2 hm), le_refl _⟩
    refine ⟨_, n, m, by rw [hneg, posPart, if_neg hpos]; rfl, ⟨hu.2.2, le_refl _⟩, ⟨hv.2.2, le_refl _⟩,
      hm.ne', fun hmem => ?_⟩
    exact absurd hmem.2 (not_le.2 (hdiv.upper_lt hn hdvd))
  · have hpos : posPart (.i n) b (.i m) d = .bot := if_pos (hd.trans_lt (by simp))
    have hneg : ¬ (.i (-1) : InterVal) < .i m := by
      simp
      omega
    have hdiv : InterVal.NegDivisor (.i m) (min d (.i (-1))) m :=
      ⟨min_le_right d _, le_refl _, le_min hv.2.2 (InterVal.i_le_i.2 (by omega))⟩
    refine ⟨_, n, m, by rw [hpos, negPart, if_neg hneg]; rfl, ⟨le_refl _, hu.2.2⟩, ⟨le_refl _, hv.2.2⟩,
      hm.ne, fun hmem => ?_⟩
    exact absurd hmem.2 (not_le.2 (hdiv.upper_lt hn hdvd))

/-- Divisors of both signs: a bound that was rounded down is covered by the other part. -/
theorem mem_both_parts {P Q : IntValue} {lo hi lo' hi' : InterVal}
    (hb : PartBounds P a b (fun y => 0 < y ∧ y ∈ interVal c d) (InterVal.PosDivisor.Exact b d)
      (.i 0 ≤ b) lo hi)
    (hb' : PartBounds Q a b (fun y => y < 0 ∧ y ∈ interVal c d)
      (InterVal.PosDivisor.Exact a.opp c.opp) (a ≤ .i 0) lo' hi')
    (hx : x ∈ interVal a b) (hy : y ∈ interVal c d) (hy0 : y ≠ 0) :
    x.tdiv y ∈ interVal (min lo lo') (max hi hi') := by
  rcases Int.lt_or_gt_of_ne hy0 with hneg | hpos
  · refine ⟨min_le_of_right_le (hb'.lower x y hx ⟨hneg, hy⟩), ?_⟩
    rcases Int.lt_or_le 0 x with hx0 | hx0
    · have hq : .i (x.tdiv y) ≤ (.i 0 : InterVal) := by
        rw [← Int.neg_tdiv_neg]
        exact InterVal.i_le_i.2 (tdiv_nonpos_of_neg (by omega) (by omega))
      have hb0 : .i 0 ≤ b := (InterVal.i_le_i.2 hx0.le).trans hx.2
      exact le_max_of_le_left (hq.trans (hb.nonneg hb0))
    · have hex := InterVal.PosDivisor.exact_of_nonneg (d := c.opp)
        (InterVal.opp_le_opp.2 (hx.1.trans (InterVal.i_le_i.2 hx0)))
      exact le_max_of_le_right (hb'.upper hex x y hx ⟨hneg, hy⟩)
  · refine ⟨min_le_of_left_le (hb.lower x y hx ⟨hpos, hy⟩), ?_⟩
    rcases Int.lt_or_le x 0 with hx0 | hx0
    · have hq : .i (x.tdiv y) ≤ (.i 0 : InterVal) := InterVal.i_le_i.2 (tdiv_nonpos_of_neg hx0 hpos)
      have ha : a ≤ .i 0 := hx.1.trans (InterVal.i_le_i.2 hx0.le)
      exact le_max_of_le_right (hq.trans (hb'.nonneg ha))
    · have hex := InterVal.PosDivisor.exact_of_nonneg (d := d) ((InterVal.i_le_i.2 hx0).trans hx.2)
      exact le_max_of_le_left (hb.upper hex x y hx ⟨hpos, hy⟩)

/-- Unless the greatest quotient is rounded down, the result has every quotient. -/
theorem iDivide_contains [SimpleC] (hw : InWord (.interVal a b)) (hv : Proper (.interVal c d))
    (hnot : ¬ RoundsDown a b c d) (hno : ¬ Overflows a b c d) :
    ∃ w, (interVal a b).iDivide (.interVal c d) = .ok w ∧
      ∀ x y, x ∈ interVal a b → y ∈ interVal c d → y ≠ 0 → x.tdiv y ∈ w := by
  rw [iDivide_eq hw hv.2.2 hno]
  have hsign : ∀ y, y ∈ interVal c d → y ≠ 0 → (0 < y ∧ ¬ d < .i 1) ∨ (y < 0 ∧ ¬ .i (-1) < c) := by
    intro y hy hy0
    rcases Int.lt_or_gt_of_ne hy0 with h | h
    · exact .inr ⟨h, fun hlt => absurd (InterVal.i_lt_i.1 (hlt.trans_le hy.1)) (by omega)⟩
    · exact .inl ⟨h, fun hlt => absurd (InterVal.i_lt_i.1 (hy.2.trans_lt hlt)) (by omega)⟩
  by_cases hd : d < .i 1
  · have hpos : posPart a b c d = .bot := if_pos hd
    by_cases hc : .i (-1) < c
    · -- the divisor is zero
      refine ⟨.bot, by rw [hpos, negPart, if_pos hc]; rfl, fun x y _ hy hy0 => ?_⟩
      exact absurd (hsign y hy hy0) (by simp [hd, hc])
    · obtain ⟨lo, hi, hb⟩ := negPart_bounds (a := a) (b := b) hv hc
      refine ⟨.interVal lo hi, by rw [hpos, hb.eq]; rfl, fun x y hx hy hy0 => ?_⟩
      have hneg : y < 0 := ((hsign y hy hy0).resolve_left fun h => h.2 hd).1
      exact ⟨hb.lower x y hx ⟨hneg, hy⟩,
        hb.upper (exact_of_not_roundsDown_neg hnot hd hc) x y hx ⟨hneg, hy⟩⟩
  · obtain ⟨lo, hi, hb⟩ := posPart_bounds (a := a) (b := b) hv hd
    by_cases hc : .i (-1) < c
    · refine ⟨.interVal lo hi, by rw [hb.eq, negPart, if_pos hc]; rfl, fun x y hx hy hy0 => ?_⟩
      have hpos : 0 < y := ((hsign y hy hy0).resolve_right fun h => h.2 hc).1
      exact ⟨hb.lower x y hx ⟨hpos, hy⟩,
        hb.upper (exact_of_not_roundsDown_pos hnot hd hc) x y hx ⟨hpos, hy⟩⟩
    · obtain ⟨lo', hi', hb'⟩ := negPart_bounds (a := a) (b := b) hv hc
      exact ⟨.interVal (min lo lo') (max hi hi'), by rw [hb.eq, hb'.eq]; rfl,
        fun x y hx hy hy0 => mem_both_parts hb hb' hx hy hy0⟩

section Integers

attribute [local instance] SimpleC.integers

end Integers

end IntValue

end Poet
