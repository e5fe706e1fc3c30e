import Poet.Domain.Interval.Order
import Poet.Domain.Interval.Word

/-!
# Which interval operations return, and return intervals

The bounds are machine words, so the sum of two non-empty intervals can be empty: one of its bounds
goes round and the other does not (`InOrder`). A difference also calls `error` where a bound of one
argument is infinite and the bound it is subtracted from, or that is subtracted from it, is the
same infinity; a product where an infinite bound meets a zero one. A product that is returned is the
least and the greatest of four words, in order whatever they are. `negate` leaves the bounds in their
places: it fits an interval with one integer, and one that starts at the least word, which is its own
negation.
-/

namespace Poet

attribute [local instance] HostInt.word

namespace InterVal

variable {a b c d p : InterVal}

/-- The factors of which `mulIVal` has no product. -/
def InfTimesZero (u w : InterVal) : Prop :=
  (u = .i 0 ∧ (w = .plusInf ∨ w = .minusInf)) ∨ (w = .i 0 ∧ (u = .plusInf ∨ u = .minusInf))

instance (u w : InterVal) : Decidable (InfTimesZero u w) :=
  inferInstanceAs (Decidable ((u = .i 0 ∧ (w = .plusInf ∨ w = .minusInf)) ∨
    (w = .i 0 ∧ (u = .plusInf ∨ u = .minusInf))))

theorem exists_mulInf {text : String} {neg pos : InterVal} :
    (∃ p, mulInf text neg pos a = .ok p) ↔ a ≠ .i 0 := by
  cases a with
  | plusInf => simp [mulInf, signumIVal]
  | minusInf => simp [mulInf, signumIVal]
  | i n =>
    rcases Int.lt_trichotomy n 0 with hn | rfl | hn
    · simp [mulInf, signumIVal, Int.sign_eq_neg_one_of_neg hn, hn.ne]
    · simp [mulInf, signumIVal]
    · simp [mulInf, signumIVal, Int.sign_eq_one_of_pos hn, hn.ne']

theorem exists_mulIVal {u w : InterVal} : (∃ p, u.mulIVal w = .ok p) ↔ ¬ u.InfTimesZero w := by
  cases u with
  | plusInf => simp [mulIVal, exists_mulInf, InfTimesZero]
  | minusInf => simp [mulIVal, exists_mulInf, InfTimesZero]
  | i n =>
    cases w with
    | i m => simp [mulIVal, store_word, InfTimesZero]
    | plusInf => simp [mulIVal, exists_mulInf, InfTimesZero]
    | minusInf => simp [mulIVal, exists_mulInf, InfTimesZero]

/-- The word of a bound. -/
def wrapped : InterVal → InterVal
  | .i n => .i (wrap n)
  | b => b

@[simp] theorem wrapped_eq_plusInf : b.wrapped = plusInf ↔ b = plusInf := by
  cases b <;> simp [wrapped]

@[simp] theorem wrapped_eq_minusInf : b.wrapped = minusInf ↔ b = minusInf := by
  cases b <;> simp [wrapped]

/-- A product is the word of the exact product. -/
theorem mulIVal_word {u w : InterVal} (h : u.mulIVal w = .ok p) :
    ∃ q, @mulIVal HostInt.unbounded u w = .ok q ∧ p = q.wrapped := by
  have hinf {text : String} {neg pos v : InterVal} (hneg : neg.wrapped = neg)
      (hpos : pos.wrapped = pos) (h : mulInf text neg pos v = .ok p) :
      ∃ q, mulInf text neg pos v = .ok q ∧ p = q.wrapped := by
    refine ⟨p, h, ?_⟩
    unfold mulInf at h
    split at h <;> cases h
    · exact hneg.symm
    · exact hpos.symm
  cases u with
  | plusInf => exact hinf rfl rfl h
  | minusInf => exact hinf rfl rfl h
  | i n =>
    cases w with
    | plusInf => exact hinf rfl rfl h
    | minusInf => exact hinf rfl rfl h
    | i m =>
      simp only [mulIVal, store_word] at h
      exact ⟨_, rfl, (Except.ok.inj h).symm⟩

theorem min_eq_plusInf {u w : InterVal} : min u w = plusInf ↔ u = plusInf ∧ w = plusInf := by
  constructor
  · intro h
    exact ⟨le_antisymm (le_plusInf u) (h ▸ min_le_left u w),
      le_antisymm (le_plusInf w) (h ▸ min_le_right u w)⟩
  · rintro ⟨rfl, rfl⟩
    exact min_self _

theorem max_eq_minusInf {u w : InterVal} : max u w = minusInf ↔ u = minusInf ∧ w = minusInf := by
  constructor
  · intro h
    exact ⟨le_antisymm (h ▸ le_max_left u w) (minusInf_le u),
      le_antisymm (h ▸ le_max_right u w) (minusInf_le w)⟩
  · rintro ⟨rfl, rfl⟩
    exact max_self _

end InterVal

namespace IntValue

variable {u v w : IntValue} {a b c d : InterVal}

/-- The words of `p` and `q` are in order, for `p ≤ q`: both go round on the same side or not at all,
or one of them goes round a whole turn below the other. -/
def InOrder (p q : Int) : Prop :=
  turns p = turns q ∨ turns q = turns p + 1 ∧ 2 ^ 64 ≤ q - p

theorem proper_wrap {p q : Int} (hp : -2 ^ 64 ≤ p) (hpq : p ≤ q) (hq : q < 2 ^ 64) :
    Proper (.interVal (.i (wrap p)) (.i (wrap q))) ↔ InOrder p q := by
  have hle : Proper (.interVal (.i (wrap p)) (.i (wrap q))) ↔ wrap p ≤ wrap q := by simp [Proper]
  rw [hle, wrap_eq hp (by omega), wrap_eq (by omega) hq, InOrder]
  unfold turns
  simp only [minBound_eq, maxBound_eq]
  split_ifs <;> first | omega | (simp; omega)

@[simp] theorem proper_minusInf : Proper (.interVal .minusInf b) ↔ b ≠ .minusInf := by
  simp [Proper]

@[simp] theorem proper_plusInf : Proper (.interVal a .plusInf) ↔ a ≠ .plusInf := by
  simp [Proper]

section Operations

variable [SimpleC] (hu : Proper (.interVal a b)) (hu' : InWord (.interVal a b))
  (hv : Proper (.interVal c d)) (hv' : InWord (.interVal c d))
include hu hu'

theorem negate_closed_iff :
    (∃ w, (interVal a b).negate = .ok w ∧ w.Proper) ↔
      a = b ∨ a = .i minBound ∧ b ≠ .plusInf := by
  obtain ⟨ha, hb, hab⟩ := hu
  cases a <;> cases b <;> simp_all [negate, InterVal.negateIVal, InterVal.store_word]
  next n m =>
    obtain ⟨⟨hn, hn'⟩, hm, hm'⟩ := hu'
    simp only [minBound_eq, maxBound_eq] at hn hn' hm hm' ⊢
    have hle : Proper (.interVal (.i (wrap (-n))) (.i (wrap (-m)))) ↔ wrap (-n) ≤ wrap (-m) := by
      simp [Proper]
    rw [hle, wrap_eq (by omega) (by omega), wrap_eq (by omega) (by omega)]
    unfold turns
    simp only [minBound_eq, maxBound_eq]
    split_ifs <;> omega
  all_goals simp [Proper]

include hv hv'

theorem add_closed_iff :
    (∃ w, (interVal a b).add (.interVal c d) = .ok w ∧ w.Proper) ↔
      ∀ n, a = .i n → ∀ m, b = .i m → ∀ k, c = .i k → ∀ l, d = .i l → InOrder (n + k) (m + l) := by
  obtain ⟨ha, hb, hab⟩ := hu
  obtain ⟨hc, hd, hcd⟩ := hv
  cases a <;> cases b <;> cases c <;> cases d <;>
    simp_all [add, arith, InterVal.plusIVal, InterVal.store_word]
  next n m k l =>
    obtain ⟨⟨hn, -⟩, -, hm⟩ := hu'
    obtain ⟨⟨hk, -⟩, -, hl⟩ := hv'
    simp only [minBound_eq, maxBound_eq] at hn hm hk hl
    exact proper_wrap (by omega) (by omega) (by omega)

theorem sub_closed_iff :
    (∃ w, (interVal a b).sub (.interVal c d) = .ok w ∧ w.Proper) ↔
      ¬ (a = .minusInf ∧ d = .plusInf) ∧ ¬ (b = .plusInf ∧ c = .minusInf) ∧
      ∀ n, a = .i n → ∀ m, b = .i m → ∀ k, c = .i k → ∀ l, d = .i l → InOrder (n - l) (m - k) := by
  obtain ⟨ha, hb, hab⟩ := hu
  obtain ⟨hc, hd, hcd⟩ := hv
  cases a <;> cases b <;> cases c <;> cases d <;>
    simp_all [sub, arith, InterVal.subIVal, InterVal.store_word]
  next n m k l =>
    obtain ⟨⟨hn, -⟩, -, hm⟩ := hu'
    obtain ⟨⟨hk, -⟩, -, hl⟩ := hv'
    simp only [minBound_eq, maxBound_eq] at hn hm hk hl
    exact proper_wrap (by omega) (by omega) (by omega)

omit hu' hv' in
theorem mul_closed_iff :
    (∃ w, (interVal a b).mul (.interVal c d) = .ok w ∧ w.Proper) ↔
      ∀ x ∈ [a, b], ∀ y ∈ [c, d], ¬ x.InfTimesZero y := by
  simp only [← InterVal.exists_mulIVal, List.forall_mem_cons, List.not_mem_nil, false_implies,
    implies_true, and_true]
  constructor
  · rintro ⟨w, hw, -⟩
    obtain ⟨ac, hac, hw⟩ := bind_eq_ok.1 hw
    obtain ⟨ad, had, hw⟩ := bind_eq_ok.1 hw
    obtain ⟨bc, hbc, hw⟩ := bind_eq_ok.1 hw
    obtain ⟨bd, hbd, -⟩ := bind_eq_ok.1 hw
    exact ⟨⟨⟨ac, hac⟩, ad, had⟩, ⟨bc, hbc⟩, bd, hbd⟩
  · rintro ⟨⟨⟨_, hac⟩, _, had⟩, ⟨_, hbc⟩, _, hbd⟩
    obtain ⟨ac, hac', rfl⟩ := InterVal.mulIVal_word hac
    obtain ⟨ad, had', rfl⟩ := InterVal.mulIVal_word had
    obtain ⟨bc, hbc', rfl⟩ := InterVal.mulIVal_word hbc
    obtain ⟨bd, hbd', rfl⟩ := InterVal.mulIVal_word hbd
    -- on unbounded integers the result has the products, so its bounds are not the wrong infinities
    obtain ⟨n, hn⟩ := hu.exists_covers
    obtain ⟨m, hm⟩ := hv.exists_covers
    have hmul : @mul HostInt.unbounded _ (.interVal a b) (.interVal c d) = .ok
        (.interVal (min (min (min ac ad) bc) bd) (max (max (max ac ad) bc) bd)) := by
      simp [mul, arith, hac', had', hbc', hbd']
    obtain ⟨hlo, hhi, -⟩ := proper_of_mem (mem_mul (by simp) hmul hn hm)
    refine ⟨.interVal (min (min (min ac.wrapped ad.wrapped) bc.wrapped) bd.wrapped)
      (max (max (max ac.wrapped ad.wrapped) bc.wrapped) bd.wrapped),
      by simp [mul, arith, hac, had, hbc, hbd], ?_, ?_, ?_⟩
    · simpa [InterVal.min_eq_plusInf] using hlo
    · simpa [InterVal.max_eq_minusInf] using hhi
    · exact (min_le_right _ _).trans (le_max_right _ _)

end Operations

/-- For which bounds a sum, a difference, a product and a negation of non-empty intervals are
non-empty intervals again. -/
theorem arith_closed_iff [SimpleC] (hu : Proper (.interVal a b)) (hu' : InWord (.interVal a b))
    (hv : Proper (.interVal c d)) (hv' : InWord (.interVal c d)) :
    ((∃ w, (interVal a b).add (.interVal c d) = .ok w ∧ w.Proper) ↔
      ∀ n, a = .i n → ∀ m, b = .i m → ∀ k, c = .i k → ∀ l, d = .i l →
        InOrder (n + k) (m + l)) ∧
    ((∃ w, (interVal a b).sub (.interVal c d) = .ok w ∧ w.Proper) ↔
      ¬ (a = .minusInf ∧ d = .plusInf) ∧ ¬ (b = .plusInf ∧ c = .minusInf) ∧
      ∀ n, a = .i n → ∀ m, b = .i m → ∀ k, c = .i k → ∀ l, d = .i l →
        InOrder (n - l) (m - k)) ∧
    ((∃ w, (interVal a b).mul (.interVal c d) = .ok w ∧ w.Proper) ↔
      ∀ x ∈ [a, b], ∀ y ∈ [c, d], ¬ x.InfTimesZero y) ∧
    ((∃ w, (interVal a b).negate = .ok w ∧ w.Proper) ↔
      a = b ∨ a = .i minBound ∧ b ≠ .plusInf) :=
  ⟨add_closed_iff hu hu' hv hv', sub_closed_iff hu hu' hv hv', mul_closed_iff hu hv,
    negate_closed_iff hu hu'⟩

section Integers

attribute [local instance] SimpleC.integers

/-- A product with a half line, and a sum at the end of the range. -/
theorem arith_closed_iff_point :
    let u := interVal (.i 3) (.i maxBound)
    let v := interVal .minusInf (.i 2)
    Proper u ∧ InWord u ∧ Proper v ∧ InWord v ∧ (∃ w, u.mul v = .ok w ∧ w.Proper) ∧
      ∃ w, u.add v = .ok w ∧ w.Proper := by
  intro u v
  have hu : Proper u := by decide
  have hu' : InWord u := by decide
  have hv : Proper v := by decide
  have hv' : InWord v := by decide
  refine ⟨hu, hu', hv, hv', (arith_closed_iff hu hu' hv hv').2.2.1.2 (by decide),
    (arith_closed_iff hu hu' hv hv').1.2 ?_⟩
  intro n _ m _ k hk
  cases hk

/-- `[0, maxBound] + [0, 1]` and `[0, 0] - [minBound, 0]` go round at one end, the interval of all
integers minus itself and times zero are `error`s, and `[1, 2]` is negated to `[-1, -2]`. -/
theorem arith_not_closed :
    ((interVal (.i 0) (.i maxBound)).add (.interVal (.i 0) (.i 1)) =
        .ok (.interVal (.i 0) (.i minBound)) ∧ ¬ Proper (.interVal (.i 0) (.i minBound))) ∧
    ((interVal (.i 0) (.i 0)).sub (.interVal (.i minBound) (.i 0)) =
        .ok (.interVal (.i 0) (.i minBound))) ∧
    (interVal .minusInf .plusInf).sub (.interVal .minusInf .plusInf) =
        .error (.error "MinusInf - PlusInf ") ∧
    (interVal .minusInf .plusInf).mul (.interVal (.i 0) (.i 0)) =
        .error (.error "MinusInf * 0") ∧
    ((interVal (.i 1) (.i 2)).negate = .ok (.interVal (.i (-1)) (.i (-2))) ∧
      ¬ Proper (.interVal (.i (-1)) (.i (-2)))) ∧
    ∀ v ∈ [interVal (.i 0) (.i maxBound), .interVal (.i 0) (.i 1), .interVal (.i 0) (.i 0),
      .interVal (.i minBound) (.i 0), .interVal .minusInf .plusInf, .interVal (.i 1) (.i 2)],
      Proper v ∧ InWord v := by
  refine ⟨⟨?_, ?_⟩, ?_, ?_, ?_, ⟨?_, ?_⟩, ?_⟩ <;> decide

end Integers

end IntValue

end Poet
