import Mathlib.Tactic.Order
import Poet.Domain.Interval.Value

/-!
# Interval arithmetic is sound

`n ∈ v`: the integer is one of those that the value stands for. An operation on values that does not
call `error` gives a value with the result for every choice of integers.

Multiplication takes the least and the greatest of the four products of the bounds. A product of
bounds is monotone in each factor, up or down with the sign of the other. This also holds at the
infinities if infinity times zero is taken to be zero (`prod`), where the code has an `error`.

Integers are unbounded here. On lists of plain values the operations are those of `SimpleC`, which
are taken to be integer arithmetic there (`IntegerOps`).
-/

namespace Poet

attribute [local instance] HostInt.unbounded

namespace InterVal

variable {a b c d p q : InterVal} {n m : Int}

theorem plusIVal_le (ha : a ≤ .i n) (hc : c ≤ .i m) (h : a.plusIVal c = .ok p) : p ≤ .i (n + m) := by
  cases a <;> cases c <;> simp_all [plusIVal]
  · subst h
    simpa using Int.add_le_add ha hc
  all_goals subst h; simp

theorem le_plusIVal (hb : .i n ≤ b) (hd : .i m ≤ d) (h : b.plusIVal d = .ok q) : .i (n + m) ≤ q := by
  cases b <;> cases d <;> simp_all [plusIVal]
  · subst h
    simpa using Int.add_le_add hb hd
  all_goals subst h; simp

theorem subIVal_le (ha : a ≤ .i n) (hd : .i m ≤ d) (h : a.subIVal d = .ok p) : p ≤ .i (n - m) := by
  cases a <;> cases d <;> simp_all [subIVal]
  · subst h
    simpa using Int.sub_le_sub ha hd
  all_goals subst h; simp

theorem le_subIVal (hb : .i n ≤ b) (hc : c ≤ .i m) (h : b.subIVal c = .ok q) : .i (n - m) ≤ q := by
  cases b <;> cases c <;> simp_all [subIVal]
  · subst h
    simpa using Int.sub_le_sub hb hc
  all_goals subst h; simp

/-! ## Products -/

/-- The product of two bounds, with zero in place of the errors. -/
def prod (u w : InterVal) : InterVal := (u.mulIVal w).toOption.getD (.i 0)

theorem prod_of_eq_ok {u w : InterVal} (h : u.mulIVal w = .ok p) : p = u.prod w := by
  simp [prod, h, Except.toOption]

@[simp] theorem i_prod_i (n m : Int) : (i n).prod (i m) = i (n * m) := rfl

theorem prod_comm (u w : InterVal) : u.prod w = w.prod u := by
  cases u with
  | i n =>
    cases w with
    | i m => simp [Int.mul_comm]
    | plusInf => rfl
    | minusInf => rfl
  | plusInf => cases w <;> rfl
  | minusInf => cases w <;> rfl

theorem plusInf_prod (w : InterVal) :
    plusInf.prod w = if .i 0 < w then plusInf else if w < .i 0 then minusInf else .i 0 := by
  cases w with
  | i n =>
    rcases Int.lt_trichotomy n 0 with hn | rfl | hn
    · simp [prod, mulIVal, mulInf, signumIVal, Int.sign_eq_neg_one_of_neg hn, hn, hn.not_gt,
        Except.toOption]
    · rfl
    · simp [prod, mulIVal, mulInf, signumIVal, Int.sign_eq_one_of_pos hn, hn, Except.toOption]
  | plusInf => rfl
  | minusInf => rfl

theorem minusInf_prod (w : InterVal) :
    minusInf.prod w = if .i 0 < w then minusInf else if w < .i 0 then plusInf else .i 0 := by
  cases w with
  | i n =>
    rcases Int.lt_trichotomy n 0 with hn | rfl | hn
    · simp [prod, mulIVal, mulInf, signumIVal, Int.sign_eq_neg_one_of_neg hn, hn, hn.not_gt,
        Except.toOption]
    · rfl
    · simp [prod, mulIVal, mulInf, signumIVal, Int.sign_eq_one_of_pos hn, hn, Except.toOption]
  | plusInf => rfl
  | minusInf => rfl

theorem prod_zero (u : InterVal) : u.prod (.i 0) = .i 0 := by
  cases u <;> simp [plusInf_prod, minusInf_prod]

theorem prod_mono {u u' w : InterVal} (hw : .i 0 ≤ w) (h : u ≤ u') : u.prod w ≤ u'.prod w := by
  rcases hw.eq_or_lt with rfl | hw
  · rw [prod_zero, prod_zero]
  · match u, u' with
    | .minusInf, u' => simp [minusInf_prod, hw]
    | u, .plusInf => simp [plusInf_prod, hw]
    | .i n, .i m =>
      have hnm : n ≤ m := i_le_i.1 h
      cases w with
      | i k => exact i_le_i.2 (Int.mul_le_mul_of_nonneg_right hnm (i_lt_i.1 hw).le)
      | plusInf =>
        rw [prod_comm, prod_comm (i m), plusInf_prod, plusInf_prod]
        split_ifs <;> simp_all <;> omega
      | minusInf => simp at hw

theorem prod_anti {u u' w : InterVal} (hw : w ≤ .i 0) (h : u ≤ u') : u'.prod w ≤ u.prod w := by
  rcases hw.eq_or_lt with rfl | hw
  · rw [prod_zero, prod_zero]
  · match u, u' with
    | .minusInf, u' => simp [minusInf_prod, hw, hw.not_gt]
    | u, .plusInf => simp [plusInf_prod, hw, hw.not_gt]
    | .i n, .i m =>
      have hnm : n ≤ m := i_le_i.1 h
      cases w with
      | i k => exact i_le_i.2 (Int.mul_le_mul_of_nonpos_right hnm (i_lt_i.1 hw).le)
      | plusInf => simp at hw
      | minusInf =>
        rw [prod_comm, prod_comm (i n), minusInf_prod, minusInf_prod]
        split_ifs <;> simp_all <;> omega

/-- A product with a factor between two bounds is between the products with those bounds. -/
theorem prod_between (u : InterVal) {x : InterVal} (hc : c ≤ x) (hd : x ≤ d) :
    min (u.prod c) (u.prod d) ≤ u.prod x ∧ u.prod x ≤ max (u.prod c) (u.prod d) := by
  simp only [prod_comm u]
  rcases le_total (.i 0) u with hu | hu
  · exact ⟨min_le_of_left_le (prod_mono hu hc), le_max_of_le_right (prod_mono hu hd)⟩
  · exact ⟨min_le_of_right_le (prod_anti hu hd), le_max_of_le_left (prod_anti hu hc)⟩

/-- The product of two integers is between the least and the greatest product of their bounds. -/
theorem mul_between (ha : a ≤ .i n) (hb : .i n ≤ b) (hc : c ≤ .i m) (hd : .i m ≤ d) :
    min (min (min (a.prod c) (a.prod d)) (b.prod c)) (b.prod d) ≤ .i (n * m) ∧
      .i (n * m) ≤ max (max (max (a.prod c) (a.prod d)) (b.prod c)) (b.prod d) := by
  obtain ⟨hlo, hhi⟩ := prod_between (.i m) ha hb
  obtain ⟨halo, hahi⟩ := prod_between a hc hd
  obtain ⟨hblo, hbhi⟩ := prod_between b hc hd
  rw [prod_comm (.i m), prod_comm (.i m), prod_comm (.i m), i_prod_i] at hlo hhi
  constructor <;> order

end InterVal

namespace IntValue

variable {u v w : IntValue} {n m : Int}

/-- The integers that a value stands for. -/
def Has : IntValue → Int → Prop
  | .top, _ => True
  | .bot, _ => False
  | .val l, n => .int n ∈ l
  | .interVal a b, n => a ≤ .i n ∧ .i n ≤ b

instance : Membership Int IntValue := ⟨Has⟩

instance : ∀ (n : Int) (v : IntValue), Decidable (n ∈ v)
  | _, .top => isTrue trivial
  | _, .bot => isFalse id
  | n, .val l => inferInstanceAs (Decidable (.int n ∈ l))
  | n, .interVal a b => inferInstanceAs (Decidable (a ≤ .i n ∧ .i n ≤ b))

theorem mem_interVal {a b : InterVal} : n ∈ interVal a b ↔ a ≤ .i n ∧ .i n ≤ b := Iff.rfl

theorem mem_val {l : List Value} : n ∈ val l ↔ .int n ∈ l := Iff.rfl

theorem not_mem_bot : ¬ n ∈ bot := id

theorem mem_join (h : u.join v = .ok w) (hn : n ∈ u ∨ n ∈ v) : n ∈ w := by
  unfold join at h
  split at h
  · obtain rfl := Except.ok.inj h
    exact hn.resolve_left not_mem_bot
  · obtain rfl := Except.ok.inj h
    exact hn.resolve_right not_mem_bot
  · obtain rfl := Except.ok.inj h
    trivial
  · obtain rfl := Except.ok.inj h
    trivial
  · obtain rfl := Except.ok.inj h
    simpa [mem_val] using hn
  · obtain rfl := Except.ok.inj h
    simp only [mem_interVal] at hn ⊢
    constructor <;> rcases hn with hn | hn
    · exact min_le_of_left_le hn.1
    · exact min_le_of_right_le hn.1
    · exact le_max_of_le_left hn.2
    · exact le_max_of_le_right hn.2
  · cases h

theorem mem_joinL {vs : List IntValue} (h : joinL vs = .ok w) (hv : v ∈ vs) (hn : n ∈ v) :
    n ∈ w := by
  induction vs generalizing w with
  | nil => cases h
  | cons u vs ih =>
    cases vs with
    | nil =>
      obtain rfl := Except.ok.inj h
      obtain rfl := List.mem_singleton.1 hv
      exact hn
    | cons u' vs =>
      obtain ⟨w', hw', h⟩ := bind_eq_ok.1 h
      refine mem_join h ?_
      rcases List.mem_cons.1 hv with rfl | hv
      · exact .inl hn
      · exact .inr (ih hw' hv)

/-- A binary operation is sound if it is on bounds and on plain values. -/
theorem mem_arith {text : String}
    {onBounds : InterVal → InterVal → InterVal → InterVal → Except DomErr IntValue}
    {onValues : Value → Value → Except DomErr Value} {k : Int}
    (hb : ∀ a b c d w, onBounds a b c d = .ok w → n ∈ interVal a b → m ∈ interVal c d → k ∈ w)
    (hv : (∃ l, u = .val l) → onValues (.int n) (.int m) = .ok (.int k))
    (h : arith text onBounds onValues u v = .ok w) (hn : n ∈ u) (hm : m ∈ v) : k ∈ w := by
  unfold arith at h
  split at h
  · cases hn
  · cases hm
  · obtain rfl := Except.ok.inj h
    trivial
  · obtain rfl := Except.ok.inj h
    trivial
  · exact hb _ _ _ _ _ h hn hm
  · next l l' =>
    obtain ⟨vs, hvs, h⟩ := bind_eq_ok.1 h
    obtain rfl := Except.ok.inj h
    have hpair : (Value.int n, Value.int m) ∈ l.flatMap fun x => l'.map fun y => (x, y) :=
      List.mem_flatMap.2 ⟨_, hn, List.mem_map.2 ⟨_, hm, rfl⟩⟩
    obtain ⟨y, hy, hky⟩ := (mapM'_mem hvs).1 _ hpair
    obtain rfl := Except.ok.inj ((hv ⟨l, rfl⟩).symm.trans hky)
    exact hy
  · cases h

section Operations

variable [SimpleC] (hops : (∃ l, u = .val l) → IntegerOps)
include hops

theorem mem_add (h : u.add v = .ok w) (hn : n ∈ u) (hm : m ∈ v) : n + m ∈ w := by
  refine mem_arith (fun a b c d w hw hn hm => ?_) (fun hl => (hops hl).add n m) h hn hm
  obtain ⟨p, hp, hw⟩ := bind_eq_ok.1 hw
  obtain ⟨q, hq, hw⟩ := bind_eq_ok.1 hw
  obtain rfl := Except.ok.inj hw
  exact ⟨InterVal.plusIVal_le hn.1 hm.1 hp, InterVal.le_plusIVal hn.2 hm.2 hq⟩

theorem mem_sub (h : u.sub v = .ok w) (hn : n ∈ u) (hm : m ∈ v) : n - m ∈ w := by
  refine mem_arith (fun a b c d w hw hn hm => ?_) (fun hl => (hops hl).sub n m) h hn hm
  obtain ⟨p, hp, hw⟩ := bind_eq_ok.1 hw
  obtain ⟨q, hq, hw⟩ := bind_eq_ok.1 hw
  obtain rfl := Except.ok.inj hw
  exact ⟨InterVal.subIVal_le hn.1 hm.2 hp, InterVal.le_subIVal hn.2 hm.1 hq⟩

theorem mem_mul (h : u.mul v = .ok w) (hn : n ∈ u) (hm : m ∈ v) : n * m ∈ w := by
  refine mem_arith (fun a b c d w hw hn hm => ?_) (fun hl => (hops hl).mult n m) h hn hm
  obtain ⟨ac, hac, hw⟩ := bind_eq_ok.1 hw
  obtain ⟨ad, had, hw⟩ := bind_eq_ok.1 hw
  obtain ⟨bc, hbc, hw⟩ := bind_eq_ok.1 hw
  obtain ⟨bd, hbd, hw⟩ := bind_eq_ok.1 hw
  obtain rfl := Except.ok.inj hw
  rw [InterVal.prod_of_eq_ok hac, InterVal.prod_of_eq_ok had, InterVal.prod_of_eq_ok hbc,
    InterVal.prod_of_eq_ok hbd]
  exact InterVal.mul_between hn.1 hn.2 hm.1 hm.2

end Operations

/-- A sum, difference or product that is no `error` has the result for all integers of its
arguments. -/
theorem arith_sound [SimpleC] (hops : (∃ l, u = .val l) → IntegerOps) (hn : n ∈ u) (hm : m ∈ v) :
    (∀ w, u.add v = .ok w → n + m ∈ w) ∧ (∀ w, u.sub v = .ok w → n - m ∈ w) ∧
      ∀ w, u.mul v = .ok w → n * m ∈ w :=
  ⟨fun _ h => mem_add hops h hn hm, fun _ h => mem_sub hops h hn hm,
    fun _ h => mem_mul hops h hn hm⟩

section Integers

attribute [local instance] SimpleC.integers

/-- Half lines with negative bounds, where the least product comes from the upper bounds. -/
theorem arith_sound_halfLines :
    (-5 : Int) ∈ interVal .minusInf (.i (-2)) ∧ (-7 : Int) ∈ interVal .minusInf (.i (-3)) ∧
      ∃ w, (interVal .minusInf (.i (-2))).mul (.interVal .minusInf (.i (-3))) = .ok w ∧
        (-5) * (-7) ∈ w :=
  have hn : (-5 : Int) ∈ interVal .minusInf (.i (-2)) := by decide
  have hm : (-7 : Int) ∈ interVal .minusInf (.i (-3)) := by decide
  have hmul : (interVal .minusInf (.i (-2))).mul (.interVal .minusInf (.i (-3))) =
      .ok (.interVal (.i 6) .plusInf) := by decide
  have hops : (∃ l, interVal .minusInf (.i (-2)) = .val l) → IntegerOps := by simp
  ⟨hn, hm, _, hmul, (arith_sound hops hn hm).2.2 _ hmul⟩

end Integers

/-! ## Bounds -/

theorem lowerBound_le {a : InterVal} (h : v.lowerBound = .ok a) (hn : n ∈ v) : a ≤ .i n := by
  cases v with
  | top =>
    obtain rfl := Except.ok.inj h
    exact InterVal.minusInf_le _
  | bot => cases h
  | interVal b c =>
    obtain rfl := Except.ok.inj h
    exact hn.1
  | val l =>
    unfold lowerBound at h
    cases hmin : (l.filterMap Value.int?).min? with
    | none => simp [hmin] at h
    | some k =>
      obtain rfl : InterVal.i k = a := by simpa [hmin] using h
      have hmem : n ∈ l.filterMap Value.int? := List.mem_filterMap.2 ⟨.int n, hn, rfl⟩
      exact InterVal.i_le_i.2 ((List.min?_eq_some_iff.1 hmin).2 n hmem)

theorem mem_ints {l : List Value} {ns : List Int} (h : l.mapM' Value.int? = some ns)
    (hn : .int n ∈ l) : n ∈ ns := by
  induction l generalizing ns with
  | nil => cases hn
  | cons a l ih =>
    obtain ⟨k, hk, h⟩ := Option.bind_eq_some_iff.1 h
    obtain ⟨ks, hks, h⟩ := Option.bind_eq_some_iff.1 h
    obtain rfl := Option.some.inj h
    rcases List.mem_cons.1 hn with rfl | hn
    · obtain rfl := Option.some.inj hk
      exact List.mem_cons_self
    · exact List.mem_cons_of_mem _ (ih hks hn)

theorem le_upperBound {b : InterVal} (h : v.upperBound = .ok b) (hn : n ∈ v) : .i n ≤ b := by
  cases v with
  | top =>
    obtain rfl := Except.ok.inj h
    exact InterVal.le_plusInf _
  | bot => cases h
  | interVal a c =>
    obtain rfl := Except.ok.inj h
    exact hn.2
  | val l =>
    unfold upperBound at h
    cases hl : l.mapM' Value.int? with
    | none => simp [hl] at h
    | some ns =>
      cases hmax : ns.max? with
      | none => simp [hl, hmax] at h
      | some k =>
        obtain rfl : InterVal.i k = b := by simpa [hl, hmax] using h
        exact InterVal.i_le_i.2 ((List.max?_eq_some_iff.1 hmax).2 n (mem_ints hl hn))

end IntValue

end Poet
