import Mathlib.Order.Defs.LinearOrder
import Mathlib.Algebra.Order.Ring.Int
import Poet.Model.GCS

/-!
# Interval bounds (`Domain/Interval/Type.hs`)

An interval bound is an `Int` of the host or one of the two infinities. A host stores the exact result
of an operation if it fits; `HostInt` says what fits and what happens otherwise, and
`HostInt.word` is the 64-bit `Int` of the compiler, which wraps. The arithmetic calls `error` where the
two infinities cancel and on an infinity times zero; those calls are `DomErr`s with the source's text.

The instance of `Ord` only gives `(<=)`; on bounds it is a total order, so `compare`, `min` and
`max` are the usual ones.
-/

namespace Poet

/-- How the host computes with `Int`: an exact result that `fits` is stored, for any other `overflow`
has the outcome of a sum, a difference or a product. -/
class HostInt where
  fits : Int → Bool
  overflow : Int → Except DomErr Int

def minBound : Int := -2 ^ 63

def maxBound : Int := 2 ^ 63 - 1

namespace HostInt

/-- Two's complement words of 64 bits. -/
@[reducible] def word : HostInt where
  fits n := minBound ≤ n && n ≤ maxBound
  overflow n := .ok (n.bmod (2 ^ 64))

/-- Words of 64 bits on which an overflow is an error. -/
@[reducible] def checked : HostInt where
  fits n := minBound ≤ n && n ≤ maxBound
  overflow _ := .error (.error "arithmetic overflow")

/-- Integers without bounds. -/
@[reducible] def unbounded : HostInt where
  fits _ := true
  overflow := .ok

end HostInt

inductive InterVal where
  | i (n : Int)
  | plusInf
  | minusInf
deriving DecidableEq, Repr

namespace InterVal

/-- `(<=)` (`Type.hs:28`). -/
def le : InterVal → InterVal → Bool
  | .i _, .plusInf => true
  | .i _, .minusInf => false
  | .i n, .i m => n ≤ m
  | .plusInf, .plusInf => true
  | .plusInf, _ => false
  | .minusInf, _ => true

instance : LE InterVal := ⟨fun a b => a.le b = true⟩

instance : DecidableLE InterVal := fun a b => inferInstanceAs (Decidable (a.le b = true))

@[simp] theorem i_le_i {n m : Int} : (i n ≤ i m) ↔ n ≤ m := by
  show (i n).le (i m) = true ↔ n ≤ m
  simp [le]

@[simp] theorem le_plusInf (a : InterVal) : a ≤ plusInf := by
  cases a <;> rfl

@[simp] theorem minusInf_le (a : InterVal) : minusInf ≤ a := by
  cases a <;> rfl

@[simp] theorem not_i_le_minusInf (n : Int) : ¬ i n ≤ minusInf := Bool.false_ne_true

@[simp] theorem not_plusInf_le_i (n : Int) : ¬ plusInf ≤ i n := Bool.false_ne_true

@[simp] theorem not_plusInf_le_minusInf : ¬ plusInf ≤ minusInf := Bool.false_ne_true

instance : LinearOrder InterVal where
  le_refl a := by cases a <;> simp
  le_trans a b c hab hbc := by
    cases a <;> cases b <;> cases c <;> simp_all
    omega
  le_antisymm a b hab hba := by
    cases a <;> cases b <;> simp_all
    omega
  le_total a b := by
    cases a <;> cases b <;> simp
    omega
  toDecidableLE := inferInstance

@[simp] theorem i_lt_i {n m : Int} : (i n < i m) ↔ n < m := by
  rw [← not_le, i_le_i]
  omega

@[simp] theorem i_lt_plusInf (n : Int) : i n < plusInf := by
  rw [← not_le]
  exact not_plusInf_le_i n

@[simp] theorem minusInf_lt_i (n : Int) : minusInf < i n := by
  rw [← not_le]
  exact not_i_le_minusInf n

@[simp] theorem minusInf_lt_plusInf : minusInf < plusInf := by
  rw [← not_le]
  exact not_plusInf_le_minusInf

@[simp] theorem not_plusInf_lt (a : InterVal) : ¬ plusInf < a := by
  rw [not_lt]
  exact le_plusInf a

@[simp] theorem not_lt_minusInf (a : InterVal) : ¬ a < minusInf := by
  rw [not_lt]
  exact minusInf_le a

def signumIVal : InterVal → InterVal
  | .plusInf => .i 1
  | .minusInf => .i (-1)
  | .i n => .i n.sign

section Arithmetic

variable [HostInt]

/-- The bound of an exact result. -/
def store (n : Int) : Except DomErr InterVal := do
  return .i (← if HostInt.fits n then .ok n else HostInt.overflow n)

theorem store_of_fits {n : Int} (h : HostInt.fits n = true) : store n = .ok (.i n) := by
  simp [store, h]

def plusIVal : InterVal → InterVal → Except DomErr InterVal
  | .plusInf, .minusInf => .error (.error "PlusInf  + MinusInf")
  | .minusInf, .plusInf => .error (.error "MinusInf + PlusInf ")
  | .plusInf, _ => .ok .plusInf
  | .minusInf, _ => .ok .minusInf
  | .i a, .i b => store (a + b)
  -- `plusIVal a b = plusIVal b a`
  | .i _, .plusInf => .ok .plusInf
  | .i _, .minusInf => .ok .minusInf

/-- An infinity times `a`: `neg` and `pos` are the results for a negative and a positive `a`. -/
def mulInf (text : String) (neg pos a : InterVal) : Except DomErr InterVal :=
  match a.signumIVal with
  | .i 0 => .error (.error text)
  | .i (-1) => .ok neg
  | .i 1 => .ok pos
  | _ => .error (.error "Type.hs: Non-exhaustive patterns in case")

def mulIVal : InterVal → InterVal → Except DomErr InterVal
  | .plusInf, a => mulInf "PlusInf * 0" .minusInf .plusInf a
  | .minusInf, a => mulInf "MinusInf * 0" .plusInf .minusInf a
  | .i a, .i b => store (a * b)
  -- `mulIVal a b = mulIVal b a`
  | .i a, .plusInf => mulInf "PlusInf * 0" .minusInf .plusInf (.i a)
  | .i a, .minusInf => mulInf "MinusInf * 0" .plusInf .minusInf (.i a)

def subIVal : InterVal → InterVal → Except DomErr InterVal
  | .plusInf, .minusInf => .error (.error "PlusInf  - MinusInf")
  | .minusInf, .plusInf => .error (.error "MinusInf - PlusInf ")
  | .plusInf, _ => .ok .plusInf
  | .minusInf, _ => .ok .minusInf
  | _, .plusInf => .ok .minusInf
  | _, .minusInf => .ok .plusInf
  | .i a, .i b => store (a - b)

def negateIVal : InterVal → Except DomErr InterVal
  | .i n => store (-n)
  | .plusInf => .ok .minusInf
  | .minusInf => .ok .plusInf

/-- `div`: it rounds down, and fails on zero and on a quotient that does not fit. -/
def quotient (a b : Int) : Except DomErr InterVal :=
  if b = 0 then .error (.error "divide by zero")
  else if HostInt.fits (a.fdiv b) then .ok (.i (a.fdiv b))
  else .error (.error "arithmetic overflow")

/-- `divide` (`Type.hs:91`). -/
def divide : InterVal → InterVal → Except DomErr InterVal
  | .i 0, _ => .ok (.i 0)
  | _, .plusInf => .ok (.i 0)
  | _, .minusInf => .ok (.i 0)
  | .plusInf, a => mulIVal .plusInf a
  | .minusInf, a => mulIVal .minusInf a
  | .i a, .i b => quotient a b

end Arithmetic

/-- The successor of a bound, `b + 1` in the code: an infinity stays. -/
def succ : InterVal → InterVal
  | .i n => .i (n + 1)
  | b => b

/-- The predecessor of a bound, `b - 1` in the code. -/
def pred : InterVal → InterVal
  | .i n => .i (n - 1)
  | b => b

section Exact

attribute [local instance] HostInt.unbounded

@[simp] theorem store_unbounded (n : Int) : store n = .ok (.i n) := rfl

@[simp] theorem plusIVal_one (b : InterVal) : b.plusIVal (.i 1) = .ok b.succ := by
  cases b <;> rfl

@[simp] theorem subIVal_one (b : InterVal) : b.subIVal (.i 1) = .ok b.pred := by
  cases b <;> rfl

end Exact

theorem le_succ (b : InterVal) : b ≤ b.succ := by
  cases b <;> simp [succ]

theorem pred_le (b : InterVal) : b.pred ≤ b := by
  cases b <;> simp [pred]

theorem succ_le_of_lt {a b : InterVal} (ha : a ≠ minusInf) (h : a < b) : a.succ ≤ b := by
  cases a with
  | minusInf => exact absurd rfl ha
  | plusInf => exact absurd h (not_lt.2 (le_plusInf b))
  | i n =>
    cases b with
    | i m => exact i_le_i.2 (Int.add_one_le_iff.2 (i_lt_i.1 h))
    | plusInf => exact le_plusInf _
    | minusInf => exact absurd h (not_lt.2 (minusInf_le _))

theorem le_pred_of_lt {a b : InterVal} (hb : b ≠ plusInf) (h : a < b) : a ≤ b.pred := by
  cases b with
  | plusInf => exact absurd rfl hb
  | minusInf => exact absurd h (not_lt.2 (minusInf_le a))
  | i m =>
    cases a with
    | i n => exact i_le_i.2 (Int.le_sub_one_iff.2 (i_lt_i.1 h))
    | minusInf => exact minusInf_le _
    | plusInf => exact absurd h (not_lt.2 (le_plusInf _))

theorem succ_le_i {a : InterVal} (ha : a ≠ minusInf) (n : Int) : a.succ ≤ i n ↔ a < i n := by
  cases a with
  | minusInf => exact absurd rfl ha
  | plusInf => simp [succ]
  | i m => exact i_le_i.trans (Int.add_one_le_iff.trans i_lt_i.symm)

theorem i_le_pred {b : InterVal} (hb : b ≠ plusInf) (n : Int) : i n ≤ b.pred ↔ i n < b := by
  cases b with
  | plusInf => exact absurd rfl hb
  | minusInf => simp [pred]
  | i m => exact i_le_i.trans (Int.le_sub_one_iff.trans i_lt_i.symm)

/-- `Hashable InterVal`; the hash value of an integer is the integer. -/
def hash : InterVal → Int
  | i n => n
  | plusInf => 1
  | minusInf => 0

end InterVal

end Poet
