import Poet.Domain.Interval.Value

/-!
# Bounds in machine words

The `Int` of the source is a word of 64 bits. A sum or a difference of two words goes round at most
once, up or down (`turns`), and a bound next to another one is only lost at the ends of the range.
-/

namespace Poet

attribute [local instance] HostInt.word

theorem minBound_eq : minBound = -9223372036854775808 := by decide

theorem maxBound_eq : maxBound = 9223372036854775807 := by decide

/-- The word of an integer. -/
def wrap (n : Int) : Int := n.bmod (2 ^ 64)

theorem wrap_of_fits {n : Int} (h : minBound ≤ n) (h' : n ≤ maxBound) : wrap n = n := by
  rw [minBound_eq] at h
  rw [maxBound_eq] at h'
  exact Int.bmod_eq_of_le_mul_two (by omega) (by omega)

/-- How often the word of `n` has gone round, for `n` less than a full turn away from zero. -/
def turns (n : Int) : Int := if n < minBound then -1 else if maxBound < n then 1 else 0

theorem wrap_eq {n : Int} (h : -2 ^ 64 ≤ n) (h' : n < 2 ^ 64) : wrap n = n - 2 ^ 64 * turns n := by
  have hturn : wrap (n - 2 ^ 64 * turns n) = wrap n := by
    simp [wrap, Int.bmod_def]
  rw [← hturn]
  apply wrap_of_fits <;> unfold turns <;> simp only [minBound_eq, maxBound_eq] <;> split_ifs <;> omega

namespace InterVal

variable {b : InterVal} {n : Int}

theorem fits_word : HostInt.fits n = true ↔ minBound ≤ n ∧ n ≤ maxBound := by
  simp [HostInt.fits]

theorem store_word (n : Int) : store n = .ok (.i (wrap n)) := by
  by_cases h : minBound ≤ n ∧ n ≤ maxBound
  · rw [store_of_fits (by rwa [fits_word]), wrap_of_fits h.1 h.2]
  · simp only [store, fits_word, h, if_false]
    rfl

/-- A bound that a word can hold. -/
def Stored : InterVal → Prop
  | .i n => minBound ≤ n ∧ n ≤ maxBound
  | _ => True

instance : ∀ b : InterVal, Decidable b.Stored
  | .i n => inferInstanceAs (Decidable (minBound ≤ n ∧ n ≤ maxBound))
  | .plusInf => isTrue trivial
  | .minusInf => isTrue trivial

theorem plusIVal_one_word (hb : b.Stored) (hmax : b ≠ .i maxBound) :
    b.plusIVal (.i 1) = .ok b.succ := by
  cases b with
  | i n =>
    have hne : n ≠ maxBound := by simpa using hmax
    obtain ⟨hlo, hhi⟩ := hb
    show store (n + 1) = .ok (.i (n + 1))
    rw [store_word, wrap_of_fits (by omega) (by omega)]
  | plusInf => rfl
  | minusInf => rfl

theorem subIVal_one_word (hb : b.Stored) (hmin : b ≠ .i minBound) :
    b.subIVal (.i 1) = .ok b.pred := by
  cases b with
  | i n =>
    have hne : n ≠ minBound := by simpa using hmin
    obtain ⟨hlo, hhi⟩ := hb
    show store (n - 1) = .ok (.i (n - 1))
    rw [store_word, wrap_of_fits (by omega) (by omega)]
  | plusInf => rfl
  | minusInf => rfl

end InterVal

/-- An interval whose bounds are words. -/
def IntValue.InWord : IntValue → Prop
  | .interVal a b => a.Stored ∧ b.Stored
  | _ => True

instance : ∀ v : IntValue, Decidable v.InWord
  | .interVal a b => inferInstanceAs (Decidable (a.Stored ∧ b.Stored))
  | .top => isTrue trivial
  | .bot => isTrue trivial
  | .val _ => isTrue trivial

end Poet
