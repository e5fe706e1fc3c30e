import Poet.Domain.Lattice
import Poet.Model.GCS
import Poet.Lib.ListOps

/-!
# Memory addresses (`Domain/MemAddr.hs`) and scopes (`Domain/Util.hs`)

The offset of an address is another domain `v`. A set of addresses is a list, or everything
(`MemAddrTop`). Addresses are compared with the derived equality: two offsets that overlap without
being equal are different addresses.
-/

namespace Poet

/-- Scope of a transformer: the heap, or the locals of a thread and then the heap. -/
inductive Scope where
  | glob
  | loc (tid : TId)
deriving DecidableEq, Repr

structure MemAddr (v : Type) where
  base : SymId
  offset : v
  level : Scope
deriving DecidableEq, Repr

structure MemAddrBase where
  base : SymId
  level : Scope
deriving DecidableEq, Repr

/-- Powerset domain of memory addresses. -/
inductive MemAddrs (v : Type) where
  | top
  | addrs (l : List (MemAddr v))
deriving DecidableEq, Repr

namespace MemAddrs

variable {v : Type} [DecidableEq v]

def meet : MemAddrs v → MemAddrs v → MemAddrs v
  | .top, b => b
  | a, .top => a
  | .addrs l1, .addrs l2 => .addrs (l1 ∩ l2)

def join : MemAddrs v → MemAddrs v → MemAddrs v
  | .top, _ => .top
  | _, .top => .top
  | .addrs l1, .addrs l2 => .addrs (l1 ++ l2).eraseDups

instance {v : Type} : Membership (MemAddr v) (MemAddrs v) where
  mem a x :=
    match a with
    | .top => True
    | .addrs l => x ∈ l

omit [DecidableEq v] in
@[simp] theorem mem_addrs {x : MemAddr v} {l : List (MemAddr v)} : x ∈ MemAddrs.addrs l ↔ x ∈ l :=
  Iff.rfl

@[simp] theorem mem_join {x : MemAddr v} {a b : MemAddrs v} : x ∈ a.join b ↔ x ∈ a ∨ x ∈ b := by
  cases a with
  | top => exact ⟨fun _ => .inl trivial, fun _ => trivial⟩
  | addrs l =>
    cases b with
    | top => exact ⟨fun _ => .inr trivial, fun _ => trivial⟩
    | addrs m => simp [join]

/-- `(<=)` (`MemAddr.hs:82`). -/
def le : MemAddrs v → MemAddrs v → Bool
  | _, .top => true
  | .top, .addrs _ => false
  | .addrs l1, .addrs l2 => l1.all (· ∈ l2)

theorem le_refl (a : MemAddrs v) : a.le a = true := by
  cases a <;> simp [le]

theorem le_trans {a b c : MemAddrs v} (hab : a.le b = true) (hbc : b.le c = true) :
    a.le c = true := by
  cases a <;> cases b <;> cases c <;> simp_all [le]

theorem le_join_left (a b : MemAddrs v) : a.le (a.join b) = true := by
  cases a <;> cases b <;> simp +contextual [le, join]

theorem le_join_right (a b : MemAddrs v) : b.le (a.join b) = true := by
  cases a <;> cases b <;> simp +contextual [le, join]

/-- `compare` as `Ord` derives it from `(==)` and `(<=)`. -/
def cmp (a b : MemAddrs v) : Ordering :=
  if a = b then .eq else if a.le b then .lt else .gt

instance : Lattice (MemAddrs v) where
  bot := .addrs []
  join := join
  meet := meet
  leq := le
  isBot a := a = .addrs []
  -- the class default is an `error`; addresses are never widened
  widen a _ := a

end MemAddrs

end Poet
