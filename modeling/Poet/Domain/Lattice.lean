import Poet.Model.GCS

/-!
# The lattice class (`Domain/Lattice.hs`)

`Lattice` is the class as actions and addresses use it. The `join`, `widen` and `(<=.)` of a state may
call `error`: the concrete states have no join, and interval states only one of states that match. So
states are in a class of their own, `LatticeM`, in which these three can fail. What nothing reads is
left out: `top`, and for states `bot` and `meet`.
-/

namespace Poet

/-- `class Lattice`: `leq` is `(<=.)`, by default `(<=)`; `isBot` is `(?.)`, by default `(== bot)`. -/
class Lattice (α : Type) where
  bot : α
  join : α → α → α
  meet : α → α → α
  leq : α → α → Bool
  isBot : α → Bool
  widen : α → α → α

/-- `class Lattice` on states. -/
class LatticeM (st : Type) where
  join : st → st → Except DomErr st
  leq : st → st → Except DomErr Bool
  isBot : st → Bool
  widen : st → st → Except DomErr st

/-- The test `(<=.)` of two states returns true. -/
def Leq {st : Type} [LatticeM st] (s t : st) : Prop := LatticeM.leq s t = .ok true

end Poet
