import Mathlib.Data.List.AList
import Poet.Domain.Action
import Poet.Lib.Op

/-!
# The state of the unfolder (`Exploration/UNF/State.hs`)

| here | there |
| --- | --- |
| `Event`, `EventName`          | `Event`, `EventName` (`State.hs:25-41`) |
| `Events`                      | `Events`, a hash table from ids to events, as an association list without repeated keys |
| `Configuration`               | `Configuration` (`State.hs:48`) |
| `UnfolderOpts`, `UnfolderStats` | the same (`State.hs:74-94`) |
| `UnfolderState`               | `UnfolderState` (`State.hs:97`), without `pcnf`, which is written and never read |
| `Err`                         | the `error` calls |

`calls` and `seen` are not in the source: a run records there, and never reads back, the calls of
`explore` and the tables it went through, so that results can speak of all of them.
-/

namespace Poet

abbrev EventID := Nat
abbrev EventsID := List EventID

structure EventName where
  tid : TId
  pos : Pos
  sym : SymId
deriving DecidableEq, Repr

abbrev History := EventsID
abbrev Histories := List History
abbrev Alternative := EventsID
abbrev Alternatives := List Alternative

structure Event (act : Type) where
  name : EventName
  acts : act
  /-- Immediate predecessors. -/
  pred : EventsID
  /-- Immediate successors. -/
  succ : EventsID
  /-- Immediate conflicts. -/
  icnf : EventsID
  /-- Disabled events. -/
  disa : EventsID
  /-- Valid alternatives. -/
  alte : Alternatives

/-- The unfolding prefix. -/
abbrev Events (act : Type) := AList fun _ : EventID => Event act

structure Configuration (st : Type) where
  state : st
  maevs : EventsID
  enevs : EventsID
  cfevs : EventsID

abbrev States (st : Type) := List (Control × List (st × Nat))

structure UnfolderOpts where
  stateless : Bool
  cutoffs : Bool
  widening : Int
deriving DecidableEq, Repr

structure UnfolderStats where
  nrMaxConf : Nat
  nrCutoffs : Nat
  nrEvsPrefix : Nat
  sumSizeMaxConf : Nat
  nrEvsPerName : List (EventName × Nat)
  nrWarns : List Int
deriving DecidableEq, Repr

/-- The `error` calls of the unfolder, one constructor for each, with the ids they show. -/
inductive Err where
  /-- `get_event`: no event with this id; `fn` is the caller's tag. -/
  | noEvent (fn : String) (e : EventID)
  /-- `A intersect en(C) = 0` of `explore`. -/
  | altDisjoint (e : EventID) (enevs : EventsID) (alt : Alternative) (stak : EventsID)
  /-- `null h0` of `ext`. -/
  | nullH0 (e : EventID) (name : EventName) (maxevs : EventsID)
  | bothUnlocks
  | noneUnlock
  | tooManyInHistory (hs : History)
  | duplicates
  /-- `addEvent: the state of the local configuration is bottom`. -/
  | localBottom
  /-- An `error` in the code of the domain, those of `drun` included. -/
  | domain (e : DomErr)
  /-- `head`, `tail` of an empty list. -/
  | emptyList (fn : String)
  /-- Not an error of the source: the recursion bound of the model was too small. -/
  | outOfFuel
deriving DecidableEq, Repr

/-- A call `explore c ê d alt`, with the stack and the prefix at that moment. -/
structure Call (st act : Type) where
  conf : Configuration st
  last : EventID
  d : EventsID
  alt : Alternative
  stak : EventsID
  evts : Events act

/-- The prefix, the counter and the stack after an operation that may change them. -/
structure Snapshot (act : Type) where
  evts : Events act
  cntr : Nat
  stak : EventsID

structure UnfolderState (st act : Type) where
  syst : System st act
  /-- Unfolding prefix. -/
  evts : Events act
  /-- Call stack. -/
  stak : EventsID
  /-- Event counter. -/
  cntr : Nat
  /-- Table for cutoffs. -/
  stas : States st
  opts : UnfolderOpts
  stats : UnfolderStats
  calls : List (Call st act)
  seen : List (Snapshot act)

abbrev UnfolderOp (st act α : Type) := Op (UnfolderState st act) Err α

end Poet
