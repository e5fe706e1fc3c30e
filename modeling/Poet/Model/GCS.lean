import Poet.Language.SimpleC

/-!
# The model of computation (`Model/GCS.hs`)

`System` has the fields that are read: the initial state and action, the graphs and the symbol
table. `Control` is a `Map TId Pos`, given as `Map.toList` gives it (ascending keys). An `error`
call in the code of a domain is a `DomErr`.
-/

namespace Poet

abbrev TId := Int
abbrev Pos := NodeId

/-- The thread id of the bottom event (`GCS.hs:64`). -/
def botID : TId := -1

abbrev Control := List (TId × Pos)

/-- An `error` call in the code of a domain: the two of `drun` (`Class.hs:127-129`), or another one
with its message. -/
inductive DomErr where
  | drunNoFact
  | drunManyFacts (pos : Pos)
  | error (msg : String)
deriving DecidableEq, Repr

structure System (st act : Type) where
  /-- Initial (global) state. -/
  gbst : st
  /-- Initial (global) actions. -/
  gbac : act
  /-- Control-flow graphs. -/
  cfgs : List (SymId × Graph)
  /-- Symbol table. -/
  symt : List (SymId × String)

/-- The API over the state. -/
class Projection (st : Type) where
  controlPart : st → Control
  toThCFGSym : st → TId → Except DomErr SymId

end Poet
