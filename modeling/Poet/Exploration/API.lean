import Poet.Domain.Class
import Poet.Exploration.State

/-!
# Operations on the unfolding prefix (`Exploration/UNF/API.hs`)

A function that only reads the table is an `Except`-valued function of it; a function that writes
returns the new table. Recursion along `pred` or `succ` is bounded by `Events.bound`, more than any
id in the table.

| here | there |
| --- | --- |
| `getEvent` … `getTid`             | `get_event` … `get_tid` (`API.hs:72-104`) |
| `delEvent`, `addSucc`, `delSucc`, `addIcnf`, `delIcnf` | `API.hs:114-161` |
| `setDisa`, `addAlte`, `resetAlte` | `API.hs:173-195` |
| `push`, `pop`, `freshCounter`     | `API.hs:206-226` |
| `partitionDependent`, `isIndependent`, `isDependent` | `API.hs:318-357` |
| `predecessors`, `successors`      | `API.hs:361-379` |

Left out, as no other function uses them: `add_disa`, `set_previous_disa`, `get_evts_of_conf`,
`is_configuration`, `predecessorWith`, `get_tid_sym`, `dec_evs_prefix`.
-/

namespace Poet

variable {st act : Type}

/-- Bottom event. -/
def botEID : EventID := 0

def botName : EventName := ⟨botID, botID, ⟨-1⟩⟩

def botEvent (acts : act) : Event act := ⟨botName, acts, [], [], [], [], []⟩

abbrev EventInfo (act : Type) := EventName × act

namespace Events

/-- More than every id of the table. -/
def bound (evts : Events act) : Nat := (evts.keys.map (· + 1)).foldr max 0

end Events

/-! ## Getters -/

def getEvent (fn : String) (e : EventID) (evts : Events act) : Except Err (Event act) :=
  match evts.lookup e with
  | none => .error (.noEvent fn e)
  | some ev => .ok ev

def getPred (e : EventID) (evts : Events act) : Except Err EventsID :=
  (·.pred) <$> getEvent "getIPred(ecessors)" e evts

def getSucc (e : EventID) (evts : Events act) : Except Err EventsID :=
  (·.succ) <$> getEvent "getISucc(essors)" e evts

def getIcnf (e : EventID) (evts : Events act) : Except Err EventsID :=
  (·.icnf) <$> getEvent "getICnfl(icts)" e evts

def getDisa (e : EventID) (evts : Events act) : Except Err EventsID :=
  (·.disa) <$> getEvent "getDisa(bled)" e evts

def getAlte (e : EventID) (evts : Events act) : Except Err Alternatives :=
  (·.alte) <$> getEvent "getAltrs(natives)" e evts

def getName (e : EventID) (evts : Events act) : Except Err EventName :=
  (·.name) <$> getEvent "getAltrs(natives)" e evts

def getTid (e : EventID) (evts : Events act) : Except Err TId :=
  (·.name.tid) <$> getEvent "getAltrs(natives)" e evts

/-- Checks if an event id is still in the prefix. -/
def filterEvent (e : EventID) (evts : Events act) : Bool := (evts.lookup e).isSome

def filterEvents (es : EventsID) (evts : Events act) : EventsID := es.filter (filterEvent · evts)

/-! ## Setters -/

def setEvent (e : EventID) (ev : Event act) (evts : Events act) : Events act := evts.insert e ev

/-- Add `e` as a successor of `e'`. -/
def addSucc (e e' : EventID) (evts : Events act) : Except Err (Events act) := do
  let ev ← getEvent "add_succ" e' evts
  pure (setEvent e' { ev with succ := e :: ev.succ } evts)

/-- Delete `e` as a successor of `e'`; an `e'` that is gone is skipped. -/
def delSucc (e e' : EventID) (evts : Events act) : Events act :=
  match evts.lookup e' with
  | none => evts
  | some ev => setEvent e' { ev with succ := ev.succ.erase e } evts

/-- Add `e` as an immediate conflict of `e'`. -/
def addIcnf (e e' : EventID) (evts : Events act) : Except Err (Events act) := do
  let ev ← getEvent "add_icnf" e' evts
  pure (setEvent e' { ev with icnf := e :: ev.icnf } evts)

/-- Delete `e` as an immediate conflict of `e'`, with the alternatives of `e'` that use it. -/
def delIcnf (e e' : EventID) (evts : Events act) : Except Err (Events act) := do
  let ev ← getEvent "del_icnf" e' evts
  pure (setEvent e' { ev with
    icnf := ev.icnf.erase e
    alte := ev.alte.filter fun v => !decide (e ∈ v) } evts)

/-- Delete an event with all its successors. -/
def delEventAux : Nat → EventID → Events act → Except Err (Events act)
  | 0, _, _ => .error .outOfFuel
  | n + 1, e, evts =>
    if filterEvent e evts then do
      let ev ← getEvent "deleteEvent" e evts
      let evts := ev.pred.foldl (fun t e' => delSucc e e' t) evts
      let evts ← ev.icnf.foldlM (fun t e' => delIcnf e e' t) evts
      let evts ← ev.succ.foldlM (fun t e' => delEventAux n e' t) evts
      pure (evts.erase e)
    else pure evts

def delEvent (e : EventID) (evts : Events act) : Except Err (Events act) :=
  delEventAux (evts.bound + 1) e evts

/-- Set `de` as the disabled set of `e`. -/
def setDisa (e : EventID) (de : EventsID) (evts : Events act) : Except Err (Events act) := do
  let ev ← getEvent "set_disa" e evts
  pure (setEvent e { ev with disa := de } evts)

/-- Add `v` to the alternatives of `e`. -/
def addAlte (e : EventID) (v : Alternative) (evts : Events act) : Except Err (Events act) := do
  let ev ← getEvent "add_alte" e evts
  pure (setEvent e { ev with alte := (v :: ev.alte).eraseDups } evts)

/-- Reset the alternatives of `e`. -/
def resetAlte (e : EventID) (evts : Events act) : Except Err (Events act) := do
  let ev ← getEvent "reset_alte" e evts
  pure (setEvent e { ev with alte := [] } evts)

/-! ## Dependence -/

section Dependence

variable [Action act]

/-- Two events are dependent if they are of one thread, if their actions interfere, or if one
creates the thread of the other; the bottom event depends on everything. -/
def isDependent (a b : EventInfo act) : Bool :=
  a.1.tid = botID || b.1.tid = botID ||
    a.1.tid = b.1.tid ||
    Action.interferes a.2 b.2 ||
    Action.isCreateOf ⟨a.1.tid⟩ b.2 ||
    Action.isCreateOf ⟨b.1.tid⟩ a.2

/-- Splits `es` into the events dependent on `info` and the others, on top of `(dep, indep)`. -/
def partitionDependent (info : EventInfo act) (evts : Events act) :
    EventsID × EventsID → EventsID → Except Err (EventsID × EventsID)
  | acc, [] => pure acc
  | (dep, indep), e :: r => do
    let ev ← getEvent "partition_dependent" e evts
    if isDependent info (ev.name, ev.acts) then partitionDependent info evts (e :: dep, indep) r
    else partitionDependent info evts (dep, e :: indep) r

/-- The ids are compared with the thread id `-1` of bottom, which is no event id. -/
def isIndependent (e1 e2 : EventID) (evts : Events act) : Except Err Bool :=
  if (e1 : Int) = botID ∨ (e2 : Int) = botID then pure false
  else do
    let ev1 ← getEvent "is_independent" e1 evts
    let ev2 ← getEvent "is_independent" e2 evts
    pure (!isDependent (ev1.name, ev1.acts) (ev2.name, ev2.acts))

end Dependence

/-! ## Local configurations -/

def predecessorsAux (evts : Events act) : Nat → EventID → Except Err EventsID
  | 0, _ => .error .outOfFuel
  | n + 1, e => do
    let ev ← getEvent "predecessors" e evts
    ev.pred.foldlM (fun a e' => do
      let r ← predecessorsAux evts n e'
      pure (a ++ r)) ev.pred

/-- The causal predecessors of `e`, without `e`. -/
def predecessors (e : EventID) (evts : Events act) : Except Err EventsID :=
  List.eraseDups <$> predecessorsAux evts (evts.bound + 1) e

def successorsAux (evts : Events act) : Nat → EventID → Except Err EventsID
  | 0, _ => .error .outOfFuel
  | n + 1, e => do
    let ev ← getEvent "successors" e evts
    ev.succ.foldlM (fun a e' => do
      let r ← successorsAux evts n e'
      pure (a ++ r)) ev.succ

/-- The causal successors of `e`, without `e`. -/
def successors (e : EventID) (evts : Events act) : Except Err EventsID :=
  List.eraseDups <$> successorsAux evts (evts.bound + 1) e

/-! ## The state of the unfolder -/

/-- Records the tables as they are now. -/
def record : UnfolderOp st act Unit :=
  Op.modify fun s => { s with seen := ⟨s.evts, s.cntr, s.stak⟩ :: s.seen }

/-- Replaces the prefix by what `f` makes of it. -/
def onEvts (f : Events act → Except Err (Events act)) : UnfolderOp st act Unit := do
  let s ← Op.get
  let evts ← f s.evts
  Op.modify fun s => { s with evts := evts }
  record

def push (e : EventID) : UnfolderOp st act Unit := do
  Op.modify fun s => { s with stak := e :: s.stak }
  record

def pop : UnfolderOp st act Unit := do
  let s ← Op.get
  match s.stak with
  | [] => Op.fail (.emptyList "pop")
  | _ :: stak =>
    Op.modify fun s => { s with stak := stak }
    record

def freshCounter : UnfolderOp st act Nat := do
  let s ← Op.get
  Op.modify fun s => { s with cntr := s.cntr + 1 }
  pure s.cntr

def setCutoffTable (stas : States st) : UnfolderOp st act Unit :=
  Op.modify fun s => { s with stas := stas }

def onStats (f : UnfolderStats → UnfolderStats) : UnfolderOp st act Unit :=
  Op.modify fun s => { s with stats := f s.stats }

def incMaxConf : UnfolderOp st act Unit :=
  onStats fun t => { t with nrMaxConf := t.nrMaxConf + 1 }

def incCutoffs : UnfolderOp st act Unit :=
  onStats fun t => { t with nrCutoffs := t.nrCutoffs + 1 }

def incEvsPrefix : UnfolderOp st act Unit :=
  onStats fun t => { t with nrEvsPrefix := t.nrEvsPrefix + 1 }

/-- Adds the current size of the prefix. -/
def incSumSizeMaxConf : UnfolderOp st act Unit :=
  onStats fun t => { t with sumSizeMaxConf := t.sumSizeMaxConf + t.nrEvsPrefix }

def incEvsPerName (name : EventName) : UnfolderOp st act Unit :=
  onStats fun t => { t with
    nrEvsPerName :=
      match t.nrEvsPerName.lookup name with
      | none => (name, 1) :: t.nrEvsPerName
      | some n => (name, n + 1) :: t.nrEvsPerName.filter (·.1 ≠ name) }

def addWarns (warns : List Int) : UnfolderOp st act Unit :=
  onStats fun t => { t with nrWarns := warns ∪ t.nrWarns }

def defaultUnfStats : UnfolderStats := ⟨0, 0, 1, 0, [(botName, 1)], []⟩

/-- The prefix of the bottom event alone. -/
def botPrefix (acts : act) : Events act := (∅ : Events act).insert botEID (botEvent acts)

/-- Initial state of the unfolder (`API.hs:54`). -/
def iUnfState [Projection st] (stl cut : Bool) (wid : Int) (syst : System st act) :
    UnfolderState st act where
  syst := syst
  evts := botPrefix syst.gbac
  stak := [botEID]
  cntr := 1
  stas := [(Projection.controlPart syst.gbst, [(syst.gbst, 0)])]
  opts := ⟨stl, cut, wid⟩
  stats := defaultUnfStats
  calls := []
  seen := [⟨botPrefix syst.gbac, 1, [botEID]⟩]

end Poet
