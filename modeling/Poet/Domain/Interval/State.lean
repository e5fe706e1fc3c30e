import Poet.Domain.Interval.Offset
import Poet.Domain.ProgState

/-!
# Interval states (`Domain/Interval/{State,API}.hs`)

Regions map intervals of offsets to values. Their keys are ordered by the `Ord` instance of
`IntValue`, which is inclusion and not a total order; see `Poet.Domain.Interval.Regions` for why the
maps still keep the lists they are made of.

`join` and `widen` of states call `error` on values, positions or code that do not match, and the
subsumption test on a key that is no interval.
-/

namespace Poet

instance : OrdKey IntValue := ⟨IntValue.lt⟩

abbrev IntOffs := Offs IntValue
abbrev IntMemory := Memory IntValue
abbrev IntThState := ThState IntValue
abbrev IntState := ProgState IntValue

variable [HostInt]

/-- `read_addr_from_region` and `write_region_addr` (`API.hs:90,125`). -/
instance : Region IntValue where
  read offs off :=
    match offs.lookup off with
    | some val => .ok (some val)
    | none => do
      let hits ← filterM (fun p : IntValue × IntValue => do
        return decide (IntValue.bot ≠ (← p.1.meet off))) offs.toList
      match hits with
      | [] => return none
      | ps => return some (← IntValue.joinL (ps.map (·.2)))
  write offs off val := do
    return .fromList (← genIntvalList (fun v _ => v) [(off, val)] offs.toList)

/-- `gen_offset_lists` (`State.hs:41`). -/
def genOffsetLists (fn : OffsList IntValue → OffsList IntValue → Except DomErr (OffsList IntValue))
    (m1 m2 : IntOffs) : Except DomErr IntOffs := do
  return .fromList (← fn m1.toList m2.toList)

def joinOffs : IntOffs → IntOffs → Except DomErr IntOffs := genOffsetLists joinOffsList

def widenOffs : IntOffs → IntOffs → Except DomErr IntOffs := genOffsetLists widenOffsList

def joinMemory : IntMemory → IntMemory → Except DomErr IntMemory := OrdMap.unionWithM joinOffs

def widenMemory : IntMemory → IntMemory → Except DomErr IntMemory := OrdMap.unionWithM widenOffs

/-- `ite` (`State.hs:77`). -/
def ite' {α : Type} [DecidableEq α] (text : String) (a b : α) : Except DomErr α :=
  if a = b then .ok a else .error (.error text)

def joinThState (t1 t2 : IntThState) : Except DomErr IntThState := do
  let pos ← ite' "join_intthst:\n" t1.thPos t2.thPos
  let cfgId ← ite' "join_intthst:" t1.thCfgId t2.thCfgId
  let locals ← joinMemory t1.thLocals t2.thLocals
  return ⟨pos, cfgId, locals⟩

def widenThState (t1 t2 : IntThState) : Except DomErr IntThState := do
  let pos ← ite' "widen_intthst:" t1.thPos t2.thPos
  let cfgId ← ite' "widen_intthst:" t1.thCfgId t2.thCfgId
  let locals ← widenMemory t1.thLocals t2.thLocals
  return ⟨pos, cfgId, locals⟩

namespace IntState

def join (s1 s2 : IntState) : Except DomErr IntState :=
  match s1.isBot, s2.isBot with
  | true, _ => .ok s2
  | _, true => .ok s1
  | _, _ => do
    let heap ← joinMemory s1.heap s2.heap
    let thStates ← OrdMap.unionWithM joinThState s1.thStates s2.thStates
    return ⟨heap, thStates, thStates.size, false⟩

def widen (s1 s2 : IntState) : Except DomErr IntState :=
  if s1 = s2 then .ok s1 else do
    let heap ← widenMemory s1.heap s2.heap
    let thStates ← OrdMap.unionWithM widenThState s1.thStates s2.thStates
    return ⟨heap, thStates, thStates.size, false⟩

/-- `M.foldrWithKey'` of a check: every entry is checked, from the last to the first. -/
def checkAll {α β : Type} (check : α → β → Except DomErr Bool) (m : OrdMap α β) :
    Except DomErr Bool :=
  m.toList.foldr (fun p b => do
    let b ← b
    return (← check p.1 p.2) && b) (.ok true)

def checkBottoms (b1 b2 : Bool) : Option Bool :=
  if b1 then some b2 else if b2 then some true else none

def checkOffsets (hp1 : IntMemory) (mid : MemAddrBase) (offs2 : IntOffs) : Except DomErr Bool :=
  match hp1.lookup mid with
  | none => .ok false
  | some offs1 => subsumesIntvalList offs1.toList offs2.toList

def checkThreads (sts1 : OrdMap TId IntThState) (tid : TId) (th2 : IntThState) :
    Except DomErr Bool :=
  match sts1.lookup tid with
  | none => .ok false
  | some th1 =>
    if th1.thPos = th2.thPos then checkAll (checkOffsets th1.thLocals) th2.thLocals else .ok false

/-- `st1 >= st2` (`State.hs:138`). -/
def subsumesInterval (st1 st2 : IntState) : Except DomErr Bool :=
  match checkBottoms st1.isBot st2.isBot with
  | some r => .ok r
  | none =>
    if st1.numTh < st2.numTh then .ok false
    else do
      if ← checkAll (checkThreads st1.thStates) st2.thStates then
        checkAll (checkOffsets st1.heap) st2.heap
      else return false

instance : LatticeM IntState where
  join := join
  -- `(<=) a b = b `subsumes_interval` a`
  leq a b := subsumesInterval b a
  isBot s := s.isBot
  widen := widen

end IntState

end Poet
