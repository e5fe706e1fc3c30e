import Poet.Domain.MemAddr
import Poet.Lib.OrdMap

/-!
# States of the two domains (`Domain/{Concrete,Interval}/{State,API}.hs`)

`ConState` and `IntState` have the same fields, and their API is written twice with the same text
but for how one region of memory is read and written. Here it is written once over the type `v` of
values, with the class `Region` for that difference.

| here | there |
| --- | --- |
| `heap`, `thStates`, `numTh`, `isBot` | `heap`, `th_states`, `num_th`, `is_bot` (`cs_heap`, `cs_tstates`, `cs_numth`, `cs_bot`) |
| `Memory`         | `IntMemory` (`ConHeap`) |
| `Region.read`    | `read_addr_from_region`, once the region is found |
| `Region.write`   | `write_region_addr`, once the region is found |

An `error` is a `DomErr` with the constant part of its text.
-/

namespace Poet

/-- The derived order: `Global` is below every `Local`. -/
def Scope.before : Scope → Scope → Bool
  | .glob, .loc _ => true
  | .loc a, .loc b => a < b
  | _, .glob => false

/-- The derived order: by symbol, then by scope. -/
instance : OrdKey MemAddrBase :=
  ⟨fun a b => a.base.symId < b.base.symId || (a.base = b.base && a.level.before b.level)⟩

section Addresses

variable {v : Type}

def fromAddr (a : MemAddr v) : MemAddrBase × v := (⟨a.base, a.level⟩, a.offset)

def toAddr (b : MemAddrBase) (off : v) : MemAddr v := ⟨b.base, off, b.level⟩

def setLevel (b : MemAddrBase) (scope : Scope) : MemAddrBase := ⟨b.base, scope⟩

def setOffset (a : MemAddr v) (off : v) : MemAddr v := { a with offset := off }

end Addresses

/-- The cells of one region of memory. -/
abbrev Offs (v : Type) := OrdMap v v

abbrev Memory (v : Type) := OrdMap MemAddrBase (Offs v)

structure ThState (v : Type) where
  thPos : Pos
  thCfgId : SymId
  thLocals : Memory v
deriving DecidableEq, Repr

structure ProgState (v : Type) where
  heap : Memory v
  thStates : OrdMap TId (ThState v)
  numTh : Int
  isBot : Bool
deriving DecidableEq, Repr

/-- How the cells of a region are read and written. -/
class Region (v : Type) where
  read : Offs v → v → Except DomErr (Option v)
  write : Offs v → v → v → Except DomErr (Offs v)

namespace ProgState

variable {v : Type}

/-- The initial state, which is not bottom. -/
def emptyState : ProgState v := ⟨.empty, .empty, 1, false⟩

def bot : ProgState v := ⟨.empty, .empty, 0, true⟩

instance : Projection (ProgState v) where
  controlPart st := (st.thStates.map ThState.thPos).toList
  toThCFGSym st tid :=
    match st.thStates.lookup tid with
    | none => .error (.error "toThCFGSym: invalid tid ")
    | some t => .ok t.thCfgId

/-- Increments the thread counter. -/
def incNumTh (s : ProgState v) : Int × ProgState v := (s.numTh + 1, { s with numTh := s.numTh + 1 })

def insertThread (s : ProgState v) (tid : TId) (th : ThState v) : ProgState v :=
  { s with thStates := s.thStates.insert tid th }

/-! ## Full addresses from base addresses -/

def toMemAddrs (offs : Offs v) (base : MemAddrBase) : MemAddrs v :=
  .addrs (offs.toList.map fun p => toAddr base p.1)

def getAddrsMemory (mem : Memory v) (base : MemAddrBase) : Option (MemAddrs v) :=
  (mem.lookup base).map fun offs => toMemAddrs offs base

/-- `get_addrs` at the scope `Global`. -/
def getAddrsGlobal (st : ProgState v) (addr : MemAddrBase) : Except DomErr (MemAddrs v) :=
  match getAddrsMemory st.heap addr with
  | none => .error (.error "get_addrs: ")
  | some as => .ok as

/-- A local address that is not in the locals of its thread is looked up in the heap. -/
def getAddrs (st : ProgState v) (addr : MemAddrBase) : Except DomErr (MemAddrs v) :=
  match addr.level with
  | .loc i =>
    match st.thStates.lookup i with
    | none => .error (.error "get_addrs: tid not found")
    | some th =>
      match getAddrsMemory th.thLocals addr with
      | none => getAddrsGlobal st (setLevel addr .glob)
      | some as => .ok as
  | .glob => getAddrsGlobal st addr

/-! ## Reading -/

section Read

variable [Region v]

def readAddrFromRegion (mem : Memory v) (addr : MemAddrBase) (off : v) : Except DomErr (Option v) :=
  match mem.lookup addr with
  | none => .ok none
  | some offs => Region.read offs off

/-- `read_memory_addr` at the scope `Global`. -/
def readMemoryGlobal (st : ProgState v) (addr : MemAddr v) : Except DomErr v := do
  match ← readAddrFromRegion st.heap (fromAddr addr).1 (fromAddr addr).2 with
  | none => throw (.error "read_memory_addr: not found")
  | some val => return val

def readMemoryAddr (st : ProgState v) (addr : MemAddr v) : Except DomErr v :=
  match addr.level with
  | .glob => readMemoryGlobal st addr
  | .loc tid =>
    match st.thStates.lookup tid with
    | none => .error (.error "read_memory_addr: tid not found, addr ")
    | some th => do
      match ← readAddrFromRegion th.thLocals (fromAddr addr).1 (fromAddr addr).2 with
      | none => readMemoryGlobal st { addr with level := .glob }
      | some val => return val

def readMemory (st : ProgState v) : MemAddrs v → Except DomErr (List v)
  | .top => .error (.error "read_memory: have not implemented MemAddrTop")
  | .addrs l => l.mapM' (readMemoryAddr st)

end Read

/-! ## Writing -/

section Write

variable [DecidableEq v] [OrdKey v] [Region v]

def writeRegionAddr (mem : Memory v) (addr : MemAddrBase) (off val : v) :
    Except DomErr (Memory v) :=
  match mem.lookup addr with
  | none => .ok (mem.insert addr (.fromList [(off, val)]))
  | some offs => do return mem.insert addr (← Region.write offs off val)

def writeMemoryAddr (st : ProgState v) (addr : MemAddr v) (val : v) : Except DomErr (ProgState v) :=
  match addr.level with
  | .glob => do
    let heap ← writeRegionAddr st.heap (fromAddr addr).1 (fromAddr addr).2 val
    return { st with heap := heap }
  | .loc i =>
    match st.thStates.lookup i with
    | none => .error (.error "write_memory_addr: tid not found in th_states")
    | some th => do
      let locals ← writeRegionAddr th.thLocals (fromAddr addr).1 (fromAddr addr).2 val
      return { st with thStates := st.thStates.insert i { th with thLocals := locals } }

/-- Writes one value to a set of addresses, from the last to the first. -/
def writeMemory (st : ProgState v) (addrs : MemAddrs v) (val : v) : Except DomErr (ProgState v) :=
  match addrs with
  | .top => .error (.error "write_memory: top addrs, need to traverse everything")
  | .addrs l => l.foldr (fun a s => do writeMemoryAddr (← s) a val) (.ok st)

end Write

/-! ## Positions -/

def updatePc (st : ProgState v) (tid : TId) (pos : Pos) : ProgState v :=
  { st with thStates := st.thStates.adjust tid fun th => { th with thPos := pos } }

/-- Sets the position of a thread; this can also initialise the state of a thread. -/
def setPos (st : ProgState v) (tid : TId) (cfgSym : SymId) (npos : Pos) : ProgState v :=
  let th := match st.thStates.lookup tid with
    | none => ⟨npos, cfgSym, .empty⟩
    | some t => { t with thPos := npos }
  { st with thStates := st.thStates.insert tid th }

end ProgState

end Poet
