import Poet.Domain.MemAddr

/-!
# Actions (`Domain/Action.hs`)

The API to compute independence from actions, and its implementation by read and write sets.
-/

namespace Poet

/-- `class ToValue` (`GCS.hs:76`). -/
class ToValue (v : Type) where
  kVal : Int → v

def ToValue.zero {v : Type} [ToValue v] : v := ToValue.kVal 0

def ToValue.one {v : Type} [ToValue v] : v := ToValue.kVal 1

/-- Plain integers as offsets, for the small domains of this development. -/
instance : ToValue Int := ⟨id⟩

/-- `class Action` (`Action.hs:19`). -/
class Action (act : Type) where
  isLock : act → Bool
  isUnlock : act → Bool
  isJoin : act → Bool
  isUnlockOf : act → act → Bool
  isLockOf : act → act → Bool
  isCreateOf : SymId → act → Bool
  interferes : act → act → Bool
  isGlobal : act → Bool
  exitAct : SymId → act

structure Act (v : Type) where
  rds : MemAddrs v
  wrs : MemAddrs v
  locks : MemAddrs v
  unlocks : MemAddrs v
  tcreate : MemAddrs v
  tjoin : MemAddrs v
  texit : MemAddrs v
deriving DecidableEq, Repr

namespace Act

variable {v : Type} [DecidableEq v]

def bot : Act v :=
  let b : MemAddrs v := .addrs []
  ⟨b, b, b, b, b, b, b⟩

def readActAddr (a : MemAddrs v) : Act v := { (bot : Act v) with rds := a }
def writeActAddr (a : MemAddrs v) : Act v := { (bot : Act v) with wrs := a }
def lockActAddr (a : MemAddrs v) : Act v := { (bot : Act v) with locks := a }
def unlockActAddr (a : MemAddrs v) : Act v := { (bot : Act v) with unlocks := a }
def createThreadAct (tid : SymId) (off : v) : Act v :=
  { (bot : Act v) with tcreate := .addrs [⟨tid, off, .glob⟩] }
def joinThreadAct (tid : SymId) (off : v) : Act v :=
  { (bot : Act v) with tjoin := .addrs [⟨tid, off, .glob⟩] }
def exitThreadAct [ToValue v] (tid : SymId) : Act v :=
  { (bot : Act v) with texit := .addrs [⟨tid, ToValue.zero, .glob⟩] }

def addWrites (ws : MemAddrs v) (a : Act v) : Act v := { a with wrs := ws.join a.wrs }

def join (a b : Act v) : Act v :=
  ⟨a.rds.join b.rds, a.wrs.join b.wrs, a.locks.join b.locks, a.unlocks.join b.unlocks,
    a.tcreate.join b.tcreate, a.tjoin.join b.tjoin, a.texit.join b.texit⟩

def meet (a b : Act v) : Act v :=
  ⟨a.rds.meet b.rds, a.wrs.meet b.wrs, a.locks.meet b.locks, a.unlocks.meet b.unlocks,
    a.tcreate.meet b.tcreate, a.tjoin.meet b.tjoin, a.texit.meet b.texit⟩

/-- `compare` of `deriving (Eq,Ord)` (`Action.hs:50`): lexicographic in the fields. -/
def cmp (a b : Act v) : Ordering :=
  (a.rds.cmp b.rds).then <| (a.wrs.cmp b.wrs).then <| (a.locks.cmp b.locks).then <|
    (a.unlocks.cmp b.unlocks).then <| (a.tcreate.cmp b.tcreate).then <|
      (a.tjoin.cmp b.tjoin).then (a.texit.cmp b.texit)

/-- The derived `(<=)`, which is `not (b < a)`. It is not inclusion of the seven sets: the first
field that differs decides. -/
def le (a b : Act v) : Bool := b.cmp a != .lt

/-- Inclusion of the seven sets, the order for which `join` is a least upper bound. -/
structure Below (a b : Act v) : Prop where
  rds : a.rds.le b.rds = true
  wrs : a.wrs.le b.wrs = true
  locks : a.locks.le b.locks = true
  unlocks : a.unlocks.le b.unlocks = true
  tcreate : a.tcreate.le b.tcreate = true
  tjoin : a.tjoin.le b.tjoin = true
  texit : a.texit.le b.texit = true

theorem below_refl (a : Act v) : a.Below a := by
  constructor <;> exact MemAddrs.le_refl _

theorem Below.trans {a b c : Act v} (hab : a.Below b) (hbc : b.Below c) : a.Below c where
  rds := MemAddrs.le_trans hab.rds hbc.rds
  wrs := MemAddrs.le_trans hab.wrs hbc.wrs
  locks := MemAddrs.le_trans hab.locks hbc.locks
  unlocks := MemAddrs.le_trans hab.unlocks hbc.unlocks
  tcreate := MemAddrs.le_trans hab.tcreate hbc.tcreate
  tjoin := MemAddrs.le_trans hab.tjoin hbc.tjoin
  texit := MemAddrs.le_trans hab.texit hbc.texit

theorem below_join_left (a b : Act v) : a.Below (a.join b) := by
  constructor <;> exact MemAddrs.le_join_left _ _

theorem below_join_right (a b : Act v) : b.Below (a.join b) := by
  constructor <;> exact MemAddrs.le_join_right _ _

instance : Lattice (Act v) where
  bot := bot
  join := join
  meet := meet
  leq := le
  isBot a := a = bot
  -- the class default is an `error`; actions are never widened
  widen a _ := a

/-- `isLockOf` (`Action.hs:102`): true when `a2` locks nothing that `a1` reads, writes, locks or
unlocks. -/
def isLockOf (a1 a2 : Act v) : Bool :=
  let f (addr : MemAddrs v) : Bool := Lattice.isBot (addr.meet a2.locks)
  f a1.unlocks && f a1.wrs && f a1.rds && f a1.locks

/-- `act_addrs` (`Action.hs:149`): `foldr join bot` over the seven sets. -/
def actAddrs (a : Act v) : MemAddrs v :=
  [a.rds, a.wrs, a.locks, a.unlocks, a.tcreate, a.tjoin, a.texit].foldr MemAddrs.join (.addrs [])

def isCreateOf (tidSym : SymId) (a : Act v) : Bool :=
  match a.tcreate with
  | .top => true
  | .addrs l => l.any fun x => x.level = .glob && tidSym = x.base

instance [ToValue v] : Action (Act v) where
  isUnlock a := !Lattice.isBot a.unlocks
  isLock a := !Lattice.isBot a.locks
  isJoin a := !Lattice.isBot a.tjoin
  isUnlockOf a1 a2 := !Lattice.isBot (a1.locks.meet a2.unlocks)
  isLockOf := isLockOf
  interferes a1 a2 := !Lattice.isBot (a1.actAddrs.meet a2.actAddrs)
  isGlobal a := !([a.locks, a.unlocks, a.tcreate, a.tjoin].all Lattice.isBot)
  isCreateOf := isCreateOf
  exitAct := exitThreadAct

end Act

end Poet
