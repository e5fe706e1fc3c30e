import Poet.Locks.Steps

/-!
# Duplicated events

`histories` removes repeated histories as lists. Two orders of replacing maximal events by their
predecessors reach one set in two orders, and then two events with the same name and the same
predecessors are added: three threads that write to memory are enough
(`memProgram_duplicates`). With two threads the histories of an event form a chain, and the histories
of a lock are built from different unlocks; there the prefix has no duplicates
(`unfolder_noDuplicates`).
-/

namespace Poet

/-- Decided on the keys. -/
instance {act : Type} (T : Events act) : Decidable (NoDuplicates T) :=
  decidable_of_iff (∀ x ∈ T.keys, ∀ y ∈ T.keys, T.nameOf x = T.nameOf y →
    sameElems (T.predOf x) (T.predOf y) = true → x = y) <| by
    simp only [NoDuplicates, sameElems_iff]
    rfl

/-! ## Straight-line programs on memory -/

/-- For each thread the actions of its steps; every step is executable. -/
abbrev MemProgram := List (List (Act Int))

/-- The number of steps that each thread has done. -/
structure MemState (P : MemProgram) where
  pcs : List Nat
deriving DecidableEq, Repr

namespace MemProgram

variable {P : MemProgram}

instance : LatticeM (MemState P) where
  join a _ := .ok a
  leq a b := .ok (a = b)
  isBot _ := false
  widen a _ := .ok a

instance : Projection (MemState P) where
  controlPart s := s.pcs.zipIdx.map fun (pc, t) => ((t : TId), (pc : Pos))
  toThCFGSym _ t := .ok ⟨t⟩

def run (s : MemState P) (tid : TId) : ResultList (MemState P) (Act Int) :=
  match tid with
  | .ofNat t =>
    let pc := s.pcs.getD t 0
    match (P.getD t [])[pc]? with
    | some a => [(⟨s.pcs.set t (pc + 1)⟩, ((pc + 1 : Nat) : Pos), a)]
    | none => []
  | .negSucc _ => []

instance : Domain (MemState P) (Act Int) where
  isEnabled _ s tid := .ok ((run s tid).head?.map (·.1))
  run _ _ _ s tid := .ok ([], run s tid)

def system (P : MemProgram) : System (MemState P) (Act Int) where
  gbst := ⟨P.map fun _ => 0⟩
  gbac := Act.bot
  cfgs := []
  symt := []

end MemProgram

def writeVar (x : Int) : Act Int := Act.writeActAddr (.addrs [⟨⟨x⟩, ToValue.zero, .glob⟩])

/-- `z = 0; x = y` beside `y = 0` and `x = 0; x = 0`. -/
def threeWriters : MemProgram :=
  [[writeVar 3, (writeVar 0).join (writeVar 1)], [writeVar 1], [writeVar 0, writeVar 0]]

/-- The run on `threeWriters` goes through a prefix with a duplicated event, and then stops at the
error that reports it. -/
theorem memProgram_duplicates :
    (∃ sn ∈ (unfolder 16 false false 10 threeWriters.system).2.seen, ¬ NoDuplicates sn.evts) ∧
      (unfolder 16 false false 10 threeWriters.system).1 = .error .duplicates := by
  decide +kernel

/-! ## Where there are none -/

section

variable {st act : Type} [DecidableEq st] [DecidableEq act] [LatticeM st] [Projection st]
  [Lattice act] [Action act] [Domain st act]

/-- **No duplicated events** on a system of two threads, or of locks, unlocks and joins only. -/
theorem unfolder_noDuplicates (fuel : Nat) (stl cut : Bool) (wid : Int) (syst : System st act)
    (hr : Restricted syst) :
    ∀ sn ∈ (unfolder fuel stl cut wid syst).2.seen, NoDuplicates sn.evts :=
  fun sn hsn => ((unfolder_safe fuel stl cut wid syst).seen sn hsn).unique hr

end

theorem lockProgram_noDuplicates :
    Restricted (LockProgram.system [[.lock 0, .unlock 0], [.lock 0, .unlock 0], [.lock 0]]) ∧
      ∀ sn ∈ (unfolder 16 true false 10
        (LockProgram.system [[.lock 0, .unlock 0], [.lock 0, .unlock 0], [.lock 0]])).2.seen,
        NoDuplicates sn.evts :=
  ⟨.inl (LockProgram.lockLike _), unfolder_noDuplicates _ _ _ _ _ (.inl (LockProgram.lockLike _))⟩

end Poet
