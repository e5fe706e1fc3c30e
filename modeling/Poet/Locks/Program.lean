import Poet.Exploration.Unfolder

/-!
# Lock programs

A lock program is a finite list of threads, each a straight-line list of `pthread_mutex_lock` and
`pthread_mutex_unlock` calls. As a domain, its state is the number of steps each thread has done;
the collapse of a thread is its next step, when it is executable, with the action that the
transformers record for the call (`lock_act_addr`, `unlock_act_addr`).
-/

namespace Poet

inductive LockOp where
  | lock (m : Nat)
  | unlock (m : Nat)
deriving DecidableEq, Repr

namespace LockOp

def mutex : LockOp → Nat
  | lock m => m
  | unlock m => m

end LockOp

abbrev LockAct := Act Int

def mutexAddr (m : Nat) : MemAddrs Int := .addrs [⟨⟨m⟩, ToValue.zero, .glob⟩]

def LockOp.act : LockOp → LockAct
  | lock m => Act.lockActAddr (mutexAddr m)
  | unlock m => Act.unlockActAddr (mutexAddr m)

abbrev LockProgram := List (List LockOp)

/-- After its first `p` steps a thread holds `m` if its last step on `m` is a lock. -/
def holds (ops : List LockOp) (p m : Nat) : Bool :=
  ((ops.take p).filter (·.mutex = m)).getLast? = some (.lock m)

namespace LockProgram

def thread (P : LockProgram) (t : Nat) : List LockOp := P.getD t []

/-- The step `p` of a thread locks a mutex it does not hold, or unlocks one it holds. -/
def stepOk (ops : List LockOp) (p : Nat) : Bool :=
  match ops[p]? with
  | some (.lock m) => !holds ops p m
  | some (.unlock m) => holds ops p m
  | none => true

/-- Every thread locks only mutexes it does not hold and unlocks only mutexes it holds. -/
def WellLocked (P : LockProgram) : Prop := ∀ ops ∈ P, ∀ p < ops.length, stepOk ops p = true

/-- No thread ever holds two mutexes at once. -/
def NonNested (P : LockProgram) : Prop :=
  ∀ ops ∈ P, ∀ p ≤ ops.length, ∀ a ∈ ops, ∀ b ∈ ops,
    holds ops p a.mutex = true → holds ops p b.mutex = true → a.mutex = b.mutex

instance (P : LockProgram) : Decidable P.WellLocked :=
  inferInstanceAs (Decidable (∀ ops ∈ P, ∀ p < ops.length, stepOk ops p = true))

instance (P : LockProgram) : Decidable P.NonNested :=
  inferInstanceAs (Decidable (∀ ops ∈ P, ∀ p ≤ ops.length, ∀ a ∈ ops, ∀ b ∈ ops,
    holds ops p a.mutex = true → holds ops p b.mutex = true → a.mutex = b.mutex))

end LockProgram

/-- The number of steps that each thread of `P` has done. -/
structure LockState (P : LockProgram) where
  pcs : List Nat
deriving DecidableEq, Repr

namespace LockState

variable {P : LockProgram}

def init (P : LockProgram) : LockState P := ⟨P.map fun _ => 0⟩

def pc (s : LockState P) (t : Nat) : Nat := s.pcs.getD t 0

/-- Some thread holds `m`. -/
def held (s : LockState P) (m : Nat) : Bool :=
  (List.range P.length).any fun t => holds (P.thread t) (s.pc t) m

/-- The next step of thread `t`, if it can be executed: a lock only when the mutex is free. -/
def next (s : LockState P) (t : Nat) : Option LockOp :=
  match (P.thread t)[s.pc t]? with
  | some (.lock m) => if s.held m then none else some (.lock m)
  | some (.unlock m) => some (.unlock m)
  | none => none

def step (s : LockState P) (t : Nat) : LockState P := ⟨s.pcs.set t (s.pc t + 1)⟩

end LockState

section Instance

variable {P : LockProgram}

/-- Only `isBot` and `leq` mean something: no state is bottom, and states are compared by equality
as the concrete ones are. -/
instance : LatticeM (LockState P) where
  join a _ := .ok a
  leq a b := .ok (a = b)
  isBot _ := false
  widen a _ := .ok a

instance : Projection (LockState P) where
  controlPart s := s.pcs.zipIdx.map fun (pc, t) => ((t : TId), (pc : Pos))
  toThCFGSym _ t := .ok ⟨t⟩

/-- The collapse of a thread: its next step. -/
def lockRun (s : LockState P) (tid : TId) : ResultList (LockState P) LockAct :=
  match tid with
  | .ofNat t =>
    match s.next t with
    | some op => [(s.step t, ((s.pc t + 1 : Nat) : Pos), op.act)]
    | none => []
  | .negSucc _ => []

instance : Domain (LockState P) LockAct where
  isEnabled _ s tid := .ok ((lockRun s tid).head?.map (·.1))
  run _ _ _ s tid := .ok ([], lockRun s tid)

end Instance

namespace LockProgram

def system (P : LockProgram) : System (LockState P) LockAct where
  gbst := LockState.init P
  gbac := Act.bot
  cfgs := []
  symt := []

/-- The run of the unfolder on `P` without cutoffs. -/
def unfold (P : LockProgram) (fuel : Nat) (stl : Bool) :
    Except Err Unit × UnfolderState (LockState P) LockAct :=
  unfolder fuel stl false 10 P.system

end LockProgram

end Poet
