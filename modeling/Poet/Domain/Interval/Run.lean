import Poet.Domain.FixpointEnds
import Poet.Domain.Interval.Transformers

/-!
# Runs and enabledness in the interval semantics (`Domain/Interval.hs`)

The collapse of a thread returns one result for each marked edge. In the concrete semantics there
is at most one; an abstract state can let several branches reach different global actions, and
`is_enabled_int`, which `enabled` asks about every thread, raises an error if there is more than
one result. Where the code of each thread can come to one end only (`OneEndOf`), no run has two
results, and `enabled` lists the threads that have one.

| here | there |
| --- | --- |
| `runInt`, `isEnabledInt` | `run_int` (`Interval.hs:108`), `is_enabled_int` (`Interval.hs:49`) |
| `enabledInt`             | the default of `enabled` (`Class.hs:65`) |
-/

namespace Poet

section Run

variable [SimpleC] [HostInt]

instance : Collapse IntState IntAct where
  codeTransformer := edgeTransformer transformerExprInt

def runInt : Nat → Bool → Int → System IntState IntAct → IntState → TId →
    Except FixErr (List Int × ResultList IntState IntAct) := runProg "run"

def isEnabledInt : Nat → System IntState IntAct → IntState → TId → Except FixErr (Option IntState) :=
  isEnabledProg "run"

def enabledInt (fuel : Nat) (syst : System IntState IntAct) (st : IntState) :
    Except FixErr (List (TId × IntState)) :=
  enabledDefault (isEnabledInt fuel syst) st

/-- What holds of every domain with the updates of the class holds of `runInt`. -/
theorem usesDefaults_int : UsesDefaults IntState IntAct := ⟨rfl, rfl, rfl⟩

/-- A run that returns does not depend on the fuel. -/
theorem runInt_more {n m : Nat} (hle : n ≤ m) {mode : Bool} {wid : Int}
    {syst : System IntState IntAct} {st : IntState} {tid : TId}
    {r : List Int × ResultList IntState IntAct} (h : runInt n mode wid syst st tid = .ok r) :
    runInt m mode wid syst st tid = .ok r := by
  simp only [runInt, runProg] at h ⊢
  split at h
  · cases h
  · split at h
    · cases h
    · exact fixpt_more hle h

/-! ## Enabledness -/

/-- A thread is asked for by its run, which has to have at most one result. -/
theorem isEnabledInt_eq {fuel : Nat} {syst : System IntState IntAct} {st : IntState} {tid : TId}
    {r : Option IntState} : isEnabledInt fuel syst st tid = .ok r ↔
      ∃ w res, runInt fuel false 10000 syst st tid = .ok (w, res) ∧ res.length ≤ 1 ∧
        r = res.head?.map (·.1) := by
  simp only [isEnabledInt, isEnabledProg, bind_eq_ok, Prod.exists]
  refine exists_congr fun w => exists_congr fun res => and_congr_right fun _ => ?_
  match res with
  | [] => simp [eq_comm]
  | [(s, pos, a)] => simp [eq_comm]
  | p :: q :: l => simp [throw, throwThe, MonadExceptOf.throw]

/-- The environment in which `is_enabled_int` runs a thread. -/
def enabledEnv (syst : System IntState IntAct) (tid : TId) (cfg : Graph) : FixEnv :=
  ⟨false, tid, syst.cfgs, syst.symt, cfg, 10000⟩

/-- From its position, the code of the thread can come to one end only. -/
def OneEndOf (syst : System IntState IntAct) (st : IntState) (tid : TId) : Prop :=
  ∀ th cfg, st.thStates.lookup tid = some th → syst.cfgs.lookup th.thCfgId = some cfg →
    OneEnd IntAct (enabledEnv syst tid cfg) th.thPos st

theorem OneEndOf.results_le_one {fuel : Nat} {syst : System IntState IntAct} {st : IntState}
    {tid : TId} (h : OneEndOf syst st tid) {w : List Int} {res : ResultList IntState IntAct}
    (hrun : runInt fuel false 10000 syst st tid = .ok (w, res)) : res.length ≤ 1 := by
  simp only [runInt, runProg] at hrun
  split at hrun
  · cases hrun
  · next th hth =>
    split at hrun
    · cases hrun
    · next cfg hcfg =>
      exact Poet.results_le_one usesDefaults_int globalParts_act rfl (h th cfg hth hcfg) hrun

end Run

/-! ## A thread with two branches -/

/-- `if (c) lock(a) else lock(b)`: both branches end in node 3. -/
def twoLocksGraph : Graph where
  entryNode := 0
  nodes := [0, 1, 2, 3]
  succs n := if n = 0 then [(0, 1), (1, 2)] else if n = 1 then [(2, 3)]
    else if n = 2 then [(3, 3)] else []
  edgeInfo e :=
    if e = 0 then ⟨[.cond], .E (.binary .eq (.var ⟨10⟩) (.const ⟨.int 0⟩))⟩
    else if e = 1 then ⟨[.cond], .E (.binary .neq (.var ⟨10⟩) (.const ⟨.int 0⟩))⟩
    else if e = 2 then ⟨[], .E (.call (.var ⟨30⟩) [.unary .adr (.var ⟨11⟩)])⟩
    else ⟨[], .E (.call (.var ⟨30⟩) [.unary .adr (.var ⟨12⟩)])⟩
  parameters := []

/-- `c` is 0 or 1, `a` and `b` are mutexes. -/
def twoLocksFront : FrontEnd where
  decls := [.decl (some ⟨some ⟨10⟩, []⟩) (some (.initExpr
      (.call (.var ⟨31⟩) [.const ⟨.int 0⟩, .const ⟨.int 1⟩]))),
    .decl (some ⟨some ⟨11⟩, []⟩) none, .decl (some ⟨some ⟨12⟩, []⟩) none]
  cfgs := [(⟨1⟩, twoLocksGraph)]
  symt := [(⟨1⟩, "main"), (⟨10⟩, "c"), (⟨11⟩, "a"), (⟨12⟩, "b"), (⟨30⟩, "pthread_mutex_lock"),
    (⟨31⟩, "__VERIFIER_nondet_int")]

/-- `main` is at `pos`, and the variables have the values `c`, `a` and `b`. -/
def twoLocksState (pos : Pos) (c a b : IntValue) : IntState :=
  ⟨⟨[(⟨⟨10⟩, .glob⟩, ⟨[(ToValue.zero, c)]⟩), (⟨⟨11⟩, .glob⟩, ⟨[(ToValue.zero, a)]⟩),
    (⟨⟨12⟩, .glob⟩, ⟨[(ToValue.zero, b)]⟩)]⟩, ⟨[(1, ⟨pos, ⟨1⟩, ⟨[]⟩⟩)]⟩, 1, false⟩

def globalCells (ids : List Int) : MemAddrs IntValue :=
  .addrs (ids.map fun n => ⟨⟨n⟩, ToValue.zero, .glob⟩)

def twoLocksSystem : System IntState IntAct where
  gbst := twoLocksState 0 (.interVal (.i 0) (.i 1)) ToValue.zero ToValue.zero
  gbac := Act.writeActAddr (globalCells [10, 11, 12])
  cfgs := twoLocksFront.cfgs
  symt := twoLocksFront.symt

/-- The actions of a branch that locks `mutexes` after a condition that refines `written`. -/
def branchAct (written mutexes : List Int) : IntAct :=
  ⟨globalCells [10], globalCells written, globalCells mutexes, globalCells [], globalCells [],
    globalCells [], globalCells [1]⟩

/-- Of `c != 0` nothing is learnt. -/
def secondState : IntState :=
  twoLocksState 3 (.interVal (.i 0) (.i 1)) ToValue.zero ToValue.one

/-- Both branches are possible, and each has a result. -/
def twoLocksResults : ResultList IntState IntAct :=
  [(twoLocksState 3 ToValue.zero ToValue.one ToValue.zero, 3, branchAct [10] [11]),
    (secondState, 3, branchAct [10] [12, 11])]

section Integers

attribute [local instance] HostInt.word SimpleC.integers

/-! With `c = 0` the branch of `c != 0` is not taken, and only one lock can be reached. -/

def oneLockState (pos : Pos) : IntState := twoLocksState pos ToValue.zero ToValue.zero ToValue.zero

def oneLockEnv : FixEnv := enabledEnv twoLocksSystem 1 twoLocksGraph

/-- The nodes 0 and 1 with the states that they get. -/
def OneLockAt (n : NodeId) (s : IntState) : Prop :=
  n = 0 ∧ s = oneLockState 0 ∨ n = 1 ∧ s = oneLockState 1

/-- The state after an edge, and whether it is an end. -/
def oneLockEdge (it : WItem) (s : IntState) : Except DomErr (IntState × Bool) := do
  let (acts, s', _) ← Collapse.codeTransformer oneLockEnv it.1 it.2.2
    (twoLocksGraph.edgeInfo it.2.1) s
  return (s', isFinal oneLockEnv (twoLocksGraph.edgeInfo it.2.1) it.2.2 (acts : IntAct))

/-- The first edge leads to node 1, the second one is not taken and the lock is an end. -/
theorem oneLockEdge_cases {it : WItem} {s s' : IntState} {fin : Bool} (hs : OneLockAt it.1 s)
    (hit : it ∈ outItems twoLocksGraph it.1) (h : oneLockEdge it s = .ok (s', fin))
    (hb : LatticeM.isBot s' = false) :
    (it = (0, 0, 1) ∧ s' = oneLockState 1 ∧ fin = false) ∨ it = (1, 2, 3) ∧ fin = true := by
  have hfirst : oneLockEdge (0, 0, 1) (oneLockState 0) = .ok (oneLockState 1, false) := by
    decide +kernel
  have hsecond : (oneLockEdge (0, 1, 2) (oneLockState 0)).map (LatticeM.isBot ·.1) = .ok true := by
    decide +kernel
  have hlock : (oneLockEdge (1, 2, 3) (oneLockState 1)).map (·.2) = .ok true := by
    decide +kernel
  obtain ⟨n, e, m⟩ := it
  rcases hs with ⟨rfl, rfl⟩ | ⟨rfl, rfl⟩
  · obtain ⟨rfl, rfl⟩ | ⟨rfl, rfl⟩ : (e = 0 ∧ m = 1) ∨ (e = 1 ∧ m = 2) := by
      simpa [outItems, twoLocksGraph] using hit
    · rw [hfirst] at h
      cases h
      exact .inl ⟨rfl, rfl, rfl⟩
    · rw [h] at hsecond
      exact absurd (Except.ok.inj hsecond) (by simp [hb])
  · obtain ⟨rfl, rfl⟩ : e = 2 ∧ m = 3 := by simpa [outItems, twoLocksGraph] using hit
    rw [h] at hlock
    exact .inr ⟨rfl, Except.ok.inj hlock⟩

theorem oneLockAt_of_brings {n : NodeId} {s : IntState}
    (h : Brings IntAct oneLockEnv 0 (oneLockState 0) n s) : OneLockAt n s := by
  have hflow {it : WItem} {s s' : IntState} (hs : OneLockAt it.1 s)
      (hit : it ∈ outItems twoLocksGraph it.1) (hf : Flows IntAct oneLockEnv it s s') :
      it = (0, 0, 1) ∧ s' = oneLockState 1 := by
    obtain ⟨b, w, ht, hb, hfin⟩ := hf
    have hedge : oneLockEdge it s = .ok (s', false) := by
      rw [← hfin]
      exact bind_eq_ok.2 ⟨_, ht, rfl⟩
    rcases oneLockEdge_cases hs hit hedge hb with ⟨hit, hs', -⟩ | ⟨-, hfalse⟩
    · exact ⟨hit, hs'⟩
    · cases hfalse
  induction h with
  | start => exact .inl ⟨rfl, rfl⟩
  | flow _ hit hf ih =>
    obtain ⟨rfl, rfl⟩ := hflow ih hit hf
    exact .inr ⟨rfl, rfl⟩
  | merge _ hit hf _ hn ih =>
    obtain ⟨rfl, rfl⟩ := hflow ih hit hf
    exact .inr ⟨rfl, (Except.ok.inj hn).symm⟩

theorem oneEndOf_oneLock : OneEndOf twoLocksSystem (oneLockState 0) 1 := by
  intro th cfg hth hcfg
  obtain rfl : ⟨0, ⟨1⟩, ⟨[]⟩⟩ = th := Option.some.inj hth
  obtain rfl : twoLocksGraph = cfg := Option.some.inj hcfg
  have hend {it : WItem} (h : EndReached IntAct oneLockEnv 0 (oneLockState 0) it) :
      it = (1, 2, 3) := by
    obtain ⟨hit, s, hs, b, s', w, ht, hb, hfin⟩ := h
    have hedge : oneLockEdge it s = .ok (s', true) := by
      rw [← hfin]
      exact bind_eq_ok.2 ⟨_, ht, rfl⟩
    rcases oneLockEdge_cases (oneLockAt_of_brings hs) hit hedge hb with ⟨-, -, hfalse⟩ | ⟨hit, -⟩
    · cases hfalse
    · exact hit
  intro it it' h h'
  rw [hend h, hend h']

def twoLocksEnv : FixEnv := ⟨false, 1, twoLocksFront.cfgs, twoLocksFront.symt, twoLocksGraph, 10000⟩

/-- The collapse of `main` when the worklist is empty. -/
def twoLocksFinal : FixState IntState IntAct :=
  (loop twoLocksEnv 4 (outItems twoLocksGraph 0)
    (initFixState twoLocksGraph 0 twoLocksSystem.gbst)).2

/-- Both edges into node 3 are marked. The second result has the actions of the first as well, which
it has not if its edge is the only mark. -/
theorem marks_interfere_twoLocks : ∃ fs : FixState IntState IntAct,
    loop twoLocksEnv 4 (outItems twoLocksGraph 0)
      (initFixState twoLocksGraph 0 twoLocksSystem.gbst) = (.ok (), fs) ∧
    ¬ MarksIndependent twoLocksEnv fs := by
  refine ⟨twoLocksFinal, Prod.ext (by decide +kernel) rfl, fun h => ?_⟩
  have hall : (fixptResult twoLocksEnv twoLocksFinal).1 = .ok ([], twoLocksResults) := by
    decide +kernel
  have halone : (fixptResult twoLocksEnv { twoLocksFinal with marks := [(2, 3, 3)] }).1 =
      .ok ([], [(secondState, 3, branchAct [] [12])]) := by
    decide +kernel
  obtain ⟨w, r, rest, hone, hr⟩ := h _ _ hall 1 (2, 3, 3) (by decide +kernel)
  rw [halone] at hone
  simp only [Except.ok.injEq, Prod.mk.injEq, List.cons.injEq] at hone
  rw [← hone.2.1] at hr
  exact absurd hr (by decide +kernel)

end Integers

end Poet
