import Poet.Exploration.Explore
import Poet.Locks.Program

/-!
# Events of lock programs

An event of a lock program is a step `(t, i)` of a thread: its name says which one, and its action is
that of the step (`IsStep`), also after `execute`. Two steps are dependent if they are of one thread
or on one mutex.
-/

namespace Poet

/-- The name of step `i` of thread `t`. -/
def stepName (t i : Nat) : EventName := ⟨(t : Int), ((i + 1 : Nat) : Int), ⟨(t : Int)⟩⟩

theorem stepName_inj {t t' i i' : Nat} : stepName t i = stepName t' i' ↔ t = t' ∧ i = i' := by
  simp only [stepName, EventName.mk.injEq, SymId.mk.injEq]
  constructor
  · rintro ⟨ht, hi, -⟩
    exact ⟨Int.ofNat.inj ht, Nat.succ.inj (Int.ofNat.inj hi)⟩
  · rintro ⟨rfl, rfl⟩
    exact ⟨rfl, rfl, rfl⟩

theorem stepName_ne_bot (t i : Nat) : stepName t i ≠ botName := by
  simp [stepName, botName, botID]

namespace LockProgram

/-- Step `i` of thread `t`. -/
def op (P : LockProgram) (t i : Nat) : Option LockOp := (P.thread t)[i]?

theorem lt_length_of_op {P : LockProgram} {t i : Nat} {o : LockOp} (h : P.op t i = some o) :
    t < P.length := by
  by_contra hlt
  simp [op, thread, List.getD, List.getElem?_eq_none (Nat.le_of_not_lt hlt)] at h

end LockProgram

/-! ## Collapses -/

section Run

variable {P : LockProgram} {s s' : LockState P} {tid : TId} {acts : LockAct} {t i : Nat} {o : LockOp}

theorem LockState.op_of_next (h : s.next t = some o) : P.op t (s.pc t) = some o := by
  unfold LockState.next at h
  rw [LockProgram.op]
  split at h
  · next m hm =>
    split at h
    · cases h
    · rw [hm, h]
  · next m hm => rw [hm, h]
  · cases h

theorem lockRun_of_next (h : s.next t = some o) :
    lockRun s (t : Int) = [(s.step t, ((s.pc t + 1 : Nat) : Pos), o.act)] := by
  show lockRun s (.ofNat t) = _
  simp only [lockRun, h]

theorem lockRun_of_none (h : s.next t = none) : lockRun s (t : Int) = [] := by
  show lockRun s (.ofNat t) = _
  simp only [lockRun, h]

theorem mem_lockRun {r : LockState P × Pos × LockAct} : r ∈ lockRun s tid ↔
    ∃ (t : Nat) (o : LockOp), tid = (t : Int) ∧ s.next t = some o ∧
      r = (s.step t, ((s.pc t + 1 : Nat) : Int), o.act) := by
  unfold lockRun
  split
  · next t =>
    cases hn : s.next t with
    | none =>
      simp only [List.not_mem_nil, false_iff]
      rintro ⟨t', o, ht, hn', -⟩
      obtain rfl : t = t' := Int.ofNat.inj ht
      rw [hn] at hn'
      cases hn'
    | some o =>
      simp only [List.mem_singleton]
      constructor
      · rintro rfl
        exact ⟨t, o, rfl, hn, rfl⟩
      · rintro ⟨t', o', ht, hn', rfl⟩
        obtain rfl : t = t' := Int.ofNat.inj ht
        rw [hn] at hn'
        obtain rfl : o = o' := by simpa using hn'
        rfl
  · next t =>
    simp only [List.not_mem_nil, false_iff]
    rintro ⟨t', o, ht, -⟩
    simp at ht

theorem LockOp.act_lockLike (o : LockOp) :
    (Action.isJoin o.act || Action.isUnlock o.act || Action.isLock o.act) = true := by
  cases o <;> rfl

theorem LockProgram.lockLike (P : LockProgram) : LockLike P.system := by
  intro wid s t ws rs _ hrun r hr
  obtain ⟨-, rfl⟩ : [] = ws ∧ lockRun s t = rs := by simpa using Except.ok.inj hrun
  obtain ⟨t, o, -, -, rfl⟩ := mem_lockRun.1 hr
  exact o.act_lockLike

theorem LockProgram.restricted (P : LockProgram) : Restricted P.system := .inl P.lockLike

/-- What a thread of a lock program can run is its next step. -/
theorem step_of_runs {name : EventName} (h : Runs P.system s name acts) :
    ∃ t o, name = stepName t (s.pc t) ∧ s.next t = some o ∧ acts = o.act := by
  obtain ⟨wid, ws, rs, nst, hrun, hmem, hsym⟩ := h
  obtain ⟨-, rfl⟩ : [] = ws ∧ lockRun s name.tid = rs := by simpa using Except.ok.inj hrun
  obtain ⟨t, o, ht, hn, hr⟩ := mem_lockRun.1 hmem
  simp only [Prod.mk.injEq] at hr
  obtain ⟨-, hpos, hacts⟩ := hr
  have hsym : name.sym = ⟨name.tid⟩ := (Except.ok.inj hsym).symm
  refine ⟨t, o, ?_, hn, hacts⟩
  obtain ⟨tid, pos, sym⟩ := name
  simp only at ht hpos hsym
  rw [hsym, ht, hpos, stepName]

/-- The deterministic run of a step: the step must be the next of its thread. -/
theorem drun_lock {wid : Int} {r : LockState P × LockAct} :
    Domain.drun wid P.system s ((stepName t i).tid, (stepName t i).pos, (stepName t i).sym) = .ok r ↔
      i = s.pc t ∧ ∃ o, s.next t = some o ∧ r = (s.step t, o.act) := by
  change drunDefault (fun s tid => .ok ([], lockRun s tid)) s (stepName t i).tid (stepName t i).pos = _ ↔ _
  simp only [drunDefault, ok_bind, stepName]
  cases hn : s.next t with
  | none =>
    rw [lockRun_of_none hn]
    simp [throw, throwThe, MonadExceptOf.throw]
  | some o =>
    rw [lockRun_of_next hn]
    by_cases hi : i = s.pc t
    · subst hi
      have hone : ∀ a : LockState P × Pos × LockAct, [a].eraseDups = [a] := fun a => by
        simp [List.eraseDups_cons]
      simp only [List.filter_cons, List.filter_nil, decide_true, if_true, hone, pure_eq_ok,
        Except.ok.injEq, true_and, Option.some_inj, exists_eq_left']
      exact eq_comm
    · have hpos : ¬ ((s.pc t + 1 : Nat) : Int) = ((i + 1 : Nat) : Int) := by omega
      simp only [List.filter_cons, List.filter_nil, hpos, decide_false, hi, false_and, iff_false]
      exact fun h => by cases h

theorem Reached.step_lock (h : Reached P.system s) (hnext : s.next t = some o) :
    Reached P.system (s.step t) := by
  have hrun : Domain.drun 10 P.system s _ = .ok (s.step t, o.act) :=
    drun_lock.2 ⟨rfl, o, hnext, rfl⟩
  exact h.step hrun

end Run

/-! ## Dependence -/

theorem meet_mutexAddr (m m' : Nat) :
    (mutexAddr m).meet (mutexAddr m') = .addrs [] ↔ m ≠ m' := by
  by_cases h : m = m'
  · simp [mutexAddr, MemAddrs.meet, h]
  · have hcast : ¬ (m : Int) = (m' : Int) := fun heq => h (Int.ofNat.inj heq)
    simp [mutexAddr, MemAddrs.meet, h, hcast]

theorem interferes_act (o o' : LockOp) :
    Action.interferes o.act o'.act = decide (o.mutex = o'.mutex) := by
  have haddrs : ∀ o : LockOp, o.act.actAddrs = mutexAddr o.mutex := by
    rintro (m | m) <;>
      simp [LockOp.act, LockOp.mutex, Act.actAddrs, Act.lockActAddr, Act.unlockActAddr, Act.bot,
        MemAddrs.join, mutexAddr, List.eraseDups_cons]
  change (!decide ((o.act.actAddrs.meet o'.act.actAddrs) = .addrs [])) = _
  simp [haddrs, meet_mutexAddr]

/-- The unlocks that go with an action are those of the mutex it locks. -/
theorem isUnlockOf_act (o o' : LockOp) :
    Action.isUnlockOf o.act o'.act = true ↔ ∃ m, o = .lock m ∧ o' = .unlock m := by
  change (!decide ((o.act.locks.meet o'.act.unlocks) = .addrs [])) = true ↔ _
  rcases o with m | m <;> rcases o' with m' | m'
  case lock.unlock =>
    simp only [LockOp.act, Act.lockActAddr, Act.unlockActAddr, meet_mutexAddr]
    simp [eq_comm]
  all_goals simp [LockOp.act, Act.lockActAddr, Act.unlockActAddr, Act.bot, mutexAddr, MemAddrs.meet]

theorem isDependent_step {t t' i i' : Nat} {o o' : LockOp} :
    isDependent (stepName t i, o.act) (stepName t' i', o'.act) = true ↔
      t = t' ∨ o.mutex = o'.mutex := by
  have hcreate : ∀ (o : LockOp) (sym : SymId), Action.isCreateOf sym o.act = false := by
    rintro (m | m) sym <;> rfl
  have hbot : ∀ t : Nat, ¬ (t : Int) = botID := by
    intro t
    simp only [botID]
    omega
  simp only [isDependent, stepName, interferes_act, hcreate, hbot, Bool.or_eq_true,
    decide_eq_true_eq, or_false, false_or, Bool.false_eq_true]
  exact or_congr_left (decide_eq_true_iff.trans Int.ofNat_inj)

/-- Only a lock has other histories. -/
theorem extHistories_act {fuel : Nat} {name : EventName} {o : LockOp} {e : EventID} {h0 : History}
    {T : Events LockAct} {his : Histories}
    (h : extHistories fuel (name, o.act) e h0 T = .ok his) :
    his = [] ∨ ∃ m, o = .lock m ∧ historiesLock (name, o.act) e h0 T = .ok his := by
  rcases o with m | m
  · exact .inr ⟨m, rfl, h⟩
  · exact .inl (Except.ok.inj h).symm

/-- Two events of the prefix are dependent. -/
def Dep {act : Type} [Action act] (T : Events act) (x y : EventID) : Prop :=
  ∃ a b, T.lookup x = some a ∧ T.lookup y = some b ∧
    isDependent (a.name, a.acts) (b.name, b.acts) = true

theorem dep_of_lookup {act : Type} [Action act] {T : Events act} {x y : EventID} {a b : Event act}
    (ha : T.lookup x = some a) (hb : T.lookup y = some b) :
    Dep T x y ↔ isDependent (a.name, a.acts) (b.name, b.acts) = true := by
  constructor
  · rintro ⟨a', b', ha', hb', hdep⟩
    obtain rfl := Option.some_inj.1 (ha.symm.trans ha')
    obtain rfl := Option.some_inj.1 (hb.symm.trans hb')
    exact hdep
  · exact fun hdep => ⟨a, b, ha, hb, hdep⟩

theorem Events.lookup_of_names {act : Type} {T : Events act} {x : EventID} {name : EventName}
    {acts : act} (hn : T.nameOf x = some name) (ha : T.actsOf x = some acts) :
    ∃ ev, T.lookup x = some ev ∧ ev.name = name ∧ ev.acts = acts := by
  cases hl : T.lookup x with
  | none => simp [Events.nameOf, hl] at hn
  | some ev =>
    rw [Events.nameOf_of_lookup hl, Option.some_inj] at hn
    rw [Events.actsOf_of_lookup hl, Option.some_inj] at ha
    exact ⟨ev, rfl, hn, ha⟩

/-- Dependence is a matter of names and actions. -/
theorem dep_iff_names {act : Type} [Action act] {T : Events act} {x y : EventID} :
    Dep T x y ↔ ∃ n a n' a', T.nameOf x = some n ∧ T.actsOf x = some a ∧ T.nameOf y = some n' ∧
      T.actsOf y = some a' ∧ isDependent (n, a) (n', a') = true := by
  constructor
  · rintro ⟨a, b, ha, hb, hdep⟩
    exact ⟨a.name, a.acts, b.name, b.acts, Events.nameOf_of_lookup ha, Events.actsOf_of_lookup ha,
      Events.nameOf_of_lookup hb, Events.actsOf_of_lookup hb, hdep⟩
  · rintro ⟨n, a, n', a', hn, ha, hn', ha', hdep⟩
    obtain ⟨ev, hl, rfl, rfl⟩ := Events.lookup_of_names hn ha
    obtain ⟨ev', hl', rfl, rfl⟩ := Events.lookup_of_names hn' ha'
    exact ⟨ev, ev', hl, hl', hdep⟩

section Congr

variable {act : Type} [Action act] {T T' : Events act} {x : EventID}

/-- Dependence on a new event is a matter of name and actions. -/
theorem dependsOn_congr {info : EventInfo act} (hn : T'.nameOf x = T.nameOf x)
    (ha : T'.actsOf x = T.actsOf x) : dependsOn info T' x = dependsOn info T x := by
  unfold dependsOn
  cases h : T.lookup x <;> cases h' : T'.lookup x <;> simp_all [Events.nameOf, Events.actsOf]

theorem unlocksFor_congr {acts : act} (ha : T'.actsOf x = T.actsOf x) :
    unlocksFor acts T' x = unlocksFor acts T x := by
  unfold unlocksFor
  cases h : T.lookup x <;> cases h' : T'.lookup x <;> simp_all [Events.actsOf]

end Congr

/-- The event `x` is step `i` of thread `t`. -/
structure IsStep (P : LockProgram) (T : Events LockAct) (x : EventID) (t i : Nat) (o : LockOp) :
    Prop where
  name : T.nameOf x = some (stepName t i)
  acts : T.actsOf x = some o.act
  op : P.op t i = some o

section IsStep

variable {P : LockProgram} {T T' : Events LockAct} {x y : EventID} {t t' i i' : Nat} {o o' : LockOp}

namespace IsStep

theorem mem (h : IsStep P T x t i o) : x ∈ T := by
  obtain ⟨ev, hl, -⟩ := Events.lookup_of_names h.name h.acts
  exact Events.mem_of_lookup hl

theorem unique (h : IsStep P T x t i o) (h' : IsStep P T x t' i' o') : t = t' ∧ i = i' ∧ o = o' := by
  obtain ⟨rfl, rfl⟩ := stepName_inj.1 (Option.some_inj.1 (h.name.symm.trans h'.name))
  exact ⟨rfl, rfl, Option.some_inj.1 (h.op.symm.trans h'.op)⟩

theorem of_same (h : IsStep P T x t i o) (hn : T'.nameOf x = T.nameOf x)
    (ha : T'.actsOf x = T.actsOf x) : IsStep P T' x t i o :=
  ⟨hn.trans h.name, ha.trans h.acts, h.op⟩

theorem tidOf (h : IsStep P T x t i o) : T.tidOf x = some (t : Int) := by
  simp [Events.tidOf, h.name, stepName]

theorem dep_iff (h : IsStep P T x t i o) (h' : IsStep P T y t' i' o') :
    Dep T x y ↔ t = t' ∨ o.mutex = o'.mutex := by
  obtain ⟨a, hla, hna, haa⟩ := Events.lookup_of_names h.name h.acts
  obtain ⟨b, hlb, hnb, hab⟩ := Events.lookup_of_names h'.name h'.acts
  rw [dep_of_lookup hla hlb, hna, hnb, haa, hab]
  exact isDependent_step

theorem dependsOn_iff (h : IsStep P T x t' i' o') :
    dependsOn (stepName t i, o.act) T x = true ↔ t = t' ∨ o.mutex = o'.mutex := by
  obtain ⟨a, hla, hna, haa⟩ := Events.lookup_of_names h.name h.acts
  rw [dependsOn, hla, ← isDependent_step, ← hna, ← haa]

theorem unlocksFor_iff (h : IsStep P T x t i o') :
    unlocksFor o.act T x = true ↔ ∃ m, o = .lock m ∧ o' = .unlock m := by
  obtain ⟨a, hla, -, haa⟩ := Events.lookup_of_names h.name h.acts
  rw [unlocksFor, hla, ← isUnlockOf_act, ← haa]

end IsStep

end IsStep

end Poet
