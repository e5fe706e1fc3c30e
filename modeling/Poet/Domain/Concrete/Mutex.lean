import Poet.Domain.Concrete.Waiting

/-!
# Mutual exclusion

A mutex is a cell of the heap that holds one while it is locked. `pthread_mutex_lock` on such a cell
gives the bottom state, and the worklist drops it. `MutexEffect` says what code does to one cell that
it uses through the mutex calls only: a lock is done on a free cell and leaves it locked, and a
locked cell stays so, unless the actions have an unlock or an initialisation of it. It is kept by
sequences, so it holds of a step (`conStep_mutex`), and along a run two locks of a cell have one of
these between them.
-/

namespace Poet

/-- The cell of the heap at an offset of a variable. -/
def heapCell (s : ConState) (m : SymId) (off : ConValue) : Option ConValue :=
  (s.heap.lookup ⟨m, .glob⟩).bind (·.lookup off)

/-- The cell is locked. -/
def Held (c : MemAddr ConValue) (s : ConState) : Prop := heapCell s c.base c.offset = some ToValue.one

/-- The actions unlock the cell or write it, which for a mutex is `pthread_mutex_init`. -/
def Released (c : MemAddr ConValue) (a : ConAct) : Prop := c ∈ a.unlocks ∨ c ∈ a.wrs

/-! ## The cell -/

section Cell

variable {s s' : ConState} {m : SymId} {off : ConValue}

theorem heapCell_writeRegionAddr {heap heap' : ConHeap} {base : MemAddrBase} {off val : ConValue}
    (h : ProgState.writeRegionAddr heap base off val = .ok heap') (b : MemAddrBase) (o : ConValue) :
    (heap'.lookup b).bind (·.lookup o) =
      if b = base ∧ o = off then some val else (heap.lookup b).bind (·.lookup o) := by
  unfold ProgState.writeRegionAddr at h
  split at h
  · next hl =>
    obtain rfl := Except.ok.inj h
    rw [OrdMap.lookup_insert]
    by_cases hb : b = base
    · subst hb
      simp only [if_true, true_and, hl, Option.bind_some, Option.bind_none]
      show OrdMap.lookup (OrdMap.insert .empty off val) o = _
      simp
    · simp [hb]
  · next offs hl =>
    obtain ⟨offs', ho, h⟩ := bind_eq_ok.1 h
    obtain rfl := Except.ok.inj h
    obtain rfl := Except.ok.inj ho
    rw [OrdMap.lookup_insert]
    by_cases hb : b = base
    · subst hb
      simp [hl]
    · simp [hb]

theorem heapCell_writeMemoryAddr {a : MemAddr ConValue} {val : ConValue}
    (h : s.writeMemoryAddr a val = .ok s') (m : SymId) (off : ConValue) :
    heapCell s' m off = if a = ⟨m, off, .glob⟩ then some val else heapCell s m off := by
  obtain ⟨base, o, level⟩ := a
  unfold ProgState.writeMemoryAddr at h
  cases level with
  | glob =>
    obtain ⟨heap, hh, h⟩ := bind_eq_ok.1 h
    obtain rfl := Except.ok.inj h
    refine (heapCell_writeRegionAddr hh ⟨m, .glob⟩ off).trans ?_
    simp [fromAddr, heapCell, eq_comm]
  | loc i =>
    have hne : (⟨base, o, .loc i⟩ : MemAddr ConValue) ≠ ⟨m, off, .glob⟩ := by simp
    rw [if_neg hne]
    dsimp only at h
    split at h
    · cases h
    · obtain ⟨locals, -, h⟩ := bind_eq_ok.1 h
      obtain rfl := Except.ok.inj h
      rfl

theorem Writes.heapCell_eq {P : MemAddr ConValue → Prop} (h : Writes P s s')
    (hP : ¬ P ⟨m, off, .glob⟩) : heapCell s' m off = heapCell s m off := by
  induction h with
  | refl => rfl
  | @step s₁ s₂ a val _ ha hw ih =>
    rw [heapCell_writeMemoryAddr hw, if_neg, ih]
    rintro rfl
    exact hP ha

theorem heapCell_of_read {x : ConValue} (h : s.readMemoryAddr ⟨m, off, .glob⟩ = .ok x) :
    heapCell s m off = some x := by
  obtain ⟨r, hr, h⟩ := bind_eq_ok.1 h
  simp only [ProgState.readAddrFromRegion, fromAddr] at hr
  unfold heapCell
  split at hr
  · obtain rfl := Except.ok.inj hr
    cases h
  · next offs ho =>
    rw [ho, Option.bind_some]
    simp only [Region.read] at hr
    split at hr
    · next val hv =>
      obtain rfl := Except.ok.inj hr
      obtain rfl := Except.ok.inj h
      exact hv
    · cases hr

end Cell

/-! ## What code does to a mutex -/

/-- The operation does not write the variable `m`, but for the mutex calls. -/
def Prim.Spares (m : SymId) : Prim → Prop
  | .write lhs => root lhs ≠ some m
  | .create thread => root thread ≠ some m
  | .lock _ | .unlock _ | .init _ => True

instance (m : SymId) : DecidablePred (Prim.Spares m)
  | .write lhs => inferInstanceAs (Decidable (root lhs ≠ some m))
  | .create thread => inferInstanceAs (Decidable (root thread ≠ some m))
  | .lock _ | .unlock _ | .init _ => inferInstanceAs (Decidable True)

structure MutexEffect (c : MemAddr ConValue) (s : ConState) (a : ConAct) (s' : ConState) : Prop where
  /-- A locked cell is not locked again. -/
  free : c ∈ a.locks → Held c s → Released c a
  locks : c ∈ a.locks → s' = ProgState.bot ∨ Held c s' ∨ Released c a
  keeps : Held c s → s' = ProgState.bot ∨ Held c s' ∨ Released c a

section Mutex

variable {c : MemAddr ConValue} {s s' s'' : ConState} {a b : ConAct}

theorem Released.left (h : Released c a) : Released c (a.join b) :=
  h.imp (fun h => MemAddrs.mem_join.2 (.inl h)) fun h => MemAddrs.mem_join.2 (.inl h)

theorem Released.right (h : Released c b) : Released c (a.join b) :=
  h.imp (fun h => MemAddrs.mem_join.2 (.inr h)) fun h => MemAddrs.mem_join.2 (.inr h)

/-- Code that neither locks nor writes the cell. -/
theorem mutexEffect_of_eq (hl : c ∉ a.locks)
    (hs : heapCell s' c.base c.offset = heapCell s c.base c.offset) : MutexEffect c s a s' :=
  ⟨fun h => absurd h hl, fun h => absurd h hl, fun h => .inr (.inl (hs.trans h))⟩

theorem MutexEffect.same (h : MutexEffect c s a s') (hab : a.Same b) : MutexEffect c s b s' := by
  have hr : Released c a → Released c b := fun h => h.imp (hab.unlocks c).1 (hab.wrs c).1
  exact ⟨fun hl hs => hr (h.free ((hab.locks c).2 hl) hs),
    fun hl => (h.locks ((hab.locks c).2 hl)).imp id (Or.imp id hr),
    fun hs => (h.keeps hs).imp id (Or.imp id hr)⟩

theorem MutexEffect.seq (h : MutexEffect c s a s') (h' : MutexEffect c s' b s'')
    (hbot : s' = ProgState.bot → s'' = ProgState.bot ∧ b.Quiet) :
    MutexEffect c s (a.join b) s'' := by
  -- a cell that is locked in between is locked at the end
  have hmid : s' = ProgState.bot ∨ Held c s' ∨ Released c a →
      s'' = ProgState.bot ∨ Held c s'' ∨ Released c (a.join b) := by
    rintro (hb | hs | hr)
    · exact .inl (hbot hb).1
    · exact (h'.keeps hs).imp id (Or.imp id Released.right)
    · exact .inr (.inr hr.left)
  refine ⟨fun hl hs => ?_, fun hl => ?_, fun hs => hmid (h.keeps hs)⟩
  · rcases MemAddrs.mem_join.1 hl with hl | hl
    · exact (h.free hl hs).left
    · rcases h.keeps hs with hb | hs' | hr
      · exact absurd hl ((hbot hb).2.not_mem_locks c)
      · exact (h'.free hl hs').right
      · exact hr.left
  · rcases MemAddrs.mem_join.1 hl with hl | hl
    · exact hmid (h.locks hl)
    · exact (h'.locks hl).imp id (Or.imp id Released.right)

/-- More actions, none of them a lock of the cell. -/
theorem MutexEffect.join (h : MutexEffect c s a s') (hl : c ∉ b.locks) :
    MutexEffect c s (a.join b) s' := by
  have hlock : c ∈ (a.join b).locks → c ∈ a.locks := fun h =>
    (MemAddrs.mem_join.1 h).elim id fun h => absurd h hl
  exact ⟨fun h₁ hs => (h.free (hlock h₁) hs).left,
    fun h₁ => (h.locks (hlock h₁)).imp id (Or.imp id Released.left),
    fun hs => (h.keeps hs).imp id (Or.imp id Released.left)⟩

/-- A lock reads the one address that it then writes. -/
theorem singleton_of_readMemory {addrs : MemAddrs ConValue} {x : ConValue}
    (h : s.readMemory addrs = .ok [x]) : ∃ d, addrs = .addrs [d] ∧ s.readMemoryAddr d = .ok x := by
  cases addrs with
  | top => cases h
  | addrs l =>
    match l, h with
    | [], h => cases h
    | [d], h =>
      obtain ⟨y, hy, h⟩ := bind_eq_ok.1 h
      obtain ⟨ys, hys, h⟩ := bind_eq_ok.1 h
      obtain rfl : y = x := by
        have := Except.ok.inj h
        simp_all
      exact ⟨d, rfl, hy⟩
    | d :: e :: l, h =>
      obtain ⟨y, -, h⟩ := bind_eq_ok.1 h
      obtain ⟨ys, hys, h⟩ := bind_eq_ok.1 h
      obtain ⟨z, -, hys⟩ := bind_eq_ok.1 hys
      obtain ⟨zs, -, hys⟩ := bind_eq_ok.1 hys
      obtain rfl := Except.ok.inj hys
      cases h

theorem MutexEffect.lock {addrs : MemAddrs ConValue} {x : ConValue} (hc : c.level = .glob)
    (hr : s.readMemory addrs = .ok [x]) (hx : x ≠ ToValue.one)
    (hw : s.writeMemory addrs ToValue.one = .ok s') :
    MutexEffect c s (Act.lockActAddr addrs) s' := by
  obtain ⟨d, rfl, hd⟩ := singleton_of_readMemory hr
  obtain ⟨m, off, level⟩ := c
  obtain rfl : level = .glob := hc
  have hw' : s.writeMemoryAddr d ToValue.one = .ok s' := hw
  have hcell := heapCell_writeMemoryAddr hw' m off
  by_cases hdc : d = ⟨m, off, .glob⟩
  · -- the cell was free, and is locked now
    subst hdc
    have hfree : ¬ Held ⟨m, off, .glob⟩ s := by
      intro hs
      have := heapCell_of_read hd
      exact hx (Option.some.inj (this.symm.trans hs))
    rw [if_pos rfl] at hcell
    exact ⟨fun _ hs => absurd hs hfree, fun _ => .inr (.inl hcell), fun hs => absurd hs hfree⟩
  · rw [if_neg hdc] at hcell
    refine mutexEffect_of_eq (fun hl => ?_) hcell
    exact hdc (List.mem_singleton.1 hl).symm

/-- `pthread_mutex_unlock` and `pthread_mutex_init`. -/
theorem MutexEffect.release {addrs : MemAddrs ConValue} {val : ConValue} (hc : c.level = .glob)
    (hw : s.writeMemory addrs val = .ok s') (hl : c ∉ a.locks) (ha : c ∈ addrs → Released c a) :
    MutexEffect c s a s' := by
  by_cases hmem : c ∈ addrs
  · exact ⟨fun h => absurd h hl, fun h => absurd h hl, fun _ => .inr (.inr (ha hmem))⟩
  · obtain ⟨m, off, level⟩ := c
    obtain rfl : level = .glob := hc
    exact mutexEffect_of_eq hl ((writes_of_writeMemory hw).heapCell_eq hmem)

variable [SimpleC]

/-- A write to another variable. -/
theorem heapCell_of_root {e : SExpression} {scope : Scope} {s₀ : ConState}
    {addrs : MemAddrs ConValue} {val : ConValue} {m : SymId}
    (ha : getAddrsExpr e s₀ scope = .ok addrs) (he : root e ≠ some m)
    (hw : s.writeMemory addrs val = .ok s') (off : ConValue) : heapCell s' m off = heapCell s m off := by
  obtain ⟨l, rfl, hl⟩ := mem_getAddrsExpr ha
  exact (writes_of_writeMemory hw).heapCell_eq fun hmem => he (hl _ hmem).1

theorem Effect.mutex {tid : TId} {cfgs : List (SymId × Graph)} {ps : List Prim}
    (hc : c.level = .glob) (h : Effect (.loc tid) cfgs ps s a s')
    (hps : ∀ p ∈ ps, p.Spares c.base) : MutexEffect c s a s' := by
  induction h with
  | quiet hq => exact mutexEffect_of_eq (hq.not_mem_locks c) rfl
  | block hq => exact ⟨fun h => absurd h (hq.not_mem_locks c), fun _ => .inl rfl, fun _ => .inl rfl⟩
  | write ha hw =>
    exact mutexEffect_of_eq List.not_mem_nil
      (heapCell_of_root ha (hps _ List.mem_cons_self) hw c.offset)
  | lock ha hr hx hw => exact .lock hc hr hx hw
  | unlock ha hw => exact .release hc hw List.not_mem_nil .inl
  | init ha hw => exact .release hc hw List.not_mem_nil .inr
  | create ha hw hl =>
    have hcell := heapCell_of_root ha (hps _ List.mem_cons_self) hw c.offset
    exact mutexEffect_of_eq List.not_mem_nil hcell
  | seq h h' ih ih' =>
    refine (ih fun p hp => hps p (List.mem_append_left _ hp)).seq
      (ih' fun p hp => hps p (List.mem_append_right _ hp)) fun hs => h'.of_bot hs
  | same h hab ih => exact (ih hps).same hab

/-- Code without a lock. -/
theorem Effect.not_mem_locks {scope : Scope} {cfgs : List (SymId × Graph)} {ps : List Prim}
    (h : Effect scope cfgs ps s a s') (hps : ∀ e, .lock e ∉ ps) : c ∉ a.locks := by
  induction h with
  | quiet hq => exact hq.not_mem_locks c
  | block hq => exact hq.not_mem_locks c
  | lock => exact absurd List.mem_cons_self (hps _)
  | write | unlock | init | create => exact List.not_mem_nil
  | seq _ _ ih ih' =>
    intro hl
    rcases MemAddrs.mem_join.1 hl with hl | hl
    · exact ih (fun e he => hps e (List.mem_append_left _ he)) hl
    · exact ih' (fun e he => hps e (List.mem_append_right _ he)) hl
  | same _ hab ih => exact fun hl => ih hps ((hab.locks c).2 hl)

/-! ## Edges -/

/-- The initialiser of a declaration has no lock: the write of the mutex would be lost. -/
def EdgeCode.NoLockInit (sym : List (SymId × String)) : EdgeCode → Prop
  | .E _ => True
  | .D d => ∀ e, .lock e ∉ EdgeCode.prims sym (.D d)

theorem EdgeEffect.mutex {tid : TId} {sym : List (SymId × String)} {cfgs : List (SymId × Graph)}
    {post : NodeId} {code : EdgeCode} (hc : c.level = .glob)
    (h : EdgeEffect tid sym cfgs post code s a s')
    (hps : ∀ p ∈ code.prims sym, p.Spares c.base) (hinit : code.NoLockInit sym) :
    MutexEffect c s a s' := by
  cases h with
  | @expr e s a s₁ he =>
    obtain ⟨hfree, hlocks, hkeeps⟩ := he.mutex hc hps
    refine ⟨hfree, fun hl => (hlocks hl).imp ?_ id, fun hs => (hkeeps hs).imp ?_ id⟩
    · rintro rfl
      rfl
    · rintro rfl
      rfl
  | stop he => exact ⟨(he.mutex hc hps).free, fun _ => .inl rfl, fun _ => .inl rfl⟩
  | @decl d s a s₁ hd =>
    -- a declaration writes a local, and records no lock
    have hl : c ∉ a.locks := by
      cases hd with
      | nothing hq => exact hq.not_mem_locks c
      | cells hcells hw ha => exact fun hl => List.not_mem_nil ((ha.locks c).2 hl)
      | init he hw => exact he.not_mem_locks hinit
    obtain ⟨m, off, level⟩ := c
    obtain rfl : level = .glob := hc
    have hcell : heapCell s₁ m off = heapCell s m off :=
      hd.writes.heapCell_eq fun hP => by cases hP.2
    exact mutexEffect_of_eq hl hcell

end Mutex

section Steps

variable [SimpleC]

/-! ## Steps -/

/-- The variable `m` is used through the mutex calls only, in the code of all threads. -/
def OnlyMutexCalls (m : SymId) (syst : System ConState ConAct) : Prop :=
  ∀ sym cfg, syst.cfgs.lookup sym = some cfg → ∀ eId,
    ∀ p ∈ (cfg.edgeInfo eId).code.prims syst.symt, p.Spares m

def NoLockInits (syst : System ConState ConAct) : Prop :=
  ∀ sym cfg, syst.cfgs.lookup sym = some cfg → ∀ eId,
    (cfg.edgeInfo eId).code.NoLockInit syst.symt

section Rule

variable {c : MemAddr ConValue} {s : ConState}

theorem mutex_rule {env : FixEnv} (hc : c.level = .glob)
    (hps : ∀ eId, ∀ p ∈ (env.cfg.edgeInfo eId).code.prims env.symt, p.Spares c.base)
    (hinit : ∀ eId, (env.cfg.edgeInfo eId).code.NoLockInit env.symt) :
    CollapseRule env (fun s₁ a => c ∉ a.locks ∧ s₁ ≠ ProgState.bot ∧ MutexEffect c s a s₁)
      fun s' a => MutexEffect c s a s' where
  edge := by
    rintro post eId s₁ a b s₂ ⟨-, hs₁, ha⟩ he hb hg
    refine ⟨(not_mem_of_isGlobal hg c).1, ?_, ?_⟩
    · rintro rfl
      cases hb
    · exact ha.seq (he.mutex hc (hps eId) (hinit eId)) fun hs => absurd hs hs₁
  merge := by
    rintro s₁ a s₂ a' ⟨hl, hs₁, ha⟩ ⟨hl', -, -⟩
    exact ⟨fun h => (MemAddrs.mem_join.1 h).elim hl hl', hs₁, ha.join hl'⟩
  last := by
    rintro post eId s₁ a b s₂ ⟨-, hs₁, ha⟩ he
    exact ha.seq (he.mutex hc (hps eId) (hinit eId)) fun hs => absurd hs hs₁
  lastMerge := fun ha ⟨hl', _, _⟩ => ha.join hl'
  stays := fun h => h.2.2
  exit := fun ha => ha.join List.not_mem_nil

/-- What a step does to a mutex. -/
theorem conStep_mutex {syst : System ConState ConAct} {s' : ConState} {tid : TId} {acts : ConAct}
    (hc : c.level = .glob) (hcalls : OnlyMutexCalls c.base syst) (hinits : NoLockInits syst)
    (h : ConStep syst s tid acts s') : s ≠ ProgState.bot ∧ MutexEffect c s acts s' := by
  have hs : s ≠ ProgState.bot := by
    obtain ⟨th, cfg, fuel, warns, pos, hth, -⟩ := h.run
    rintro rfl
    cases hth
  refine ⟨hs, h.rule
    (P := fun s₁ a => c ∉ a.locks ∧ s₁ ≠ ProgState.bot ∧ MutexEffect c s a s₁)
    (Q := fun s' a => MutexEffect c s a s')
    ⟨List.not_mem_nil, hs, mutexEffect_of_eq List.not_mem_nil rfl⟩ fun sym cfg hcfg => ?_⟩
  exact mutex_rule hc (hcalls sym cfg hcfg) (hinits sym cfg hcfg)

end Rule

/-! ## Runs -/

/-- A run of `n` steps from the initial state, each by a thread that is enabled. -/
structure ConRun (syst : System ConState ConAct) (n : Nat) where
  st : Nat → ConState
  tid : Nat → TId
  act : Nat → ConAct
  init : st 0 = syst.gbst
  step : ∀ i, i < n → ConStep syst (st i) (tid i) (act i) (st (i + 1))

section Run

variable {c : MemAddr ConValue} {syst : System ConState ConAct} {n : Nat} (r : ConRun syst n)

/-- Without a release a mutex stays locked. -/
theorem ConRun.held (hc : c.level = .glob) (hcalls : OnlyMutexCalls c.base syst)
    (hinits : NoLockInits syst) {i j : Nat} (hij : i ≤ j) (hj : j < n) (hi : Held c (r.st i))
    (hrel : ∀ k, i ≤ k → k < j → ¬ Released c (r.act k)) : Held c (r.st j) := by
  induction j, hij using Nat.le_induction with
  | base => exact hi
  | succ k hik ih =>
    have hk := ih (by omega) fun k' hk hk' => hrel k' hk (by omega)
    have hstep := (conStep_mutex hc hcalls hinits (r.step k (by omega))).2
    rcases hstep.keeps hk with hb | hheld | hr
    · exact absurd hb (conStep_mutex hc hcalls hinits (r.step (k + 1) hj)).1
    · exact hheld
    · exact absurd hr (hrel k hik (by omega))

/-- Two locks of a mutex have a release between them: in a step between their steps; in the step of the
first one, at the end of which the mutex is free again; or in the step of the second one, which starts
with the mutex locked and therefore has to release it before it can lock it. -/
theorem ConRun.released_between (hc : c.level = .glob) (hcalls : OnlyMutexCalls c.base syst)
    (hinits : NoLockInits syst) {i j : Nat} (hij : i < j) (hj : j < n)
    (hi : c ∈ (r.act i).locks) (hjl : c ∈ (r.act j).locks) :
    (∃ k, i < k ∧ k < j ∧ Released c (r.act k)) ∨
      (Released c (r.act i) ∧ ¬ Held c (r.st (i + 1))) ∨ (Held c (r.st j) ∧ Released c (r.act j)) := by
  by_contra hno
  simp only [not_or, not_exists, not_and, not_not] at hno
  obtain ⟨hlater, hsame, hsecond⟩ := hno
  have hheld : Held c (r.st (i + 1)) := by
    rcases (conStep_mutex hc hcalls hinits (r.step i (by omega))).2.locks hi with hb | hheld | hr
    · exact absurd hb (conStep_mutex hc hcalls hinits (r.step (i + 1) (by omega))).1
    · exact hheld
    · exact hsame hr
  have hheldj := r.held hc hcalls hinits (show i + 1 ≤ j by omega) hj hheld
    fun k hk hk' => hlater k (by omega) (by omega)
  exact hsecond hheldj ((conStep_mutex hc hcalls hinits (r.step j hj)).2.free hjl hheldj)

end Run

/-! ## Locks that wait -/

/-- The edge is a call of `pthread_mutex_lock` on the cell, which holds one. -/
structure LocksHeld (env : FixEnv) (c : MemAddr ConValue) (it : WItem) (s : ConState) : Prop where
  call : ∃ ident args, (env.cfg.edgeInfo it.2.1).code = .E (.call (.var ident) args) ∧
    getSymbolName ident env.symt = .ok "pthread_mutex_lock" ∧
    argAddrs (addrsList args) 0 s (.loc env.tid) = .ok (.addrs [c])
  notCond : .cond ∉ (env.cfg.edgeInfo it.2.1).tags
  held : s.readMemoryAddr c = .ok ToValue.one

/-- The next global action of a thread at the node is a lock on the cell, which holds one: every way
on comes to such a lock in fewer than `k` local edges, or to an edge that can not be taken. -/
def NextLockHeld (env : FixEnv) (c : MemAddr ConValue) : Nat → NodeId → ConState → Prop
  | 0, _, _ => False
  | k + 1, n, s => ∀ it ∈ outItems env.cfg n, LocksHeld env c it s ∨ ∃ a s' warns,
      itemTransformer env it s = .ok (a, s', warns) ∧ (s'.isBot = true ∨
        isFinal env (env.cfg.edgeInfo it.2.1) it.2.2 a = false ∧ NextLockHeld env c k it.2.2 s')

theorem lockTransformer_locked {mutex : AddrsOf ConValue} {t : TState ConValue}
    (h : isLocked mutex t.st t.scope = .ok true) :
    lockTransformer mutex t = (.ok (.ok TransValue.void, Act.bot), { t with st := ProgState.bot }) := by
  show ((monadLift (isLocked mutex t.st t.scope) : TOp ConValue Bool) >>= _) t = _
  rw [h]
  rfl

theorem transformer_lock {ident : SymId} {args : List SExpression} {t : TState ConValue}
    {sym : List (SymId × String)} {cfgs : List (SymId × Graph)} (hsym : t.sym = some sym)
    (hcfgs : t.cfgs = some cfgs) (hname : getSymbolName ident sym = .ok "pthread_mutex_lock") :
    transformer (.call (.var ident) args) t = lockTransformer (argAddrs (addrsList args) 0) t := by
  show ((monadLift (tables t) : TOp ConValue _) >>= _) t = _
  simp only [tables, hsym, hcfgs]
  show ((monadLift (getSymbolName ident sym) : TOp ConValue _) >>= _) t = _
  rw [hname]
  rfl

/-- A lock of a locked mutex gives the bottom state. -/
theorem LocksHeld.itemTransformer_eq {env : FixEnv} {c : MemAddr ConValue} {it : WItem}
    {s : ConState} (h : LocksHeld env c it s) :
    itemTransformer env it s = .ok (Act.bot, ProgState.bot, []) := by
  obtain ⟨ident, args, hcode, hname, haddrs⟩ := h.call
  have hlocked : isLocked (argAddrs (addrsList args) 0) s (.loc env.tid) = .ok true := by
    simp [isLocked, haddrs, ProgState.readMemory, List.mapM', h.held]
  let t : TState ConValue := ⟨.loc env.tid, s, some env.symt, some env.cfgs, false, it.1, []⟩
  have htr : transformerExprCon (.call (.var ident) args) t =
      (.ok Act.bot, { t with st := ProgState.bot }) := by
    show (transformer (.call (.var ident) args) >>= _) t = _
    exact Op.bind_of_eq_ok ((transformer_lock rfl rfl hname).trans (lockTransformer_locked hlocked))
  simp only [itemTransformer, Collapse.codeTransformer, edgeTransformer, hcode, h.notCond,
    decide_false]
  rw [htr]
  rfl

theorem NextLockHeld.waits {env : FixEnv} {c : MemAddr ConValue} :
    ∀ {k : Nat} {n : NodeId} {s : ConState}, NextLockHeld env c k n s → WaitsIn env k n s
  | 0, _, _, h => h
  | k + 1, n, s, h => by
    intro it hit
    rcases h it hit with hl | ⟨a, s', warns, hok, hcase⟩
    · exact ⟨_, _, _, hl.itemTransformer_eq, .inl rfl⟩
    · exact ⟨a, s', warns, hok, hcase.imp id fun ⟨hf, hk⟩ => ⟨hf, hk.waits⟩⟩

/-- A cell of a global variable. -/
def globalCell (m : SymId) (off : ConValue) : MemAddr ConValue := ⟨m, off, .glob⟩

/-- **Mutual exclusion.** For a global mutex that is used through the mutex calls only, in a program
whose declarations do not lock: two locks of a cell in a run have a release between them, in a step
between theirs, in the first step after its lock or in the second step before its lock; a step from a
state in which the cell is locked does not lock it without a release; and a thread that comes next to a
lock of a cell that holds one is not enabled. A lock is done on a free cell only, so a step that starts
with the cell locked releases it before it locks it, and one that ends with the cell free releases it
after. -/
theorem mutual_exclusion {syst : System ConState ConAct} {m : SymId}
    (hcalls : OnlyMutexCalls m syst) (hinits : NoLockInits syst) (off : ConValue) :
    (∀ n, ∀ r : ConRun syst n, ∀ i j, i < j → j < n → globalCell m off ∈ (r.act i).locks →
      globalCell m off ∈ (r.act j).locks →
      (∃ k, i < k ∧ k < j ∧ Released (globalCell m off) (r.act k)) ∨
        (Released (globalCell m off) (r.act i) ∧ ¬ Held (globalCell m off) (r.st (i + 1))) ∨
        (Held (globalCell m off) (r.st j) ∧ Released (globalCell m off) (r.act j))) ∧
    (∀ s tid acts s', ConStep syst s tid acts s' → globalCell m off ∈ acts.locks →
      Held (globalCell m off) s → Released (globalCell m off) acts) ∧
    ∀ s tid th cfg k, s.thStates.lookup tid = some th → syst.cfgs.lookup th.thCfgId = some cfg →
      NextLockHeld (stepEnv syst tid cfg) (globalCell m off) k th.thPos s →
      ∃ N, ∀ fuel, N ≤ fuel → isEnabledCon fuel syst s tid = .ok none := by
  refine ⟨fun n r i j hij hj hi hjl => ?_, fun s tid acts s' h hl hs => ?_, ?_⟩
  · exact r.released_between rfl hcalls hinits hij hj hi hjl
  · exact (conStep_mutex rfl hcalls hinits h).2.free hl hs
  · intro s tid th cfg k hth hcfg h
    exact isEnabledCon_of_waits hth hcfg h.waits

end Steps

/-! ## Programs with one thread and one mutex -/

/-- `main` does the code of the edges one after the other; the mutex `m` is the variable 10. -/
def lineGraph (code : List EdgeCode) : Graph where
  entryNode := 0
  nodes := (List.range (code.length + 1)).map Int.ofNat
  succs n := if 0 ≤ n ∧ n < code.length then [(n, n + 1)] else []
  edgeInfo e := ⟨[], code.getD e.toNat (.E .skip)⟩
  parameters := []

def lineFront (code : List EdgeCode) : FrontEnd where
  decls := [.decl (some ⟨some ⟨10⟩, []⟩) none]
  cfgs := [(⟨1⟩, lineGraph code)]
  symt := [(⟨1⟩, "main"), (⟨10⟩, "m"), (⟨20⟩, "x"), (⟨21⟩, "y"), (⟨30⟩, "pthread_mutex_lock"),
    (⟨31⟩, "pthread_mutex_unlock")]

/-- The mutex has the value `val`, and `main` is at `pos` with the given locals. -/
def lineState (val : Int) (pos : Pos) (locals : List (MemAddrBase × ConOffs)) : ConState :=
  ⟨⟨[(⟨⟨10⟩, .glob⟩, ⟨[(ToValue.zero, ToValue.kVal val)]⟩)]⟩, ⟨[(1, ⟨pos, ⟨1⟩, ⟨locals⟩⟩)]⟩, 1, false⟩

def lineSystem (code : List EdgeCode) : System ConState ConAct where
  gbst := lineState 0 0 []
  gbac := Act.writeActAddr (.addrs [⟨⟨10⟩, ToValue.zero, .glob⟩])
  cfgs := (lineFront code).cfgs
  symt := (lineFront code).symt

/-- `pthread_mutex_lock(&m)` and `pthread_mutex_unlock(&m)`. -/
def lockCall : SExpression := .call (.var ⟨30⟩) [.unary .adr (.var ⟨10⟩)]

def unlockCall : SExpression := .call (.var ⟨31⟩) [.unary .adr (.var ⟨10⟩)]

/-- `int x = pthread_mutex_lock(&m);` -/
def lockDecl (x : SymId) : EdgeCode := .D (.decl (some ⟨some x, []⟩) (some (.initExpr lockCall)))

/-- What holds of the code and of the empty expression holds of every edge. -/
theorem line_forall {code : List EdgeCode} {P : EdgeCode → Prop} (hskip : P (.E .skip))
    (h : ∀ c ∈ code, P c) (sym : SymId) (cfg : Graph)
    (hcfg : (lineSystem code).cfgs.lookup sym = some cfg) (eId : EdgeId) :
    P (cfg.edgeInfo eId).code := by
  obtain ⟨l₁, l₂, hl, -⟩ := List.lookup_eq_some_iff.1 hcfg
  have hmem : (sym, cfg) ∈ (lineSystem code).cfgs := by simp [hl]
  obtain rfl : cfg = lineGraph code := congrArg Prod.snd (List.mem_singleton.1 hmem)
  show P (code.getD eId.toNat (.E .skip))
  rw [List.getD_eq_getElem?_getD]
  cases hget : code[eId.toNat]? with
  | none => exact hskip
  | some c => exact h c (List.mem_of_getElem? hget)

theorem line_onlyMutexCalls [SimpleC] {code : List EdgeCode}
    (h : ∀ c ∈ code, ∀ p ∈ c.prims (lineFront []).symt, p.Spares ⟨10⟩) :
    OnlyMutexCalls ⟨10⟩ (lineSystem code) :=
  line_forall (P := fun c => ∀ p ∈ c.prims (lineFront []).symt, p.Spares ⟨10⟩)
    (fun _ hp => absurd hp List.not_mem_nil) h

/-- The mutex, and the actions that lock and unlock it. -/
def lineMutex : MemAddr ConValue := globalCell ⟨10⟩ ToValue.zero

def lockAct : ConAct := Act.lockActAddr (.addrs [lineMutex])

def unlockAct : ConAct := Act.unlockActAddr (.addrs [lineMutex])

/-- The actions of `int x = pthread_mutex_lock(&m);`, and the local that it leaves. -/
def lockDeclAct (x : SymId) : ConAct := lockAct.addWrites (.addrs [⟨x, ToValue.zero, .loc 1⟩])

def lockedBy (x : SymId) : MemAddrBase × ConOffs :=
  (⟨x, .loc 1⟩, ⟨[(ToValue.zero, ToValue.one)]⟩)

/-- The end of `main` is recorded in its last step. -/
def withExit (a : ConAct) : ConAct := a.join (Act.exitThreadAct ⟨1⟩)

section Integers

attribute [local instance] SimpleC.integers

/-- Two declarations `int x = pthread_mutex_lock(&m); int y = pthread_mutex_lock(&m);`: each writes
its variable into the state from before the lock, so the mutex is never locked, and the same thread
locks it twice without an unlock. -/
theorem lock_twice_in_declarations :
    ∃ syst, convert (lineFront [lockDecl ⟨20⟩, lockDecl ⟨21⟩]) = .ok syst ∧
      OnlyMutexCalls ⟨10⟩ syst ∧ ∃ r : ConRun syst 2, lineMutex ∈ (r.act 0).locks ∧
        lineMutex ∈ (r.act 1).locks ∧ ¬ Released lineMutex (r.act 0) ∧
        ¬ Released lineMutex (r.act 1) := by
  refine ⟨lineSystem [lockDecl ⟨20⟩, lockDecl ⟨21⟩], rfl, ?_, ?_⟩
  · exact line_onlyMutexCalls (by decide)
  · let r : ConRun (lineSystem [lockDecl ⟨20⟩, lockDecl ⟨21⟩]) 2 :=
      { st := fun
          | 0 => lineState 0 0 []
          | 1 => lineState 0 1 [lockedBy ⟨20⟩]
          | _ => lineState 0 2 [lockedBy ⟨20⟩, lockedBy ⟨21⟩]
        tid := fun _ => 1
        act := fun
          | 0 => lockDeclAct ⟨20⟩
          | _ => withExit (lockDeclAct ⟨21⟩)
        init := rfl
        step := fun
          | 0, _ => ⟨1, [], 1, rfl⟩
          | 1, _ => ⟨1, [], 2, rfl⟩ }
    have hfree (a : ConAct) (x : SymId) (hu : a.unlocks = .addrs [])
        (hw : a.wrs = .addrs [⟨x, ToValue.zero, .loc 1⟩]) : ¬ Released lineMutex a := by
      simp [Released, hu, hw, lineMutex, globalCell]
    exact ⟨r, List.mem_singleton.2 rfl, List.mem_singleton.2 rfl, hfree _ ⟨20⟩ rfl rfl,
      hfree _ ⟨21⟩ rfl rfl⟩

/-- `pthread_mutex_lock(&m); pthread_mutex_unlock(&m); pthread_mutex_lock(&m);` -/
theorem mutual_exclusion_line :
    ∃ r : ConRun (lineSystem [.E lockCall, .E unlockCall, .E lockCall]) 3,
      lineMutex ∈ (r.act 0).locks ∧ lineMutex ∈ (r.act 2).locks ∧
      ((∃ k, 0 < k ∧ k < 2 ∧ Released lineMutex (r.act k)) ∨
        (Released lineMutex (r.act 0) ∧ ¬ Held lineMutex (r.st 1)) ∨
        (Held lineMutex (r.st 2) ∧ Released lineMutex (r.act 2))) := by
  let r : ConRun (lineSystem [.E lockCall, .E unlockCall, .E lockCall]) 3 :=
    { st := fun
        | 0 => lineState 0 0 []
        | 1 => lineState 1 1 []
        | 2 => lineState 0 2 []
        | _ => lineState 1 3 []
      tid := fun _ => 1
      act := fun
        | 0 => lockAct
        | 1 => unlockAct
        | _ => withExit lockAct
      init := rfl
      step := fun
        | 0, _ => ⟨1, [], 1, rfl⟩
        | 1, _ => ⟨1, [], 2, rfl⟩
        | 2, _ => ⟨1, [], 3, rfl⟩ }
  have hcalls : OnlyMutexCalls ⟨10⟩ (lineSystem [.E lockCall, .E unlockCall, .E lockCall]) :=
    line_onlyMutexCalls (by decide)
  have hinits : NoLockInits (lineSystem [.E lockCall, .E unlockCall, .E lockCall]) := by
    refine line_forall (P := EdgeCode.NoLockInit (lineFront []).symt) trivial fun c hc => ?_
    simp only [List.mem_cons, List.not_mem_nil, or_false] at hc
    rcases hc with rfl | rfl | rfl <;> trivial
  have hfirst : lineMutex ∈ (r.act 0).locks := List.mem_singleton.2 rfl
  have hthird : lineMutex ∈ (r.act 2).locks := List.mem_singleton.2 rfl
  exact ⟨r, hfirst, hthird,
    (mutual_exclusion hcalls hinits ToValue.zero).1 3 r 0 2 (by decide) (by decide) hfirst hthird⟩

end Integers

end Poet
