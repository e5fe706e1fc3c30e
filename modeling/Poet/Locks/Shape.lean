import Poet.Locks.Discovery

/-!
# The shape of an alternative

Without nested critical sections an alternative of `x` replaces one lock by another one of the same mutex:
the event `y` that it is built from and `x` are locks of one mutex with the same steps on it below them, and
every other lock of the alternative comes with its unlock (`AltShape`). Hence an alternative is followed
in critical sections, but for `y`, and where `y` can be added, `x` could be added too
(`AltShape.canExtend`).
-/

namespace Poet

variable {P : LockProgram} {T T' : Events LockAct} {C S de : EventsID} {v : Alternative}
  {g : LockState P} {l u w x y z : EventID} {n t t' i j m m' : Nat} {o o' : LockOp}

/-- The alternative `v` of the lock `x` has the lock `z` of the same mutex in its place; every other lock
has its unlock in `v`, if the thread goes on. -/
structure AltShape (P : LockProgram) (T : Events LockAct) (x : EventID) (v : Alternative) (m : Nat)
    (z : EventID) : Prop where
  mem : z ∈ v
  lock : ∃ t i, IsStep P T x t i (.lock m)
  other : ∃ t i, IsStep P T z t i (.lock m)
  past : ∀ w t i o, IsStep P T w t i o → o.mutex = m → (Lt T w x ↔ Lt T w z)
  unlocks : ∀ l ∈ v, l ≠ z → ∀ t i m', IsStep P T l t i (.lock m') → P.op t (i + 1) ≠ none →
    ∃ u ∈ v, IsStep P T u t (i + 1) (.unlock m') ∧ Lt T l u

/-- All alternatives have their shape. -/
def ShapeOk (P : LockProgram) (T : Events LockAct) : Prop :=
  ∀ x, ∀ v ∈ T.alteOf x, ∃ m z, AltShape P T x v m z

theorem AltShape.of_stable (h : AltShape P T x v m z) (hs : Stable n T T') (hT : Linked T [])
    (hT' : Linked T' []) (hx : x < n ∧ x ∈ T') (hold : ∀ w ∈ v, w < n ∧ w ∈ T') : AltShape P T' x v m z := by
  have hstep : ∀ {w t i o}, w < n ∧ w ∈ T' → (IsStep P T' w t i o ↔ IsStep P T w t i o) := fun hw =>
    hs.isStep_iff hw.1 hw.2
  obtain ⟨tx, ix, hsx⟩ := h.lock
  obtain ⟨tz, iz, hsz⟩ := h.other
  have hz := hold z h.mem
  refine ⟨h.mem, ⟨tx, ix, (hstep hx).2 hsx⟩, ⟨tz, iz, (hstep hz).2 hsz⟩, fun w t i o hsw hm => ?_,
    fun l hl hlz t i m' hsl hop => ?_⟩
  · rw [hs.lt_iff hT' hx.1 hx.2, hs.lt_iff hT' hz.1 hz.2]
    by_cases hwn : w < n
    · exact h.past w t i o ((hstep ⟨hwn, hsw.mem⟩).1 hsw) hm
    · -- what is new is not below what is old
      have hno : ∀ {y}, y < n → ¬ Lt T w y := fun hy hlt =>
        hwn (Nat.lt_trans (hT.id_lt hlt) hy)
      exact iff_of_false (hno hx.1) (hno hz.1)
  · obtain ⟨u, hu, hsu, hlt⟩ := h.unlocks l hl hlz t i m' ((hstep (hold l hl)).1 hsl) hop
    exact ⟨u, hu, (hstep (hold u hu)).2 hsu, (hs.lt_iff hT' (hold u hu).1 (hold u hu).2).2 hlt⟩

/-! ## New alternatives -/

/-- The step of an event is not below it. -/
theorem LockPrefix.not_lt_of_step (h : LockPrefix P T n) (hsy : IsStep P T y t i o)
    (hsw : IsStep P T w t i o') : ¬ Lt T w y := by
  intro hlt
  obtain ⟨r, g', hE, hmem, rfl⟩ := h.exists_past hsy
  exact Nat.lt_irrefl _ ((hE.lt_pc_iff h.events).2 ⟨w, (hmem w).2 hlt, _, hsw⟩)

/-- The event `y` over the stack is a conflict of the event `x` of the stack. -/
structure ConflictOver (P : LockProgram) (T : Events LockAct) (n : Nat) (S : EventsID) (g : LockState P)
    (x y : EventID) : Prop where
  pre : LockPrefix P T n
  run : StackRun P T n S g
  icnf : y ∈ T.icnfOf x
  mem : x ∈ S
  pred : ∀ p ∈ T.predOf y, p ∈ S

namespace ConflictOver

variable (h : ConflictOver P T n S g x y)

include h

theorem below_mem (hlt : Lt T w y) : w ∈ S := h.run.closed.of_pred h.pred hlt

theorem notMem : y ∉ S := fun hy => h.run.conflictFree h.mem hy h.icnf

/-- What is below `x` and `y` depends on is below `y`, if no conflict of `y` was on the stack before `x`. -/
theorem lt_of_lt (hval : ValidAlt T S de x y) (hwx : Lt T w x) (hd : Dep T w y) : Lt T w y := by
  by_contra hno
  obtain ⟨c, hc, hcw, hcy⟩ := h.run.exists_conflict h.pre.past h.notMem h.pred
    (h.run.closed.of_lt h.mem hwx) hd hno
  obtain ⟨l₁, l₂, rfl, hcf, -, -⟩ := hval
  have hcx := hcw.trans_lt hwx
  rcases List.mem_append.1 hc with hc | hc
  · -- the stack has no event above one that was added later
    exact (List.pairwise_append.1 h.run.pairwise).2.2 c hc x List.mem_cons_self hcx
  · rcases List.mem_cons.1 hc with rfl | hc
    · exact h.pre.causal.lt_irrefl hcx
    · exact hcf c hcy hc

/-- The earlier steps of its thread are below `y`. -/
theorem lt_of_own (hsy : IsStep P T y t i o) (hw : w ∈ S) (hsw : IsStep P T w t j o') (hj : j < i) :
    Lt T w y := by
  obtain ⟨r, g', hE, hmem, rfl⟩ := h.pre.exists_past hsy
  obtain ⟨w', hw', hsw'⟩ := hE.exists_step h.pre.events hj hsw.op
  have hlt := (hmem w').1 hw'
  rwa [h.run.exec.eq_of_step h.pre.events hw (h.below_mem hlt) hsw hsw']

/-- Events of one thread are one step. -/
theorem step_eq (hval : ValidAlt T S de x y) (hsx : IsStep P T x t i o) (hsy : IsStep P T y t j o') :
    i = j ∧ o = o' := by
  have hE := h.run.exec
  have hev := h.pre.events
  have hij : i = j := by
    rcases Nat.lt_trichotomy i j with hij | hij | hij
    · exact absurd (.inr (h.lt_of_own hsy h.mem hsx hij)) (h.pre.table.icnf x y h.icnf).2.1
    · exact hij
    · have hpc := (hE.lt_pc_iff hev).2 ⟨x, h.mem, _, hsx⟩
      obtain ⟨y', hy', hsy'⟩ := hE.exists_step hev (Nat.lt_trans hij hpc) hsy.op
      have hlt := hE.lt_of_step_lt hev hy' h.mem hsy' hsx hij
      exact absurd (h.lt_of_lt hval hlt ((hsy'.dep_iff hsy).2 (.inl rfl))) (h.pre.not_lt_of_step hsy hsy')
  subst hij
  exact ⟨rfl, Option.some_inj.1 (hsx.op.symm.trans hsy.op)⟩

variable (hw : P.WellLocked) (hn : P.NonNested)

include hw hn

/-- An unlock has no conflict: it comes right after its lock. -/
theorem not_unlock (hval : ValidAlt T S de x y) {tx ix ty iy : Nat} {ox : LockOp}
    (hsx : IsStep P T x tx ix ox) : ¬ IsStep P T y ty iy (.unlock m) := by
  intro hsy
  obtain ⟨hd, hle, -⟩ := h.pre.table.icnf x y h.icnf
  have hE := h.run.exec
  obtain ⟨ly, j, rfl, hsl, hbelow⟩ := h.pre.unlock_below hw hn hsy
  have hly := (hbelow ly).2 (.inl rfl)
  have hlyS := h.below_mem hly
  -- the unlock of `ly` is `y`, so it is not on the stack
  have hno : ∀ u, IsStep P T u ty (j + 1) (.unlock m) → Lt T ly u → u ∉ S := fun u hsu hlt hu =>
    h.notMem (h.pre.unlock_eq hw hn hsl hsu hlt hsy hly ▸ hu)
  rcases (hsx.dep_iff hsy).1 hd with rfl | hm
  · obtain ⟨rfl, rfl⟩ := h.step_eq hval hsx hsy
    exact hno x hsx (hE.lt_of_step_lt h.pre.events hlyS h.mem hsl hsx (Nat.lt_succ_self j)) h.mem
  · rcases hE.ordered hsx hsl h.mem hlyS (.inr hm) with hxl | hlx
    · exact hle (.inr ((hbelow x).2 hxl))
    · obtain ⟨u, hsu, hlu, hux⟩ := h.pre.lock_lt hw hn hsl hlx
      exact hno u hsu hlu (h.run.closed.of_le h.mem hux)

/-- **The two are locks of one mutex.** -/
theorem exists_locks (hval : ValidAlt T S de x y) :
    ∃ m tx ix ty iy, IsStep P T x tx ix (.lock m) ∧ IsStep P T y ty iy (.lock m) := by
  obtain ⟨hd, hle, -⟩ := h.pre.table.icnf x y h.icnf
  have hyT := h.pre.wf.linked.icnf_mem List.not_mem_nil h.icnf
  have hyb : y ≠ botEID := fun heq => h.notMem (heq ▸ h.run.bot_mem)
  have hxb : x ≠ botEID := fun heq => hle (.inr (heq ▸ h.pre.wf.bot_lt hyT hyb))
  obtain ⟨tx, ix, ox, hsx⟩ := h.pre.table.step x (h.run.closed.mem x h.mem) hxb
  obtain ⟨ty, iy, oy, hsy⟩ := h.pre.table.step y hyT hyb
  cases oy with
  | unlock m => exact absurd hsy (h.not_unlock hw hn hval hsx)
  | lock m =>
    have hox : ox.mutex = m := by
      rcases (hsx.dep_iff hsy).1 hd with rfl | hm
      · rw [(h.step_eq hval hsx hsy).2]
        rfl
      · exact hm
    cases ox with
    | lock m' =>
      obtain rfl : m' = m := hox
      exact ⟨m', tx, ix, ty, iy, hsx, hsy⟩
    | unlock m' =>
      obtain rfl : m' = m := hox
      obtain ⟨lx, j, rfl, hsl, hbelow⟩ := h.pre.unlock_below hw hn hsx
      have hlx := (hbelow lx).2 (.inl rfl)
      have hly := h.lt_of_lt hval hlx ((hsl.dep_iff hsy).2 (.inr rfl))
      obtain ⟨u, hsu, hlu, huy⟩ := h.pre.lock_lt hw hn hsl hly
      rw [h.pre.unlock_eq hw hn hsl hsu hlu hsx hlx] at huy
      exact absurd huy hle

/-- The unlock of a lock that stays is no conflict of `y`. -/
theorem unlock_not_conflict {ty iy : Nat} (hsy : IsStep P T y ty iy (.lock m)) (hl : l ∈ S)
    (hlow : ∀ w ∈ S, Le T w l → Dep T w y → Lt T w y) (hsl : IsStep P T l t i (.lock m')) (hu : u ∈ S)
    (hsu : IsStep P T u t (i + 1) (.unlock m')) : u ∉ T.icnfOf y := by
  intro hcy
  have hE := h.run.exec
  have hev := h.pre.events
  obtain ⟨hd, -, hcy'⟩ := h.pre.table.icnf y u hcy
  rcases (hsy.dep_iff hsu).1 hd with rfl | hm
  · rcases Nat.lt_trichotomy (i + 1) iy with hlt | heq | hgt
    · exact hcy' (.inr (h.lt_of_own hsy hu hsu hlt))
    · subst heq
      cases hsu.op.symm.trans hsy.op
    · -- the thread has done the step of `y` otherwise
      have hpc := (hE.lt_pc_iff hev).2 ⟨l, hl, _, hsl⟩
      obtain ⟨y', hy', hsy'⟩ := hE.exists_step hev (show iy < g.pc ty by omega) hsy.op
      have hle : Le T y' l := hE.le_of_step_le hev hy' hl hsy' hsl (by omega)
      exact h.pre.not_lt_of_step hsy hsy' (hlow y' hy' hle ((hsy'.dep_iff hsy).2 (.inl rfl)))
  · have hly := hlow l hl (.inl rfl) ((hsl.dep_iff hsy).2 (.inr hm.symm))
    have hlu := hE.lt_of_step_lt hev hl hu hsl hsu (Nat.lt_succ_self i)
    obtain ⟨u', hsu', hlu', huy⟩ := h.pre.lock_lt hw hn hsl hly
    rw [h.pre.unlock_eq hw hn hsl hsu' hlu' hsu hlu] at huy
    exact hcy' huy

/-- A lock that stays has its unlock stay. -/
theorem stays_unlock {ty iy : Nat} (hsy : IsStep P T y ty iy (.lock m)) (hl : Stays T S y l)
    (hsl : IsStep P T l t i (.lock m')) (hu : u ∈ S) (hsu : IsStep P T u t (i + 1) (.unlock m')) :
    Stays T S y u := by
  -- `l` is not above a step that `y` depends on and is not above
  have hlow : ∀ w ∈ S, Le T w l → Dep T w y → Lt T w y := by
    intro w hw hwl hd
    by_contra hno
    obtain ⟨c, hc, hcw, hcy⟩ := h.run.exists_conflict h.pre.past h.notMem h.pred hw hd hno
    exact hl.2 c hcy hc (hcw.trans hwl)
  refine ⟨hu, fun c hcy hc hcu => ?_⟩
  rcases hcu with rfl | hcu
  · exact h.unlock_not_conflict hw hn hsy hl.1 hlow hsl hu hsu hcy
  · have hlu := h.run.exec.lt_of_step_lt h.pre.events hl.1 hu hsl hsu (Nat.lt_succ_self i)
    exact hl.2 c hcy hc ((h.pre.lt_unlock_iff hw hn hsl hsu hlu).1 hcu)

/-- **The alternative of `x` by `y` on a stack where all threads have gone on.** -/
theorem altShape (hval : ValidAlt T S de x y) (hv : IsAlt T S y v)
    (hdone : ∀ l ∈ S, ∀ t i m', IsStep P T l t i (.lock m') → P.op t (i + 1) ≠ none →
      ∃ u ∈ S, IsStep P T u t (i + 1) (.unlock m')) : ∃ m, AltShape P T x v m y := by
  obtain ⟨-, hle, -⟩ := h.pre.table.icnf x y h.icnf
  obtain ⟨m, tx, ix, ty, iy, hsx, hsy⟩ := h.exists_locks hw hn hval
  refine ⟨m, (hv y).2 (.inl rfl), ⟨tx, ix, hsx⟩, ⟨ty, iy, hsy⟩, fun w t i o hsw hm => ⟨fun hlt => ?_,
    fun hlt => ?_⟩, fun l hl hly t i m' hsl hop => ?_⟩
  · exact h.lt_of_lt hval hlt ((hsw.dep_iff hsy).2 (.inr hm))
  · have hwS := h.below_mem hlt
    rcases h.run.exec.ordered hsw hsx hwS h.mem (.inr hm) with (rfl | hwx) | hxw
    · exact absurd (.inr hlt) hle
    · exact hwx
    · exact absurd (.inr (hxw.trans hlt)) hle
  · have hst := ((hv l).1 hl).resolve_left hly
    obtain ⟨u, hu, hsu⟩ := hdone l hst.1 t i m' hsl hop
    exact ⟨u, (hv u).2 (.inr (h.stays_unlock hw hn hsy hst hsl hu hsu)), hsu,
      h.run.exec.lt_of_step_lt h.pre.events hst.1 hu hsl hsu (Nat.lt_succ_self i)⟩

end ConflictOver

/-! ## Following an alternative -/

/-- Where the lock that replaces `x` can be added, `x` can. -/
theorem AltShape.canExtend (ha : AltShape P T x v m z) (h : LockPrefix P T n)
    (hS : StackRun P T n S g) (hz : CanExtend T S z) (hxS : x ∉ S)
    (hpred : ∀ p ∈ T.predOf x, p ∈ S) : CanExtend T S x := by
  obtain ⟨t, i, hsx⟩ := ha.lock
  obtain ⟨tz, iz, hsz⟩ := ha.other
  have hbelow : ∀ {w}, Lt T w x → w ∈ S := hS.closed.of_pred hpred
  obtain ⟨r, g', hE, hmem, rfl⟩ := h.exists_past hsx
  -- steps on the mutex are below `z`
  have hmutex : ∀ w ∈ S, ∀ t i o, IsStep P T w t i o → o.mutex = m → Lt T w x := fun w hw t i o hsw hm =>
    (ha.past w t i o hsw hm).2 (hz.dep w hw ((hsw.dep_iff hsz).2 (.inr hm)))
  have hown : ∀ w ∈ S, ∀ j o, IsStep P T w t j o → Lt T w x := by
    intro w hw j o hsw
    by_cases hj : j < g'.pc t
    · obtain ⟨w', hw', hsw'⟩ := hE.exists_step h.events hj hsw.op
      have hlt := (hmem w').1 hw'
      rwa [hS.exec.eq_of_step h.events hw (hbelow hlt) hsw hsw']
    · -- else the step of `x` is on the stack
      have hpc := (hS.exec.lt_pc_iff h.events).2 ⟨w, hw, _, hsw⟩
      obtain ⟨x', hx', hsx'⟩ := hS.exec.exists_step h.events (show g'.pc t < g.pc t by omega) hsx.op
      have hlt := hmutex x' hx' _ _ _ hsx' rfl
      exact absurd ((hE.lt_pc_iff h.events).2 ⟨x', (hmem x').2 hlt, _, hsx'⟩) (Nat.lt_irrefl _)
  refine hS.canExtend_of_dep hsx.mem hxS hpred fun w hw hd => ?_
  by_cases hwb : w = botEID
  · exact hwb ▸ h.wf.bot_lt hsx.mem (h.events.ne_bot hsx)
  obtain ⟨tw, iw, ow, hsw⟩ := h.table.step w (hS.closed.mem w hw) hwb
  rcases (hsw.dep_iff hsx).1 hd with rfl | hm
  · exact hown w hw iw ow hsw
  · exact hmutex w hw tw iw ow hsw hm

end Poet
