import Poet.Locks.Pivot

/-!
# Exchanging two critical sections

On a maximal stack the critical section of the lock `e` was done right above `C`; steps that are independent
of it and a lock `b` of the same mutex came later (`SectionFirst`). The lock `z` that `b` would have been
without the section is in the prefix: it was enabled at `C`, or it was discovered when the thread of
`b` came to it. It is in conflict with `e`, and what is left of the stack without `e` has the steps up to `b`
(`SectionFirst.exists_exchange`). Hence the alternative of `e` by `z` is valid (`Exchanges.validAlt`).
-/

namespace Poet

open scoped List

variable {P : LockProgram} {T : Events LockAct} {A B C D R S : EventsID} {g g' : LockState P}
  {e p q u x y z : EventID} {v w rest : List LockStep} {a b : LockStep} {n t i j m : Nat} {o : LockOp}

/-- The stack `S` has the critical section of `e` and `u` right above `C`, and then steps `w` that are
independent of it, the lock `b` of the same mutex and others. -/
structure SectionFirst (P : LockProgram) (T : Events LockAct) (n : Nat) (C : EventsID) (g : LockState P)
    (e u : EventID) (t i m : Nat) (w : List LockStep) (b : LockStep) (S : EventsID) : Prop where
  pre : LockPrefix P T n
  low : StackRun P T n C g
  added : CanExtend T C e
  lock : IsStep P T e t i (.lock m)
  unlock : IsStep P T u t (i + 1) (.unlock m)
  stack : u :: e :: C <:+ S
  steps : ∃ rest g', Above P T n C (⟨t, i, .lock m⟩ :: ⟨t, i + 1, .unlock m⟩ :: (w ++ b :: rest)) S ∧
    Interleaves g (⟨t, i, .lock m⟩ :: ⟨t, i + 1, .unlock m⟩ :: (w ++ b :: rest)) g'
  without : ∃ g', Interleaves g (w ++ [b]) g'
  indep : ∀ a ∈ w, a.tid ≠ t ∧ a.mutex ≠ m
  op : b.op = .lock m
  other : b.tid ≠ t

/-- `R` is the part of the stack `S` with the steps `w` above `C`, and `z` is the lock `b` after it. -/
structure Exchanges (P : LockProgram) (T : Events LockAct) (n : Nat) (C : EventsID) (e : EventID)
    (w : List LockStep) (b : LockStep) (S : EventsID) (z : EventID) (R : EventsID) : Prop where
  step : IsStep P T z b.tid b.idx b.op
  conflict : z ∈ T.icnfOf e
  part : Above P T n C w R
  subset : ∀ x ∈ R, x ∈ S
  ext : CanExtend T R z

/-- Up to `p`, its thread has gone to `p`. -/
theorem StackRun.le_of_own (hS : StackRun P T n (A ++ p :: B) g) (h : LockPrefix P T n) (hy : y ∈ p :: B)
    (hsp : IsStep P T p t j o) {k : Nat} {o' : LockOp} (hsy : IsStep P T y t k o') : Le T y p := by
  have hin : ∀ {x}, x ∈ p :: B → x ∈ A ++ p :: B := fun hx => List.mem_append_right A hx
  have hp := hin (List.mem_cons_self (a := p) (l := B))
  rcases le_or_gt k j with hk | hk
  · exact hS.exec.le_of_step_le h.events (hin hy) hp hsy hsp hk
  · have hlt := hS.exec.lt_of_step_lt h.events hp (hin hy) hsp hsy hk
    rcases List.mem_cons.1 hy with rfl | hy
    · exact .inl rfl
    · exact absurd hlt ((List.pairwise_cons.1 (List.pairwise_append.1 hS.pairwise).2.1).1 y hy)

namespace SectionFirst

variable (h : SectionFirst P T n C g e u t i m w b S)

include h

theorem lock_mem : e ∈ S := h.stack.subset (by simp)

theorem unlock_mem : u ∈ S := h.stack.subset (by simp)

theorem last : g.pc b.tid ≤ b.idx ∧ P.op b.tid b.idx = some b.op := by
  obtain ⟨g', hw⟩ := h.without
  have hb := (hw.mem_iff h.low.exec.pcs_length).1 (List.mem_append_right w List.mem_cons_self)
  exact ⟨hb.1, hb.2.2⟩

/-- The part without the section is above the stack. -/
theorem part_subset (hR : Above P T n C w R) : ∀ x ∈ C, x ∈ R := by
  obtain ⟨g', hw⟩ := h.without
  obtain ⟨gw, hw', -⟩ := Interleaves.of_append hw
  exact hR.subset h.low h.pre.unique hw'

theorem part_step (hR : Above P T n C w R) (hy : y ∈ R) (hyC : y ∉ C) :
    ∃ a ∈ w, (a.tid = b.tid → g.pc b.tid ≤ a.idx ∧ a.idx < b.idx) ∧ IsStep P T y a.tid a.idx a.op := by
  obtain ⟨g', hw⟩ := h.without
  obtain ⟨gw, hw', -⟩ := Interleaves.of_append hw
  have hlen := h.low.exec.pcs_length
  obtain ⟨a, ha, hsy⟩ := hR.exists_step h.low h.pre.unique hw' hy hyC
  exact ⟨a, ha, fun htid => ⟨htid ▸ ((hw'.mem_iff hlen).1 ha).1, hw.idx_lt hlen ha htid⟩, hsy⟩

theorem run : ∃ g', StackRun P T n S g' := by
  obtain ⟨rest, g', habove, -⟩ := h.steps
  exact habove.run

/-- **Without the section.** -/
theorem exists_part : ∃ R, Above P T n C w R ∧ (∀ x ∈ R, x ∈ S) ∧ e ∉ R := by
  obtain ⟨rest, g', habove, hsteps⟩ := h.steps
  obtain ⟨gS, hS⟩ := habove.run
  -- the steps of the section are moved behind `w`
  have hword : (Trace.mk _ (wordOf T S) : LockTrace) = .mk _ ((wordOf T C ++ w.map LockStep.info) ++
      (⟨t, i, .lock m⟩ :: ⟨t, i + 1, .unlock m⟩ :: b :: rest : List LockStep).map LockStep.info) := by
    rw [habove.trace, List.append_assoc, ← List.map_append]
    refine Trace.mk_append rfl ?_
    refine .trans ?_ (LockStep.trace_move (b := ⟨t, i, .lock m⟩) h.indep).symm
    rw [List.map_cons, List.map_cons (l := w ++ _), ← Trace.cons_mk, ← Trace.cons_mk]
    exact congrArg _ (LockStep.trace_move (b := ⟨t, i + 1, .unlock m⟩) h.indep).symm
  have hnd : ((wordOf T C ++ w.map LockStep.info) ++
      (⟨t, i, .lock m⟩ :: ⟨t, i + 1, .unlock m⟩ :: b :: rest : List LockStep).map LockStep.info).Nodup := by
    refine (List.Perm.nodup_iff ?_).1 (h.low.word_nodup hsteps)
    rw [List.append_assoc, ← List.map_append]
    refine .append_left _ (.map _ ?_)
    exact (List.perm_middle.trans (List.perm_middle.cons _)).symm
  obtain ⟨R, gR, hR, hmem, htr⟩ := hS.exists_part hword hnd
  refine ⟨R, ⟨⟨gR, hR⟩, htr⟩, fun x hx => ((hmem x).1 hx).1, fun he => ?_⟩
  rcases ((hmem e).1 he).2 with heb | ⟨a, ha, hinfo⟩
  · exact h.added.notMem (heb ▸ h.low.bot_mem)
  · rcases List.mem_append.1 ha with ha | ha
    · obtain ⟨x, hx, hxb, hxi⟩ := mem_wordOf.1 ha
      have heq := hS.exec.eq_of_infoOf h.pre.events (h.stack.subset (by simp [hx])) h.lock_mem
        (h.low.closed.mem x hx) hxb (hinfo.trans hxi.symm)
      exact h.added.notMem (heq ▸ hx)
    · obtain ⟨c, hc, rfl⟩ := List.mem_map.1 ha
      rw [h.lock.infoOf, Option.some_inj] at hinfo
      exact (h.indep c hc).1 (stepName_inj.1 (congrArg Prod.fst hinfo)).1.symm

/-- A lock of the mutex over the part is in conflict with `e`. -/
theorem exchanges (hR : Above P T n C w R) (hsub : ∀ x ∈ R, x ∈ S) (heR : e ∉ R)
    (hsz : IsStep P T z b.tid b.idx b.op) (hpred : ∀ p ∈ T.predOf z, p ∈ R)
    (hdep : ∀ y ∈ R, Dep T y z → Lt T y z) : Exchanges P T n C e w b S z R := by
  obtain ⟨gS, hS⟩ := h.run
  obtain ⟨gR, hRrun⟩ := hR.run
  have hmutex : (LockOp.lock m).mutex = b.op.mutex := by rw [h.op]
  have hez : ¬ Lt T e z := fun hlt => heR (hRrun.closed.of_pred hpred hlt)
  have hzS : z ∉ S := by
    intro hz
    rcases hS.exec.ordered h.lock hsz h.lock_mem hz (.inr hmutex) with (rfl | hlt) | hlt
    · exact h.other (hsz.unique h.lock).1
    · exact hez hlt
    · have hzC := h.added.below h.low.closed hlt
      have := (h.low.exec.lt_pc_iff h.pre.events).2 ⟨z, hzC, _, hsz⟩
      exact Nat.not_lt.2 h.last.1 this
  have hext : CanExtend T R z := hRrun.canExtend_of_dep hsz.mem (fun hz => hzS (hsub z hz)) hpred hdep
  refine ⟨hsz, hS.conflict_of_first h.pre.past hsub hRrun.closed hext hzS h.lock_mem heR
    ((h.lock.dep_iff hsz).2 (.inr hmutex)) fun y _ hyR hlt => ?_, hR, hsub, hext⟩
  exact absurd (h.part_subset hR y (h.added.below h.low.closed hlt)) hyR

/-- The lock `b` was enabled at `C`. -/
theorem exchanges_of_enabled (hR : Above P T n C w R) (hsub : ∀ x ∈ R, x ∈ S) (heR : e ∉ R)
    (hz : CanExtend T C z) (hsz : IsStep P T z b.tid b.idx b.op) (hpc : b.idx = g.pc b.tid) :
    Exchanges P T n C e w b S z R := by
  have hCR := h.part_subset hR
  refine h.exchanges hR hsub heR hsz (fun p hp => hCR p (hz.pred p hp)) fun y hy hd => ?_
  by_cases hyC : y ∈ C
  · exact hz.dep y hyC hd
  · obtain ⟨a, ha, hidx, hsy⟩ := h.part_step hR hy hyC
    rcases (hsy.dep_iff hsz).1 hd with htid | hm
    · -- the thread of `b` does nothing in `w`
      have hlt := hidx htid
      omega
    · rw [h.op] at hm
      exact absurd hm (h.indep a ha).2

/-- A step on the mutex is below `e`, its unlock, or not below the lock `b`. -/
theorem le_or_eq_or_le {ty iy : Nat} {oy : LockOp} (hy : y ∈ S) (hsy : IsStep P T y ty iy oy)
    (hm : oy.mutex = m) :
    Le T y e ∨ y = u ∨ ∃ x ∈ S, IsStep P T x b.tid b.idx b.op ∧ Le T x y := by
  obtain ⟨rest, g', habove, hsteps⟩ := h.steps
  obtain ⟨gS, hS⟩ := habove.run
  have hev := h.pre.events
  by_cases hyC : y ∈ C
  · exact .inl (.inr (h.added.dep y hyC ((hsy.dep_iff h.lock).2 (.inr hm))))
  obtain ⟨a, ha, hsa⟩ := habove.exists_step h.low h.pre.unique hsteps hy hyC
  obtain ⟨rfl, rfl, rfl⟩ := hsy.unique hsa
  rcases List.mem_cons.1 ha with rfl | ha
  · exact .inl (.inl (hS.exec.eq_of_step hev hy h.lock_mem hsa h.lock))
  rcases List.mem_cons.1 ha with rfl | ha
  · exact .inr (.inl (hS.exec.eq_of_step hev hy h.unlock_mem hsa h.unlock))
  rcases List.mem_append.1 ha with ha | ha
  · exact absurd hm (h.indep a ha).2
  rcases List.mem_cons.1 ha with rfl | ha
  · exact .inr (.inr ⟨y, hy, hsa, .inl rfl⟩)
  -- what comes after `b` and depends on it is above it
  have hdep : isDependent b.info a.info = true :=
    LockStep.isDependent_info.2 (.inr ((congrArg LockOp.mutex h.op).trans hm.symm))
  have hpair : [b.info, a.info] <+ wordOf T C ++
      (⟨t, i, .lock m⟩ :: ⟨t, i + 1, .unlock m⟩ :: (w ++ b :: rest) : List LockStep).map LockStep.info := by
    have hrest : [b, a] <+ b :: rest := .cons_cons b (List.singleton_sublist.2 ha)
    exact (((hrest.trans (List.sublist_append_right w _)).cons _).cons _ |>.map _).trans
      (List.sublist_append_right _ _)
  have hpair' := ((Trace.same_of_mk_eq isDependent_symm habove.trace).2 _ _ hdep).2 hpair
  obtain ⟨x, hx, y', hy', -, hyb', hxi, hyi, hlt⟩ := (hS.exec.before_iff hev h.pre.causal hdep).1 hpair'
  obtain rfl := hS.exec.eq_of_infoOf hev hy' hy (hS.closed.mem y' hy') hyb' (hsa.infoOf.trans hyi.symm)
  exact .inr (.inr ⟨x, hx, isStep_of_infoOf hxi h.last.2, .inr hlt⟩)

/-- Where the thread of `b` is not at the lock at `C`, its step before the lock is in the part. -/
theorem exists_previous (hR : Above P T n C w R) (hpc : b.idx ≠ g.pc b.tid) :
    ∃ p j o, b.idx = j + 1 ∧ p ∈ R ∧ p ∉ C ∧ IsStep P T p b.tid j o := by
  obtain ⟨gw, hw⟩ := h.without
  obtain ⟨gw', hw', -⟩ := Interleaves.of_append hw
  have hlen := h.low.exec.pcs_length
  have hbw := (hw.mem_iff hlen).1 (List.mem_append_right w List.mem_cons_self)
  obtain ⟨j, hj⟩ : ∃ j, b.idx = j + 1 := ⟨b.idx - 1, by omega⟩
  have hjlt := LockProgram.op_lt_length hbw.2.2
  obtain ⟨o, ho⟩ : ∃ o, P.op b.tid j = some o := ⟨_, List.getElem?_eq_getElem (by omega)⟩
  have hpw : (⟨b.tid, j, o⟩ : LockStep) ∈ w := by
    have hmem := hw.exists_step hlen (show g.pc b.tid ≤ j by omega) (show j < gw.pc b.tid by omega) ho
    refine (List.mem_append.1 hmem).resolve_right fun hb => ?_
    have := congrArg LockStep.idx (List.mem_singleton.1 hb)
    simp only at this
    omega
  obtain ⟨p, hpR, hpC, hsp⟩ := hR.exists_event h.low hw' hpw
  exact ⟨p, j, o, hj, hpR, hpC, hsp⟩

/-- The section is passed by the step before the lock. -/
theorem passedBy (hR : Above P T n C w R) (hsub : ∀ x ∈ R, x ∈ S) (heR : e ∉ R) (hj : b.idx = j + 1)
    (hpR : p ∈ R) (hpC : p ∉ C) (hsp : IsStep P T p b.tid j o) :
    ∃ A B, S = A ++ p :: B ∧ (∀ x ∈ C, x ∈ B) ∧ PassedBy P T p B b.tid j m e u := by
  obtain ⟨gS, hS⟩ := h.run
  obtain ⟨gR, hRrun⟩ := hR.run
  have hpS := hsub p hpR
  obtain ⟨A, hA⟩ := h.stack
  have hpA : p ∈ A := by
    rw [← hA, List.mem_append, List.mem_cons, List.mem_cons] at hpS
    rcases hpS with hpA | rfl | rfl | hpC'
    · exact hpA
    · exact absurd (hsp.unique h.unlock).1 h.other
    · exact absurd (hsp.unique h.lock).1 h.other
    · exact absurd hpC' hpC
  obtain ⟨A₁, A₂, rfl⟩ := List.append_of_mem hpA
  have hsplit : S = A₁ ++ p :: (A₂ ++ u :: e :: C) := by rw [← hA]; simp
  have hin : ∀ {x}, x ∈ p :: (A₂ ++ u :: e :: C) → x ∈ S := fun hx =>
    hsplit ▸ List.mem_append_right A₁ hx
  have hnext : P.op b.tid (j + 1) = some (.lock m) := by rw [← hj, ← h.op]; exact h.last.2
  refine ⟨A₁, _, hsplit, fun x hx => by simp [hx], ⟨o, hsp⟩, hnext, ⟨t, i, h.lock, h.unlock⟩, by simp,
    by simp, fun hle => heR (hRrun.closed.of_le hpR hle), fun y hy ty iy oy hsy hm => ?_⟩
  rcases h.le_or_eq_or_le (hin hy) hsy hm with hle | heq | ⟨x, hx, hsx, hxy⟩
  · exact .inl hle
  · exact .inr heq
  · -- the thread has gone to `p` and no further
    have hS' := hsplit ▸ hS
    obtain ⟨gB, -, hpB, -⟩ := hS'.suffix (List.suffix_append A₁ _) (List.cons_ne_nil p _)
    have hle := hS'.le_of_own h.pre (hpB.closed.of_le hy hxy) hsp hsx
    have hlt := hS.exec.lt_of_step_lt h.pre.events hpS hx hsp hsx (by omega)
    exact absurd (hlt.trans_le hle) h.pre.causal.lt_irrefl

/-- Where the thread of `b` comes to the lock in `w`, the lock was discovered. -/
theorem exists_of_discovered (hd : Discovered P T S) (hR : Above P T n C w R) (hsub : ∀ x ∈ R, x ∈ S)
    (heR : e ∉ R) (hpc : b.idx ≠ g.pc b.tid) : ∃ z, Exchanges P T n C e w b S z R := by
  obtain ⟨gS, hS⟩ := h.run
  obtain ⟨gR, hRrun⟩ := hR.run
  have hev := h.pre.events
  obtain ⟨p, j, o, hj, hpR, hpC, hsp⟩ := h.exists_previous hR hpc
  have hpS := hsub p hpR
  obtain ⟨A, B, hsplit, hCB, hpass⟩ := h.passedBy hR hsub heR hj hpR hpC hsp
  obtain ⟨z, hz⟩ := hd A p B b.tid j m e u hsplit hpass
  have hS' := hsplit ▸ hS
  obtain ⟨gB, -, hpB, -⟩ := hS'.suffix (List.suffix_append A (p :: B)) (List.cons_ne_nil p B)
  have hsz : IsStep P T z b.tid b.idx b.op := by rw [hj, h.op]; exact hz.step
  have heu : Lt T e u :=
    hS.exec.lt_of_step_lt hev h.lock_mem h.unlock_mem h.lock h.unlock (Nat.lt_succ_self i)
  refine ⟨z, h.exchanges hR hsub heR hsz (fun q hq => ?_) fun y hy hyd => ?_⟩
  · -- what is below the lock is below `p` or below the section
    obtain ⟨hqB, heq⟩ := hz.pred q hq
    by_cases hqb : q = botEID
    · exact hqb ▸ hRrun.bot_mem
    obtain ⟨tq, iq, oq, hsq⟩ := h.pre.table.step q (hpB.closed.mem q hqB) hqb
    rcases (hsq.dep_iff hsz).1 (h.pre.table.pred z q hq) with rfl | hm
    · exact hRrun.closed.of_le hpR (hS'.le_of_own h.pre hqB hsp hsq)
    · rcases hpass.last q hqB _ _ _ hsq (hm.trans (congrArg LockOp.mutex h.op)) with (rfl | hlt) | rfl
      · exact absurd (.inl rfl) heq
      · exact h.part_subset hR q (h.added.below h.low.closed hlt)
      · exact absurd (.inr heu) heq
  · refine hz.dep y ?_ (fun hle => heR (hRrun.closed.of_le hy hle)) hyd
    by_cases hyC : y ∈ C
    · exact List.mem_cons_of_mem p (hCB y hyC)
    · obtain ⟨a, ha, hidx, hsy⟩ := h.part_step hR hy hyC
      rcases (hsy.dep_iff hsz).1 hyd with htid | hm
      · have hlt := hidx htid
        exact hpB.closed.of_le List.mem_cons_self
          (hS.exec.le_of_step_le hev (hsub y hy) hpS hsy (htid ▸ hsp) (by omega))
      · exact absurd (hm.trans (congrArg LockOp.mutex h.op)) (h.indep a ha).2

/-- **The lock `b` without the section before it is in the prefix.** -/
theorem exists_exchange (hd : Discovered P T S) (hfree : g.held m = false)
    (hfound : g.next b.tid = some b.op → ∃ z, CanExtend T C z ∧ IsStep P T z b.tid (g.pc b.tid) b.op) :
    ∃ z R, Exchanges P T n C e w b S z R := by
  obtain ⟨R, hR, hsub, heR⟩ := h.exists_part
  by_cases hpc : b.idx = g.pc b.tid
  · obtain ⟨z, hz, hsz⟩ := hfound (LockState.next_eq_some.2 ⟨hpc ▸ h.last.2, fun m' hm => by
      obtain rfl : m = m' := LockOp.lock.inj (h.op.symm.trans hm)
      exact hfree⟩)
    exact ⟨z, R, h.exchanges_of_enabled hR hsub heR hz (hpc.symm ▸ hsz) hpc⟩
  · obtain ⟨z, hz⟩ := h.exists_of_discovered hd hR hsub heR hpc
    exact ⟨z, R, hz⟩

end SectionFirst

/-! ## The alternative -/

namespace Exchanges

variable (hz : Exchanges P T n C e w b S z R)

include hz

theorem stays : ∀ x ∈ R, Stays T S z x := by
  obtain ⟨gR, hR⟩ := hz.part.run
  intro x hx
  refine ⟨hz.subset x hx, fun c hc _ hle => ?_⟩
  exact hz.ext.noConflict hR.table hR.wf.bot (hR.closed.of_le hx hle) hc

variable (h : LockPrefix P T n) (hwl : P.WellLocked) (hnn : P.NonNested)

include h hwl hnn

theorem above : Above P T n C (w ++ [b]) (z :: R) := by
  obtain ⟨gR, hR⟩ := hz.part.run
  refine ⟨⟨_, hz.ext.push h hwl hnn hR hz.step⟩, ?_⟩
  rw [wordOf_cons (h.events.ne_bot hz.step) hz.step.infoOf, List.map_append, ← List.append_assoc]
  exact Trace.mk_append hz.part.trace rfl

/-- The disabled events that the section does not hide are in conflict with the exchanged stack. -/
theorem exists_conflict (hC : StackRun P T n C g) (hw : Interleaves g (w ++ [b]) g')
    (he : CanExtend T C e) (hse : IsStep P T e t i (.lock m)) (hnext : g.next t = some (.lock m))
    (hdis : ∀ x ∈ D, x ∈ T ∧ x ∉ C ∧ ∀ p ∈ T.predOf x, p ∈ C)
    (hnone : NoLock P T C D m)
    (havoid : Avoids P T (e :: C) D (w ++ [b])) : ∀ x ∈ D, ∃ y ∈ z :: R, x ∈ T.icnfOf y := by
  intro x hxD
  obtain ⟨hxT, hxC, hpred⟩ := hdis x hxD
  have habove := hz.above h hwl hnn
  by_cases hx : CanExtend T C x
  · obtain ⟨t', i', o', hst⟩ := h.table.step x hxT fun heq => hxC (heq ▸ hC.bot_mem)
    obtain ⟨rfl, hnext'⟩ := hx.next h hwl hnn hC hst
    have hlock : o'.mutex ≠ m := by
      intro hm
      cases o' with
      | lock m' =>
        obtain rfl : m' = m := hm
        exact hnone x hxD hx _ _ hst
      | unlock m' =>
        -- the mutex is free
        obtain rfl : m' = m := hm
        have hfree := (LockState.next_eq_some.1 hnext).2 m' rfl
        have hheld := hwl.holds_of_unlock hst.op
        rw [LockState.not_holds_of_not_held hfree] at hheld
        cases hheld
    have htid : t' ≠ t := by
      rintro rfl
      obtain rfl := Option.some_inj.1 (hnext'.symm.trans hnext)
      exact hlock rfl
    have hnd : ¬ Dep T e x := fun hd => ((hse.dep_iff hst).1 hd).elim htid.symm hlock.symm
    have hxe : CanExtend T (e :: C) x := by
      refine (he.push h hwl hnn hC hse).canExtend_of_dep hxT (fun hm => ?_)
        (fun p hp => List.mem_cons_of_mem e (hx.pred p hp)) fun y hy hd => ?_
      · rcases List.mem_cons.1 hm with rfl | hm
        · exact htid (hst.unique hse).1
        · exact hx.notMem hm
      · rcases List.mem_cons.1 hy with rfl | hy
        · exact absurd hd hnd
        · exact hx.dep y hy hd
    obtain ⟨a, hfirst, hatid⟩ := havoid x hxD hxe _ _ _ hst
    obtain ⟨y, hy, -, hi⟩ := habove.exists_conflict hC h.unique hw h.past hx hst hnext' hfirst hatid
    exact ⟨y, hy, hi⟩
  · obtain ⟨y, hy, hi⟩ := hC.exists_conflict_of_not_canExtend h.past hxT hxC hpred hx
    exact ⟨y, habove.subset hC h.unique hw y hy, hi⟩

omit hwl hnn in
/-- **The alternative of `e` by `z` is valid.** -/
theorem validAlt (hC : StackRun P T n C g) (hw : Interleaves g (w ++ [b]) g') (hS : e :: C <:+ S)
    (hcf : ∀ x ∈ D, ∃ y ∈ z :: R, x ∈ T.icnfOf y) : ValidAlt T S D e z := by
  obtain ⟨l, hl⟩ := hS
  obtain ⟨gw, hw', -⟩ := Interleaves.of_append hw
  have hCR := hz.part.subset hC h.unique hw'
  refine ⟨l, C, hl.symm, fun c hc hcC => ?_, fun x hx => hz.stays x (hCR x hx), fun x hx => ?_⟩
  · exact hz.ext.noConflict h.table h.wf.bot (hCR c hcC) hc
  · obtain ⟨y, hy, hi⟩ := hcf x hx
    exact ⟨y, (List.mem_cons.1 hy).imp_right (hz.stays y), hi⟩

end Exchanges

end Poet
