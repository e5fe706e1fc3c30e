import Poet.Locks.Kept

/-!
# Stacks above a stack

`Above S v R` says that the stack `R` is `S` with the steps `v` above it, up to their order. An event that
`S` can be extended with is in conflict with one of `R` if the first step of `v` on its mutex is another
thread's (`Above.exists_conflict`).
-/

namespace Poet

open scoped List

variable {P : LockProgram} {T T' : Events LockAct} {C R S : EventsID} {g g' : LockState P}
  {x y z : EventID} {u v w : List LockStep} {a b : LockStep} {n n' t i m : Nat} {o : LockOp}

/-! ## Stacks of one prefix in another -/

theorem Executes.exclusive (h : Executes P T S g) : g.Exclusive := by
  induction h with
  | bot => exact LockState.exclusive_init
  | push h hx hnext _ ih =>
    exact ih.step (h.pcs_length ▸ LockProgram.lt_length_of_op hx.op) hnext

theorem LockState.SameBut.symm {M : Nat → Prop} {h : LockState P} (hs : SameBut t M g h) :
    SameBut t M h g :=
  ⟨hs.length.symm, fun t' ht => (hs.pc t' ht).symm, fun m hm => (hs.holds m hm).symm⟩

theorem wordOf_of_stable (hs : Stable n T T') (hold : ∀ x ∈ S, x < n ∧ x ∈ T') :
    wordOf T' S = wordOf T S := by
  refine List.filterMap_congr fun x hx => ?_
  obtain ⟨hxn, hxT⟩ := hold x (List.mem_reverse.1 (List.mem_of_mem_filter hx))
  exact hs.infoOf hxn hxT

theorem StackRun.of_stable (h : StackRun P T n S g) (hs : Stable n T T') (hwf : WF T' n')
    (hT' : LockTable P T') (hmem : ∀ x ∈ S, x ∈ T') : StackRun P T' n' S g where
  wf := hwf
  table := hT'
  closed := hs.toOlder.downClosed h.closed (fun x hx => h.wf.lt_cntr (h.closed.mem x hx)) hmem
  exec := h.exec.of_stable hs hwf.linked fun x hx => ⟨h.wf.lt_cntr (h.closed.mem x hx), hmem x hx⟩

theorem Stable.canExtend_iff (hs : Stable n T T') (hT' : Linked T' []) (hxn : x < n) (hxT : x ∈ T')
    (hold : ∀ y ∈ S, y < n ∧ y ∈ T') : CanExtend T' S x ↔ CanExtend T S x := by
  refine ⟨fun hx => ⟨⟨hx.notMem, fun p hp => hx.pred p (hs.pred hxn hxT ▸ hp), fun y hy htid => ?_⟩,
    hs.mem hxn hxT, fun y hy hd => ?_⟩, fun hx => hx.of_stable hs hT' hxn hxT
      (fun y hy => (hold y hy).1) fun y hy => (hold y hy).2⟩
  · refine (hs.lt_iff hT' hxn hxT).1 (hx.chain y hy ?_)
    rw [hs.tid (hold y hy).1 (hold y hy).2, hs.tid hxn hxT, htid]
  · refine (hs.lt_iff hT' hxn hxT).1 (hx.dep y hy ?_)
    exact (hs.dep_iff (hold y hy).1 (hold y hy).2 hxn hxT).2 hd

/-- A stack ends in one state. -/
theorem Executes.unique (h : Executes P T S g) (h' : Executes P T S g') (hT : LockEvents P T) : g = g' :=
  LockState.ext_pc (h.pcs_length.trans h'.pcs_length.symm) fun _ =>
    h.pc_eq hT h' fun _ _ _ _ => Iff.rfl

/-! ## Events that a stack can be extended with -/

/-- What is below an event that can be added is on the stack. -/
theorem CanExtend.below (hx : CanExtend T S x) (hclosed : DownClosed T (· ∈ S)) (hlt : Lt T y x) :
    y ∈ S := hclosed.of_pred hx.pred hlt

/-- A stack is extended with one event for a step. -/
theorem CanExtend.eq_of_step (hx : CanExtend T S x) (hy : CanExtend T S y) (h : LockPrefix P T n)
    (hsx : IsStep P T x t i o) (hsy : IsStep P T y t i o) : x = y := by
  have hlt : ∀ {x y w}, CanExtend T S x → CanExtend T S y → IsStep P T x t i o → IsStep P T y t i o →
      Lt T w x → Lt T w y := by
    intro x y w hx hy hsx hsy hlt
    obtain ⟨p, hp, hle⟩ := lt_iff_pred.1 hlt
    refine hle.trans_lt (hy.dep p (hx.pred p hp) ((hsy.dependsOn_iff_dep h.events h.wf.bot).1 ?_))
    exact (hsx.dependsOn_iff_dep h.events h.wf.bot).2 (h.table.pred x p hp)
  exact h.wf.eq_of_past h.unique hsx.mem hsy.mem (hsx.name.trans hsy.name.symm) fun w =>
    ⟨hlt hx hy hsx hsy, hlt hy hx hsy hsx⟩

/-- An event that cannot be added has a conflict on the stack. -/
theorem StackRun.exists_conflict_of_not_canExtend (hS : StackRun P T n S g) (hp : PastOk P T)
    (hxT : x ∈ T) (hxS : x ∉ S) (hpred : ∀ p ∈ T.predOf x, p ∈ S) (hno : ¬ CanExtend T S x) :
    ∃ y ∈ S, x ∈ T.icnfOf y := by
  by_contra hcf
  push Not at hcf
  refine hno (hS.canExtend_of_dep hxT hxS hpred fun y hy hd => ?_)
  by_contra hlt
  obtain ⟨c, hc, -, hi⟩ := hS.exists_conflict hp hxS hpred hy hd hlt
  exact hcf c hc (hS.wf.linked.icnf_symm List.not_mem_nil hi).1

/-! ## Steps above a stack -/

/-- The stack `R` is `S` with the steps `v` above it, up to their order. -/
structure Above (P : LockProgram) (T : Events LockAct) (n : Nat) (S : EventsID) (v : List LockStep)
    (R : EventsID) : Prop where
  run : ∃ g : LockState P, StackRun P T n R g
  trace : (Trace.mk _ (wordOf T R) : LockTrace) = .mk _ (wordOf T S ++ v.map LockStep.info)

/-- The step that an event stands for is read from its name and action. -/
theorem isStep_of_infoOf (hx : T.infoOf x = some a.info)
    (ha : P.op a.tid a.idx = some a.op) : IsStep P T x a.tid a.idx a.op := by
  obtain ⟨ev, hl, hev⟩ := Option.map_eq_some_iff.1 hx
  have hname : T.nameOf x = some (stepName a.tid a.idx) := by
    rw [Events.nameOf_of_lookup hl]
    exact congrArg some (congrArg Prod.fst hev)
  have hacts : T.actsOf x = some a.op.act := by
    rw [Events.actsOf_of_lookup hl]
    exact congrArg some (congrArg Prod.snd hev)
  exact ⟨hname, hacts, ha⟩

/-- A step can be moved before steps that it is independent of. -/
theorem LockStep.trace_move (hu : ∀ a ∈ u, a.tid ≠ b.tid ∧ a.mutex ≠ b.mutex) :
    (Trace.mk _ ((u ++ b :: w).map LockStep.info) : LockTrace) =
      .mk _ ((b :: (u ++ w)).map LockStep.info) := by
  rw [List.map_append, List.map_cons, List.map_cons, List.map_append]
  refine Trace.mk_move _ _ fun c hc hdep => ?_
  obtain ⟨a, ha, rfl⟩ := List.mem_map.1 hc
  exact (LockStep.isDependent_info.1 hdep).elim (hu a ha).1 (hu a ha).2

theorem Above.move (h : Above P T n S (u ++ b :: w) R)
    (hu : ∀ a ∈ u, a.tid ≠ b.tid ∧ a.mutex ≠ b.mutex) : Above P T n S (b :: (u ++ w)) R :=
  ⟨h.run, h.trace.trans (Trace.mk_append rfl (LockStep.trace_move hu))⟩

section Steps

variable (hS : StackRun P T n S g)

include hS

/-- The steps of the stack are done before those above it. -/
theorem StackRun.word_nodup (hv : Interleaves g v g') :
    (wordOf T S ++ v.map LockStep.info).Nodup := by
  have hev := hS.table.toLockEvents
  have hlen := hS.exec.pcs_length
  have hop : ∀ a ∈ v, g.pc a.tid ≤ a.idx ∧ P.op a.tid a.idx = some a.op := fun a ha =>
    ⟨((hv.mem_iff hlen).1 ha).1, ((hv.mem_iff hlen).1 ha).2.2⟩
  refine List.nodup_append.2 ⟨hS.exec.wordOf_nodup hev, ?_, ?_⟩
  · refine (hv.nodup hlen).map_on fun a ha b hb heq => ?_
    obtain ⟨htid, hidx⟩ := stepName_inj.1 (congrArg Prod.fst heq)
    obtain ⟨ta, ia, oa⟩ := a
    obtain ⟨tb, ib, ob⟩ := b
    obtain rfl : ta = tb := htid
    obtain rfl : ia = ib := hidx
    obtain rfl : oa = ob := Option.some_inj.1 ((hop _ ha).2.symm.trans (hop _ hb).2)
    rfl
  · rintro c hc _ hc' rfl
    obtain ⟨x, hx, -, hxi⟩ := mem_wordOf.1 hc
    obtain ⟨a, ha, rfl⟩ := List.mem_map.1 hc'
    have hst := isStep_of_infoOf hxi (hop a ha).2
    have hlt := (hS.exec.lt_pc_iff hev).2 ⟨x, hx, _, hst⟩
    have hle := (hop a ha).1
    omega

variable (hnd : NoDuplicates T) (h : Above P T n S v R) (hv : Interleaves g v g')

include hnd h hv

namespace Above

theorem subset : ∀ x ∈ S, x ∈ R := by
  obtain ⟨gR, hR⟩ := h.run
  obtain ⟨R', gR', hR', hmem, htr⟩ := hR.exists_part h.trace (hS.word_nodup hv)
  intro x hx
  exact ((hmem x).1 (hS.mem_of_trace hR' hnd htr.symm x hx)).1

/-- What is not on the stack `S` stands for one of the steps. -/
theorem exists_step (hy : y ∈ R) (hyS : y ∉ S) : ∃ a ∈ v, IsStep P T y a.tid a.idx a.op := by
  obtain ⟨gR, hR⟩ := h.run
  have hyb : y ≠ botEID := fun heq => hyS (heq ▸ hS.bot_mem)
  obtain ⟨t, i, o, hst⟩ := hR.table.step y (hR.closed.mem y hy) hyb
  have hword := ((Trace.same_of_mk_eq isDependent_symm h.trace).1 _).1
    (mem_wordOf.2 ⟨y, hy, hyb, hst.infoOf⟩)
  rcases List.mem_append.1 hword with hword | hword
  · obtain ⟨x, hx, -, hxi⟩ := mem_wordOf.1 hword
    have heq := hR.exec.eq_of_infoOf hR.table.toLockEvents hy (h.subset hS hnd hv x hx) hst.mem hyb
      (hxi.trans hst.infoOf.symm)
    exact absurd (heq ▸ hx) hyS
  · obtain ⟨a, ha, hinfo⟩ := List.mem_map.1 hword
    refine ⟨a, ha, isStep_of_infoOf (hst.infoOf.trans (congrArg some hinfo.symm)) ?_⟩
    exact ((hv.mem_iff hS.exec.pcs_length).1 ha).2.2

omit hnd in
theorem exists_event (ha : a ∈ v) : ∃ y ∈ R, y ∉ S ∧ IsStep P T y a.tid a.idx a.op := by
  obtain ⟨gR, hR⟩ := h.run
  obtain ⟨y, hy, hyb, hyi⟩ := mem_wordOf.1 (((Trace.same_of_mk_eq isDependent_symm h.trace).1 _).2
    (List.mem_append_right _ (List.mem_map_of_mem ha)))
  refine ⟨y, hy, fun hyS => ?_, isStep_of_infoOf hyi
    ((hv.mem_iff hS.exec.pcs_length).1 ha).2.2⟩
  exact (List.nodup_append.1 (hS.word_nodup hv)).2.2 _ (mem_wordOf.2 ⟨y, hyS, hyb, hyi⟩) _
    (List.mem_map_of_mem ha) rfl

omit hnd h hv in
/-- The first of the steps. -/
theorem part (h : Above P T n S (u ++ w) R) (hv : Interleaves g (u ++ w) g') : ∃ R',
    Above P T n S u R' ∧ (∀ x ∈ R', x ∈ R) ∧
      ∀ a ∈ u, ∀ y ∈ R, IsStep P T y a.tid a.idx a.op → y ∈ R' := by
  obtain ⟨gR, hR⟩ := h.run
  have hnd' := hS.word_nodup hv
  have htr := h.trace
  rw [List.map_append, ← List.append_assoc] at hnd' htr
  obtain ⟨R', gR', hR', hmem, htr'⟩ := hR.exists_part htr hnd'
  refine ⟨R', ⟨⟨gR', hR'⟩, htr'⟩, fun x hx => ((hmem x).1 hx).1, fun a ha y hy hst => ?_⟩
  exact (hmem y).2 ⟨hy, .inr ⟨_, List.mem_append_right _ (List.mem_map_of_mem ha), hst.infoOf⟩⟩

/-- An event that could be added before steps that it is independent of can be added after them. -/
theorem canExtend (hx : CanExtend T S x) (hxR : x ∉ R) (hst : IsStep P T x t i o)
    (hno : ∀ a ∈ v, a.tid ≠ t ∧ a.mutex ≠ o.mutex) : CanExtend T R x := by
  obtain ⟨gR, hR⟩ := h.run
  refine hR.canExtend_of_dep hx.mem hxR (fun p hp => h.subset hS hnd hv p (hx.pred p hp)) fun y hy hd => ?_
  by_cases hyS : y ∈ S
  · exact hx.dep y hyS hd
  · obtain ⟨a, ha, hsy⟩ := h.exists_step hS hnd hv hy hyS
    exact (((hsy.dep_iff hst).1 hd).elim (hno a ha).1 (hno a ha).2).elim

/-- **An event that `S` can be extended with is in conflict with the first event on its mutex, if that is
another thread's.** -/
theorem exists_conflict (hp : PastOk P T) (hx : CanExtend T S x) (hst : IsStep P T x t i o)
    (hnext : g.next t = some o) (hfirst : firstOn o.mutex v = some a) (htid : a.tid ≠ t) :
    ∃ y ∈ R, y ∉ S ∧ x ∈ T.icnfOf y := by
  obtain ⟨ham, k, rest, rfl, hk⟩ := firstOn_eq_some.1 hfirst
  have hlen := hS.exec.pcs_length
  have hclosed := hS.closed
  obtain ⟨y, hy, hyS, hsy⟩ := h.exists_event hS hv (a := a) (by simp)
  -- the stack up to the event of the first step on the mutex
  have hsplit : k ++ a :: rest = (k ++ [a]) ++ rest := by simp
  rw [hsplit] at h hv
  obtain ⟨gk, hvk, -⟩ := Interleaves.of_append hv
  obtain ⟨gk', hvk', -⟩ := Interleaves.of_append hvk
  have hboth := hvk'.independent_of_no_mutex hlen (LockState.op_of_next hnext) hk
  obtain ⟨R', h', hsub, hmem⟩ := h.part hS hv
  have hyR' : y ∈ R' := hmem a (by simp) y hy hsy
  obtain ⟨gR', hR'⟩ := h'.run
  have hindep : ∀ z ∈ R', z ∉ S → z ≠ y → ¬ Dep T z x := by
    intro z hz hzS hzy hd
    obtain ⟨b, hb, hsz⟩ := h'.exists_step hS hnd hvk hz hzS
    rcases List.mem_append.1 hb with hb | hb
    · exact ((hsz.dep_iff hst).1 hd).elim (hboth b hb).1 (hboth b hb).2
    · obtain rfl := List.mem_singleton.1 hb
      exact hzy (hR'.exec.eq_of_step hR'.table.toLockEvents hz hyR' hsz hsy)
  have hyx : y ≠ x := by
    rintro rfl
    exact htid (hsy.unique hst).1
  refine ⟨y, hy, hyS, hR'.conflict_of_first hp (h'.subset hS hnd hvk) hclosed hx (fun hxR => ?_) hyR' hyS
    ((hsy.dep_iff hst).2 (.inr ham)) fun z hz hzS hlt => ?_⟩
  · exact hindep x hxR hx.notMem hyx.symm ((hst.dep_iff hst).2 (.inl rfl))
  · refine hindep z hz hzS fun heq => ?_
    exact hR'.wf.linked.causal.lt_irrefl (heq ▸ hlt)

end Above

end Steps

/-- The first of the steps above a stack is an event that the stack can be extended with. -/
theorem Above.exists_first {v : List LockStep} (hR : Above P T n S (a :: v) R) (h : LockPrefix P T n)
    (hS : StackRun P T n S g) (hw : Interleaves g (a :: v) g') :
    ∃ x ∈ R, CanExtend T S x ∧ IsStep P T x a.tid a.idx a.op := by
  obtain ⟨x, hx, hxS, hsx⟩ := hR.exists_event hS hw List.mem_cons_self
  obtain ⟨R₁, hR₁, hsub, hmem⟩ := Above.part (u := [a]) hS hR hw
  obtain ⟨g₁, hrun⟩ := hR₁.run
  have hxR := hmem a List.mem_cons_self x hx hsx
  obtain ⟨g₂, hwa, -⟩ := Interleaves.of_append (u := [a]) hw
  have hSR := hR₁.subset hS h.unique hwa
  have hdep : ∀ y ∈ S, Dep T y x → Lt T y x := by
    intro y hy hd
    rcases hrun.ordered (hSR y hy) hxR hd with (rfl | hlt) | hlt
    · exact absurd hy hxS
    · exact hlt
    · exact absurd (hS.closed.of_lt hy hlt) hxS
  refine ⟨x, hx, hS.canExtend_of_dep hsx.mem hxS (fun p hp => ?_) hdep, hsx⟩
  by_contra hpS
  obtain ⟨b, hb, hsp⟩ := hR₁.exists_step hS h.unique hwa (hrun.closed.pred x hxR p hp) hpS
  obtain rfl := List.mem_singleton.1 hb
  have heq := hrun.exec.eq_of_step h.events (hrun.closed.pred x hxR p hp) hxR hsp hsx
  exact h.causal.lt_irrefl (heq ▸ lt_of_mem_pred hp)

end Poet
