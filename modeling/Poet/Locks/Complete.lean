import Poet.Locks.Leaves

/-!
# Completeness

A call finds every interleaving that avoids its disabled events (`Explored.completed`). Where the chosen
event `e` is what its mutex is used by first, the interleaving is found in the branch of `e`
(`Adds.exists_leaf_left`); else it avoids `e` as well, and since the branch of `e` is done, there is an
alternative for it (`Adds.alt2_ne_none`). In stateless mode the call without `e` may find events deleted; it
still has an enabled event for each thread that can go on (`Adds.found_right`).
-/

namespace Poet

open scoped List

variable {P : LockProgram} {T : Events LockAct} {s s' s₁ s₂ s₃ s₄ sk : UnfolderState (LockState P) LockAct}
  {c nc : Configuration (LockState P)} {d D S R : EventsID} {alt v : Alternative} {e ê u x y z : EventID}
  {w : List LockStep} {a b : LockStep} {n fuel t i m : Nat} {o : LockOp} {stl : Bool} {g g' : LockState P}

/-! ## The events of an alternative can be added -/

section Follow

variable (h : LockPrefix P T n) (hwl : P.WellLocked) (hnn : P.NonNested) (hS : StackRun P T n S g)
  (hv : AltOk T v) (hp : Passes T S D v)

include h hwl hnn hS hv hp

/-- The stack with the events of the alternative below `k`. -/
theorem exists_stack_below (k : Nat) : ∃ R g', S <:+ R ∧ StackRun P T n R g' ∧
    ∀ x : Nat, x ∈ R ↔ x ∈ S ∨ (x ∈ v ∧ x < k) := by
  induction k with
  | zero => exact ⟨S, g, List.suffix_refl S, hS, by simp⟩
  | succ k ih =>
    obtain ⟨R, g', hSR, hR, hmem⟩ := ih
    have hsame : ∀ x : Nat, x ≠ k → (x ∈ S ∨ (x ∈ v ∧ x < k + 1) ↔ x ∈ S ∨ (x ∈ v ∧ x < k)) := by
      intro x hx
      rw [Nat.lt_succ_iff_lt_or_eq]
      simp [hx]
    by_cases hk : k ∈ v ∧ k ∉ S
    · have hkR : k ∉ R := fun hm => ((hmem k).1 hm).elim hk.2 fun h => Nat.lt_irrefl k h.2
      have hkT : k ∈ T := hv.closed.mem k hk.1
      have hext : CanExtend T R k := by
        by_contra hno
        obtain ⟨y, hy, hi⟩ := hR.exists_conflict_of_not_canExtend h.past hkT hkR
          (fun p hpp => (hmem p).2 (.inr ⟨hv.closed.pred k hk.1 p hpp, h.wf.linked.pred_lt hpp⟩)) hno
        have hi' := (h.wf.linked.icnf_symm List.not_mem_nil hi).1
        rcases (hmem y).1 hy with hyS | ⟨hyv, -⟩
        · exact hp.cf k hk.1 y hi' hyS
        · exact hv.cf k hk.1 y hyv hi'
      obtain ⟨t, i, o, hst⟩ := h.table.step k hkT fun heq => hkR (heq ▸ hR.bot_mem)
      refine ⟨k :: R, _, hSR.trans (List.suffix_cons k R), hext.push h hwl hnn hR hst, fun x => ?_⟩
      by_cases hxk : x = k
      · subst hxk
        simp [hk.1]
      · rw [List.mem_cons, hmem, hsame x hxk]
        simp [hxk]
    · refine ⟨R, g', hSR, hR, fun x => ?_⟩
      by_cases hxk : x = k
      · subst hxk
        rw [hmem]
        simp only [Nat.lt_irrefl, and_false, or_false, Nat.lt_succ_self, and_true]
        tauto
      · rw [hmem, hsame x hxk]

/-- The steps of the alternative avoid the disabled events. -/
theorem exists_avoids : ∃ w g', Interleaves g w g' ∧ Avoids P T S D w := by
  obtain ⟨R, g', hSR, hR, hmem⟩ := exists_stack_below h hwl hnn hS hv hp n
  obtain ⟨g₁, w, hs⟩ := hR.suffix hSR (List.ne_nil_of_mem hS.bot_mem)
  obtain rfl := hs.low.exec.unique hS.exec h.events
  refine ⟨w, g', hs.steps, fun x hxD hx t i o hst => ?_⟩
  obtain ⟨y, hyv, hi⟩ := hp.just x hxD
  obtain ⟨hi', -⟩ := h.wf.linked.icnf_symm List.not_mem_nil hi
  have hyR := (hmem y).2 (.inr ⟨hyv, h.wf.lt_cntr (hv.closed.mem y hyv)⟩)
  have hyS : y ∉ S := fun hyS => hx.noConflict h.table h.wf.bot hyS hi'
  obtain ⟨a, ha, hsy⟩ := hs.step y hyR hyS
  obtain ⟨hipc, hnext⟩ := hx.next h hwl hnn hS hst
  obtain ⟨c, hc⟩ : ∃ c, firstOn o.mutex w = some c := by
    by_contra hno
    have hno : ∀ a ∈ w, a.mutex ≠ o.mutex := fun a ha ham => hno (ham ▸ exists_firstOn_of_mem ha)
    have hboth := hs.steps.independent_of_no_mutex hS.exec.pcs_length (LockState.op_of_next hnext) hno
    exact ((hsy.dep_iff hst).1 (h.table.icnf y x hi).1).elim (hboth a ha).1 (hboth a ha).2
  exact ⟨c, hc, hs.first_tid h hx (fun hxR => hR.conflictFree hyR hxR hi) hst hnext hipc hc⟩

end Follow

/-! ## The call without the chosen event -/

/-- What the search for an alternative returns. -/
theorem NodeOk.alt2_ok (h : NodeOk P s D) (S : EventsID) : ∃ r, alt2 S s.evts D D = .ok r ∧
    (∀ v, r = some v → ∃ x ∈ D, v ∈ s.evts.alteOf x ∧ Passes s.evts S D v) ∧
    (r = none → ∀ x ∈ D, ∀ v ∈ s.evts.alteOf x, ¬ Passes s.evts S D v) :=
  Poet.alt2_ok fun x hx => ⟨(h.disabled x hx).1, fun v hv => (h.lock.alte x v hv).closed.mem⟩

theorem Searched.disabled_over (hp : Searched stl d D s s') :
    ∀ y ∈ D, y ∈ s'.evts ∧ y ∉ s.stak ∧ ∀ p ∈ s'.evts.predOf y, p ∈ s.stak := by
  intro y hy
  obtain ⟨hyT, hyS, hpred⟩ := hp.node.disabled y hy
  exact ⟨hyT, hp.evolves.stak ▸ hyS, hp.evolves.stak ▸ hpred⟩

namespace Adds

variable (h : Adds stl n s c ê d alt e nc s₁)

include h

theorem eq_of_chooses {e' : EventID} (he' : Chooses c ê alt s e') : e = e' :=
  Except.ok.inj (h.chooses.chosen.symm.trans he'.chosen)

/-- The call itself is not at a maximal configuration. -/
theorem maximalCalls_eq : maximalCalls (s₁.withStack (e :: s₁.stak)).calls = maximalCalls s.calls := by
  have hcalls : (s₁.withStack (e :: s₁.stak)).calls = (s.called c ê d alt).calls := h.quiet.calls
  rw [hcalls, UnfolderState.called, maximalCalls, List.filter_cons_of_neg, maximalCalls]
  simpa using h.chooses.enevs

theorem popped_stackRun (hp : Searched stl d (e :: d) s (s₂.withStack s₁.stak)) :
    StackRun P s₂.evts s₂.cntr s.stak c.state :=
  h.search.stackRun.of_stable hp.evolves.stable hp.node.wf hp.node.lock hp.evolves.kept

theorem canExtend_popped (hp : Searched stl d (e :: d) s (s₂.withStack s₁.stak)) :
    CanExtend s₂.evts s.stak e :=
  (hp.evolves.stable.canExtend_iff hp.node.linked (h.old h.mem).1
    (hp.node.disabled e List.mem_cons_self).1 fun x => h.stak_old hp x).2 h.canExtend

/-- The event that is enabled for a step is still there if some event that was there stands for the step
over the stack. -/
theorem mem_of_step_over (hp : Searched stl d (e :: d) s (s₂.withStack s₁.stak)) (hx : x ∈ c.enevs)
    (hsx : IsStep P s.evts x t i o) (hy : y ∈ s.evts) (hyS : CanExtend s₂.evts s.stak y)
    (hsy : IsStep P s₂.evts y t i o) : x ∈ s₂.evts := by
  have hs := h.search
  have hst : Stable s.cntr s.evts s₂.evts := hp.evolves.stable
  have hyn := hs.node.wf.lt_cntr hy
  have hyS' := (hst.canExtend_iff hp.node.linked hyn hyS.mem (h.stak_old hp)).1 hyS
  have hsy' := (hst.isStep_iff hyn hyS.mem).1 hsy
  exact (hs.call.canExtend hx hsx.mem).eq_of_step hyS' hs.lockPrefix hsx hsy' ▸ hyS.mem

section Right

variable (hw : P.WellLocked) (hnn : P.NonNested) (hr : P.ReleasesShared) (ht : TargetOk stl s c d alt)

include hw hnn hr ht

/-- **Each thread that can go on still has an enabled event**, also where events were deleted: there is an
alternative in which the thread goes first. -/
theorem found_right (hp : Searched stl d (e :: d) s (s₂.withStack s₁.stak))
    (hpre : LockPrefix P s₂.evts s₂.cntr)
    (hdone : AllDone P s₂.evts s₂.cntr s.stak (e :: d))
    (hv : AltOk s₂.evts v) (hpass : Passes s₂.evts s.stak (e :: d) v)
    (hnext : c.state.next t = some o) : ∃ x ∈ c.enevs, IsStep P s₂.evts x t (c.state.pc t) o := by
  have hs := h.search
  have hst : Stable s.cntr s.evts s₂.evts := hp.evolves.stable
  have hrun := h.popped_stackRun hp
  obtain ⟨x, hx, hsx⟩ := ht.found t o hnext
  refine ⟨x, hx, hst.isStep (hs.node.wf.lt_cntr hsx.mem) ?_ hsx⟩
  by_contra hxT
  obtain ⟨w, g', hW, havoid⟩ := exists_avoids hpre hw hnn hrun hv hpass
  obtain ⟨w', h', hW', hfirst⟩ := hW.exists_front hs.exec.pcs_length hs.exec.exclusive hw hnn hr hnext
  have hold : ∀ y ∈ e :: d, y ∈ s.evts :=
    List.forall_mem_cons.2 ⟨h.mem, fun y hy => (hs.node.disabled y hy).1⟩
  have havoid' : Avoids P s₂.evts s.stak (e :: d) (⟨t, c.state.pc t, o⟩ :: w') := by
    intro y hy hyS t' i' o' hsy
    by_cases hm : o'.mutex = o.mutex
    · refine ⟨⟨t, c.state.pc t, o⟩, firstOn_eq_some.2 ⟨hm.symm, [], w', rfl, by simp⟩, fun htid => ?_⟩
      obtain rfl : t = t' := htid
      obtain ⟨rfl, hnext'⟩ := hyS.next hpre hw hnn hrun hsy
      obtain rfl := Option.some_inj.1 (hnext.symm.trans hnext')
      exact hxT (h.mem_of_step_over hp hx hsx (hold y hy) hyS hsy)
    · obtain ⟨a, ha, htid⟩ := havoid y hy hyS t' i' o' hsy
      refine ⟨a, ?_, htid⟩
      exact (firstOn_append_cons_of_ne (u := []) (Ne.symm hm)).trans ((hfirst _ hm).trans ha)
  obtain ⟨z, -, v', -, -, k, b, rest, R, hsplit, -, hR⟩ := exists_passes hpre hw hnn hrun hW' havoid'
    hp.disabled_over hdone ⟨e, List.mem_cons_self, h.canExtend_popped hp⟩
  -- the step of the thread is the first one of the alternative
  obtain ⟨r, hr'⟩ : ∃ r, k ++ [b] = ⟨t, c.state.pc t, o⟩ :: r := by
    cases k with
    | nil => exact ⟨[], by rw [List.nil_append, ← (List.cons.inj hsplit).1]⟩
    | cons a k => exact ⟨k ++ [b], by rw [List.cons_append, (List.cons.inj hsplit).1]⟩
  rw [hsplit, show k ++ b :: rest = (k ++ [b]) ++ rest by simp] at hW'
  obtain ⟨g₁, hWk, -⟩ := Interleaves.of_append hW'
  rw [hr'] at hR hWk
  obtain ⟨y, -, hyS, hsy⟩ := hR.exists_first hpre hrun hWk
  refine hxT (h.mem_of_step_over hp hx hsx ?_ hyS hsy)
  refine (hp.fresh y hyS.mem).resolve_right ?_
  rintro ⟨p, hpp, hps⟩
  exact hps (hyS.pred p hpp)

/-- **The call without `e`.** -/
theorem target_right (hls : Searched stl d d (s₁.withStack (e :: s₁.stak)) s₂)
    (hk : KeepsConflicts (e :: s₁.stak) s₁.evts s₂.evts) (hshape : ShapeOk P s₂.evts)
    (hdone : AllDone P s₂.evts s₂.cntr s.stak (e :: d))
    (halt : alt2 s₁.stak s₂.evts (e :: d) (e :: d) = .ok (some v)) :
    TargetOk stl (s₂.withStack s₁.stak) c (e :: d) (v.diff s.stak) := by
  have hs := h.search
  have hp := h.popped hls
  have hright := h.right hls halt
  have hpre : LockPrefix P s₂.evts s₂.cntr := hright.lockPrefix
  obtain ⟨r, hr₁, hsome, -⟩ := hp.node.alt2_ok s₁.stak
  obtain rfl : r = some v := Except.ok.inj (hr₁.symm.trans halt)
  obtain ⟨x, hx, hxv, hpass⟩ := hsome v rfl
  have hvok := hp.node.lock.alte x v hxv
  rw [h.stak_eq] at hpass
  refine ⟨hright, ?_, hshape, fun l z D hd => h.stak_eq.symm ▸ hdone l z D hd,
    .inr ⟨x, hx, v, hxv, fun y => ?_⟩, fun t o hnext => ?_, fun hen => absurd hen h.chooses.enevs⟩
  · change Discovered P s₂.evts s₁.stak
    rw [h.stak_eq]
    exact ht.discovered.of_stable hp.evolves.stable hp.node.linked hs.lockPrefix hs.stackRun hp.evolves.kept
      (h.keepsConflicts hk)
  · change y ∈ v.diff s.stak ↔ y ∈ v ∧ y ∉ s₁.stak
    rw [h.stak_eq, hvok.nodup.mem_sdiff_iff]
  · have hfound : ∃ x ∈ c.enevs, IsStep P s₂.evts x t (c.state.pc t) o :=
      h.found_right hw hnn hr ht hp hpre hdone hvok hpass hnext
    exact hfound

/-- The branches of the disabled events are done. -/
theorem done_right (hls : Searched stl d d (s₁.withStack (e :: s₁.stak)) s₂)
    (hfind : FindsAll (s₁.withStack (e :: s₁.stak)) nc e d (alt.erase e) s₂) :
    AllDone P s₂.evts s₂.cntr s.stak (e :: d) := by
  have hs := h.search
  have hp := h.popped hls
  intro l z D hd
  cases l with
  | nil =>
    obtain ⟨rfl, rfl⟩ := List.cons.inj hd
    exact h.doneAt hw hnn ht hr hls hfind
  | cons a l =>
    obtain ⟨-, rfl⟩ := List.cons.inj hd
    have hold : ∀ x ∈ z :: D, x < s.cntr ∧ x ∈ s₂.evts := fun x hx =>
      ⟨hs.node.wf.lt_cntr (hs.node.disabled x (List.mem_append_right l hx)).1,
        hp.evolves.disabled x (List.mem_append_right l hx)⟩
    exact (ht.done l z D rfl).of_stable hp.evolves.stable hp.node.wf hp.node.lock hp.evolves.kept
      (hold z List.mem_cons_self) (fun x hx => hold x (List.mem_cons_of_mem z hx))
      (hp.evolves.altes z (.inr (by simp))) (List.suffix_refl _)

end Right

/-! ## Interleavings of the two branches -/

/-- Where the mutex of `e` is used first by `e`, the interleaving is found in its branch. -/
theorem exists_leaf_left (hfind : FindsAll (s₁.withStack (e :: s₁.stak)) nc e d (alt.erase e) s₂)
    (hse : IsStep P s.evts e t i o) (hW : Interleaves c.state w g') (hstuck : g'.Stuck)
    (havoid : Avoids P s.evts s.stak d w) (hfirst : firstOn o.mutex w = some a) (htid : a.tid = t) :
    ∃ sk, LeafIn d s sk (s₂.withStack s₁.stak) ∧ Above P sk.evts sk.cntr s.stak w sk.stak ∧
      ∀ e', Chooses c ê alt s e' → e' :: s.stak <:+ sk.stak := by
  have hs := h.search
  obtain ⟨t', o', hse', hnext, hstate⟩ := h.step
  obtain ⟨rfl, rfl, rfl⟩ := hse.unique hse'
  have hlen := hs.exec.pcs_length
  obtain ⟨rfl, u, v, rfl, hu, hW'⟩ := hW.move_front hlen hnext hfirst htid
  have hd : ∀ x ∈ d, x < s.cntr ∧ x ∈ s₁.evts := fun x hx => h.old (hs.node.disabled x hx).1
  have hmem : ∀ x ∈ s.stak, x < s.cntr ∧ x ∈ s₁.evts := fun x hx => h.old (hs.node.stak_mem hx)
  have havoid' : Avoids P s₁.evts (e :: s₁.stak) d (u ++ v) := by
    rw [h.stak_eq]
    intro x hx hxe t' i' o' hsx
    obtain ⟨-, hm⟩ := h.independent_of_disabled hse hx hxe hsx
    obtain ⟨-, hxS, hpred⟩ := hs.node.disabled x hx
    have hxS' : CanExtend s.evts s.stak x := by
      refine hs.stackRun.canExtend_of_dep (hs.node.disabled x hx).1 hxS hpred fun y hy hyd => ?_
      refine (h.stable.lt_iff h.unfolded.good.linked (hd x hx).1 (hd x hx).2).1 ?_
      exact hxe.dep y (List.mem_cons_of_mem e hy)
        ((h.stable.dep_iff (hmem y hy).1 (hmem y hy).2 (hd x hx).1 (hd x hx).2).2 hyd)
    obtain ⟨a, ha, hatid⟩ := havoid x hx hxS' t' i' o' ((h.stable.isStep_iff (hd x hx).1 (hd x hx).2).1 hsx)
    exact ⟨a, (firstOn_append_cons_of_ne (Ne.symm hm)).symm.trans ha, hatid⟩
  obtain ⟨sk, hl, habove, -⟩ := hfind (u ++ v) g' (hstate ▸ hW') hstuck havoid'
  replace habove : Above P sk.evts sk.cntr (e :: s.stak) (u ++ v) sk.stak := h.stak_eq ▸ habove
  refine ⟨sk, .of_left h hl, ⟨habove.run, ?_⟩, fun e' he' => h.eq_of_chooses he' ▸ h.stak_eq ▸ hl.stack⟩
  have hek : e < s.cntr ∧ e ∈ sk.evts := ⟨(h.old h.mem).1, hl.present e (.inl List.mem_cons_self)⟩
  have hsek := (LeafIn.of_left h hl).before.isStep hek.1 hek.2 hse
  -- the step of `e` is moved to the front
  rw [habove.trace, wordOf_cons (hl.pre.events.ne_bot hsek) hsek.infoOf, List.append_assoc]
  exact Trace.mk_append rfl (LockStep.trace_move (b := ⟨t, c.state.pc t, o⟩) hu).symm

/-- Else it avoids `e` as well, -/
theorem avoids_right (hp : Searched stl d (e :: d) s (s₂.withStack s₁.stak))
    (hse : IsStep P s.evts e t i o) (havoid : Avoids P s.evts s.stak d w)
    (hfirst : firstOn o.mutex w = some a) (htid : a.tid ≠ t) : Avoids P s₂.evts s.stak (e :: d) w := by
  have hs := h.search
  have hst : Stable s.cntr s.evts s₂.evts := hp.evolves.stable
  have hd : ∀ x ∈ e :: d, x < s.cntr ∧ x ∈ s₂.evts := fun x hx =>
    ⟨hs.node.wf.lt_cntr ((List.forall_mem_cons.2 ⟨h.mem, fun y hy => (hs.node.disabled y hy).1⟩) x hx),
      (hp.node.disabled x hx).1⟩
  refine (Avoids.stable_iff hst hp.node.wf (h.stak_old hp) hd).2 fun x hx hxS t' i' o' hsx => ?_
  rcases List.mem_cons.1 hx with rfl | hx
  · obtain ⟨rfl, -, rfl⟩ := hse.unique hsx
    exact ⟨a, hfirst, htid⟩
  · exact havoid x hx hxS t' i' o' hsx

/-- and there is an alternative for it. -/
theorem alt2_ne_none (hw : P.WellLocked) (hnn : P.NonNested)
    (hp : Searched stl d (e :: d) s (s₂.withStack s₁.stak))
    (hpre : LockPrefix P s₂.evts s₂.cntr)
    (hdone : AllDone P s₂.evts s₂.cntr s.stak (e :: d))
    (hW : Interleaves c.state w g') (havoid : Avoids P s₂.evts s.stak (e :: d) w) :
    alt2 s₁.stak s₂.evts (e :: d) (e :: d) ≠ .ok none := by
  obtain ⟨z, hz, v, hv, hpass, -⟩ := exists_passes hpre hw hnn (h.popped_stackRun hp) hW havoid
    hp.disabled_over hdone ⟨e, List.mem_cons_self, h.canExtend_popped hp⟩
  intro hnone
  obtain ⟨r, hr₁, -, hno⟩ := hp.node.alt2_ok s₁.stak
  obtain rfl : r = none := Except.ok.inj (hr₁.symm.trans hnone)
  exact hno rfl z hz v hv (h.stak_eq.symm ▸ hpass)

end Adds

/-! ## All calls -/

/-- The alternatives that are entered at a maximal configuration have their shape. -/
theorem MaximalDone.shapeOk (hmax : MaximalDone c.cfevs d (s.called c ê d alt) s') (hw : P.WellLocked)
    (hnn : P.NonNested) (h : TargetOk stl s c d alt) (hen : c.enevs = []) : ShapeOk P s'.evts := by
  have hst : Stable s.cntr s.evts s'.evts := hmax.evolves.stable
  obtain ⟨s₁, hadd, hevts, -⟩ := hmax.altes
  have hkeep : ∀ {x}, x ∈ s.evts → x < s.cntr ∧ x ∈ s'.evts := fun hx =>
    ⟨h.node.wf.lt_cntr hx, hevts ▸ hadd.grows.keeps _ hx⟩
  have hshape : ∀ x, ∀ v ∈ s'.evts.alteOf x, AltOk s.evts v → (∃ m z, AltShape P s.evts x v m z) →
      ∃ m z, AltShape P s'.evts x v m z := by
    rintro x v hv hok ⟨m, z, hz⟩
    have hx : x ∈ s.evts := by
      obtain ⟨t, i, hsx⟩ := hz.lock
      exact hsx.mem
    exact ⟨m, z, hz.of_stable hst h.node.linked hmax.node.linked (hkeep hx) fun w hw =>
      hkeep (hok.closed.mem w hw)⟩
  intro x v hv
  rcases hadd.only x v (hevts ▸ hv) with hold | ⟨hxc, hnew⟩
  · exact hshape x v hv (h.node.lock.alte x v hold) (h.shape x v hold)
  · obtain ⟨y, ⟨hi, hpred⟩, halt, hval⟩ := hnew.source
    refine hshape x v hv hnew.toAltOk ?_
    have hover : ConflictOver P s.evts s.cntr s.stak c.state x y :=
      ⟨h.lockPrefix, h.stackRun, hi, h.call.cfevs x hxc, hpred⟩
    obtain ⟨m, hm⟩ := hover.altShape hw hnn hval halt
      fun l hl t i m' hsl hop => by
        -- the thread has gone on, since it could
        obtain ⟨o, ho⟩ := Option.ne_none_iff_exists'.1 hop
        obtain rfl := hnn.unlock_of_lock hw hsl.op ho
        have hpc := (h.exec.lt_pc_iff h.lockPrefix.events).2 ⟨l, hl, _, hsl⟩
        refine h.exec.exists_step h.lockPrefix.events ?_ ho
        refine Nat.lt_of_le_of_ne hpc fun heq => ?_
        have hnext : c.state.next t = some (.unlock m') :=
          LockState.next_eq_some.2 ⟨heq ▸ ho, fun m hm => by cases hm⟩
        rw [h.stuck hen t] at hnext
        cases hnext
    exact ⟨m, y, hm⟩

/-- The call was made at the end of a maximal interleaving. -/
def Call.AtEnd (k : Call (LockState P) LockAct) : Prop :=
  ∃ w g', Interleaves (LockState.init P) w g' ∧ g'.Stuck ∧ k.trace = .mk _ (w.map LockStep.info)

/-- What holds when the call that was made in `s` has returned. -/
structure Completed (s : UnfolderState (LockState P) LockAct) (c : Configuration (LockState P))
    (ê : EventID) (d : EventsID) (alt : Alternative) (s' : UnfolderState (LockState P) LockAct) :
    Prop where
  shape : ShapeOk P s'.evts
  finds : FindsAll s c ê d alt s'
  ends : ∀ k ∈ maximalCalls s'.calls, k ∈ maximalCalls s.calls ∨ k.AtEnd

/-- A stack is an interleaving from the start. -/
theorem Executes.exists_interleaving (h : Executes P T S g) (hT : LockEvents P T) :
    ∃ w, Interleaves (LockState.init P) w g ∧ wordOf T S = w.map LockStep.info := by
  induction h with
  | bot => exact ⟨[], .nil _, rfl⟩
  | @push S g x t o _ hx hnext _ ih =>
    obtain ⟨w, hw, hword⟩ := ih
    refine ⟨w ++ [⟨t, g.pc t, o⟩], hw.append (.cons rfl hnext (.nil _)), ?_⟩
    rw [wordOf_cons (hT.ne_bot hx) hx.infoOf, hword, List.map_append]
    rfl

/-- **A call that returns finds every interleaving that avoids its disabled events**, and no others. -/
theorem Explored.completed (hw : P.WellLocked) (hnn : P.NonNested) (hr : P.ReleasesShared) {b : Bool}
    (h : Explored stl b n s c ê d alt s') : b = true → TargetOk stl s c d alt →
      Completed s c ê d alt s' := by
  induction h with
  | cut | inLeft | inRight => intro hb; cases hb
  | @leaf n s s' c ê d alt h hen hmax =>
    intro _ ht
    refine ⟨hmax.shapeOk hw hnn ht hen, fun w g' hW _ _ => ⟨s, .self ht hen hmax, ?_, fun e he =>
      absurd hen he.enevs⟩, fun k hk => ?_⟩
    · have hnil : w = [] := by
        cases hW with
        | nil => rfl
        | cons _ hnext _ => rw [ht.stuck hen] at hnext; cases hnext
      exact hnil ▸ ⟨⟨_, ht.stackRun⟩, by simp⟩
    · rw [hmax.calls] at hk
      obtain ⟨hk, hken⟩ := List.mem_filter.1 hk
      rcases List.mem_cons.1 hk with rfl | hk
      · obtain ⟨w, hW, hword⟩ := ht.exec.exists_interleaving ht.lockPrefix.events
        exact .inr ⟨w, c.state, hW, ht.stuck hen, congrArg _ hword⟩
      · exact .inl (List.mem_filter.2 ⟨hk, hken⟩)
  | @alone n s s₁ s₂ s' c nc ê e d alt h hleft halt hprune ih =>
    intro _ ht
    obtain ⟨hshape, hfind, hends⟩ := ih rfl (h.target_left hw hnn ht)
    have hls := hleft.searched rfl
    have hp := h.popped hls
    have hpre : LockPrefix P s₂.evts s₂.cntr :=
      ⟨hp.node.wf, hp.node.lock, hp.past, hp.node.table.unique P.restricted⟩
    obtain ⟨t, o, hse, hnext, -⟩ := h.step
    refine ⟨hshape.of_stable hprune.evolves.stable hprune.node.wf hprune.node.lock hp.node.wf hp.node.lock
      hprune.only, fun w g' hW hstuck havoid => ?_, fun k hk => h.maximalCalls_eq ▸ hends k ?_⟩
    · obtain ⟨a, hfirst⟩ := hW.exists_firstOn h.search.exec.pcs_length hstuck hnext
      by_cases htid : a.tid = t
      · obtain ⟨sk, hl, habove, hover⟩ := h.exists_leaf_left hfind hse hW hstuck havoid hfirst htid
        exact ⟨sk, hl.evolves hprune.evolves fun x hx => hp.evolves.stak.symm ▸ hx, habove,
          fun e' he' _ _ _ _ _ _ _ => hover e' he'⟩
      · exact absurd halt (h.alt2_ne_none hw hnn hp hpre (h.done_right hw hnn hr ht hls hfind) hW
          (h.avoids_right hp hse havoid hfirst htid))
    · rwa [hprune.quiet.calls] at hk
  | @both n s s₁ s₂ s₄ s' c nc ê e d alt v h hleft halt hright hprune ihl ihr =>
    intro _ ht
    obtain ⟨hshape, hfind, hends⟩ := ihl rfl (h.target_left hw hnn ht)
    have hls := hleft.searched rfl
    have hrs := hright.searched rfl
    have hp := h.popped hls
    have hk := hleft.keepsConflicts rfl
    have hdone := h.done_right hw hnn hr ht hls hfind
    obtain ⟨hshape₄, hfindr, hendsr⟩ := ihr rfl (h.target_right hw hnn hr ht hls hk hshape hdone halt)
    obtain ⟨t, o, hse, hnext, -⟩ := h.step
    refine ⟨hshape₄.of_stable hprune.evolves.stable hprune.node.wf hprune.node.lock hrs.node.wf hrs.node.lock
      hprune.only, fun w g' hW hstuck havoid => ?_, fun k hk => ?_⟩
    · obtain ⟨a, hfirst⟩ := hW.exists_firstOn h.search.exec.pcs_length hstuck hnext
      have hstak₄ : s₄.stak = s.stak := hrs.evolves.stak.trans hp.evolves.stak
      by_cases htid : a.tid = t
      · obtain ⟨sk, hl, habove, hover⟩ := h.exists_leaf_left hfind hse hW hstuck havoid hfirst htid
        exact ⟨sk, (hl.evolves hrs.evolves fun x hx => hp.evolves.stak.symm ▸ hx).evolves hprune.evolves
          fun x hx => hstak₄.symm ▸ hx, habove, fun e' he' _ _ _ _ _ _ _ => hover e' he'⟩
      · have havoid' := h.avoids_right hp hse havoid hfirst htid
        obtain ⟨sk, hl, habove, -⟩ := hfindr w g' hW hstuck (h.stak_eq.symm ▸ havoid')
        refine ⟨sk, (LeafIn.of_right hp.evolves (h.keepsConflicts hk) h.search.node hl).evolves hprune.evolves
          fun x hx => hstak₄.symm ▸ hx, h.stak_eq ▸ habove, fun e' he' t' i' o' a' hse' hfirst' htid' => ?_⟩
        obtain rfl := h.eq_of_chooses he'
        obtain ⟨rfl, -, rfl⟩ := hse.unique hse'
        obtain rfl := Option.some_inj.1 (hfirst.symm.trans hfirst')
        exact absurd htid' htid
    · rw [hprune.quiet.calls] at hk
      exact (hendsr k hk).elim (fun hk => h.maximalCalls_eq ▸ hends k hk) .inr

end Poet
