import Poet.Locks.Exchange

/-!
# Calls that find all interleavings

`TargetOk` has what a call needs in order to find every interleaving from its state: the locks that could
have come before a critical section of the stack are in the prefix, the alternatives have their shape, the
branches of the disabled events were explored, and each thread that can go on has an enabled event. It holds
of the call with the chosen event (`Adds.target_left`).
-/

namespace Poet

open scoped List

variable {P : LockProgram} {T T' : Events LockAct} {C D R S S' : EventsID} {g : LockState P}
  {s s' s₁ s₂ s₃ s₄ sk : UnfolderState (LockState P) LockAct} {c nc : Configuration (LockState P)}
  {d : EventsID} {alt v : Alternative} {e ê x y z : EventID} {w : List LockStep} {n n' t i m : Nat}
  {o : LockOp} {stl : Bool}

/-! ## In another prefix -/

section Stable

variable (hs : Stable n T T') (hwf' : WF T' n') (hT' : LockTable P T')

include hs hwf'

theorem Avoids.stable_iff (hS : ∀ y ∈ S, y < n ∧ y ∈ T') (hD : ∀ x ∈ D, x < n ∧ x ∈ T') :
    Avoids P T' S D w ↔ Avoids P T S D w := by
  have hext : ∀ {x}, x ∈ D → (CanExtend T' S x ↔ CanExtend T S x) := fun hx =>
    hs.canExtend_iff hwf'.linked (hD _ hx).1 (hD _ hx).2 hS
  have hstep : ∀ {x t i o}, x ∈ D → (IsStep P T' x t i o ↔ IsStep P T x t i o) := fun hx =>
    hs.isStep_iff (hD _ hx).1 (hD _ hx).2
  constructor
  · intro h x hx hxS t i o hst
    exact h x hx ((hext hx).2 hxS) t i o ((hstep hx).2 hst)
  · intro h x hx hxS t i o hst
    exact h x hx ((hext hx).1 hxS) t i o ((hstep hx).1 hst)

include hT'

theorem Above.of_stable (h : Above P T n S w R) (hS : ∀ x ∈ S, x < n ∧ x ∈ T') (hR : ∀ x ∈ R, x ∈ T') :
    Above P T' n' S w R := by
  obtain ⟨g, hrun⟩ := h.run
  refine ⟨⟨g, hrun.of_stable hs hwf' hT' hR⟩, ?_⟩
  rw [wordOf_of_stable hs hS, wordOf_of_stable hs fun x hx =>
    ⟨hrun.wf.lt_cntr (hrun.closed.mem x hx), hR x hx⟩]
  exact h.trace

/-- What was explored stays so while its alternatives are kept. -/
theorem DoneAt.of_stable (h : DoneAt P T n S z D) (hmem : ∀ x ∈ S, x ∈ T') (hz : z < n ∧ z ∈ T')
    (hD : ∀ x ∈ D, x < n ∧ x ∈ T') (halte : ∀ v ∈ T.alteOf z, v ∈ T'.alteOf z) (hS : S <:+ S') :
    DoneAt P T' n' S' z D := by
  obtain ⟨C, g, hCS, hC, hzC, hfound⟩ := h
  have hold : ∀ x ∈ C, x < n ∧ x ∈ T' := fun x hx =>
    ⟨hC.wf.lt_cntr (hC.closed.mem x hx), hmem x (hCS.subset hx)⟩
  have hzc : ∀ x ∈ z :: C, x < n ∧ x ∈ T' := List.forall_mem_cons.2 ⟨hz, hold⟩
  refine ⟨C, g, hCS.trans hS, hC.of_stable hs hwf' hT' fun x hx => (hold x hx).2,
    (hs.canExtend_iff hwf'.linked hz.1 hz.2 hold).2 hzC, ?_⟩
  intro t i m hsz hnone w b g' hw hindep hop htid havoid
  obtain ⟨v, hv, R, hRv, hR⟩ := hfound t i m ((hs.isStep_iff hz.1 hz.2).1 hsz)
    (fun x hx hxC t' j hst => hnone x hx ((hs.canExtend_iff hwf'.linked (hD x hx).1 (hD x hx).2 hold).2 hxC)
      t' j ((hs.isStep_iff (hD x hx).1 (hD x hx).2).2 hst))
    w b g' hw hindep hop htid ((Avoids.stable_iff hs hwf' hzc hD).1 havoid)
  have hv' := halte v hv
  exact ⟨v, hv', R, hRv, hR.of_stable hs hwf' hT' hold fun x hx =>
    (hT'.alte z v hv').closed.mem x (hRv x hx)⟩

/-- Alternatives have their shape where there are no new ones. -/
theorem ShapeOk.of_stable (h : ShapeOk P T) (hwf : WF T n) (hT : LockTable P T)
    (halte : ∀ x, ∀ v ∈ T'.alteOf x, v ∈ T.alteOf x) : ShapeOk P T' := by
  intro x v hv
  have hvT := halte x v hv
  obtain ⟨m, z, hz⟩ := h x v hvT
  exact ⟨m, z, hz.of_stable hs hwf.linked hwf'.linked ⟨hwf.lt_cntr
    (Events.mem_of_mem_alteOf hvT), Events.mem_of_mem_alteOf hv⟩ fun w hw =>
    ⟨hwf.lt_cntr ((hT.alte x v hvT).closed.mem w hw), (hT'.alte x v hv).closed.mem w hw⟩⟩

end Stable

/-! ## Calls -/

/-- What holds of a call that finds the interleavings from its state. -/
structure TargetOk (stl : Bool) (s : UnfolderState (LockState P) LockAct)
    (c : Configuration (LockState P)) (d : EventsID) (alt : Alternative) : Prop extends
    SearchOk stl s c d alt where
  discovered : Discovered P s.evts s.stak
  shape : ShapeOk P s.evts
  done : AllDone P s.evts s.cntr s.stak d
  followed : alt = [] ∨ ∃ x ∈ d, ∃ v ∈ s.evts.alteOf x, ∀ y, y ∈ alt ↔ y ∈ v ∧ y ∉ s.stak
  found : ∀ t o, c.state.next t = some o → ∃ x ∈ c.enevs, IsStep P s.evts x t (c.state.pc t) o
  marked : c.enevs = [] → ∀ x ∈ s.stak, s.evts.icnfOf x ≠ [] → x ∈ c.cfevs

namespace SearchOk

variable (h : SearchOk stl s c d alt)

include h

theorem lockPrefix : LockPrefix P s.evts s.cntr :=
  ⟨h.node.wf, h.node.lock, h.past, h.node.table.unique P.restricted⟩

theorem stackRun : StackRun P s.evts s.cntr s.stak c.state :=
  ⟨h.node.wf, h.node.lock, h.node.stack.closed, h.exec⟩

end SearchOk

/-- At a maximal configuration no thread can go on. -/
theorem TargetOk.stuck (h : TargetOk stl s c d alt) (hen : c.enevs = []) : c.state.Stuck := by
  intro t
  by_contra hne
  obtain ⟨o, hnext⟩ := Option.ne_none_iff_exists'.1 hne
  obtain ⟨x, hx, -⟩ := h.found t o hnext
  rw [hen] at hx
  cases hx

namespace Adds

variable (h : Adds stl n s c ê d alt e nc s₁)

include h

theorem stak_eq : s₁.stak = s.stak := h.quiet.stak

theorem step : ∃ t o, IsStep P s.evts e t (c.state.pc t) o ∧ c.state.next t = some o ∧
    nc.state = c.state.step t := h.unfolded.step

theorem stable : Stable s.cntr s.evts s₁.evts := h.unfolded.stable

theorem old (hx : x ∈ s.evts) : x < s.cntr ∧ x ∈ s₁.evts :=
  ⟨h.search.node.wf.lt_cntr hx, h.unfolded.grows.keeps x hx⟩

theorem stak_old (hp : Searched stl d (e :: d) s (s₂.withStack s₁.stak)) :
    ∀ x ∈ s.stak, x < s.cntr ∧ x ∈ s₂.evts := fun x hx =>
  ⟨h.search.node.stak_lt hx, hp.evolves.kept x hx⟩

/-- A thread that is independent of `e` could go on before. -/
theorem next_before (hse : IsStep P s.evts e t (c.state.pc t) o) {t' : Nat} {o' : LockOp}
    (hnext : nc.state.next t' = some o') (htid : t' ≠ t) (hm : o'.mutex ≠ o.mutex) :
    c.state.next t' = some o' ∧ nc.state.pc t' = c.state.pc t' := by
  obtain ⟨t₁, o₁, hse₁, hnext₁, hstate⟩ := h.step
  obtain ⟨rfl, -, rfl⟩ := hse.unique hse₁
  have hlt : t < c.state.pcs.length := h.search.exec.pcs_length ▸ LockProgram.lt_length_of_op hse.op
  have hsame := (LockState.SameBut.of_step hlt hse.op).symm
  rw [hstate] at hnext ⊢
  exact ⟨hsame.next_eq htid hnext hm, (hsame.pc t' htid).symm⟩

/-- Each thread that can go on has an enabled event. -/
theorem found (hw : P.WellLocked) (hnn : P.NonNested)
    (hfound : ∀ t o, c.state.next t = some o → ∃ x ∈ c.enevs, IsStep P s.evts x t (c.state.pc t) o)
    {t' : Nat} {o' : LockOp} (hnext : nc.state.next t' = some o') :
    ∃ x ∈ nc.enevs, IsStep P s₁.evts x t' (nc.state.pc t') o' := by
  have hs := h.search
  have hg := (hs.node.called c ê alt).toLockGood
  have hc := (hs.call.called ê).toEnabledOk
  obtain ⟨t, o, hse, -, hstate⟩ := h.step
  have hu := h.unfolded
  have heT := h.mem
  by_cases hd : t = t' ∨ o.mutex = o'.mutex
  · -- the thread was extended from `e`
    obtain ⟨h0, T₀, n₀, hwf₀, hst₀, hkeeps, hmax, hh, hfnd⟩ :=
      hu.found hg hc h.mem_enevs heT hs.exec hs.past hw hnn hse hnext hd
    have hclosed : DownClosed s₁.evts (· ∈ s.stak) := hu.grows.older.downClosed hs.node.stack.closed
      (fun _ => hs.node.stak_lt) fun x hx => hu.grows.keeps x (hs.node.stak_mem hx)
    have hem : e ∈ nc.maevs := hu.frontier.last_mem hu.good.linked.causal h.canExtend.notMem hclosed
    have hse₁ := h.stable.isStep (h.old heT).1 (h.old heT).2 hse
    have hh₁ := hh.of_older hst₀.toOlder hwf₀ hu.good.linked hkeeps
      (fun y hy => hst₀.acts (hwf₀.lt_cntr hy) (hkeeps y hy)) hmax
    have heh : e ∈ h0 := by
      refine hh₁.mem_iff.2 ⟨under_of_mem hem, hse₁.dependsOn_iff.2 (hd.imp Eq.symm Eq.symm), fun y hy _ => ?_⟩
      exact ((hu.frontier.maximal e).1 hem).2 y ((hu.frontier.under_iff hu.good.linked).1 hy)
    obtain ⟨⟨x, hx, hxe⟩, -⟩ := hfnd heh
    exact ⟨x, hx, hu.table.isStep hxe.mem hxe.name (LockState.op_of_next hnext)⟩
  · obtain ⟨htid, hm⟩ := not_or.1 hd
    obtain ⟨hnext', hpc⟩ := h.next_before hse hnext (Ne.symm htid) (Ne.symm hm)
    obtain ⟨x, hx, hsx⟩ := hfound t' o' hnext'
    have hxe : x ≠ e := fun heq => htid (hse.unique (heq ▸ hsx)).1
    refine ⟨x, hu.kept x hx hxe hsx.mem fun hdep => hd ((hse.dep_iff hsx).1 hdep), ?_⟩
    rw [hpc]
    exact h.stable.isStep (h.old hsx.mem).1 (h.old hsx.mem).2 hsx

/-- **The call with `e`.** -/
theorem target_left (hw : P.WellLocked) (hnn : P.NonNested) (ht : TargetOk stl s c d alt) :
    TargetOk stl (s₁.withStack (e :: s₁.stak)) nc d (alt.erase e) := by
  have hs := h.search
  have hu := h.unfolded
  have hleft := h.left hw hnn
  have hg := (hs.node.called c ê alt).toLockGood
  have hc := (hs.call.called ê).toEnabledOk
  refine ⟨hleft, ?_, ?_, fun l z D hd => ?_, ?_, fun t' o' hnext => h.found hw hnn ht.found hnext,
    fun _ x hx hi => ?_⟩
  · change Discovered P s₁.evts (e :: s₁.stak)
    rw [h.stak_eq]
    exact hu.discovered ht.discovered hs.lockPrefix hg hc h.mem_enevs h.mem hs.exec hleft.lockPrefix hw hnn
  · exact ht.shape.of_stable h.stable hu.good.wf hu.table hs.node.wf hs.node.lock fun x v hv =>
      hu.altes x ▸ hv
  · have hz : ∀ x ∈ z :: D, x ∈ s.evts := fun x hx =>
      (hs.node.disabled x (hd ▸ List.mem_append_right l hx)).1
    refine (ht.done l z D hd).of_stable h.stable hu.good.wf hu.table
      (fun x hx => (h.old (hs.node.stak_mem hx)).2) (h.old (hz z List.mem_cons_self))
      (fun x hx => h.old (hz x (List.mem_cons_of_mem z hx))) (fun v hv => (hu.altes z).symm ▸ hv) ?_
    change s.stak <:+ e :: s₁.stak
    rw [h.stak_eq]
    exact List.suffix_cons e s.stak
  · rcases ht.followed with rfl | ⟨x, hx, v, hv, hmem⟩
    · exact .inl rfl
    · refine .inr ⟨x, hx, v, (hu.altes x).symm ▸ hv, fun y => ?_⟩
      change y ∈ alt.erase e ↔ y ∈ v ∧ y ∉ e :: s₁.stak
      rw [h.stak_eq, hs.call.nodup.mem_erase_iff, hmem, List.mem_cons, not_or]
      tauto
  · change x ∈ e :: s₁.stak at hx
    rw [h.stak_eq] at hx
    exact (hu.cfevs x).2 ⟨hx, hi⟩

end Adds

end Poet
