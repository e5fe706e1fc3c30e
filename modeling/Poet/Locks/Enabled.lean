import Mathlib.Data.Nat.Find
import Poet.Locks.Past

/-!
# The enabled events are all that can be added

Every event of the prefix that can be added to the stack is among the enabled events of the
configuration (`EnabledComplete`), also when it was entered in another branch and, in stateless mode,
after others were deleted: an event that is entered later has a predecessor outside the stack
(`Fresh`). An event whose predecessors are on the stack and that has no conflict there can be added
(`LockGood.canExtend`), so the first event of an alternative is always enabled
(`CallOk.exists_choice`).
-/

namespace Poet

variable {P : LockProgram} {s s' s₁ s₂ : UnfolderState (LockState P) LockAct}
  {c nc : Configuration (LockState P)} {d : EventsID} {alt : Alternative} {e ê x y : EventID}
  {T : Events LockAct} {conf maxevs : EventsID} {fuel t i n : Nat} {o : LockOp}

/-! ## Events that can be added -/

/-- An event without a conflict on the stack, and with its predecessors there, can be added: else the
first event of the stack that it depends on and is not above would be in conflict with it. -/
theorem LockGood.canExtend (h : LockGood P s) (hp : PastOk P s.evts) (hx : x ∈ s.evts)
    (hxs : x ∉ s.stak) (hpred : ∀ p ∈ s.evts.predOf x, p ∈ s.stak)
    (hcf : ∀ y ∈ s.stak, y ∉ s.evts.icnfOf x) : CanExtend s.evts s.stak x := by
  have hc := h.linked.causal
  have hbelow : ∀ y, Lt s.evts y x → y ∈ s.stak := by
    intro y hlt
    obtain ⟨p, hpx, hle⟩ := lt_iff_pred.1 hlt
    exact h.stack.closed.of_le (hpred p hpx) hle
  have hdep : ∀ y : Nat, y ∈ s.stak → Dep s.evts y x → Lt s.evts y x := by
    intro y
    induction y using Nat.strong_induction_on with
    | _ y ih =>
      intro hy hd
      by_contra hno
      have hyx : y ≠ x := fun heq => hxs (heq ▸ hy)
      refine hcf y hy (hp.conflicts ⟨h.lock.dep_symm h.wf.bot hd, fun hle => ?_, fun hle => ?_,
        fun w hw hwd => ?_, fun w hw hwd => ?_, fun z w hz hw hi => ?_⟩)
      · exact hxs (h.stack.closed.of_le hy hle)
      · exact hle.elim hyx hno
      · rcases h.ordered w (hbelow w hw) y hy hwd with (rfl | hlt) | hlt
        · exact absurd hw hno
        · exact hlt
        · exact absurd (hlt.trans hw) hno
      · exact ih w (h.linked.id_lt hw) (h.stack.closed.of_lt hy hw) hwd
      · have hws := h.stack.closed.of_le hy hw
        rcases hz with rfl | hz
        · exact absurd hi (hcf w hws)
        · exact absurd hi (h.conflictFree (hbelow z hz) hws)
  have hxb : x ≠ botEID := fun heq => hxs (heq ▸ h.stack.bot)
  obtain ⟨t, i, o, hst⟩ := h.lock.step x hx hxb
  refine ⟨⟨hxs, hpred, fun y hy htid => ?_⟩, hx, hdep⟩
  by_cases hyb : y = botEID
  · exact hyb ▸ h.wf.bot_lt hx hxb
  · obtain ⟨t', i', o', hst'⟩ := h.lock.step y (h.stak_mem hy) hyb
    rw [hst'.tidOf, hst.tidOf, Option.some_inj] at htid
    exact hdep y hy ((hst'.dep_iff hst).2 (.inl (Int.ofNat.inj htid)))

theorem IsStep.dependsOn_iff_dep (hT : LockEvents P T) (hb : botEID ∈ T) (hst : IsStep P T x t i o) :
    dependsOn (stepName t i, o.act) T y = true ↔ Dep T y x := by
  obtain ⟨a, hla, hna, haa⟩ := Events.lookup_of_names hst.name hst.acts
  have hxy : dependsOn (stepName t i, o.act) T y = true ↔ Dep T x y := by
    rw [dependsOn, ← hna, ← haa]
    constructor
    · intro h
      cases hl : T.lookup y with
      | none => simp [hl] at h
      | some b =>
        simp only [hl] at h
        exact ⟨a, b, hla, hl, h⟩
    · rintro ⟨a', b, hla', hl, h⟩
      obtain rfl := Option.some_inj.1 (hla.symm.trans hla')
      simpa [hl] using h
  exact hxy.trans ⟨hT.dep_symm hb, hT.dep_symm hb⟩

/-- An event that can be added to a configuration has the largest history there. -/
theorem CanExtend.mem_pred_iff {h0 : History} (hx : CanExtend T conf x) (hT : LockTable P T)
    (hwf : WF T n) (hf : Frontier T conf maxevs) (hst : IsStep P T x t i o)
    (hh : IsHistory (stepName t i, o.act) T maxevs h0) (p : EventID) : p ∈ T.predOf x ↔ p ∈ h0 := by
  have hdep : ∀ {y}, dependsOn (stepName t i, o.act) T y = true ↔ Dep T y x :=
    hst.dependsOn_iff_dep hT.toLockEvents hwf.bot
  -- each of the two lists is below the other
  have hup : ∀ p ∈ T.predOf x, Under T h0 p := fun p hp =>
    hh.cover p ((hf.under_iff hwf.linked).2 (hx.pred p hp)) (hdep.2 (hT.pred x p hp))
  have hdown : ∀ z ∈ h0, ∃ p ∈ T.predOf x, Le T z p := fun z hz =>
    lt_iff_pred.1 (hx.dep z ((hf.under_iff hwf.linked).1 (hh.under z hz)) (hdep.1 (hh.dep z hz)))
  constructor
  · intro hp
    obtain ⟨z, hz, hpz⟩ := hup p hp
    obtain ⟨q, hq, hzq⟩ := hdown z hz
    rcases hpz with rfl | hpz
    · exact hz
    · exact absurd (hpz.trans_le hzq) (hwf.anti x p hp q hq)
  · intro hz
    obtain ⟨q, hq, hzq⟩ := hdown p hz
    obtain ⟨w, hw, hqw⟩ := hup q hq
    rcases hzq with rfl | hzq
    · exact hq
    · exact absurd (hzq.trans_le hqw) (hh.anti p hz w hw)

/-! ## Completeness -/

def EnabledComplete (s : UnfolderState (LockState P) LockAct) (c : Configuration (LockState P)) :
    Prop := ∀ x ∈ s.evts, CanExtend s.evts s.stak x → x ∈ c.enevs

/-- What is new has a predecessor outside the stack. -/
def Fresh (s s' : UnfolderState (LockState P) LockAct) : Prop :=
  ∀ x ∈ s'.evts, x ∈ s.evts ∨ ∃ p ∈ s'.evts.predOf x, p ∉ s.stak

theorem EnabledComplete.of_evolves (h : EnabledComplete s c) (hg : Good P.system s)
    (hev : NodeEvolves d s s') (hg' : Good P.system s') (hf : Fresh s s') : EnabledComplete s' c := by
  intro x hxT hx
  rcases hf x hxT with hxs | ⟨p, hp, hps⟩
  · have hxn := hg.wf.lt_cntr hxs
    have hstak : ∀ y ∈ s.stak, y < s.cntr ∧ y ∈ s'.evts := fun y hy => ⟨hg.stak_lt hy, hev.kept y hy⟩
    refine h x hxs ⟨⟨fun hm => hx.notMem (hev.stak ▸ hm), fun p hp => ?_, fun y hy htid => ?_⟩, hxs,
      fun y hy hd => ?_⟩
    · rw [← hev.stak]
      exact hx.pred p (hev.stable.pred hxn hxT ▸ hp)
    · refine (hev.stable.lt_iff hg'.linked hxn hxT).1 (hx.chain y (hev.stak ▸ hy) ?_)
      rw [hev.stable.tid (hstak y hy).1 (hstak y hy).2, hev.stable.tid hxn hxT, htid]
    · refine (hev.stable.lt_iff hg'.linked hxn hxT).1 (hx.dep y (hev.stak ▸ hy) ?_)
      exact (hev.stable.dep_iff (hstak y hy).1 (hstak y hy).2 hxn hxT).2 hd
  · exact absurd (hev.stak ▸ hx.pred p hp) hps

/-- What additions enter has `e` as a predecessor. -/
theorem AddSteps.mem_pred {nst : LockState P} {T' : Events LockAct}
    (h : AddSteps P.system conf maxevs e nst T T') : ∀ x ∈ T', x ∈ T ∨ e ∈ T'.predOf x := by
  refine h.invariant (I := fun T' => ∀ x ∈ T', x ∈ T ∨ e ∈ T'.predOf x)
    (fun a T₁ n₁ T₂ hs hI x hx => ?_) fun x hx => .inl hx
  rw [hs.added.predOf]
  rcases hs.added.mem_iff.1 hx with rfl | hx
  · rw [if_pos rfl]
    exact .inr hs.mem_h
  · rw [if_neg (Nat.ne_of_lt (hs.old hx).1)]
    exact hI x hx

/-- The event that was added last is maximal. -/
theorem Frontier.last_mem {stak : EventsID} (hf : Frontier T (e :: stak) maxevs) (hc : Causal T)
    (hes : e ∉ stak) (hclosed : DownClosed T (· ∈ stak)) : e ∈ maxevs := by
  refine (hf.maximal e).2 ⟨List.mem_cons_self, fun y hy hlt => ?_⟩
  rcases List.mem_cons.1 hy with rfl | hy
  · exact hc.lt_irrefl hlt
  · exact hes (hclosed.of_lt hy hlt)

section Push

variable (hu : LockUnfolded fuel s c d e nc s₁)

include hu

theorem LockUnfolded.fresh (he : e ∉ s.stak) : Fresh s s₁ := by
  obtain ⟨T₁, hss, hsteps⟩ := hu.steps
  intro x hx
  rcases hsteps.mem_pred x hx with hx | hx
  · exact .inl (hss.links.mem_iff.1 hx)
  · exact .inr ⟨e, hx, he⟩

theorem LockUnfolded.pastOk (hg : LockGood P s) (hp : PastOk P s.evts) (hes : CanExtend s.evts s.stak e)
    (hE : Executes P s.evts s.stak c.state) : PastOk P s₁.evts := by
  obtain ⟨T₁, hss, hsteps⟩ := hu.steps
  obtain ⟨t, o, hst, hnext, hstate⟩ := hu.step
  have hwf₁ : WF T₁ s.cntr := hss.links.wf hg.wf
  have haltes : ∀ x, T₁.alteOf x = s.evts.alteOf x := fun x =>
    (hsteps.sameAltes x).1.symm.trans (hu.altes x)
  have hT₁ : LockTable P T₁ := hg.lock.of_stable (hss.stable s.cntr) hwf₁ fun x v hv =>
    hss.links.altOk (hg.lock.alte x v (haltes x ▸ hv))
  have hmem : ∀ x ∈ e :: s.stak, x ∈ T₁ := by
    intro x hx
    refine hss.links.mem_iff.2 ?_
    rcases List.mem_cons.1 hx with rfl | hx
    · exact hes.mem
    · exact hg.stak_mem hx
  have hE₁ : Executes P T₁ (e :: s.stak) nc.state := by
    rw [hstate]
    exact (Executes.push hE hst hnext hes.dep).of_stable (hss.stable s.cntr) hwf₁.linked fun x hx =>
      ⟨hwf₁.lt_cntr (hmem x hx), hmem x hx⟩
  have hclosed : DownClosed s₁.evts (· ∈ s.stak) := hu.grows.older.downClosed hg.stack.closed
    (fun _ => hg.stak_lt) fun x hx => hu.grows.keeps x (hg.stak_mem hx)
  exact hsteps.pastOk hT₁ (hu.frontier.last_mem hu.good.linked.causal hes.notMem hclosed)
    hmem hE₁ (hp.of_sameSteps hss hwf₁)

/-- A thread that waits for an event that is independent of `e` has an enabled event that does not depend
on `e`; the others are extended from `e`. -/
theorem LockUnfolded.found (hg : LockGood P s) (hc : EnabledOk s c) (he : e ∈ c.enevs)
    (heT : e ∈ s.evts) (hE : Executes P s.evts s.stak c.state) (hp : PastOk P s.evts)
    (hw : P.WellLocked) (hn : P.NonNested) {te : Nat} {oe : LockOp}
    (hse : IsStep P s.evts e te i oe) (hnext : nc.state.next t = some o)
    (hd : te = t ∨ oe.mutex = o.mutex) :
    ThreadFound fuel nc.maevs e nc.state t o s₁.evts nc.enevs := by
  obtain ⟨te', oe', hse', -, hstate⟩ := hu.step
  obtain ⟨rfl, -, -⟩ := hse.unique hse'
  have hop := LockState.op_of_next hnext
  have hlen : nc.state.pcs.length = P.length :=
    (hu.executes hg.toGood hc he heT hE).pcs_length
  refine (hu.threads t o (hlen ▸ LockProgram.lt_length_of_op hop) hnext).resolve_left ?_
  rintro ⟨y, hy, hye, hnd, htid⟩
  have hyT : y ∈ s.evts := by
    cases hl : s.evts.lookup y with
    | none => simp [Events.tidOf, Events.nameOf, hl] at htid
    | some ev => exact Events.mem_of_lookup hl
  have hext := hc.canExtend hy hyT
  obtain ⟨t', i', o', hsy⟩ := hg.lock.step y hyT fun heq => hext.notMem (heq ▸ hg.stack.bot)
  rw [hsy.tidOf, Option.some_inj] at htid
  obtain rfl : t' = t := Int.ofNat.inj htid
  obtain ⟨rfl, -⟩ := hp.next_of_canExtend hg.lock hg.wf hw hn hE hg.stack.closed hext hsy
  rw [hse.dep_iff hsy, not_or] at hnd
  -- the step of the thread is the same before `e`
  have hlt : te < c.state.pcs.length := by
    rw [hE.pcs_length]
    exact LockProgram.lt_length_of_op hse.op
  have hpc : nc.state.pc t' = c.state.pc t' := by
    rw [hstate, LockState.pc_step hlt, if_neg (Ne.symm hnd.1)]
  rw [hpc] at hop
  obtain rfl : o = o' := Option.some_inj.1 (hop.symm.trans hsy.op)
  exact hd.elim hnd.1 hnd.2

theorem LockUnfolded.enabledComplete (hg : LockGood P s) (hc : EnabledOk s c) (he : e ∈ c.enevs)
    (heT : e ∈ s.evts) (hE : Executes P s.evts s.stak c.state) (hp : PastOk P s.evts)
    (hw : P.WellLocked) (hn : P.NonNested) (hcomplete : EnabledComplete s c) :
    EnabledComplete (s₁.withStack (e :: s₁.stak)) nc := by
  have hext := hc.canExtend he heT
  have hp₁ := hu.pastOk hg hp hext hE
  have hE₁ := hu.executes hg.toGood hc he heT hE
  have hg₁ := hu.lockGood_push hg hc he heT
  have hstak : s₁.stak = s.stak := hu.grows.stak
  intro x hxT hx
  change x ∈ s₁.evts at hxT
  change CanExtend s₁.evts (e :: s₁.stak) x at hx
  have hxb : x ≠ botEID := fun heq => hx.notMem (heq ▸ hg₁.stack.bot)
  obtain ⟨t, i, o, hst⟩ := hu.table.step x hxT hxb
  obtain ⟨rfl, hnext⟩ := hp₁.next_of_canExtend hu.table hu.good.wf hw hn hE₁ hg₁.stack.closed hx hst
  by_cases hd : Dep s₁.evts e x
  · -- `e` is in the history that `extend` finds
    obtain ⟨te, oe, hse, -, -⟩ := hu.step
    have hse₁ := hu.stable.isStep (hg.wf.lt_cntr heT) (hu.grows.keeps e heT) hse
    obtain ⟨h0, T₀, n₀, hwf₀, hst₀, hkeeps, hmax, hh, hfound⟩ :=
      hu.found hg hc he heT hE hp hw hn hse hnext ((hse₁.dep_iff hst).1 hd)
    have hh₁ := hh.of_older hst₀.toOlder hwf₀ hu.good.linked hkeeps
      (fun y hy => hst₀.acts (hwf₀.lt_cntr hy) (hkeeps y hy)) hmax
    have hf : Frontier s₁.evts (e :: s₁.stak) nc.maevs := hstak ▸ hu.frontier
    have heh : e ∈ h0 := by
      rw [← hx.mem_pred_iff hu.table hu.good.wf hf hst hh₁]
      obtain ⟨p, hpx, hle⟩ := lt_iff_pred.1 (hx.dep e List.mem_cons_self hd)
      rcases hle with rfl | hlt
      · exact hpx
      · have hps := hx.pred p hpx
        rcases List.mem_cons.1 hps with rfl | hps
        · exact absurd hlt hu.good.linked.causal.lt_irrefl
        · have hclosed : DownClosed s₁.evts (· ∈ s₁.stak) := hu.good.stack.closed
          exact absurd (hclosed.of_lt hps hlt) (hstak ▸ hext.notMem)
    obtain ⟨⟨y, hy, hye⟩, -⟩ := hfound heh
    have hxy : x = y := hu.good.table.unique P.restricted x hxT y hye.mem
      (hst.name.trans hye.name.symm) fun p => by
        rw [hx.mem_pred_iff hu.table hu.good.wf hf hst hh₁, hye.pred]
    exact hxy ▸ hy
  · -- an event that does not depend on `e` could be added before
    have hpe : e ∉ s₁.evts.predOf x := fun hpe => hd (hu.table.pred x e hpe)
    have hxs : x ∈ s.evts := by
      obtain ⟨T₁, hss, hsteps⟩ := hu.steps
      exact hss.links.mem_iff.1 ((hsteps.mem_pred x hxT).resolve_right hpe)
    have hxn := hg.wf.lt_cntr hxs
    have hold : ∀ y ∈ s.stak, y < s.cntr ∧ y ∈ s₁.evts := fun y hy =>
      ⟨hg.stak_lt hy, hu.grows.keeps y (hg.stak_mem hy)⟩
    have hin : ∀ y ∈ s.stak, y ∈ e :: s₁.stak := fun y hy => List.mem_cons_of_mem e (hstak ▸ hy)
    have hxc : x ∈ c.enevs := by
      refine hcomplete x hxs ⟨⟨fun hm => hx.notMem (hin x hm), fun p hpp => ?_, fun y hy htid => ?_⟩,
        hxs, fun y hy hyd => ?_⟩
      · rw [← hu.stable.pred hxn hxT] at hpp
        rw [← hstak]
        exact (List.mem_cons.1 (hx.pred p hpp)).resolve_left fun heq => hpe (heq ▸ hpp)
      · refine (hu.stable.lt_iff hu.good.linked hxn hxT).1 (hx.chain y (hin y hy) ?_)
        rw [hu.stable.tid (hold y hy).1 (hold y hy).2, hu.stable.tid hxn hxT, htid]
      · refine (hu.stable.lt_iff hu.good.linked hxn hxT).1 (hx.dep y (hin y hy) ?_)
        exact (hu.stable.dep_iff (hold y hy).1 (hold y hy).2 hxn hxT).2 hyd
    refine hu.kept x hxc (fun heq => hx.notMem (heq ▸ List.mem_cons_self)) hxs fun hd' => hd ?_
    exact (hu.stable.dep_iff (hg.wf.lt_cntr heT) (hu.grows.keeps e heT) hxn hxT).2 hd'

end Push

/-! ## The choice of an event -/

/-- The first event of an alternative is enabled. -/
theorem CallOk.exists_choice (h : CallOk s c d alt) (hn : NodeOk P s d) (hp : PastOk P s.evts)
    (hcomplete : EnabledComplete s c) (hne : alt ≠ []) : ∃ x ∈ alt, x ∈ c.enevs := by
  have hex : ∃ x : Nat, x ∈ alt := List.exists_mem_of_ne_nil alt hne
  obtain ⟨x, hx, hmin⟩ : ∃ x ∈ alt, ∀ y : Nat, y < x → y ∉ alt :=
    ⟨Nat.find hex, Nat.find_spec hex, fun _ hy => Nat.find_min hex hy⟩
  obtain ⟨d₁, -, v, hv, hxv⟩ := h.src x hx
  have hxT := (hn.lock.alte d₁ v hv).closed.mem x hxv
  refine ⟨x, hx, hcomplete x hxT (hn.toLockGood.canExtend hp hxT (h.fresh x hx) (fun p hpp => ?_)
    fun y hy => h.cf x hx y (.inl hy))⟩
  exact (h.pred x hx p hpp).resolve_right (hmin p (hn.linked.pred_lt hpp))

theorem CallOk.chooseEvent_ok (h : CallOk s c d alt) (hn : NodeOk P s d) (hp : PastOk P s.evts)
    (hcomplete : EnabledComplete s c) (hen : c.enevs ≠ []) (ê : EventID) :
    ∃ e, chooseEvent ê c.enevs alt s.stak = .ok e := by
  unfold chooseEvent
  split
  · obtain ⟨x, l, hl⟩ := List.exists_cons_of_ne_nil hen
    exact ⟨x, by rw [hl]; rfl⟩
  · next halt =>
    obtain ⟨x, hx, hxe⟩ := h.exists_choice hn hp hcomplete (by simpa using halt)
    obtain ⟨y, l, hl⟩ := List.exists_cons_of_ne_nil
      (List.ne_nil_of_mem (List.mem_inter_iff.2 ⟨hxe, hx⟩))
    exact ⟨y, by rw [hl]; rfl⟩

/-- A maximal configuration has followed its alternative to the end. -/
theorem CallOk.alt_eq_nil (h : CallOk s c d alt) (hn : NodeOk P s d) (hp : PastOk P s.evts)
    (hcomplete : EnabledComplete s c) (hen : c.enevs = []) : alt = [] := by
  by_contra hne
  obtain ⟨x, -, hx⟩ := h.exists_choice hn hp hcomplete hne
  rw [hen] at hx
  cases hx

end Poet
