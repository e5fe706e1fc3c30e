import Poet.Locks.Histories

/-!
# What is below an event

The events below an event `x` of the prefix are an execution after which the thread of `x` is at the
step of `x` (`PastOk.past`). Whether `x` can be executed then is another matter: a lock may have a
history that leaves its mutex held. A predecessor is never a lock of the same mutex
(`PastOk.lockPred`), so without nested critical sections the unlock that follows each lock is below `x`
too, and `x` is executable wherever it can be added (`PastOk.next_of_canExtend`).

`PastOk.conflicts` is the completeness of immediate conflicts: two dependent events that could come next
to each other are in each other's list.
-/

namespace Poet

variable {P : LockProgram} {T T' : Events LockAct} {conf maxevs stak : EventsID} {e x y : EventID}
  {g nst : LockState P} {n t i m : Nat} {o : LockOp}

/-- Dependent events that are not ordered, where nothing below one of them is dependent with the other
unless it is below both, and nothing below them is in conflict. -/
structure Immediate (T : Events LockAct) (x y : EventID) : Prop where
  dep : Dep T x y
  notLe : ¬ Le T x y
  notGe : ¬ Le T y x
  left : ∀ w, Lt T w x → Dep T w y → Lt T w y
  right : ∀ w, Lt T w y → Dep T w x → Lt T w x
  free : ∀ z w, Le T z x → Le T w y → w ∈ T.icnfOf z → z = x ∧ w = y

theorem Immediate.symm (hi : Immediate T x y) (hT : LockEvents P T) (hwf : WF T n) :
    Immediate T y x where
  dep := hT.dep_symm hwf.bot hi.dep
  notLe := hi.notGe
  notGe := hi.notLe
  left := hi.right
  right := hi.left
  free z w hz hw hc := (hi.free w z hw hz (hwf.linked.icnf_symm List.not_mem_nil hc).1).symm

structure PastOk (P : LockProgram) (T : Events LockAct) : Prop where
  past : ∀ x ∈ T, x ≠ botEID → ∃ (r : EventsID) (g : LockState P) (t : Nat) (o : LockOp),
    Executes P T r g ∧ (∀ y, y ∈ r ↔ Lt T y x) ∧ IsStep P T x t (g.pc t) o
  lockPred : ∀ {x p t i m t' j}, IsStep P T x t i (.lock m) → p ∈ T.predOf x →
    ¬ IsStep P T p t' j (.lock m)
  conflicts : ∀ {x y}, Immediate T x y → y ∈ T.icnfOf x

/-- A change that enters no event. -/
theorem PastOk.of_stable (h : PastOk P T) (hs : Stable n T T') (hwf : WF T' n) : PastOk P T' := by
  have hin : ∀ {x}, x ∈ T' → x < n := fun hx => hwf.lt_cntr hx
  have hlt : ∀ {x y}, y ∈ T' → (Lt T' x y ↔ Lt T x y) := fun hy => hs.lt_iff hwf.linked (hin hy) hy
  have hle : ∀ {x y}, y ∈ T' → (Le T' x y ↔ Le T x y) := fun hy => or_congr_right (hlt hy)
  have hdep : ∀ {x y}, x ∈ T' → y ∈ T' → (Dep T' x y ↔ Dep T x y) := fun hx hy =>
    hs.dep_iff (hin hx) hx (hin hy) hy
  have hbelow : ∀ {x y}, y ∈ T' → Le T x y → x ∈ T' := fun hy hxy =>
    hwf.linked.causal.mem_of_le ((hle hy).2 hxy) hy
  refine ⟨fun x hx hxb => ?_, fun {x p t i m t' j} hx hp hpl => ?_, fun {x y} hi => ?_⟩
  · obtain ⟨r, g, t, o, hr, hmem, hst⟩ := h.past x (hs.mem (hin hx) hx) hxb
    refine ⟨r, g, t, o, hr.of_stable hs hwf.linked fun y hy => ?_, fun y => ?_,
      hs.isStep (hin hx) hx hst⟩
    · have hyT := hbelow hx (.inr ((hmem y).1 hy))
      exact ⟨hin hyT, hyT⟩
    · rw [hmem, hlt hx]
  · have hpT := hwf.linked.causal.mem_of_pred hp
    rw [hs.pred (hin hx.mem) hx.mem] at hp
    exact h.lockPred ((hs.isStep_iff (hin hx.mem) hx.mem).1 hx) hp
      ((hs.isStep_iff (hin hpT) hpT).1 hpl)
  · obtain ⟨a, b, hla, hlb, -⟩ := id hi.dep
    have hx := Events.mem_of_lookup hla
    have hy := Events.mem_of_lookup hlb
    refine hs.icnf_kept (hin hx) (hin hy) hx hy (h.conflicts ⟨(hdep hx hy).1 hi.dep,
      fun hxy => hi.notLe ((hle hy).2 hxy), fun hyx => hi.notGe ((hle hx).2 hyx), fun w hw hd => ?_,
      fun w hw hd => ?_, fun z w hz hw hc => ?_⟩)
    · exact (hlt hy).1 (hi.left w ((hlt hx).2 hw) ((hdep (hbelow hx (.inr hw)) hy).2 hd))
    · exact (hlt hx).1 (hi.right w ((hlt hy).2 hw) ((hdep (hbelow hy (.inr hw)) hx).2 hd))
    · have hzT := hbelow hx hz
      have hwT := hbelow hy hw
      exact hi.free z w ((hle hx).2 hz) ((hle hy).2 hw)
        (hs.icnf_kept (hin hzT) (hin hwT) hzT hwT hc)

theorem PastOk.of_sameSteps (h : PastOk P T) (hs : SameSteps T T') (hwf : WF T' n) : PastOk P T' :=
  h.of_stable (hs.stable n) hwf

/-! ## Entering an event -/

namespace AddStep

variable {a : Addition LockAct} (hs : AddStep P.system conf maxevs e nst a T n T')

include hs

theorem extendOk (hT : LockTable P T) (he : e ∈ maxevs) (hE : Executes P T conf nst) :
    ExtendOk T n conf maxevs e nst where
  wf := hs.wf
  lock := hT
  frontier := hs.older.frontier hs.wf₀ hs.keeps hs.wf.linked hs.frontier
  last := he
  exec := hE

/-- The largest history is the same in the table that the event is entered in. -/
theorem history_now : IsHistory (a.name, a.acts) T maxevs a.h0 :=
  hs.history.of_older hs.older hs.wf₀ hs.wf.linked hs.keeps hs.acts fun _ => hs.frontier.mem

theorem lockHistoryOk (hok : ExtendOk T n conf maxevs e nst) (hname : a.name = stepName t (nst.pc t))
    (hacts : a.acts = (LockOp.lock m).act) (hnext : nst.next t = some (.lock m)) :
    LockHistoryOk T n conf maxevs e nst t m a.h0 := by
  refine ⟨hok, hnext, ?_, hs.mem_h0⟩
  rw [← hname, ← hacts]
  exact hs.history_now

/-- The history of the new event: the largest one, or one of the others of a lock. In these there is
`e`, which stands beside an unlock of the mutex in the largest one, and unlocks. -/
theorem h_cases (hok : ExtendOk T n conf maxevs e nst) (hname : a.name = stepName t (nst.pc t))
    (hacts : a.acts = o.act) (hnext : nst.next t = some o) :
    a.h = a.h0 ∨ ∃ m, o = .lock m ∧
      (∃ w ∈ a.h0, w ≠ e ∧ ∃ t' j, IsStep P T w t' j (.unlock m)) ∧
      ∀ p ∈ a.h, p ∈ conf ∧ (p = e ∨ ∃ t' j, IsStep P T p t' j (.unlock m)) := by
  refine hs.origin.imp_right fun ⟨fuel, his, hhis, hmem⟩ => ?_
  rw [hname, hacts] at hhis
  rcases extHistories_act hhis with rfl | ⟨m, rfl, hlock⟩
  · cases hmem
  have hc₀ := hs.wf₀.linked.causal
  have hgood := hs.history.good hc₀ fun _ => hs.frontier.mem
  have hl := hs.lockHistoryOk hok hname hacts hnext
  rcases historiesLock_cases hc₀ hgood hs.mem_h0 hlock with ⟨rfl, -⟩ | ⟨w, us, hlist, hwu, heu, -, hus, rfl⟩
  · cases hmem
  have hwm : w ∈ a.h0 := by rcases hlist with h | h <;> simp [h]
  have hwe : w ≠ e := by
    rintro rfl
    rw [hwu] at heu
    cases heu
  -- an unlock of `T₀` is one of `T`
  have hstep : ∀ {x}, x ∈ a.T₀ → x ≠ botEID → unlocksFor (LockOp.lock m).act a.T₀ x = true →
      ∃ t' j, IsStep P T x t' j (.unlock m) := by
    intro x hx hxb hu
    rw [← unlocksFor_congr (hs.acts x hx)] at hu
    exact hl.unlock_step (hs.keeps x hx) hxb hu
  have hwb : w ≠ botEID := by
    rintro rfl
    exact hwe (hl.eq_bot hwm hl.mem).symm
  have heb : e ≠ botEID := by
    rintro rfl
    exact hwe (hl.eq_bot hl.mem hwm)
  refine ⟨m, rfl, ⟨w, hwm, hwe, hstep (hgood.mem w hwm) hwb hwu⟩, fun p hp => ?_⟩
  have he : e ∈ conf := hl.mem_conf hl.mem
  split at hmem
  · rw [List.mem_singleton.1 hmem, List.mem_singleton] at hp
    exact ⟨hp ▸ he, .inl hp⟩
  · obtain ⟨u, hu, hau⟩ := List.mem_map.1 hmem
    rw [← hau, List.mem_pair] at hp
    rcases hp with rfl | rfl
    · obtain ⟨hlt, hle, hpu⟩ := (hus p).1 hu
      have hpb : p ≠ botEID := by
        rintro rfl
        exact hle (.inr (hs.wf₀.bot_lt (hgood.mem e hs.mem_h0) heb))
      exact ⟨hs.frontier.stack.closed.of_lt (hl.mem_conf hwm) hlt,
        .inr (hstep (hc₀.mem_of_lt hlt) hpb hpu)⟩
    · exact ⟨he, .inl rfl⟩

theorem mem_h : e ∈ a.h := by
  rcases hs.origin with heq | ⟨fuel, his, hhis, hmem⟩
  · exact heq ▸ hs.mem_h0
  obtain ⟨t, o, hname, -, hacts⟩ := step_of_runs hs.runs
  rw [hname, hacts] at hhis
  rcases extHistories_act hhis with rfl | ⟨m, rfl, hlock⟩
  · cases hmem
  · have hc₀ := hs.wf₀.linked.causal
    have hgood := hs.history.good hc₀ fun _ => hs.frontier.mem
    exact (historiesLock_good hc₀ hgood hs.mem_h0 hlock a.h hmem).2

theorem h_conf (hok : ExtendOk T n conf maxevs e nst) : ∀ p ∈ a.h, p ∈ conf := by
  intro p hp
  obtain ⟨t, o, hname, hnext, hacts⟩ := step_of_runs hs.runs
  rcases hs.h_cases hok hname hacts hnext with heq | ⟨m, -, -, hall⟩
  · exact (hok.frontier.under_iff hok.wf.linked).1 (hs.history_now.under p (heq ▸ hp))
  · exact (hall p hp).1

/-- The steps of the thread that were done are below the new event. -/
theorem own_under (hok : ExtendOk T n conf maxevs e nst) (hname : a.name = stepName t (nst.pc t))
    (hacts : a.acts = o.act) (hnext : nst.next t = some o) {o' : LockOp} (hx : x ∈ conf)
    (hst : IsStep P T x t i o') : Under T a.h x := by
  rcases hs.h_cases hok hname hacts hnext with heq | ⟨m, rfl, ⟨w, hw, hwe, t', j, hsw⟩, -⟩
  · rw [heq]
    refine hs.history_now.cover x ((hok.frontier.under_iff hok.wf.linked).2 hx) ?_
    rw [hname, hacts]
    exact hst.dependsOn_iff.2 (.inl rfl)
  · have hl := hs.lockHistoryOk hok hname hacts hnext
    obtain ⟨j', o'', hse, -⟩ := hl.own_step hw hsw hwe
    exact hl.under_of_own hse hs.mem_h hx hst

/-- The mutex is free before a lock, so that its last step under the history is no lock. -/
theorem not_lock (hok : ExtendOk T n conf maxevs e nst) (hname : a.name = stepName t (nst.pc t))
    (hacts : a.acts = (LockOp.lock m).act) (hnext : nst.next t = some (.lock m)) {p : EventID}
    (hp : p ∈ a.h) {t' j : Nat} : ¬ IsStep P T p t' j (.lock m) := by
  intro hsp
  have hl := hs.lockHistoryOk hok hname hacts hnext
  by_cases hp0 : p ∈ a.h0
  · cases hl.unlock_of_mutex hp0 hsp rfl
  · rcases hs.h_cases hok hname hacts hnext with heq | ⟨m', -, -, hall⟩
    · exact hp0 (heq ▸ hp)
    · rcases (hall p hp).2 with rfl | ⟨t'', j', hsu⟩
      · exact hp0 hs.mem_h0
      · cases (hsp.unique hsu).2.2

/-- The new event against the others: what could come next to it is in its list of conflicts. -/
theorem conflicts_new (hT : LockEvents P T) (hi : Immediate T' n y) : y ∈ a.cs := by
  have hyn : y ≠ n := fun h => hi.notGe (.inl h)
  have hyT : y ∈ T := by
    obtain ⟨-, b, -, hlb, -⟩ := id hi.dep
    exact (hs.added.mem_iff.1 (Events.mem_of_lookup hlb)).resolve_left hyn
  have hev := hs.lockEvents hT
  have hlt : ∀ {z w}, w ∈ T → (Lt T' z w ↔ Lt T z w) := fun hw =>
    hs.added.lt_iff hs.wf.linked hs.notMem hw
  have hin : ∀ {z}, Le T z y → z ∈ T := fun hz => hs.wf.linked.causal.mem_of_le hz hyT
  have hnew : ∀ {z}, z ∈ a.lh ↔ Lt T' z n := by
    intro z
    rw [hs.lh_iff, hs.lt_new]
  have hdep : ∀ {z}, z ∈ T → (dependsOn (a.name, a.acts) T z = true ↔ Dep T' z n) := by
    intro z hz
    refine ⟨fun h => hev.dep_symm hs.wf'.bot (hs.dep_new hz h), fun h => ?_⟩
    obtain ⟨b, c, hlb, hlc, hd⟩ := hev.dep_symm hs.wf'.bot h
    obtain rfl := Option.some_inj.1 (hs.added.new.symm.trans hlb)
    have hsame : dependsOn (a.name, a.acts) T' z = dependsOn (a.name, a.acts) T z :=
      dependsOn_congr (hs.stable.name (hs.old hz).1 (hs.old hz).2)
        (hs.stable.acts (hs.old hz).1 (hs.old hz).2)
    rw [← hsame, dependsOn, hlc]
    exact hd
  have hyb : y ≠ botEID := by
    rintro rfl
    exact hi.notGe (.inr (hs.wf'.bot_lt (hs.added.mem_iff.2 (.inl rfl)) (Ne.symm hyn)))
  refine hs.cnfls.complete y ⟨⟨hyT, fun hm => hi.notGe (.inr (hnew.1 hm)),
    (hdep hyT).2 (hev.dep_symm hs.wf'.bot hi.dep), fun z hz w hw hc => ?_⟩, fun z hz => ?_⟩
    (hs.wf.bot_lt hyT hyb)
  · have hzc : z ∈ T'.icnfOf w := (hs.added.mem_icnfOf hs.notMem fun _ => hs.cs_mem).2 (.inl hc)
    have hwn := hnew.1 hw
    obtain ⟨rfl, -⟩ := hi.free w z (.inr hwn) (hz.imp_right (hlt hyT).2) hzc
    exact hs.wf'.linked.causal.lt_irrefl hwn
  · by_cases hd : dependsOn (a.name, a.acts) T z = true
    · exact .inl (hnew.2 (hi.right z ((hlt hyT).2 hz) ((hdep (hin (.inr hz))).1 hd)))
    · exact .inr (by simpa using hd)

theorem pastOk (h : PastOk P T) (hok : ExtendOk T n conf maxevs e nst) : PastOk P T' := by
  obtain ⟨t, o, hname, hnext, hacts, hnew⟩ := hs.isStep
  have hT := hok.lock.toLockEvents
  have hlt : ∀ {z w}, w ∈ T → (Lt T' z w ↔ Lt T z w) := fun hw =>
    hs.added.lt_iff hs.wf.linked hs.notMem hw
  have hle : ∀ {z w}, w ∈ T → (Le T' z w ↔ Le T z w) := fun hw => or_congr_right (hlt hw)
  have hstep : ∀ {x t i o}, x ∈ T → (IsStep P T' x t i o ↔ IsStep P T x t i o) := fun hx =>
    hs.stable.isStep_iff (hs.old hx).1 (hs.old hx).2
  have hexec : ∀ {r g}, (∀ y ∈ r, y ∈ T) → Executes P T r g → Executes P T' r g := fun hr hE =>
    hE.of_stable hs.stable hs.wf'.linked fun y hy => hs.old (hr y hy)
  refine ⟨fun x hx hxb => ?_, fun {x p t' i m t'' j} hx hp hpl => ?_, fun {x y} hi => ?_⟩
  · rcases hs.added.mem_iff.1 hx with rfl | hxT
    · obtain ⟨r, g, hr, hmem⟩ := hok.exists_part (hs.h_conf hok) (List.ne_nil_of_mem hs.mem_h)
      have hconf : ∀ y ∈ r, y ∈ conf := by
        intro y hy
        obtain ⟨p, hp, hyp⟩ := (hmem y).1 hy
        exact hok.frontier.stack.closed.of_le (hs.h_conf hok p hp) hyp
      have hpc : g.pc t = nst.pc t := hr.pc_eq hT hok.exec fun y i o' hst =>
        ⟨hconf y, fun hy => (hmem y).2 (hs.own_under hok hname hacts hnext hy hst)⟩
      refine ⟨r, g, t, o, hexec (fun y hy => hok.frontier.stack.closed.mem y (hconf y hy)) hr,
        fun y => ?_, hpc ▸ hnew⟩
      rw [hmem, hs.lt_new]
    · obtain ⟨r, g, t', o', hr, hmem, hst⟩ := h.past x hxT hxb
      refine ⟨r, g, t', o', hexec (fun y hy => ?_) hr, fun y => ?_, (hstep hxT).2 hst⟩
      · exact hs.wf.linked.causal.mem_of_lt ((hmem y).1 hy)
      · rw [hmem, hlt hxT]
  · rcases hs.added.mem_iff.1 hx.mem with rfl | hxT
    · rw [hs.added.predOf, if_pos rfl] at hp
      obtain ⟨rfl, -, rfl⟩ := hnew.unique hx
      exact hs.not_lock hok hname hacts hnext hp ((hstep (hs.h_mem hp)).1 hpl)
    · rw [hs.added.predOf, if_neg (Nat.ne_of_lt (hs.old hxT).1)] at hp
      exact h.lockPred ((hstep hxT).1 hx) hp
        ((hstep (hs.wf.linked.causal.mem_of_pred hp)).1 hpl)
  · rw [hs.added.mem_icnfOf hs.notMem fun _ => hs.cs_mem]
    obtain ⟨b, c, hlb, hlc, -⟩ := id hi.dep
    rcases hs.added.mem_iff.1 (Events.mem_of_lookup hlb) with rfl | hxT
    · exact .inr (.inr ⟨rfl, hs.conflicts_new hT hi⟩)
    rcases hs.added.mem_iff.1 (Events.mem_of_lookup hlc) with rfl | hyT
    · exact .inr (.inl ⟨rfl, hs.conflicts_new hT (hi.symm (hs.lockEvents hT) hs.wf')⟩)
    -- both were there
    have hin : ∀ {z w}, w ∈ T → Le T z w → z ∈ T := fun hw hz =>
      hs.wf.linked.causal.mem_of_le hz hw
    have hdep : ∀ {z w}, z ∈ T → w ∈ T → (Dep T' z w ↔ Dep T z w) := fun hz hw =>
      hs.stable.dep_iff (hs.old hz).1 (hs.old hz).2 (hs.old hw).1 (hs.old hw).2
    refine .inl (h.conflicts ⟨(hdep hxT hyT).1 hi.dep, fun hxy => hi.notLe ((hle hyT).2 hxy),
      fun hyx => hi.notGe ((hle hxT).2 hyx), fun w hw hd => ?_, fun w hw hd => ?_,
      fun z w hz hw hc => ?_⟩)
    · exact (hlt hyT).1 (hi.left w ((hlt hxT).2 hw) ((hdep (hin hxT (.inr hw)) hyT).2 hd))
    · exact (hlt hxT).1 (hi.right w ((hlt hyT).2 hw) ((hdep (hin hyT (.inr hw)) hxT).2 hd))
    · exact hi.free z w ((hle hxT).2 hz) ((hle hyT).2 hw)
        ((hs.added.mem_icnfOf hs.notMem fun _ => hs.cs_mem).2 (.inl hc))

end AddStep

theorem AddSteps.executes (h : AddSteps P.system conf maxevs e nst T T') (hconf : ∀ x ∈ conf, x ∈ T)
    (hE : Executes P T conf nst) : (∀ x ∈ conf, x ∈ T') ∧ Executes P T' conf nst := by
  refine h.invariant (I := fun T => (∀ x ∈ conf, x ∈ T) ∧ Executes P T conf nst)
    (fun a T₁ n₁ T₂ hs hI => ?_) ⟨hconf, hE⟩
  exact ⟨fun x hx => (hs.old (hI.1 x hx)).2,
    hI.2.of_stable hs.stable hs.wf'.linked fun x hx => hs.old (hI.1 x hx)⟩

theorem AddSteps.pastOk (h : AddSteps P.system conf maxevs e nst T T') (hT : LockTable P T)
    (he : e ∈ maxevs) (hconf : ∀ x ∈ conf, x ∈ T) (hE : Executes P T conf nst) (hp : PastOk P T) :
    PastOk P T' := by
  -- along the additions, since each one needs the configuration as it is then
  induction h with
  | refl => exact hp
  | tail h hs ih =>
    obtain ⟨a, n, hs⟩ := hs
    exact hs.pastOk ih (hs.extendOk (AddSteps.lockTable h hT) he (AddSteps.executes h hconf hE).2)

/-- The histories of the next steps can be computed after additions. -/
theorem ThreadFails.false {fuel : Nat} {err : Err} {T₀ : Events LockAct}
    (hf : ThreadFails fuel conf maxevs e nst T₀ err)
    (h : AddSteps P.system conf maxevs e nst T T₀) (hT : LockTable P T) (he : e ∈ maxevs)
    (hconf : ∀ x ∈ conf, x ∈ T) (hE : Executes P T conf nst) : False := by
  obtain ⟨t, o, h0, n, hwf, hnext, hfr, hh, heh, herr⟩ := hf
  cases o with
  | unlock m => cases herr
  | lock m =>
    have hok : LockHistoryOk T₀ n conf maxevs e nst t m h0 :=
      ⟨⟨hwf, h.lockTable hT, hfr, he, (h.executes hconf hE).2⟩, hnext, hh, heh⟩
    obtain ⟨his, hhis⟩ := hok.exists_his
    cases hhis.symm.trans herr

theorem botPrefix_pastOk : PastOk P (botPrefix P.system.gbac) where
  past x hx hxb := absurd (mem_botPrefix.1 hx) hxb
  lockPred _ hp := by simp [predOf_botPrefix] at hp
  conflicts hi := by
    obtain ⟨b, c, hlb, hlc, -⟩ := id hi.dep
    refine absurd (.inl ?_) hi.notLe
    rw [mem_botPrefix.1 (Events.mem_of_lookup hlb), mem_botPrefix.1 (Events.mem_of_lookup hlc)]

/-! ## Without nested critical sections -/

section NonNested

variable (hp : PastOk P T) (hT : LockTable P T) (hwf : WF T n) (hw : P.WellLocked) (hn : P.NonNested)

include hp hT hwf hw hn

/-- What is above a lock is above an unlock that is above it. -/
theorem PastOk.exists_unlock {l : EventID} {j : Nat} (hsl : IsStep P T l t j (.lock m))
    (hlt : Lt T l y) : ∃ u t' k, IsStep P T u t' k (.unlock m) ∧ Lt T l u ∧ Le T u y := by
  have hc := hwf.linked.causal
  have hev := hT.toLockEvents
  -- the first event after `l` on the way to `y`
  obtain ⟨z, hz, hzy⟩ := hc.lt_iff_succ.1 hlt
  rw [hc.mem_succ_iff] at hz
  have hlz : Lt T l z := lt_of_mem_pred hz
  have hzb : z ≠ botEID := by
    rintro rfl
    exact Nat.not_lt_zero l (hwf.linked.id_lt hlz)
  obtain ⟨r, g, tz, o, hr, hmem, hst⟩ := hp.past z hlz.mem hzb
  rcases (hsl.dep_iff hst).1 (hT.pred z l hz) with rfl | hm
  · have hj := (hr.lt_pc_iff hev).2 ⟨l, (hmem l).2 hlz, _, hsl⟩
    obtain ⟨o₁, ho₁⟩ : ∃ o₁, P.op t (j + 1) = some o₁ :=
      ⟨_, List.getElem?_eq_getElem (Nat.lt_of_le_of_lt hj (LockProgram.op_lt_length hst.op))⟩
    obtain rfl := hn.unlock_of_lock hw hsl.op ho₁
    rcases Nat.eq_or_lt_of_le hj with hj' | hj'
    · rw [← hj'] at hst
      obtain rfl := Option.some_inj.1 (hst.op.symm.trans ho₁)
      exact ⟨z, t, _, hst, hlz, hzy⟩
    · obtain ⟨u, hu, hsu⟩ := hr.exists_step hev hj' ho₁
      exact ⟨u, t, _, hsu, hr.lt_of_step_lt hev ((hmem l).2 hlz) hu hsl hsu (Nat.lt_succ_self j),
        .inr (((hmem u).1 hu).trans_le hzy)⟩
  · cases o with
    | lock m' =>
      obtain rfl : m = m' := hm
      exact absurd hsl (hp.lockPred hst hz)
    | unlock m' =>
      obtain rfl : m = m' := hm
      exact ⟨z, tz, _, hst, hlz, hzy⟩

/-- **An event that extends an execution is the next step of its thread there.** -/
theorem PastOk.next_of_canExtend (hE : Executes P T stak g) (hclosed : DownClosed T (· ∈ stak))
    (hx : CanExtend T stak x) (hst : IsStep P T x t i o) : i = g.pc t ∧ g.next t = some o := by
  have hev := hT.toLockEvents
  obtain ⟨r, g', t', o', hr, hmem, hst'⟩ := hp.past x hx.mem (hev.ne_bot hst)
  obtain ⟨rfl, rfl, rfl⟩ := hst.unique hst'
  have hsub : ∀ y, Lt T y x → y ∈ stak := by
    intro y hlt
    obtain ⟨p, hpx, hle⟩ := lt_iff_pred.1 hlt
    exact hclosed.of_le (hx.pred p hpx) hle
  have hpc : g'.pc t = g.pc t := hr.pc_eq hev hE fun y i o' hsy => by
    rw [hmem]
    exact ⟨hsub y, fun hy => hx.dep y hy ((hsy.dep_iff hst).2 (.inl rfl))⟩
  refine ⟨hpc, LockState.next_eq_some.2 ⟨hpc ▸ hst.op, fun m hm => ?_⟩⟩
  subst hm
  by_contra hheld
  obtain ⟨l, hl, ⟨tl, j, hsl⟩, hno⟩ :=
    (hE.held_iff hev hwf.linked.causal hw).1 (by simpa using hheld)
  have hlx := hx.dep l hl ((hsl.dep_iff hst).2 (.inr rfl))
  obtain ⟨u, tu, k, hsu, hlu, hux⟩ := hp.exists_unlock hT hwf hw hn hsl hlx
  rcases hux with rfl | hux
  · cases (hsu.unique hst).2.2
  · exact hno u (hsub u hux) tu k hsu hlu

end NonNested

end Poet
