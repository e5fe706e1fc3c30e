import Poet.Locks.Calls

/-!
# The other histories of a lock

`historiesLock` offers the next lock of a thread with smaller histories than the largest one: for each
unlock of the mutex that is not below the event `e` of the thread, the history of it and `e`, and `[e]`
if there is none. The first kind always enables the lock. The second kind need not: `e` can be above a
lock of the mutex whose unlock it is not above, when that lock is around another critical section
(`historiesLock_enabling_iff`). Without nested critical sections this does not happen
(`historiesLock_enabling`).
-/

namespace Poet

variable {P : LockProgram} {T : Events LockAct} {h h0 : History} {his : Histories} {g : LockState P}
  {conf maxevs : EventsID} {x y e w : EventID} {t t' i j m k : Nat} {o o' : LockOp}

/-! ## Enabling histories -/

/-- `l` lists what is under `h`, but for bottom, in an order that respects causality. -/
structure CausalOrder {act : Type} (T : Events act) (h : History) (l : EventsID) : Prop where
  nodup : l.Nodup
  mem : ∀ x, x ∈ l ↔ Under T h x ∧ x ≠ botEID
  order : l.Pairwise fun x y => ¬ Lt T y x

open Classical in
theorem exists_causalOrder {act : Type} {T : Events act} (hT : Linked T []) (hh : ∀ x ∈ h, x ∈ T) :
    ∃ l, CausalOrder T h l := by
  -- causality respects the ids
  refine ⟨(List.range T.bound).filter fun x => Under T h x ∧ x ≠ botEID, ?_, fun x => ?_, ?_⟩
  · exact List.nodup_range.filter _
  · simp only [List.mem_filter, List.mem_range, decide_eq_true_eq, and_iff_right_iff_imp]
    rintro ⟨⟨y, hy, hle⟩, -⟩
    exact Events.lt_bound (hT.causal.mem_of_le hle (hh y hy))
  · refine List.Pairwise.filter _ (List.pairwise_lt_range.imp fun hxy hlt => ?_)
    exact Nat.lt_asymm hxy (hT.id_lt hlt)

/-- The history enables step `i` of thread `t`, a lock of `m`: run in any causal order, its closure takes
the thread to that step and leaves the mutex free. -/
def EnablesLock (P : LockProgram) (T : Events LockAct) (h : History) (t i m : Nat) : Prop :=
  ∀ l, CausalOrder T h l → ∃ g : LockState P,
    runEvents 10 P.system T (LockState.init P) l = .ok g ∧ g.pc t = i ∧
      P.op t i = some (.lock m) ∧ g.held m = false

/-- Under `h` there is a lock of `m` without an unlock above it. -/
def HeldUnder (P : LockProgram) (T : Events LockAct) (h : History) (m : Nat) : Prop :=
  ∃ l, Under T h l ∧ (∃ t i, IsStep P T l t i (.lock m)) ∧
    ∀ u, Under T h u → (∃ t i, IsStep P T u t i (.unlock m)) → ¬ Lt T l u

theorem under_singleton {act : Type} {T : Events act} : Under T [e] x ↔ Le T x e := by
  simp [Under]

/-- What is under a history in the configuration is an execution, in every causal order. -/
theorem ExtendOk.part (hok : ExtendOk T k conf maxevs e g) (hh : ∀ x ∈ h, x ∈ conf) {l : EventsID}
    (hl : CausalOrder T h l) : ∃ g' : LockState P, Executes P T (l.reverse ++ [botEID]) g' := by
  have hsub : ∀ x ∈ l.reverse, x ∈ conf ∧ x ≠ botEID := by
    intro x hx
    obtain ⟨⟨y, hy, hle⟩, hxb⟩ := (hl.mem x).1 (List.mem_reverse.1 hx)
    exact ⟨hok.frontier.stack.closed.of_le (hh y hy) hle, hxb⟩
  have hclosed : ∀ x ∈ l.reverse, ∀ y, Lt T y x → y ≠ botEID → y ∈ l.reverse := by
    intro x hx y hlt hyb
    rw [List.mem_reverse, hl.mem] at hx ⊢
    exact ⟨hx.1.of_le (.inr hlt), hyb⟩
  exact hok.exec.part hok.lock.toLockEvents hok.wf.linked.causal hok.frontier.stack.closed.mem
    (fun _ => hok.wf.bot_lt) l.reverse (List.nodup_reverse.2 hl.nodup) hsub hclosed
    (List.pairwise_reverse.2 hl.order)

theorem ExtendOk.exists_part (hok : ExtendOk T k conf maxevs e g) (hh : ∀ x ∈ h, x ∈ conf)
    (hne : h ≠ []) : ∃ (r : EventsID) (g' : LockState P), Executes P T r g' ∧
      ∀ x, x ∈ r ↔ Under T h x := by
  have hhT : ∀ x ∈ h, x ∈ T := fun x hx => hok.frontier.stack.closed.mem x (hh x hx)
  obtain ⟨l, hl⟩ := exists_causalOrder hok.wf.linked hhT
  obtain ⟨g', hg'⟩ := hok.part hh hl
  refine ⟨_, g', hg', fun x => ?_⟩
  simp only [List.mem_append, List.mem_reverse, hl.mem, List.mem_singleton]
  refine ⟨fun hx => ?_, fun hx => (Classical.em (x = botEID)).symm.imp_left fun hxb => ⟨hx, hxb⟩⟩
  rcases hx with hx | rfl
  · exact hx.1
  · obtain ⟨y, hy⟩ := List.exists_mem_of_ne_nil h hne
    refine ⟨y, hy, ?_⟩
    by_cases hyb : y = botEID
    · exact .inl hyb.symm
    · exact .inr (hok.wf.bot_lt (hhT y hy) hyb)

/-- A history in the configuration that has the steps of the thread enables its lock if the mutex is not
held under it. -/
theorem ExtendOk.enablesLock_iff (hok : ExtendOk T k conf maxevs e g) (hw : P.WellLocked)
    (hop : P.op t (g.pc t) = some (.lock m)) (hh : ∀ x ∈ h, x ∈ conf)
    (hown : ∀ x ∈ conf, ∀ i o, IsStep P T x t i o → Under T h x) :
    EnablesLock P T h t (g.pc t) m ↔ ¬ HeldUnder P T h m := by
  have hT := hok.lock.toLockEvents
  have hrun : ∀ l, CausalOrder T h l → ∃ g' : LockState P,
      runEvents 10 P.system T (LockState.init P) l = .ok g' ∧ g'.pc t = g.pc t ∧
        (g'.held m = true ↔ HeldUnder P T h m) := by
    intro l hl
    obtain ⟨g', hg'⟩ := hok.part hh hl
    have hmem : ∀ {x t i o}, IsStep P T x t i o → (x ∈ l.reverse ++ [botEID] ↔ Under T h x) := by
      intro x t i o hst
      simp [hl.mem, hT.ne_bot hst]
    refine ⟨g', List.reverse_reverse l ▸ hg'.runEvents, ?_, ?_⟩
    · refine hg'.pc_eq hT hok.exec fun x i o hst => ?_
      rw [hmem hst]
      refine ⟨?_, fun hx => hown x hx i o hst⟩
      rintro ⟨y, hy, hle⟩
      exact hok.frontier.stack.closed.of_le (hh y hy) hle
    · rw [hg'.held_iff hT hok.wf.linked.causal hw]
      constructor
      · rintro ⟨l', hl', ⟨t', j, hst⟩, hno⟩
        exact ⟨l', (hmem hst).1 hl', ⟨t', j, hst⟩, fun u hu ⟨t, i, hsu⟩ =>
          hno u ((hmem hsu).2 hu) t i hsu⟩
      · rintro ⟨l', hl', ⟨t', j, hst⟩, hno⟩
        exact ⟨l', (hmem hst).2 hl', ⟨t', j, hst⟩, fun u hu t i hsu =>
          hno u ((hmem hsu).1 hu) ⟨t, i, hsu⟩⟩
  constructor
  · intro hen hheld
    obtain ⟨l, hl⟩ := exists_causalOrder hok.wf.linked fun x hx =>
      hok.frontier.stack.closed.mem x (hh x hx)
    obtain ⟨g₁, hg₁, -, -, hfree⟩ := hen l hl
    obtain ⟨g₂, hg₂, -, hiff⟩ := hrun l hl
    obtain rfl : g₁ = g₂ := Except.ok.inj (hg₁.symm.trans hg₂)
    rw [hiff.2 hheld] at hfree
    cases hfree
  · intro hno l hl
    obtain ⟨g', hg', hpc, hiff⟩ := hrun l hl
    exact ⟨g', hg', hpc, hop, Bool.eq_false_iff.2 fun hheld => hno (hiff.1 hheld)⟩

/-! ## The largest history of a lock -/

namespace LockHistoryOk

variable (hok : LockHistoryOk T k conf maxevs e g t m h0)

include hok

theorem mem_conf (hx : x ∈ h0) : x ∈ conf :=
  (hok.frontier.under_iff hok.wf.linked).1 (hok.history.under x hx)

/-- The steps of the thread and those on the mutex are under the history. -/
theorem cover (hx : x ∈ conf) (hst : IsStep P T x t' i o) (hd : t = t' ∨ m = o.mutex) :
    Under T h0 x :=
  hok.history.cover x ((hok.frontier.under_iff hok.wf.linked).2 hx) (hst.dependsOn_iff.2 hd)

/-- Nothing of the configuration is above an event of the history that depends on the lock too. -/
theorem le_of_ordered (hy : y ∈ h0) (hx : Under T h0 x) (h : Le T x y ∨ Lt T y x) : Le T x y := by
  refine h.resolve_right fun hlt => ?_
  obtain ⟨z, hz, hle⟩ := hx
  exact hok.history.anti y hy z hz (hlt.trans_le hle)

theorem le_of_mutex (hy : y ∈ h0) (hsy : IsStep P T y t' j o') (hym : o'.mutex = m) (hx : x ∈ conf)
    {tx : Nat} (hsx : IsStep P T x tx i o) (hxm : o.mutex = m) : Le T x y :=
  hok.le_of_ordered hy (hok.cover hx hsx (.inr hxm.symm))
    (hok.exec.ordered hsx hsy hx (hok.mem_conf hy) (.inr (hxm.trans hym.symm)))

theorem le_of_own (hy : y ∈ h0) (hsy : IsStep P T y t j o') (hx : x ∈ conf)
    (hsx : IsStep P T x t i o) : Le T x y :=
  hok.le_of_ordered hy (hok.cover hx hsx (.inl rfl))
    (hok.exec.ordered hsx hsy hx (hok.mem_conf hy) (.inl rfl))

theorem eq_of_own (hx : x ∈ h0) (hsx : IsStep P T x t i o) (hy : y ∈ h0)
    (hsy : IsStep P T y t j o') : x = y :=
  (hok.le_of_own hy hsy (hok.mem_conf hx) hsx).resolve_right (hok.history.anti x hx y hy)

theorem eq_of_mutex {tx : Nat} (hx : x ∈ h0) (hsx : IsStep P T x tx i o) (hxm : o.mutex = m)
    (hy : y ∈ h0) (hsy : IsStep P T y t' j o') (hym : o'.mutex = m) : x = y :=
  (hok.le_of_mutex hy hsy hym (hok.mem_conf hx) hsx hxm).resolve_right (hok.history.anti x hx y hy)

/-- The mutex is free, so its last step was an unlock. -/
theorem unlock_of_mutex (hy : y ∈ h0) (hsy : IsStep P T y t' j o') (hym : o'.mutex = m) :
    o' = .unlock m := by
  cases o' with
  | unlock m' => rw [show m' = m from hym]
  | lock m' =>
    rw [show m' = m from hym] at hsy
    have hT := hok.lock.toLockEvents
    have hyc := hok.mem_conf hy
    have hj := (hok.exec.lt_pc_iff hT).2 ⟨y, hyc, _, hsy⟩
    have hfree := (LockState.next_eq_some.1 hok.next).2 m rfl
    obtain ⟨k, hjk, hk, hop⟩ := LockState.exists_unlock hfree (g.pc t') j (by omega) hj hsy.op
    obtain ⟨u, hu, hsu⟩ := hok.exec.exists_step hT hk hop
    have hyu := hok.exec.lt_of_step_lt hT hyc hu hsy hsu hjk
    have huy := hok.le_of_mutex hy hsy rfl hu hsu rfl
    exact absurd (hyu.trans_le huy) hok.wf.linked.causal.lt_irrefl

/-- The mutex is free in the configuration, so it is not held under `e` if all of its steps are below. -/
theorem not_heldUnder (hw : P.WellLocked)
    (hle : ∀ x ∈ conf, ∀ t i o, IsStep P T x t i o → o.mutex = m → Le T x e) :
    ¬ HeldUnder P T [e] m := by
  rintro ⟨l, hl, hlock, hno⟩
  have hheld : g.held m = true := by
    refine (hok.exec.held_iff hok.lock.toLockEvents hok.wf.linked.causal hw).2
      ⟨l, hok.frontier.stack.closed.of_le (hok.mem_conf hok.mem) (under_singleton.1 hl), hlock, ?_⟩
    intro u hu t i hsu
    exact hno u (under_singleton.2 (hle u hu t i _ hsu rfl)) ⟨t, i, hsu⟩
  rw [(LockState.next_eq_some.1 hok.next).2 m rfl] at hheld
  cases hheld

/-- Beside an unlock of the mutex, `e` is a step of the thread on another one. -/
theorem own_step (hwm : w ∈ h0) (hsw : IsStep P T w t' j (.unlock m)) (hne : w ≠ e) :
    ∃ i o, IsStep P T e t i o ∧ o.mutex ≠ m := by
  have heb : e ≠ botEID := by
    rintro rfl
    exact hok.history.anti _ hok.mem w hwm (hok.wf.bot_lt hsw.mem hne)
  obtain ⟨te, i, o, hst⟩ := hok.lock.step e
    (hok.frontier.stack.closed.mem e (hok.mem_conf hok.mem)) heb
  have hm : o.mutex ≠ m := by
    intro hm
    rcases hok.le_of_mutex hwm hsw rfl (hok.mem_conf hok.mem) hst hm with heq | hlt
    · exact hne heq.symm
    · exact hok.history.anti e hok.mem w hwm hlt
  have hdep := hst.dependsOn_iff.1 (hok.history.dep e hok.mem)
  obtain rfl : t = te := hdep.resolve_right fun h => hm h.symm
  exact ⟨i, o, hst, hm⟩

/-- Bottom is in the history only alone. -/
theorem eq_bot (hb : botEID ∈ h0) (hx : x ∈ h0) : x = botEID := by
  by_contra hxb
  have hxT := hok.frontier.stack.closed.mem x (hok.mem_conf hx)
  exact hok.history.anti botEID hb x hx (hok.wf.bot_lt hxT hxb)

theorem unlock_step (hx : x ∈ T) (hxb : x ≠ botEID)
    (hu : unlocksFor (LockOp.lock m).act T x = true) : ∃ t i, IsStep P T x t i (.unlock m) := by
  obtain ⟨tx, i, o, hst⟩ := hok.lock.step x hx hxb
  obtain ⟨m', hm, rfl⟩ := hst.unlocksFor_iff.1 hu
  obtain rfl : m = m' := LockOp.lock.inj hm
  exact ⟨tx, i, hst⟩

theorem dep_step (hx : x ∈ h0) (hxb : x ≠ botEID) :
    ∃ tx i o, IsStep P T x tx i o ∧ (t = tx ∨ o.mutex = m) := by
  obtain ⟨tx, i, o, hst⟩ := hok.lock.step x (hok.frontier.stack.closed.mem x (hok.mem_conf hx)) hxb
  exact ⟨tx, i, o, hst, (hst.dependsOn_iff.1 (hok.history.dep x hx)).imp_right Eq.symm⟩

/-- **`historiesLock` does not fail**: the largest history of a lock is one event, or the last step of
the thread and the last one on the mutex, an unlock. -/
theorem exists_his :
    ∃ his, historiesLock (stepName t (g.pc t), (LockOp.lock m).act) e h0 T = .ok his := by
  have hc := hok.wf.linked.causal
  have hnb : ∀ {x y}, x ∈ h0 → y ∈ h0 → x ≠ y → x ≠ botEID := by
    rintro x y hx hy hxy rfl
    exact hxy (hok.eq_bot hx hy).symm
  have hnd := hok.history.nodup
  match h0, hok with
  | [], hok => cases hok.mem
  | [x], _ => exact ⟨[], rfl⟩
  | [x, y], hok =>
    have hxy : x ≠ y := by simpa using hnd
    have hx : x ∈ [x, y] := by simp
    have hy : y ∈ [x, y] := by simp
    have hTx := hok.frontier.stack.closed.mem x (hok.mem_conf hx)
    have hTy := hok.frontier.stack.closed.mem y (hok.mem_conf hy)
    obtain ⟨tx, ix, ox, hsx, hdx⟩ := hok.dep_step hx (hnb hx hy hxy)
    obtain ⟨ty, iy, oy, hsy, hdy⟩ := hok.dep_step hy (hnb hy hx hxy.symm)
    have hunlock : ∀ {z tz iz oz}, IsStep P T z tz iz oz → z ∈ [x, y] → oz.mutex = m →
        unlocksFor (LockOp.lock m).act T z = true := fun hsz hz hm =>
      hsz.unlocksFor_iff.2 ⟨m, rfl, hok.unlock_of_mutex hz hsz hm⟩
    have hother : ∀ {z tz iz oz}, IsStep P T z tz iz oz → oz.mutex ≠ m →
        unlocksFor (LockOp.lock m).act T z = false := by
      intro z tz iz oz hsz hm
      refine Bool.eq_false_iff.2 fun hu => hm ?_
      obtain ⟨m', hm', rfl⟩ := hsz.unlocksFor_iff.1 hu
      exact (LockOp.lock.inj hm').symm
    by_cases hmx : ox.mutex = m
    · have hmy : oy.mutex ≠ m := fun hmy => hxy (hok.eq_of_mutex hx hsx hmx hy hsy hmy)
      exact exists_historiesLock_pair hc hTx hTy (.inl rfl) (hunlock hsx hx hmx) (hother hsy hmy)
        hok.mem
    · have hmy : oy.mutex = m := by
        by_contra hmy
        obtain rfl := hdx.resolve_right hmx
        obtain rfl := hdy.resolve_right hmy
        exact hxy (hok.eq_of_own hx hsx hy hsy)
      exact exists_historiesLock_pair hc hTy hTx (.inr rfl) (hunlock hsy hy hmy) (hother hsx hmx)
        hok.mem
  | x :: y :: z :: l, hok =>
    -- of three events two are of the thread or two are on the mutex
    simp only [List.nodup_cons, List.mem_cons, not_or] at hnd
    obtain ⟨⟨hxy, hxz, -⟩, ⟨hyz, -⟩, -⟩ := hnd
    have hx : x ∈ x :: y :: z :: l := by simp
    have hy : y ∈ x :: y :: z :: l := by simp
    have hz : z ∈ x :: y :: z :: l := by simp
    obtain ⟨tx, ix, ox, hsx, hdx⟩ := hok.dep_step hx (hnb hx hy hxy)
    obtain ⟨ty, iy, oy, hsy, hdy⟩ := hok.dep_step hy (hnb hy hz hyz)
    obtain ⟨tz, iz, oz, hsz, hdz⟩ := hok.dep_step hz (hnb hz hy (Ne.symm hyz))
    rcases hdx with rfl | hdx <;> rcases hdy with rfl | hdy <;> rcases hdz with rfl | hdz
    · exact absurd (hok.eq_of_own hx hsx hy hsy) hxy
    · exact absurd (hok.eq_of_own hx hsx hy hsy) hxy
    · exact absurd (hok.eq_of_own hx hsx hz hsz) hxz
    · exact absurd (hok.eq_of_mutex hy hsy hdy hz hsz hdz) hyz
    · exact absurd (hok.eq_of_own hy hsy hz hsz) hyz
    · exact absurd (hok.eq_of_mutex hx hsx hdx hz hsz hdz) hxz
    · exact absurd (hok.eq_of_mutex hx hsx hdx hy hsy hdy) hxy
    · exact absurd (hok.eq_of_mutex hx hsx hdx hy hsy hdy) hxy

/-- Alone in the history, or as an unlock of the mutex, `e` is above all steps on the mutex. -/
theorem le_of_alone (h : h0 = [e] ∨ unlocksFor (LockOp.lock m).act T e = true) (hx : x ∈ conf)
    (hst : IsStep P T x t' i o) (hm : o.mutex = m) : Le T x e := by
  have hunder := hok.cover hx hst (.inr hm.symm)
  rcases h with rfl | heu
  · exact under_singleton.1 hunder
  by_cases heb : e = botEID
  · obtain ⟨z, hz, hle⟩ := hunder
    rwa [hok.eq_bot (heb ▸ hok.mem) hz, ← heb] at hle
  · have heT := hok.frontier.stack.closed.mem e (hok.mem_conf hok.mem)
    obtain ⟨te, j, hse⟩ := hok.unlock_step heT heb heu
    exact hok.le_of_mutex hok.mem hse rfl hx hst hm

/-- A history with a step of the thread has all of them. -/
theorem under_of_own (hse : IsStep P T e t j o') (he : e ∈ h) (hx : x ∈ conf)
    (hst : IsStep P T x t i o) : Under T h x :=
  ⟨e, he, hok.le_of_own hok.mem hse hx hst⟩

/-- With an unlock of the mutex that is not below it, `e` enables the lock: the locks under the two are
below that unlock. -/
theorem enables_pair (hw : P.WellLocked) (hse : IsStep P T e t j o') {u : EventID} (hu : u ∈ conf)
    (hsu : IsStep P T u t' i (.unlock m)) (hue : ¬ Le T u e) :
    EnablesLock P T [u, e] t (g.pc t) m := by
  have hpair : ∀ y ∈ [u, e], y ∈ conf := by simpa using ⟨hu, hok.mem_conf hok.mem⟩
  refine (hok.enablesLock_iff hw (LockState.next_eq_some.1 hok.next).1 hpair
    fun x hx i o hst => hok.under_of_own hse (by simp) hx hst).2 ?_
  rintro ⟨l, ⟨y, hy, hle⟩, ⟨tl, jl, hsl⟩, hno⟩
  have hlc := hok.frontier.stack.closed.of_le (hpair y hy) hle
  rcases hok.exec.ordered hsl hsu hlc hu (.inr rfl) with (rfl | hlt) | hlt
  · cases (hsl.unique hsu).2.2
  · exact hno u (under_of_mem (by simp)) ⟨t', i, hsu⟩ hlt
  · rcases List.mem_pair.1 hy with rfl | rfl
    · exact hok.wf.linked.causal.lt_irrefl (hlt.trans_le hle)
    · exact hue (.inr (hlt.trans_le hle))

/-- Which of the other histories enable the lock. -/
theorem enabling_iff (hw : P.WellLocked)
    (hr : historiesLock (stepName t (g.pc t), (LockOp.lock m).act) e h0 T = .ok his) :
    (∀ h ∈ his, e ∈ h ∧ EnablesLock P T h t (g.pc t) m) ↔
      (∃ w ∈ h0, ∃ u, (∃ t i, IsStep P T u t i (.unlock m)) ∧ Lt T u w ∧ ¬ Le T u e) ∨
        ¬ HeldUnder P T [e] m := by
  have hc := hok.wf.linked.causal
  have hgood := hok.history.good hc fun _ => hok.frontier.mem
  rcases historiesLock_cases hc hgood hok.mem hr with ⟨rfl, halone⟩ | ⟨w, us, hlist, hwu, heu, -, hus, rfl⟩
  · refine iff_of_true (by simp) (.inr (hok.not_heldUnder hw fun x hx t' i o hst hm => ?_))
    exact hok.le_of_alone halone hx hst hm
  have hwm : w ∈ h0 := by rcases hlist with rfl | rfl <;> simp
  have hwe : w ≠ e := by
    rintro rfl
    rw [hwu] at heu
    cases heu
  have hwb : w ≠ botEID := by
    rintro rfl
    exact hwe (hok.eq_bot hwm hok.mem).symm
  obtain ⟨tw, j, hsw⟩ := hok.unlock_step (hgood.mem w hwm) hwb hwu
  obtain ⟨i, o, hse, -⟩ := hok.own_step hwm hsw hwe
  have hus' : ∀ x, x ∈ us ↔ (∃ t i, IsStep P T x t i (.unlock m)) ∧ Lt T x w ∧ ¬ Le T x e := by
    intro x
    rw [hus x]
    constructor
    · rintro ⟨hlt, hle, hu⟩
      have hxb : x ≠ botEID := by
        rintro rfl
        exact hle (.inr (hok.wf.bot_lt hse.mem (hok.lock.ne_bot hse)))
      exact ⟨hok.unlock_step (hc.mem_of_lt hlt) hxb hu, hlt, hle⟩
    · rintro ⟨⟨tx, i, hst⟩, hlt, hle⟩
      exact ⟨hlt, hle, hst.unlocksFor_iff.2 ⟨m, rfl, rfl⟩⟩
  have hother : (∃ w ∈ h0, ∃ u, (∃ t i, IsStep P T u t i (.unlock m)) ∧ Lt T u w ∧ ¬ Le T u e) ↔
      us ≠ [] := by
    constructor
    · rintro ⟨w', hw', u, hu, hlt, hle⟩
      have hcase : w' = w ∨ w' = e := by rcases hlist with rfl | rfl <;> simp_all [or_comm]
      rcases hcase with rfl | rfl
      · exact List.ne_nil_of_mem ((hus' u).2 ⟨hu, hlt, hle⟩)
      · exact absurd (.inr hlt) hle
    · intro hne
      obtain ⟨u, hu⟩ := List.exists_mem_of_ne_nil us hne
      exact ⟨w, hwm, u, (hus' u).1 hu⟩
  rw [hother]
  by_cases hnil : us = []
  · -- only `[e]` is left
    subst hnil
    have hen := hok.enablesLock_iff (h := [e]) hw (LockState.next_eq_some.1 hok.next).1
      (by simpa using hok.mem_conf hok.mem) fun x hx i o hst =>
        hok.under_of_own hse List.mem_cons_self hx hst
    simp [hen]
  · refine iff_of_true (fun h hh => ?_) (.inl hnil)
    rw [if_neg (by simpa using hnil)] at hh
    obtain ⟨u, hu, rfl⟩ := List.mem_map.1 hh
    obtain ⟨⟨tu, iu, hsu⟩, huw, hue⟩ := (hus' u).1 hu
    exact ⟨by simp, hok.enables_pair hw hse
      (hok.frontier.stack.closed.of_lt (hok.mem_conf hwm) huw) hsu hue⟩

/-- Without nested critical sections no mutex is held under `e`: what follows a lock is its unlock. -/
theorem not_heldUnder_of_nonNested (hw : P.WellLocked) (hn : P.NonNested) :
    ¬ HeldUnder P T [e] m := by
  rintro ⟨l, hl, ⟨tl, j, hsl⟩, hno⟩
  have hT := hok.lock.toLockEvents
  have hc := hok.wf.linked.causal
  have hclosed := hok.frontier.stack.closed
  rcases under_singleton.1 hl with rfl | hlt
  · exact hok.not_heldUnder hw (fun x hx t i o hst hm => hok.le_of_mutex hok.mem hsl rfl hx hst hm)
      ⟨l, hl, ⟨tl, j, hsl⟩, hno⟩
  -- the first event after `l` on the way to `e`
  obtain ⟨y, hy, hle⟩ := hc.lt_iff_succ.1 hlt
  rw [hc.mem_succ_iff] at hy
  have hly : Lt T l y := lt_of_mem_pred hy
  have hec := hok.mem_conf hok.mem
  have hyc := hclosed.of_le hec hle
  have hlc := hclosed.of_lt hec hlt
  have hyb : y ≠ botEID := by
    rintro rfl
    exact Nat.not_lt_zero l (hok.wf.linked.id_lt hly)
  obtain ⟨ty, i, o, hsy⟩ := hT.step y (hclosed.mem y hyc) hyb
  have hunlock : ∀ {u k}, u ∈ conf → IsStep P T u tl k (.unlock m) → j < k → Le T u y → False :=
    fun hu hsu hjk huy => hno _ (under_singleton.2 (huy.trans hle)) ⟨tl, _, hsu⟩
      (hok.exec.lt_of_step_lt hT hlc hu hsl hsu hjk)
  rcases (hsl.dep_iff hsy).1 (hok.lock.pred y l hy) with rfl | hm
  · have hji := hok.exec.step_lt_of_lt hT hc hlc hyc hsl hsy hly
    have hi := (hok.exec.lt_pc_iff hT).2 ⟨y, hyc, o, hsy⟩
    obtain ⟨o₁, ho₁⟩ : ∃ o₁, P.op tl (j + 1) = some o₁ :=
      ⟨_, List.getElem?_eq_getElem (Nat.lt_of_le_of_lt hji (LockProgram.op_lt_length hsy.op))⟩
    obtain rfl := hn.unlock_of_lock hw hsl.op ho₁
    obtain ⟨u, hu, hsu⟩ := hok.exec.exists_step hT (Nat.lt_of_le_of_lt hji hi) ho₁
    refine hunlock hu hsu (Nat.lt_succ_self j) ?_
    rcases Nat.eq_or_lt_of_le hji with rfl | hlt'
    · exact .inl (hok.exec.eq_of_step hT hu hyc hsu hsy)
    · exact .inr (hok.exec.lt_of_step_lt hT hu hyc hsu hsy hlt')
  · cases o with
    | lock m' =>
      obtain rfl : m = m' := hm
      obtain ⟨u, hu, k', hjk, hsu, huy⟩ := hok.exec.released hT hc hyc hsy hlc hsl hly
      exact hunlock hu hsu hjk (.inr huy)
    | unlock m' =>
      obtain rfl : m = m' := hm
      exact hno y (under_singleton.2 hle) ⟨ty, i, hsy⟩ hly

end LockHistoryOk

/-! ## The calls of a run -/

/-- **When the other histories of a lock enable it.** In a run on a lock program, `historiesLock` is
called for the next step of a thread, a lock of some `m`. The histories that it returns contain `e` and
enable the lock if and only if it finds an unlock of `m` that is not below `e`, or `m` is free under
`e`. -/
theorem historiesLock_enabling_iff (hw : P.WellLocked) {stl : Bool} {fuel : Nat}
    {info : EventInfo LockAct}
    (hinv : Invoked fuel (iUnfState stl false 10 P.system) (.historiesLock info e h0 T))
    (hr : historiesLock info e h0 T = .ok his) :
    ∃ t i m, info = (stepName t i, (LockOp.lock m).act) ∧
      ((∀ h ∈ his, e ∈ h ∧ EnablesLock P T h t i m) ↔
        (∃ w ∈ h0, ∃ u, (∃ t i, IsStep P T u t i (.unlock m)) ∧ Lt T u w ∧ ¬ Le T u e) ∨
          ¬ HeldUnder P T [e] m) := by
  obtain ⟨g, k, conf, maxevs, t, m, hok, rfl⟩ := hinv.lockOk
  exact ⟨t, g.pc t, m, rfl, hok.enabling_iff hw hr⟩

/-- The second thread has the critical section of mutex 1 inside that of mutex 0. -/
def nestedSections : LockProgram :=
  [[.lock 2, .lock 1, .lock 0], [.lock 0, .lock 1, .unlock 1, .unlock 0]]

/-- The call for the lock of 0 in the first thread, when the second one has done all its steps: `[e]` is
returned, and the lock of 0 in the second thread, but not its unlock, is below `e`. -/
def HeldCall : Invocation (LockState nestedSections) LockAct → Prop
  | .historiesLock info e h0 T =>
    info = (stepName 0 2, (LockOp.lock 0).act) ∧ historiesLock info e h0 T = .ok [[e]] ∧
      T.nameOf e = some (stepName 0 1) ∧ T.actsOf e = some (LockOp.lock 1).act ∧
      T.nameOf 2 = some (stepName 1 0) ∧ T.actsOf 2 = some (LockOp.lock 0).act ∧
      predecessors e T = .ok [4, 1, 3, 2, 0] ∧
      ∀ x ∈ [e, 4, 1, 3, 2, 0], T.actsOf x ≠ some (LockOp.unlock 0).act
  | _ => False

instance : DecidablePred HeldCall := fun i =>
  match i with
  | .historiesLock _ _ _ _ => inferInstanceAs (Decidable (_ ∧ _))
  | .initialExt _ _ | .explore _ _ _ _ _ _ | .unfold _ _ _ _ | .extend _ _ _ _ _ _
  | .ext _ _ _ _ _ _ _ _ | .prune _ _ _ => inferInstanceAs (Decidable False)

theorem exists_heldCall : ∃ e h0 T, Invoked 20 (iUnfState false false 10 nestedSections.system)
      (.historiesLock (stepName 0 2, (LockOp.lock 0).act) e h0 T) ∧
    HeldCall (.historiesLock (stepName 0 2, (LockOp.lock 0).act) e h0 T) := by
  have hany : (invocationAt 20 (iUnfState false false 10 nestedSections.system)
      [false, false, false, false, false, true, true, true, true]).any (HeldCall ·) = true := by
    decide +kernel
  obtain ⟨i, hi, hheld⟩ := Option.any_eq_true _ _ |>.1 hany
  have hinv := invoked_of_invocationAt hi
  have hheld := of_decide_eq_true hheld
  cases i with
  | historiesLock info e h0 T =>
    obtain rfl := hheld.1
    exact ⟨e, h0, T, hinv, hheld⟩
  | _ => exact hheld.elim

/-- The lock of 0 by the second thread is not released under `e`. -/
theorem HeldCall.not_enables {e : EventID} {h0 : History} {T : Events LockAct}
    (h : HeldCall (.historiesLock (stepName 0 2, (LockOp.lock 0).act) e h0 T))
    (hinv : Invoked 20 (iUnfState false false 10 nestedSections.system)
      (.historiesLock (stepName 0 2, (LockOp.lock 0).act) e h0 T)) :
    ¬ EnablesLock nestedSections T [e] 0 2 0 := by
  obtain ⟨-, -, hne, hae, hn, ha, hpred, hno⟩ := h
  obtain ⟨g, k, conf, maxevs, t, m, hok, hinfo⟩ := hinv.lockOk
  obtain ⟨rfl, hpc⟩ := stepName_inj.1 (Prod.mk.inj hinfo).1
  have hop := (LockState.next_eq_some.1 hok.next).1
  obtain rfl : 0 = m := by
    rw [← hpc] at hop
    exact LockOp.lock.inj (Option.some_inj.1 hop)
  have hse : IsStep nestedSections T e 0 1 (.lock 1) := ⟨hne, hae, rfl⟩
  have hsl : IsStep nestedSections T 2 1 0 (.lock 0) := ⟨hn, ha, rfl⟩
  have hlt : ∀ x, Lt T x e ↔ x ∈ [4, 1, 3, 2, 0] := fun x =>
    lt_iff_mem_predecessors hok.wf.linked.causal hse.mem hpred
  rw [hpc, hok.enablesLock_iff (by decide) hop (by simpa using hok.mem_conf hok.mem)
    fun x hx i o hst => under_singleton.2 (hok.le_of_own hok.mem hse hx hst)]
  refine not_not_intro ⟨2, under_singleton.2 (.inr ((hlt 2).2 (by decide))), ⟨1, 0, hsl⟩, ?_⟩
  rintro u hu ⟨t, i, hsu⟩ -
  refine hno u ?_ hsu.acts
  rcases under_singleton.1 hu with rfl | hu
  · exact List.mem_cons_self
  · exact List.mem_cons_of_mem _ ((hlt u).1 hu)

/-- That call: mutex 0 is held under `e`, and no unlock of it was found. -/
theorem historiesLock_enabling_iff_nestedSections : ∃ e h0 T his,
    nestedSections.WellLocked ∧
    Invoked 20 (iUnfState false false 10 nestedSections.system)
      (.historiesLock (stepName 0 2, (LockOp.lock 0).act) e h0 T) ∧
    historiesLock (stepName 0 2, (LockOp.lock 0).act) e h0 T = .ok his ∧
    HeldUnder nestedSections T [e] 0 ∧ ∀ w ∈ h0, ∀ u t i, IsStep nestedSections T u t i (.unlock 0) →
      Lt T u w → Le T u e := by
  obtain ⟨e, h0, T, hinv, hheld⟩ := exists_heldCall
  have hw : nestedSections.WellLocked := by decide
  have hr := hheld.2.1
  obtain ⟨t, i, m, hinfo, hiff⟩ := historiesLock_enabling_iff hw hinv hr
  obtain ⟨hname, hact⟩ := Prod.mk.inj hinfo
  obtain ⟨rfl, rfl⟩ := stepName_inj.1 hname
  obtain rfl : 0 = m := Int.ofNat.inj (by simpa [LockOp.act, Act.lockActAddr, mutexAddr] using hact)
  have hnot := fun h => hheld.not_enables hinv (hiff.2 h [e] List.mem_cons_self).2
  refine ⟨e, h0, T, [[e]], hw, hinv, hr, ?_, fun w hwm u t i hsu hlt => ?_⟩
  · by_contra hfree
    exact hnot (.inr hfree)
  · by_contra hle
    exact hnot (.inl ⟨w, hwm, u, ⟨t, i, hsu⟩, hlt, hle⟩)

/-- **A history that does not enable the lock.** -/
theorem historiesLock_returns_held : nestedSections.WellLocked ∧ ∃ e h0 T his,
    Invoked 20 (iUnfState false false 10 nestedSections.system)
      (.historiesLock (stepName 0 2, (LockOp.lock 0).act) e h0 T) ∧
    historiesLock (stepName 0 2, (LockOp.lock 0).act) e h0 T = .ok his ∧
    ∃ h ∈ his, ¬ EnablesLock nestedSections T h 0 2 0 := by
  obtain ⟨e, h0, T, hinv, hheld⟩ := exists_heldCall
  exact ⟨by decide, e, h0, T, [[e]], hinv, hheld.2.1, [e], List.mem_cons_self, hheld.not_enables hinv⟩

/-- **Without nested critical sections they all enable it.** -/
theorem historiesLock_enabling (hw : P.WellLocked) (hn : P.NonNested) {stl : Bool} {fuel : Nat}
    {info : EventInfo LockAct}
    (hinv : Invoked fuel (iUnfState stl false 10 P.system) (.historiesLock info e h0 T))
    (hr : historiesLock info e h0 T = .ok his) :
    ∃ t i m, info = (stepName t i, (LockOp.lock m).act) ∧
      ∀ h ∈ his, e ∈ h ∧ EnablesLock P T h t i m := by
  obtain ⟨g, k, conf, maxevs, t, m, hok, rfl⟩ := hinv.lockOk
  exact ⟨t, g.pc t, m, rfl, (hok.enabling_iff hw hr).2 (.inr (hok.not_heldUnder_of_nonNested hw hn))⟩

end Poet
