import Mathlib.Data.Finset.Max
import Poet.Locks.Sections

/-!
# Which locks are discovered

When a thread comes to the lock of a mutex that is free, `extend` enters the lock with its largest history,
and `historiesLock` gives it other ones. Among these is one in which the last critical section
on the mutex is left out, if that section is not below the step before the lock
(`exists_lockBefore`). So a stack has, for each of its steps `p` that was added after such a section, the
lock that could have come before the section in the prefix (`Discovered`).
-/

namespace Poet

variable {P : LockProgram} {T T' : Events LockAct} {A B S maxevs r : EventsID} {g : LockState P}
  {e l p u x y z : EventID} {fuel n n' t t' i j m : Nat} {o o' : LockOp}

/-- After `p`, step `i` of thread `t`, was added to `B`, the thread is at a lock of `m`; the last critical
section on `m`, with the lock `l` and the unlock `u`, is not below `p`. -/
structure PassedBy (P : LockProgram) (T : Events LockAct) (p : EventID) (B : EventsID) (t i m : Nat)
    (l u : EventID) : Prop where
  own : ∃ o, IsStep P T p t i o
  next : P.op t (i + 1) = some (.lock m)
  sect : ∃ tl j, IsStep P T l tl j (.lock m) ∧ IsStep P T u tl (j + 1) (.unlock m)
  lock_mem : l ∈ B
  unlock_mem : u ∈ B
  notLe : ¬ Le T l p
  last : ∀ y ∈ p :: B, ∀ t i o, IsStep P T y t i o → o.mutex = m → Le T y l ∨ y = u

/-- `z` is the lock of `m` after `p` in what is left of the stack without `l` and what is above it. -/
structure LockBefore (P : LockProgram) (T : Events LockAct) (p : EventID) (B : EventsID) (t i m : Nat)
    (l z : EventID) : Prop where
  step : IsStep P T z t (i + 1) (.lock m)
  pred : ∀ q ∈ T.predOf z, q ∈ p :: B ∧ ¬ Le T l q
  dep : ∀ y ∈ p :: B, ¬ Le T l y → Dep T y z → Lt T y z

/-- Where a step was added after a critical section that is not below it, the lock that could have come
before the section is in the prefix. -/
def Discovered (P : LockProgram) (T : Events LockAct) (S : EventsID) : Prop :=
  ∀ A p B t i m l u, S = A ++ p :: B → PassedBy P T p B t i m l u → ∃ z, LockBefore P T p B t i m l z

/-- Among the other histories of a lock there is one with the last of the unlocks `us`. -/
theorem exists_his_of_cases {us : EventsID} (hord : ∀ x ∈ us, ∀ y ∈ us, Le T x y ∨ Lt T y x)
    (hid : ∀ {x y}, Lt T x y → x < y) :
    ∃ h ∈ (if us.isEmpty then [[p]] else us.map fun x => [x, p]),
      p ∈ h ∧ (∀ q ∈ h, q = p ∨ q ∈ us) ∧ ∀ y ∈ us, Under T h y := by
  by_cases hus : us = []
  · subst hus
    exact ⟨[p], by simp, by simp, by simp, by simp⟩
  · -- the last one has the largest number
    obtain ⟨x, hx, hmax⟩ := Finset.exists_max_image us.toFinset id
      (List.toFinset_nonempty_iff us |>.2 hus)
    simp only [List.mem_toFinset, id] at hx hmax
    refine ⟨[x, p], ?_, by simp, by simp [hx], fun y hy => ⟨x, by simp, ?_⟩⟩
    · rw [if_neg (by simpa using hus)]
      exact List.mem_map_of_mem hx
    · refine (hord y hy x hx).resolve_right fun hlt => ?_
      exact absurd (hid hlt) (Nat.not_lt.2 (hmax y hy))

/-- The unlocks of an earlier prefix. -/
theorem LockPrefix.unlocksFor_iff {T₀ : Events LockAct} {n₀ : Nat} (h : LockPrefix P T n)
    (hst : Stable n₀ T₀ T) (hx : x < n₀ ∧ x ∈ T) (hxb : x ≠ botEID) :
    unlocksFor (LockOp.lock m).act T₀ x = true ↔ ∃ t' j, IsStep P T x t' j (.unlock m) := by
  rw [← unlocksFor_congr (hst.acts hx.1 hx.2)]
  constructor
  · intro hux
    obtain ⟨t', i', o', hsx⟩ := h.table.step x hx.2 hxb
    obtain ⟨m', hm', rfl⟩ := hsx.unlocksFor_iff.1 hux
    obtain rfl : m = m' := LockOp.lock.inj hm'
    exact ⟨t', i', hsx⟩
  · rintro ⟨t', j', hsx⟩
    exact hsx.unlocksFor_iff.2 ⟨m, rfl, rfl⟩

namespace PassedBy

variable (hb : PassedBy P T p B t i m l u) (h : LockPrefix P T n) (hS : StackRun P T n (p :: B) g)

include hb hS

theorem pc_eq : g.pc t = i + 1 ∧ p ∉ B ∧ DownClosed T (· ∈ B) := by
  obtain ⟨o, hsp⟩ := hb.own
  obtain ⟨t', o', g', hB, hsp', -, rfl, -⟩ := hS.tail (List.ne_nil_of_mem hb.lock_mem)
  obtain ⟨rfl, rfl, rfl⟩ := hsp.unique hsp'
  have hlt : t < g'.pcs.length := hB.exec.pcs_length ▸ LockProgram.lt_length_of_op hsp.op
  exact ⟨by rw [LockState.pc_step hlt, if_pos rfl], (List.nodup_cons.1 hS.nodup).1, hB.closed⟩

include h

theorem lt : Lt T l u := by
  obtain ⟨tl, j, hsl, hsu⟩ := hb.sect
  exact hS.exec.lt_of_step_lt h.events (List.mem_cons_of_mem p hb.lock_mem)
    (List.mem_cons_of_mem p hb.unlock_mem) hsl hsu (Nat.lt_succ_self j)

/-- The mutex is free. -/
theorem next_eq (hw : P.WellLocked) : g.next t = some (.lock m) := by
  obtain ⟨hpc, -, -⟩ := hb.pc_eq hS
  refine LockState.next_eq_some.2 ⟨hpc ▸ hb.next, ?_⟩
  rintro m' hm
  obtain rfl : m = m' := LockOp.lock.inj hm
  by_contra hheld
  obtain ⟨l', hl', ⟨t', j', hsl'⟩, hno⟩ := (hS.exec.held_iff h.events h.causal hw).1 (by simpa using hheld)
  obtain ⟨tl, j, hsl, hsu⟩ := hb.sect
  rcases hb.last l' hl' _ _ _ hsl' rfl with hle | rfl
  · exact hno u (List.mem_cons_of_mem p hb.unlock_mem) tl _ hsu (hle.trans_lt (hb.lt h hS))
  · cases (hsl'.unique hsu).2.2

/-- The histories that the lock was entered with: the last of the unlocks below the section that are not
below `p`, or `p` alone. -/
theorem exists_unlocks (hf : Frontier T (p :: B) maxevs)
    (hfound : ThreadFound fuel maxevs p g t (.lock m) T r) :
    ∃ us : EventsID, (∀ x, x ∈ us ↔ Lt T x u ∧ ¬ Le T x p ∧ ∃ t' j, IsStep P T x t' j (.unlock m)) ∧
      ∀ hz ∈ (if us.isEmpty then [[p]] else us.map fun x => [x, p]),
        ∃ z, IsEvent T (stepName t (g.pc t)) hz z := by
  obtain ⟨-, hpB, hclosed⟩ := hb.pc_eq hS
  obtain ⟨o, hsp⟩ := hb.own
  obtain ⟨tl, j, -, hsu⟩ := hb.sect
  have hlu := hb.lt h hS
  have hup : ¬ Le T u p := fun hle => hb.notLe (.inr (hlu.trans_le hle))
  have hpm : p ∈ maxevs := hf.last_mem h.causal hpB hclosed
  obtain ⟨h0, T₀, n₀, hwf₀, hst₀, hkeeps, hmax, hh, hfnd⟩ := hfound
  have hh₁ := hh.of_older hst₀.toOlder hwf₀ h.wf.linked hkeeps
    (fun y hy => hst₀.acts (hwf₀.lt_cntr hy) (hkeeps y hy)) hmax
  have hdep : ∀ {y ty iy oy}, IsStep P T y ty iy oy →
      (dependsOn (stepName t (g.pc t), (LockOp.lock m).act) T y = true ↔ t = ty ∨ m = oy.mutex) :=
    fun hsy => hsy.dependsOn_iff
  have hph : p ∈ h0 := by
    refine hh₁.mem_iff.2 ⟨under_of_mem hpm, (hdep hsp).2 (.inl rfl), fun y hy _ => ?_⟩
    exact ((hf.maximal p).1 hpm).2 y ((hf.under_iff h.wf.linked).1 hy)
  -- the unlock of the section is in the largest history too
  obtain ⟨q, hq, huq⟩ := hh₁.cover u ((hf.under_iff h.wf.linked).2 (List.mem_cons_of_mem p hb.unlock_mem))
    ((hdep hsu).2 (.inr rfl))
  obtain ⟨-, his, hhis, hall⟩ := hfnd hph
  have hhis : historiesLock (stepName t (g.pc t), (LockOp.lock m).act) p h0 T₀ = .ok his := hhis
  have hold : ∀ {y}, y ∈ T₀ → y < n₀ ∧ y ∈ T := fun hy => ⟨hwf₀.lt_cntr hy, hkeeps _ hy⟩
  have hp₀ : p ∈ T₀ := hmax p hpm
  have hgood := hh.good hwf₀.linked.causal hmax
  have hpb := h.events.ne_bot hsp
  rcases historiesLock_cases hwf₀.linked.causal hgood hph hhis with
    ⟨-, hone⟩ | ⟨u', us, hlist, hu', -, -, hus, rfl⟩
  · -- `p` is not alone there, and not on the mutex
    rcases hone with rfl | hpu
    · exact absurd (List.mem_singleton.1 hq ▸ huq) hup
    · obtain ⟨t', j', hsp'⟩ := (h.unlocksFor_iff hst₀ (hold hp₀) hpb).1 hpu
      rcases hb.last p List.mem_cons_self _ _ _ hsp' rfl with (rfl | hlt) | rfl
      · exact absurd hb.lock_mem hpB
      · exact absurd (hclosed.of_lt hb.lock_mem hlt) hpB
      · exact absurd hb.unlock_mem hpB
  have hbp : Lt T botEID p := h.wf.bot_lt hsp.mem hpb
  have huh : u' ∈ h0 := by rcases hlist with h | h <;> simp [h]
  obtain rfl : u' = u := by
    have hub : u' ≠ botEID := by
      rintro rfl
      exact hh₁.anti _ huh p hph hbp
    obtain ⟨t', j', hsu'⟩ := (h.unlocksFor_iff hst₀ (hold (hgood.mem u' huh)) hub).1 hu'
    have hconf : u' ∈ p :: B := (hf.under_iff h.wf.linked).1 (hh₁.under _ huh)
    refine (hb.last u' hconf _ _ _ hsu' rfl).resolve_left fun hle => ?_
    have hqu : q = u' ∨ q = p := by rcases hlist with h | h <;> simpa [h, or_comm] using hq
    rcases hqu with rfl | rfl
    · exact h.causal.lt_irrefl (hlu.trans_le (huq.trans hle))
    · exact hup huq
  refine ⟨us, fun x => ?_, hall⟩
  have hu₀ := hold (hgood.mem u' huh)
  have hle : Le T x p ↔ Le T₀ x p := or_congr_right (hst₀.lt_iff h.wf.linked (hold hp₀).1 (hold hp₀).2)
  rw [hus, hle, hst₀.lt_iff h.wf.linked hu₀.1 hu₀.2]
  refine and_congr_right fun hlt => and_congr_right fun hxp => ?_
  refine h.unlocksFor_iff hst₀ (hold (hwf₀.linked.causal.mem_of_lt hlt)) ?_
  rintro rfl
  exact hxp (hle.1 (.inr hbp))

variable (hw : P.WellLocked) (hn : P.NonNested)

include hw hn

/-- What the lock depends on, and is not above `l`, is not above `p` or not above an unlock of the mutex
that is below `u`. -/
theorem le_of_dep (hsz : IsStep P T z t (i + 1) (.lock m)) (hy : y ∈ p :: B) (hyl : ¬ Le T l y)
    (hd : Dep T y z) :
    Le T y p ∨ ∃ w, (∃ t' j, IsStep P T w t' j (.unlock m)) ∧ Lt T w u ∧ Le T y w := by
  obtain ⟨hpc, -, -⟩ := hb.pc_eq hS
  obtain ⟨o, hsp⟩ := hb.own
  by_cases hyb : y = botEID
  · exact .inl (hyb ▸ .inr (h.wf.bot_lt hsp.mem (h.events.ne_bot hsp)))
  obtain ⟨ty, iy, oy, hsy⟩ := h.table.step y (hS.closed.mem y hy) hyb
  rcases (hsy.dep_iff hsz).1 hd with rfl | hm
  · -- a step of the thread
    have hiy := (hS.exec.lt_pc_iff h.events).2 ⟨y, hy, _, hsy⟩
    exact .inl (hS.exec.le_of_step_le h.events hy List.mem_cons_self hsy hsp (by omega))
  · have hlu := hb.lt h hS
    have hylt : Lt T y l := by
      rcases hb.last y hy _ _ _ hsy hm with (rfl | hlt) | rfl
      · exact absurd (.inl rfl) hyl
      · exact hlt
      · exact absurd (.inr hlu) hyl
    cases oy with
    | unlock m' =>
      obtain rfl : m' = m := hm
      exact .inr ⟨y, ⟨ty, iy, hsy⟩, hylt.trans hlu, .inl rfl⟩
    | lock m' =>
      obtain rfl : m' = m := hm
      obtain ⟨w, hsw, hyw, hwl⟩ := h.lock_lt hw hn hsy hylt
      exact .inr ⟨w, ⟨_, _, hsw⟩, hwl.trans_lt hlu, .inr hyw⟩

/-- **The lock that could have come before the section is entered.** -/
theorem exists_lockBefore (hf : Frontier T (p :: B) maxevs)
    (hfound : ThreadFound fuel maxevs p g t (.lock m) T r) : ∃ z, LockBefore P T p B t i m l z := by
  obtain ⟨hpc, -, -⟩ := hb.pc_eq hS
  obtain ⟨tl, j, hsl, hsu⟩ := hb.sect
  have hu := List.mem_cons_of_mem p hb.unlock_mem
  obtain ⟨us, hus, hall⟩ := hb.exists_unlocks h hS hf hfound
  have hord : ∀ x ∈ us, ∀ y ∈ us, Le T x y ∨ Lt T y x := by
    intro x hx y hy
    obtain ⟨hxu, -, tx, jx, hsx⟩ := (hus x).1 hx
    obtain ⟨hyu, -, ty, jy, hsy⟩ := (hus y).1 hy
    exact hS.exec.ordered hsx hsy (hS.closed.of_lt hu hxu) (hS.closed.of_lt hu hyu) (.inr rfl)
  obtain ⟨hz, hzm, hpz, hsub, hunder⟩ := exists_his_of_cases (p := p) hord h.wf.linked.id_lt
  obtain ⟨z, hze⟩ := hall hz hzm
  have hsz : IsStep P T z t (i + 1) (.lock m) := h.events.isStep hze.mem (hpc ▸ hze.name) hb.next
  have hzlt : ∀ {y q}, q ∈ hz → Le T y q → Lt T y z := fun hq hle =>
    hle.trans_lt (lt_of_mem_pred ((hze.pred _).2 hq))
  refine ⟨z, hsz, fun q hq => ?_, fun y hy hyl hd => ?_⟩
  · rcases hsub q ((hze.pred q).1 hq) with rfl | hq
    · exact ⟨List.mem_cons_self, hb.notLe⟩
    · obtain ⟨hqu, -, tq, jq, hsq⟩ := (hus q).1 hq
      refine ⟨hS.closed.of_lt hu hqu, fun hle => ?_⟩
      rcases (h.lt_unlock_iff hw hn hsl hsu (hb.lt h hS)).1 hqu with rfl | hlt
      · cases (hsq.unique hsl).2.2
      · exact h.causal.lt_irrefl (hlt.trans_le hle)
  · rcases hb.le_of_dep h hS hw hn hsz hy hyl hd with hyp | ⟨w, hsw, hwu, hyw⟩
    · exact hzlt hpz hyp
    · by_cases hwp : Le T w p
      · exact hzlt hpz (hyw.trans hwp)
      · obtain ⟨q, hq, hwq⟩ := hunder w ((hus w).2 ⟨hwu, hwp, hsw⟩)
        exact hzlt hq (hyw.trans hwq)

end PassedBy

/-- What is kept of the prefix `T` in `T'`: the events that are in conflict with one of the stack and have
their predecessors there. -/
def KeepsConflicts (S : EventsID) (T T' : Events LockAct) : Prop :=
  ∀ l ∈ S, ∀ z ∈ T.icnfOf l, (∀ q ∈ T.predOf z, q ∈ S) → z ∈ T'

theorem KeepsConflicts.of_keeps (hT : Linked T []) (h : ∀ x ∈ T, x ∈ T') : KeepsConflicts S T T' :=
  fun _ _ z hz _ => h z (hT.icnf_mem List.not_mem_nil hz)

/-- Conflicts that are kept twice, the second time with those of a larger stack. -/
theorem KeepsConflicts.trans {T'' : Events LockAct} {S' : EventsID} (h : KeepsConflicts S T T')
    (h' : KeepsConflicts S' T' T'') (hSS : ∀ x ∈ S, x ∈ S') (hs : Stable n T T') (hwf : WF T n)
    (hS : ∀ x ∈ S, x ∈ T ∧ x ∈ T') : KeepsConflicts S T T'' := by
  intro l hl z hz hpred
  have hzT := hwf.linked.icnf_mem List.not_mem_nil hz
  have hz' := h l hl z hz hpred
  have hi := hs.icnf_kept (hwf.lt_cntr (hS l hl).1) (hwf.lt_cntr hzT) (hS l hl).2 hz' hz
  refine h' l (hSS l hl) z hi fun q hq => hSS q (hpred q ?_)
  rwa [hs.pred (hwf.lt_cntr hzT) hz'] at hq

/-- The lock is in conflict with the one of the section. -/
theorem LockBefore.conflict (hz : LockBefore P T p B t i m l z) (hb : PassedBy P T p B t i m l u)
    (h : LockPrefix P T n) (hS : StackRun P T n (p :: B) g) : z ∈ T.icnfOf l := by
  obtain ⟨hpc, -, -⟩ := hb.pc_eq hS
  have hzS : z ∉ p :: B := fun hm => by
    have := (hS.exec.lt_pc_iff h.events).2 ⟨z, hm, _, hz.step⟩
    omega
  obtain ⟨tl, j, hsl, -⟩ := hb.sect
  have hlz : ¬ Lt T l z := by
    intro hlt
    obtain ⟨q, hq, hle⟩ := lt_iff_pred.1 hlt
    exact (hz.pred q hq).2 hle
  obtain ⟨c, hc, hcl, hcz⟩ := hS.exists_conflict h.past hzS (fun q hq => (hz.pred q hq).1)
    (List.mem_cons_of_mem p hb.lock_mem) ((hsl.dep_iff hz.step).2 (.inr rfl)) hlz
  rcases hcl with rfl | hcl
  · exact (h.wf.linked.icnf_symm List.not_mem_nil hcz).1
  · obtain ⟨hd, -, hge⟩ := h.table.icnf z c hcz
    have hlc : ¬ Le T l c := fun hle => h.causal.lt_irrefl (hcl.trans_le hle)
    exact absurd (.inr (hz.dep c hc hlc (h.table.dep_symm h.wf.bot hd))) hge

section Stable

variable (hs : Stable n T T') (hT' : Linked T' [])

include hs hT'

theorem PassedBy.of_stable (hb : PassedBy P T' p B t i m l u)
    (hold : ∀ x ∈ p :: B, x < n ∧ x ∈ T') : PassedBy P T p B t i m l u := by
  have hstep : ∀ {x t i o}, x ∈ p :: B → (IsStep P T' x t i o ↔ IsStep P T x t i o) := fun hx =>
    hs.isStep_iff (hold _ hx).1 (hold _ hx).2
  have hle : ∀ {x y}, y ∈ p :: B → (Le T' x y ↔ Le T x y) := fun hy =>
    or_congr_right (hs.lt_iff hT' (hold _ hy).1 (hold _ hy).2)
  have hp : p ∈ p :: B := List.mem_cons_self
  have hl := List.mem_cons_of_mem p hb.lock_mem
  have hu := List.mem_cons_of_mem p hb.unlock_mem
  obtain ⟨o, hsp⟩ := hb.own
  obtain ⟨tl, j, hsl, hsu⟩ := hb.sect
  exact ⟨⟨o, (hstep hp).1 hsp⟩, hb.next, ⟨tl, j, (hstep hl).1 hsl, (hstep hu).1 hsu⟩, hb.lock_mem,
    hb.unlock_mem, fun h => hb.notLe ((hle hp).2 h), fun y hy t i o hsy hm =>
    (hb.last y hy t i o ((hstep hy).2 hsy) hm).imp_left (hle hl).1⟩

theorem LockBefore.of_stable (hz : LockBefore P T p B t i m l z)
    (hold : ∀ x ∈ p :: B, x < n ∧ x ∈ T') (hzn : z < n) (hzT : z ∈ T') :
    LockBefore P T' p B t i m l z := by
  have hle : ∀ {x y}, y ∈ p :: B → (Le T' x y ↔ Le T x y) := fun hy =>
    or_congr_right (hs.lt_iff hT' (hold _ hy).1 (hold _ hy).2)
  refine ⟨hs.isStep hzn hzT hz.step, fun q hq => ?_, fun y hy hly hd => ?_⟩
  · rw [hs.pred hzn hzT] at hq
    obtain ⟨hqS, hlq⟩ := hz.pred q hq
    exact ⟨hqS, fun h => hlq ((hle hqS).1 h)⟩
  · rw [hs.dep_iff (hold y hy).1 (hold y hy).2 hzn hzT] at hd
    exact (hs.lt_iff hT' hzn hzT).2 (hz.dep y hy (fun h => hly ((hle hy).2 h)) hd)

/-- What was discovered stays so while the conflicts of the stack are kept. -/
theorem Discovered.of_stable (hd : Discovered P T S) (h : LockPrefix P T n) (hS : StackRun P T n S g)
    (hmem : ∀ x ∈ S, x ∈ T') (hkeep : KeepsConflicts S T T') : Discovered P T' S := by
  rintro A p B t i m l u rfl hb
  have hsub : ∀ {x}, x ∈ p :: B → x ∈ A ++ p :: B := fun hx => List.mem_append_right A hx
  have hold : ∀ x ∈ p :: B, x < n ∧ x ∈ T' := fun x hx =>
    ⟨h.wf.lt_cntr (hS.closed.mem x (hsub hx)), hmem x (hsub hx)⟩
  have hb' := hb.of_stable hs hT' hold
  obtain ⟨z, hz⟩ := hd A p B t i m l u rfl hb'
  obtain ⟨g', -, hpB, -⟩ := hS.suffix (List.suffix_append A (p :: B)) (List.cons_ne_nil p B)
  have hzl := hz.conflict hb' h hpB
  have hzT := hkeep l (hsub (List.mem_cons_of_mem p hb'.lock_mem)) z hzl fun q hq => hsub (hz.pred q hq).1
  exact ⟨z, hz.of_stable hs hT' hold (h.wf.lt_cntr hz.step.mem) hzT⟩

end Stable

/-- **Adding an event keeps what was discovered and discovers the lock after it.** -/
theorem LockUnfolded.discovered {s s₁ : UnfolderState (LockState P) LockAct}
    {c nc : Configuration (LockState P)} {d : EventsID} (hu : LockUnfolded fuel s c d e nc s₁)
    (hd : Discovered P s.evts s.stak) (h : LockPrefix P s.evts s.cntr) (hg : LockGood P s)
    (hc : EnabledOk s c) (he : e ∈ c.enevs) (heT : e ∈ s.evts)
    (hE : Executes P s.evts s.stak c.state) (h₁ : LockPrefix P s₁.evts s₁.cntr) (hw : P.WellLocked)
    (hn : P.NonNested) : Discovered P s₁.evts (e :: s.stak) := by
  have hext := hc.canExtend he heT
  have hE₁ : Executes P s₁.evts (e :: s.stak) nc.state :=
    hu.grows.stak ▸ hu.executes hg.toGood hc he heT hE
  have hrun₁ : StackRun P s₁.evts s₁.cntr (e :: s.stak) nc.state :=
    ⟨h₁.wf, h₁.table, hu.frontier.stack.closed, hE₁⟩
  intro A p B t i m l u hsplit hb
  rcases A with _ | ⟨a, A⟩
  · obtain ⟨rfl, rfl⟩ : e = p ∧ s.stak = B := by simpa using hsplit
    have hnext := hb.next_eq h₁ hrun₁ hw
    obtain ⟨o, hse₁⟩ := hb.own
    have hse := (hu.stable.isStep_iff (h.wf.lt_cntr heT) hse₁.mem).1 hse₁
    -- the events of the thread depend on `e`
    exact hb.exists_lockBefore h₁ hrun₁ hw hn hu.frontier
      (hu.found hg hc he heT hE h.past hw hn hse hnext (.inl rfl))
  · obtain ⟨-, hsplit⟩ := List.cons.inj hsplit
    exact hd.of_stable hu.stable h₁.wf.linked h ⟨h.wf, h.table, hg.stack.closed, hE⟩
      (fun x hx => hu.grows.keeps x (hg.stak_mem hx)) (.of_keeps h.wf.linked hu.grows.keeps)
      A p B t i m l u hsplit hb

end Poet
