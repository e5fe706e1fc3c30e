import Poet.Locks.Interleaving

/-!
# Critical sections in the prefix

Without nested critical sections an unlock is above its lock and what is below that
(`LockPrefix.unlock_below`), and what is above a lock is above its unlock (`LockPrefix.lock_lt`). Stacks of one
trace are the same events (`StackRun.mem_of_trace`), and the events of a stack whose steps come first in a
word of its trace are an execution (`StackRun.exists_part`). An event that a stack cannot be
extended with has a conflict there, below each event that it depends on and is not above
(`StackRun.exists_conflict`).
-/

namespace Poet

open scoped List

variable {P : LockProgram} {T T' : Events LockAct} {C S S' : EventsID} {g g' : LockState P}
  {e l u x y z : EventID} {n t t' i j m : Nat} {o o' : LockOp} {a b : EventInfo LockAct}

/-- Events of one name with the same past are one. -/
theorem WF.eq_of_past (h : WF T n) (hnd : NoDuplicates T) (hx : x ∈ T) (hy : y ∈ T)
    (hname : T.nameOf x = T.nameOf y) (hpast : ∀ w, Lt T w x ↔ Lt T w y) : x = y :=
  hnd x hx y hy hname fun p => by
    rw [h.mem_pred_iff, h.mem_pred_iff, hpast]
    simp only [hpast]

/-- The event with the name of a step is that step. -/
theorem LockEvents.isStep (h : LockEvents P T) (hx : x ∈ T) (hname : T.nameOf x = some (stepName t i))
    (hop : P.op t i = some o) : IsStep P T x t i o := by
  have hxb : x ≠ botEID := by
    rintro rfl
    exact stepName_ne_bot _ _ (Option.some_inj.1 (hname.symm.trans h.bot))
  obtain ⟨t', i', o', hsx⟩ := h.step x hx hxb
  obtain ⟨rfl, rfl⟩ := stepName_inj.1 (Option.some_inj.1 (hsx.name.symm.trans hname))
  obtain rfl := Option.some_inj.1 (hsx.op.symm.trans hop)
  exact hsx

/-- The steps of a thread are in order. -/
theorem Executes.le_of_step_le (h : Executes P T S g) (hT : LockEvents P T) (hx : x ∈ S) (hy : y ∈ S)
    (hsx : IsStep P T x t i o) (hsy : IsStep P T y t j o') (hij : i ≤ j) : Le T x y := by
  rcases Nat.lt_or_eq_of_le hij with hlt | rfl
  · exact .inr (h.lt_of_step_lt hT hx hy hsx hsy hlt)
  · exact .inl (h.eq_of_step hT hx hy hsx hsy)

/-- What holds of the prefix when a call is made. -/
structure LockPrefix (P : LockProgram) (T : Events LockAct) (n : Nat) : Prop where
  wf : WF T n
  table : LockTable P T
  past : PastOk P T
  unique : NoDuplicates T

namespace LockPrefix

variable (h : LockPrefix P T n)

include h

theorem causal : Causal T := h.wf.linked.causal

theorem events : LockEvents P T := h.table.toLockEvents

/-- The execution of what is below a step. -/
theorem exists_past (hsx : IsStep P T x t i o) :
    ∃ r g, Executes P T r g ∧ (∀ y, y ∈ r ↔ Lt T y x) ∧ g.pc t = i := by
  obtain ⟨r, g, t', o', hE, hmem, hsx'⟩ := h.past.past x hsx.mem (h.events.ne_bot hsx)
  obtain ⟨rfl, rfl, -⟩ := hsx.unique hsx'
  exact ⟨r, g, hE, hmem, rfl⟩

section Sections

variable (hw : P.WellLocked) (hn : P.NonNested)

include hw hn

/-- **Below an unlock are its lock and what is below that.** -/
theorem unlock_below (hsu : IsStep P T u t i (.unlock m)) :
    ∃ l j, i = j + 1 ∧ IsStep P T l t j (.lock m) ∧ ∀ y, Lt T y u ↔ Le T y l := by
  obtain ⟨j, rfl, hop⟩ := hn.lock_of_unlock hw hsu.op
  obtain ⟨r, g, hE, hmem, hpc⟩ := h.exists_past hsu
  obtain ⟨l, hl, hsl⟩ := hE.exists_step h.events (by omega) hop
  refine ⟨l, j, rfl, hsl, fun y => ⟨fun hy => ?_, fun hy => hy.trans_lt ((hmem l).1 hl)⟩⟩
  -- the thread has not unlocked the mutex below `u`
  have hlast : ∀ {w k}, w ∈ r → j < k → ¬ IsStep P T w t k (.unlock m) := fun hw hk hst => by
    have := (hE.lt_pc_iff h.events).2 ⟨_, hw, _, hst⟩
    omega
  obtain ⟨p, hp, hyp⟩ := lt_iff_pred.1 hy
  refine hyp.trans ?_
  have hpr := (hmem p).2 (lt_of_mem_pred hp)
  by_cases hpb : p = botEID
  · exact hpb ▸ .inr (h.wf.bot_lt hsl.mem (h.events.ne_bot hsl))
  obtain ⟨tp, ip, op, hsp⟩ := h.table.step p (h.causal.mem_of_pred hp) hpb
  by_cases htp : tp = t
  · subst htp
    have hip := (hE.lt_pc_iff h.events).2 ⟨p, hpr, _, hsp⟩
    exact hE.le_of_step_le h.events hpr hl hsp hsl (by omega)
  have hm : op.mutex = m := ((hsp.dep_iff hsu).1 (h.table.pred u p hp)).resolve_left htp
  rcases hE.ordered hsp hsl hpr hl (.inr hm) with hle | hlt
  · exact hle
  -- a step on the mutex after the lock is no lock, and an unlock only of a lock before
  cases op with
  | lock m' =>
    obtain rfl : m' = m := hm
    obtain ⟨w, hw, k, hk, hsw, -⟩ := hE.released h.events h.causal hpr hsp hl hsl hlt
    exact absurd hsw (hlast hw hk)
  | unlock m' =>
    obtain rfl : m' = m := hm
    obtain ⟨jp, rfl, hop'⟩ := hn.lock_of_unlock hw hsp.op
    have hip := (hE.lt_pc_iff h.events).2 ⟨p, hpr, _, hsp⟩
    obtain ⟨lp, hlp, hslp⟩ := hE.exists_step h.events (by omega) hop'
    rcases hE.ordered hsl hslp hl hlp (.inr rfl) with (heq | hlt') | hlt'
    · exact absurd (heq ▸ hsl |>.unique hslp).1 (Ne.symm htp)
    · obtain ⟨w, hw, k, hk, hsw, -⟩ := hE.released h.events h.causal hlp hslp hl hsl hlt'
      exact absurd hsw (hlast hw hk)
    · obtain ⟨w, hw, k, hk, hsw, hwl⟩ := hE.released h.events h.causal hl hsl hlp hslp hlt'
      have hwp : Lt T w p := hwl.trans hlt
      have := hE.step_lt_of_lt h.events h.causal hw hpr hsw hsp hwp
      omega

/-- **Above a lock is its unlock.** -/
theorem lock_lt (hsl : IsStep P T l t j (.lock m)) (hlt : Lt T l y) :
    ∃ u, IsStep P T u t (j + 1) (.unlock m) ∧ Lt T l u ∧ Le T u y := by
  induction y using Nat.strong_induction_on with
  | _ y ih =>
    obtain ⟨u, t', k, hsu, hlu, huy⟩ := h.past.exists_unlock h.table h.wf hw hn hsl hlt
    obtain ⟨l', j', rfl, hsl', hbelow⟩ := h.unlock_below hw hn hsu
    rcases (hbelow l).1 hlu with rfl | hlt'
    · obtain ⟨rfl, rfl, -⟩ := hsl.unique hsl'
      exact ⟨u, hsu, hlu, huy⟩
    · have hl'u := (hbelow l').2 (.inl rfl)
      have hl'y : l' < y := h.wf.linked.id_lt (hl'u.trans_le huy)
      obtain ⟨w, hsw, hlw, hwl⟩ := ih l' hl'y hlt'
      exact ⟨w, hsw, hlw, .inr (hwl.trans_lt (hl'u.trans_le huy))⟩

theorem lt_unlock_iff (hsl : IsStep P T l t j (.lock m)) (hsu : IsStep P T u t (j + 1) (.unlock m))
    (hlu : Lt T l u) : Lt T y u ↔ Le T y l := by
  obtain ⟨l', j', hj, hsl', hb⟩ := h.unlock_below hw hn hsu
  obtain rfl : j = j' := by omega
  obtain ⟨r, g, hE, hmem, -⟩ := h.exists_past hsu
  rw [hE.eq_of_step h.events ((hmem l).2 hlu) ((hmem l').2 ((hb l').2 (.inl rfl))) hsl hsl']
  exact hb y

/-- A lock has one unlock. -/
theorem unlock_eq (hsl : IsStep P T l t j (.lock m)) (hsu : IsStep P T u t (j + 1) o)
    (hlu : Lt T l u) (hsx : IsStep P T x t (j + 1) o') (hlx : Lt T l x) : u = x := by
  obtain rfl := hn.unlock_of_lock hw hsl.op hsu.op
  obtain rfl := hn.unlock_of_lock hw hsl.op hsx.op
  exact h.wf.eq_of_past h.unique hsu.mem hsx.mem (hsu.name.trans hsx.name.symm) fun w => by
    rw [h.lt_unlock_iff hw hn hsl hsu hlu, h.lt_unlock_iff hw hn hsl hsx hlx]

end Sections

end LockPrefix

/-! ## Stacks -/

namespace StackRun

theorem nodup (h : StackRun P T n S g) : S.Nodup := by
  have hT := h.table.toLockEvents
  have hE := h.exec
  clear h
  induction hE with
  | bot => exact List.nodup_singleton _
  | push hE hx _ _ ih =>
    refine List.nodup_cons.2 ⟨fun hm => ?_, ih⟩
    exact Nat.lt_irrefl _ ((hE.lt_pc_iff hT).2 ⟨_, hm, _, hx⟩)

theorem bot_mem (h : StackRun P T n S g) : botEID ∈ S := by
  have hE := h.exec
  clear h
  induction hE with
  | bot => exact List.mem_singleton.2 rfl
  | push _ _ _ _ ih => exact List.mem_cons_of_mem _ ih

theorem ordered (h : StackRun P T n S g) (hx : x ∈ S) (hy : y ∈ S) (hd : Dep T x y) :
    Le T x y ∨ Lt T y x := by
  by_cases hxb : x = botEID
  · by_cases hyb : y = botEID
    · exact .inl (.inl (hxb.trans hyb.symm))
    · exact .inl (.inr (hxb ▸ h.wf.bot_lt (h.closed.mem y hy) hyb))
  by_cases hyb : y = botEID
  · exact .inr (hyb ▸ h.wf.bot_lt (h.closed.mem x hx) hxb)
  obtain ⟨t, i, o, hsx⟩ := h.table.step x (h.closed.mem x hx) hxb
  obtain ⟨t', j, o', hsy⟩ := h.table.step y (h.closed.mem y hy) hyb
  exact h.exec.ordered hsx hsy hx hy ((hsx.dep_iff hsy).1 hd)

theorem conflictFree (h : StackRun P T n S g) (hx : x ∈ S) (hy : y ∈ S) : y ∉ T.icnfOf x := by
  intro hi
  obtain ⟨hd, hle, hge⟩ := h.table.icnf x y hi
  rcases h.ordered hx hy hd with hxy | hyx
  · exact hle hxy
  · exact hge (.inr hyx)

/-- The events of a thread depend on each other. -/
theorem canExtend_of_dep (hS : StackRun P T n S g) (hxT : x ∈ T) (hxS : x ∉ S)
    (hpred : ∀ p ∈ T.predOf x, p ∈ S) (hdep : ∀ y ∈ S, Dep T y x → Lt T y x) : CanExtend T S x := by
  have hxb : x ≠ botEID := fun heq => hxS (heq ▸ hS.bot_mem)
  refine ⟨⟨hxS, hpred, fun y hy htid => ?_⟩, hxT, hdep⟩
  by_cases hyb : y = botEID
  · exact hyb ▸ hS.wf.bot_lt hxT hxb
  · obtain ⟨t, i, o, hst⟩ := hS.table.step x hxT hxb
    obtain ⟨t', i', o', hst'⟩ := hS.table.step y (hS.closed.mem y hy) hyb
    rw [hst'.tidOf, hst.tidOf, Option.some_inj] at htid
    exact hdep y hy ((hst'.dep_iff hst).2 (.inl (Int.ofNat.inj htid)))

/-- **Where an event is not above what it depends on, it has a conflict.** -/
theorem exists_conflict (h : StackRun P T n S g) (hp : PastOk P T) (hx : x ∉ S)
    (hpred : ∀ p ∈ T.predOf x, p ∈ S) (hy : y ∈ S) (hd : Dep T y x) (hno : ¬ Lt T y x) :
    ∃ c ∈ S, Le T c y ∧ c ∈ T.icnfOf x := by
  have hbelow : ∀ w, Lt T w x → w ∈ S := fun _ => h.closed.of_pred hpred
  induction y using Nat.strong_induction_on with
  | _ y ih =>
    -- the first event of the stack that `x` depends on and is not above
    by_cases hfirst : ∃ w, Lt T w y ∧ Dep T w x ∧ ¬ Lt T w x
    · obtain ⟨w, hwy, hwd, hwx⟩ := hfirst
      obtain ⟨c, hc, hcw, hcx⟩ := ih w (h.wf.linked.id_lt hwy) (h.closed.of_lt hy hwy) hwd hwx
      exact ⟨c, hc, .inr (hcw.trans_lt hwy), hcx⟩
    push Not at hfirst
    have hyx : y ≠ x := fun heq => hx (heq ▸ hy)
    refine ⟨y, hy, .inl rfl, hp.conflicts ⟨h.table.dep_symm h.wf.bot hd, fun hle => ?_, fun hle => ?_,
      fun w hw hwd => ?_, hfirst, fun z w hz hw hi => ?_⟩⟩
    · exact hx (h.closed.of_le hy hle)
    · exact hle.elim hyx hno
    · rcases h.ordered (hbelow w hw) hy hwd with (rfl | hlt) | hlt
      · exact absurd hw hno
      · exact hlt
      · exact absurd (hlt.trans hw) hno
    · have hwS := h.closed.of_le hy hw
      rcases hz with rfl | hz
      · refine ⟨rfl, ?_⟩
        rcases hw with rfl | hw
        · rfl
        obtain ⟨hdw, hle, hge⟩ := h.table.icnf z w hi
        exact absurd (.inr (hfirst w hw (h.table.dep_symm h.wf.bot hdw))) hge
      · exact absurd hi (h.conflictFree (hbelow z hz) hwS)

/-- An event of the stack is in conflict with one that a part of the stack can be extended with, if it is
the first outside of the part that this depends on. -/
theorem conflict_of_first (h : StackRun P T n S g) (hp : PastOk P T) (hC : ∀ w ∈ C, w ∈ S)
    (hclosed : DownClosed T (· ∈ C)) (hx : CanExtend T C x) (hxS : x ∉ S) (hy : y ∈ S) (hyC : y ∉ C)
    (hd : Dep T y x) (hfirst : ∀ w ∈ S, w ∉ C → Lt T w y → ¬ Dep T w x) : x ∈ T.icnfOf y := by
  have hyx : ¬ Lt T y x := fun hlt => hyC (hclosed.of_pred hx.pred hlt)
  obtain ⟨c, hc, hcy, hcx⟩ := h.exists_conflict hp hxS (fun p hpx => hC p (hx.pred p hpx)) hy hd hyx
  rcases hcy with rfl | hcy
  · exact (h.wf.linked.icnf_symm List.not_mem_nil hcx).1
  by_cases hcC : c ∈ C
  · exact absurd hcx (hx.noConflict h.table h.wf.bot hcC)
  · exact absurd (h.table.dep_symm h.wf.bot (h.table.icnf x c hcx).1) (hfirst c hc hcC hcy)

/-! ## Stacks and traces -/

/-- **Stacks of one trace are the same events.** -/
theorem mem_of_trace (h : StackRun P T n S g) (h' : StackRun P T n S' g') (hnd : NoDuplicates T)
    (heq : (Trace.mk _ (wordOf T S) : LockTrace) = .mk _ (wordOf T S')) : ∀ x : Nat, x ∈ S → x ∈ S' := by
  intro x
  induction x using Nat.strong_induction_on with
  | _ x ih =>
    intro hx
    by_cases hxb : x = botEID
    · exact hxb ▸ h'.bot_mem
    have hev := h.table.toLockEvents
    obtain ⟨t, i, o, hsx⟩ := h.table.step x (h.closed.mem x hx) hxb
    obtain ⟨y, hy, hyb, hyi⟩ := mem_wordOf.1 (((Trace.same_of_mk_eq isDependent_symm heq).1 _).1
      (mem_wordOf.2 ⟨x, hx, hxb, hsx.infoOf⟩))
    have hinfo : T.infoOf y = T.infoOf x := hyi.trans hsx.infoOf.symm
    -- what is below `x` is in both stacks
    have hpast : ∀ w, Lt T w x ↔ Lt T w y := by
      intro w
      by_cases hwb : w = botEID
      · subst hwb
        exact iff_of_true (h.wf.bot_lt (h.closed.mem x hx) hxb) (h.wf.bot_lt (h'.closed.mem y hy) hyb)
      constructor
      · intro hwx
        obtain ⟨w', hw', -, hi, hlt⟩ := h.exists_lt h' heq x y hx hy hxb hyb hinfo w hwb hwx
        have hws := ih w (h.wf.linked.id_lt hwx) (h.closed.of_lt hx hwx)
        rwa [h'.exec.eq_of_infoOf hev hws hw' (h'.closed.mem w hws) hwb hi]
      · intro hwy
        obtain ⟨w', hw', hwb', hi, hlt⟩ := h'.exists_lt h heq.symm y x hy hx hyb hxb hinfo.symm w hwb hwy
        have hws := ih w' (h.wf.linked.id_lt hlt) hw'
        rwa [← h'.exec.eq_of_infoOf hev hws (h'.closed.of_lt hy hwy) (h'.closed.mem w' hws) hwb' hi.symm]
    have hname : T.nameOf x = T.nameOf y := by
      obtain ⟨t', i', o', hsy⟩ := h.table.step y (h'.closed.mem y hy) hyb
      rw [hsy.infoOf, hsx.infoOf, Option.some_inj, Prod.mk.injEq] at hinfo
      rw [hsx.name, hsy.name, hinfo.1]
    exact h.wf.eq_of_past hnd (h.closed.mem x hx) (h'.closed.mem y hy) hname hpast ▸ hy

end StackRun

/-! ## Parts of a stack -/

/-- The stack `S` is `C` with the steps `w` above it. -/
structure StepsOver (P : LockProgram) (T : Events LockAct) (n : Nat) (C : EventsID) (g : LockState P)
    (w : List LockStep) (S : EventsID) (g' : LockState P) : Prop where
  low : StackRun P T n C g
  high : StackRun P T n S g'
  steps : Interleaves g w g'
  word : wordOf T S = wordOf T C ++ w.map LockStep.info
  event : ∀ a ∈ w, ∃ x ∈ S, x ∉ C ∧ IsStep P T x a.tid a.idx a.op
  step : ∀ x ∈ S, x ∉ C → ∃ a ∈ w, IsStep P T x a.tid a.idx a.op

namespace StackRun

/-- Without its last event a stack is one. -/
theorem tail (h : StackRun P T n (x :: S) g) (hS : S ≠ []) : ∃ t o g', StackRun P T n S g' ∧
    IsStep P T x t (g'.pc t) o ∧ g'.next t = some o ∧ g = g'.step t ∧
    ∀ y ∈ S, Dep T y x → Lt T y x := by
  obtain ⟨hwf, hT, hclosed, hE⟩ := h
  cases hE with
  | bot => exact absurd rfl hS
  | @push _ g' _ t o hE hx hnext hdep =>
    refine ⟨t, o, g', ⟨hwf, hT, ⟨fun y hy => hclosed.mem y (List.mem_cons_of_mem x hy),
      fun y hy p hp => ?_⟩, hE⟩, hx, hnext, rfl, hdep⟩
    rcases List.mem_cons.1 (hclosed.pred y (List.mem_cons_of_mem x hy) p hp) with rfl | hpS
    · -- nothing that depends on the last event is above it
      have hback := hdep y hy (hT.dep_symm hwf.bot (hT.pred y p hp))
      exact absurd (hback.trans (lt_of_mem_pred hp)) hwf.linked.causal.lt_irrefl
    · exact hpS

/-- The lower part of a stack, and the steps above it. -/
theorem suffix (h : StackRun P T n S g) (hC : C <:+ S) (hb : C ≠ []) :
    ∃ g' w, StepsOver P T n C g' w S g := by
  obtain ⟨A, rfl⟩ := hC
  induction A generalizing g with
  | nil => exact ⟨g, [], h, h, .nil g, by simp, by simp, fun x hx hxC => absurd hx hxC⟩
  | cons x A ih =>
    have hnd := h.nodup
    rw [List.cons_append] at h hnd
    obtain ⟨hxA, -⟩ := List.nodup_cons.1 hnd
    obtain ⟨t, o, g₁, h₁, hx, hnext, rfl, -⟩ := h.tail (List.append_ne_nil_of_right_ne_nil A hb)
    obtain ⟨g', w, hw⟩ := ih h₁
    have hxC : x ∉ C := fun hm => hxA (List.mem_append_right A hm)
    refine ⟨g', w ++ [⟨t, g₁.pc t, o⟩], hw.low, h, hw.steps.append (.cons rfl hnext (.nil _)),
      ?_, ?_, ?_⟩
    · rw [List.cons_append, wordOf_cons (h.table.toLockEvents.ne_bot hx) hx.infoOf, hw.word,
        List.map_append, List.append_assoc]
      rfl
    · intro a ha
      rcases List.mem_append.1 ha with ha | ha
      · obtain ⟨y, hy, hyC, hst⟩ := hw.event a ha
        exact ⟨y, List.mem_cons_of_mem x hy, hyC, hst⟩
      · obtain rfl := List.mem_singleton.1 ha
        exact ⟨x, List.mem_cons_self, hxC, hx⟩
    · intro y hy hyC
      rcases List.mem_cons.1 hy with rfl | hy
      · exact ⟨_, List.mem_append_right w (List.mem_singleton.2 rfl), hx⟩
      · obtain ⟨a, ha, hst⟩ := hw.step y hy hyC
        exact ⟨a, List.mem_append_left _ ha, hst⟩

/-- No event of a stack is below an earlier one. -/
theorem pairwise : ∀ {S : EventsID} {g : LockState P}, StackRun P T n S g →
    S.Pairwise fun x y => ¬ Lt T x y
  | [], _, _ => .nil
  | [x], _, _ => List.pairwise_singleton _ _
  | x :: y :: S, _, h => by
    obtain ⟨hxS, -⟩ := List.nodup_cons.1 h.nodup
    obtain ⟨t, o, g', h', -⟩ := h.tail (List.cons_ne_nil y S)
    exact List.pairwise_cons.2 ⟨fun z hz hlt => hxS (h'.closed.of_lt hz hlt), h'.pairwise⟩

open Classical in
/-- **The events of a stack whose steps come first in a word of its trace are a stack.** -/
theorem exists_part (h : StackRun P T n S g) {u v : List (EventInfo LockAct)}
    (heq : (Trace.mk _ (wordOf T S) : LockTrace) = .mk _ (u ++ v)) (hnd : (u ++ v).Nodup) :
    ∃ R g', StackRun P T n R g' ∧ (∀ x, x ∈ R ↔ x ∈ S ∧ (x = botEID ∨ ∃ a ∈ u, T.infoOf x = some a)) ∧
      (Trace.mk _ (wordOf T R) : LockTrace) = .mk _ u := by
  have hev := h.table.toLockEvents
  have hc := h.wf.linked.causal
  have hsame := Trace.same_of_mk_eq isDependent_symm heq
  let R := S.filter fun x => x ≠ botEID ∧ ∃ a ∈ u, T.infoOf x = some a
  have hmemR : ∀ {x}, x ∈ R ↔ x ∈ S ∧ x ≠ botEID ∧ ∃ a ∈ u, T.infoOf x = some a := by
    simp [R]
  -- what comes before a step of `u` that it depends on is in `u`
  have hbefore : ∀ {a b}, isDependent a b = true → [a, b] <+ u ++ v → b ∈ u → a ∈ u := by
    intro a b _ hab hb
    rcases pair_sublist_append.1 hab with hu | ⟨hu, -⟩ | hv
    · exact hu.subset (by simp)
    · exact hu
    · exact absurd rfl ((List.nodup_append.1 hnd).2.2 b hb b (hv.subset (by simp)))
  have hclosed : ∀ x ∈ R, ∀ y, Lt T y x → y ≠ botEID → y ∈ R := by
    intro x
    induction x using Nat.strong_induction_on with
    | _ x ih =>
      intro hx y hlt hyb
      obtain ⟨hxS, hxb, b, hb, hxi⟩ := hmemR.1 hx
      obtain ⟨p, hp, hyp⟩ := lt_iff_pred.1 hlt
      have hpx := lt_of_mem_pred hp
      have hpS := h.closed.of_lt hxS hpx
      have hpb : p ≠ botEID := by
        rintro rfl
        rcases hyp with rfl | hyp
        · exact hyb rfl
        · exact Nat.not_lt_zero y (h.wf.linked.id_lt hyp)
      obtain ⟨tp, ip, op, hsp⟩ := h.table.step p (h.closed.mem p hpS) hpb
      have hd := (infoOf_dep hsp.infoOf hxi).1 (h.table.pred x p hp)
      have hpR : p ∈ R := by
        refine hmemR.2 ⟨hpS, hpb, _, hbefore hd ?_ hb, hsp.infoOf⟩
        exact (hsame.2 _ _ hd).1 ((h.exec.before_iff hev hc hd).2
          ⟨p, hpS, x, hxS, hpb, hxb, hsp.infoOf, hxi, hpx⟩)
      rcases hyp with rfl | hyp
      · exact hpR
      · exact ih p (h.wf.linked.pred_lt hp) hpR y hyp hyb
  have hmem : ∀ x, x ∈ R ++ [botEID] ↔
      x ∈ S ∧ (x = botEID ∨ ∃ a ∈ u, T.infoOf x = some a) := by
    intro x
    rw [List.mem_append, List.mem_singleton, hmemR]
    constructor
    · rintro (⟨hx, -, ha⟩ | rfl)
      · exact ⟨hx, .inr ha⟩
      · exact ⟨h.bot_mem, .inl rfl⟩
    · rintro ⟨hx, ha⟩
      by_cases hb : x = botEID
      · exact .inr hb
      · exact .inl ⟨hx, hb, ha.resolve_left hb⟩
  obtain ⟨g', hE⟩ := h.exec.part hev hc (fun x hx => h.closed.mem x hx)
    (fun x hx hxb => h.wf.bot_lt hx hxb) R (h.nodup.filter _)
    (fun x hx => ⟨(hmemR.1 hx).1, (hmemR.1 hx).2.1⟩) hclosed
    (h.pairwise.sublist List.filter_sublist)
  have hrun : StackRun P T n (R ++ [botEID]) g' := by
    refine ⟨h.wf, h.table, ⟨fun x hx => h.closed.mem x ((hmem x).1 hx).1, fun x hx p hp => ?_⟩, hE⟩
    by_cases hpb : p = botEID
    · exact List.mem_append_right R (List.mem_singleton.2 hpb)
    · have hxb : x ≠ botEID := by
        rintro rfl
        exact Nat.not_lt_zero p (h.wf.linked.pred_lt hp)
      refine List.mem_append_left _ (hclosed x ?_ p (lt_of_mem_pred hp) hpb)
      exact (List.mem_append.1 hx).resolve_right fun hb => hxb (List.mem_singleton.1 hb)
  refine ⟨R ++ [botEID], g', hrun, hmem, ?_⟩
  refine (Trace.mk_eq_iff isDependent_symm (hE.wordOf_nodup hev) (List.nodup_append.1 hnd).1).2
    ⟨fun a => ?_, fun a b hd => ?_⟩
  · rw [mem_wordOf]
    constructor
    · rintro ⟨x, hx, hxb, hxa⟩
      obtain ⟨-, hb | ⟨b, hb, hxb'⟩⟩ := (hmem x).1 hx
      · exact absurd hb hxb
      · rwa [Option.some_inj.1 (hxa.symm.trans hxb')]
    · intro ha
      obtain ⟨x, hx, hxb, hxa⟩ := mem_wordOf.1 ((hsame.1 a).2 (List.mem_append_left v ha))
      exact ⟨x, (hmem x).2 ⟨hx, .inr ⟨a, ha, hxa⟩⟩, hxb, hxa⟩
  · rw [hE.before_iff hev hc hd]
    have hall := (h.exec.before_iff hev hc hd).symm.trans (hsame.2 a b hd)
    constructor
    · rintro ⟨x, hx, y, hy, hxb, hyb, hxa, hya, hlt⟩
      have hab := hall.1 ⟨x, ((hmem x).1 hx).1, y, ((hmem y).1 hy).1, hxb, hyb, hxa, hya, hlt⟩
      obtain ⟨-, hb | ⟨b', hb, hyb'⟩⟩ := (hmem y).1 hy
      · exact absurd hb hyb
      obtain rfl := Option.some_inj.1 (hya.symm.trans hyb')
      rcases pair_sublist_append.1 hab with hu | ⟨-, hv⟩ | hv
      · exact hu
      · exact absurd rfl ((List.nodup_append.1 hnd).2.2 b hb b hv)
      · exact absurd rfl ((List.nodup_append.1 hnd).2.2 b hb b (hv.subset (by simp)))
    · intro hab
      obtain ⟨x, hx, y, hy, hxb, hyb, hxa, hya, hlt⟩ := hall.2 (hab.trans (List.sublist_append_left u v))
      exact ⟨x, (hmem x).2 ⟨hx, .inr ⟨a, hab.subset (by simp), hxa⟩⟩, y,
        (hmem y).2 ⟨hy, .inr ⟨b, hab.subset (by simp), hya⟩⟩, hxb, hyb, hxa, hya, hlt⟩

end StackRun

end Poet
