import Mathlib.Data.Set.Card
import Poet.Locks.Complete
import Poet.Model.DfsTree

/-!
# A run finds every trace once

The traces of a program are those of its maximal interleavings (`LockProgram.traces`). Where every thread
gives back the mutexes that others use, the calls of a run at maximal configurations find exactly them, in
stateful and in stateless mode; so both modes find the same traces, and `nrMaxConf` is their number. It is
at most the number of maximal interleavings, which `dfs_tree` counts.
-/

namespace Poet

variable {P : LockProgram} {s s' : UnfolderState (LockState P) LockAct} {c : Configuration (LockState P)}
  {fuel t : Nat} {o : LockOp} {stl : Bool} {τ : LockTrace} {g g' g'' : LockState P} {w w' : List LockStep}

/-! ## The first call -/

/-- Each thread that can start was extended from bottom. -/
theorem InitialOk.found (h : InitialOk fuel (iUnfState stl false 10 P.system) c s)
    (hok : SearchOk stl s c [] []) (hnext : c.state.next t = some o) :
    ∃ x ∈ c.enevs, IsStep P s.evts x t (c.state.pc t) o := by
  obtain ⟨trs, htrs, hd⟩ := h.done
  rw [h.state] at hnext ⊢
  have hpre := hok.lockPrefix
  obtain ⟨h0, T₀, n₀, hwf₀, hst₀, hkeeps, hmax, hh, hfound⟩ := hd.found t o (htrs t o hnext) hnext
  have hh₁ := hh.of_older hst₀.toOlder hwf₀ hpre.wf.linked hkeeps
    (fun y hy => hst₀.acts (hwf₀.lt_cntr hy) (hkeeps y hy)) hmax
  -- bottom is the only event of the configuration, and every step depends on it
  have hbh : botEID ∈ h0 := by
    obtain ⟨y, hy, rfl | hlt⟩ := hh₁.cover botEID ⟨botEID, List.mem_cons_self, .inl rfl⟩
      (hpre.events.dependsOn_bot hpre.wf.bot _)
    · exact hy
    · obtain ⟨b, hb, hle⟩ := hh₁.under y hy
      obtain rfl := List.mem_singleton.1 hb
      rcases hle with rfl | hlt'
      · exact hy
      · exact absurd (hlt.trans hlt') hpre.causal.lt_irrefl
  obtain ⟨⟨x, hx, hxe⟩, -⟩ := hfound hbh
  exact ⟨x, hx, hpre.events.isStep hxe.mem hxe.name (LockState.op_of_next hnext)⟩

/-- The first call finds all interleavings. -/
theorem InitialOk.targetOk (hw : P.WellLocked) (hnn : P.NonNested)
    (h : InitialOk fuel (iUnfState stl false 10 P.system) c s)
    (hq : Quiet (iUnfState stl false 10 P.system) s) : TargetOk stl s c [] [] := by
  have hok := h.searchOk hw hnn hq
  have hpre := hok.lockPrefix
  have hstak : s.stak = [botEID] := hq.stak
  obtain ⟨trs, -, hd⟩ := h.done
  refine ⟨hok, fun A p B t i m l u hS hb => ?_, fun x v hv => ?_, fun l z D hd => ?_, .inl rfl,
    fun t o hnext => h.found hok hnext, fun _ x hx hne => ?_⟩
  · -- there is nothing below bottom
    rw [hstak] at hS
    have hlB := hb.lock_mem
    cases A with
    | nil =>
      obtain ⟨-, rfl⟩ := List.cons.inj hS
      cases hlB
    | cons a A => simp at hS
  · rw [(hd.steps.sameAltes x).1] at hv
    simp only [iUnfState, Events.alteOf, lookup_botPrefix] at hv
    split at hv <;> simp [botEvent] at hv
  · simp at hd
  · -- bottom is below its conflicts, which it therefore does not have
    rw [hstak, List.mem_singleton] at hx
    subst hx
    obtain ⟨y, hy⟩ := List.exists_mem_of_ne_nil _ hne
    have hyT := hpre.wf.linked.icnf_mem List.not_mem_nil hy
    refine absurd ?_ (hpre.table.icnf _ _ hy).2.1
    by_cases hyb : y = botEID
    · exact .inl hyb.symm
    · exact .inr (hpre.wf.bot_lt hyT hyb)

/-- Where all mutexes are given back, no thread waits for ever. -/
theorem LockState.Stuck.op_eq_none {g : LockState P} (hstuck : g.Stuck) (hw : P.WellLocked)
    (hnn : P.NonNested) (hr : P.ReleasesShared) (t : Nat) : P.op t (g.pc t) = none := by
  by_contra hne
  obtain ⟨o, ho⟩ := Option.ne_none_iff_exists'.1 hne
  have hwait : g.next t = none := hstuck t
  cases o with
  | unlock m => rw [LockState.next_eq_some.2 ⟨ho, fun m hm => by cases hm⟩] at hwait; cases hwait
  | lock m =>
    -- the thread that holds the mutex has its unlock next
    have hheld : g.held m = true := by
      by_contra hfree
      rw [LockState.next_eq_some.2 ⟨ho, fun m' hm => by cases hm; simpa using hfree⟩] at hwait
      cases hwait
    obtain ⟨t', j, hj, hl, hno⟩ := LockState.held_iff.1 hheld
    have hne : t ≠ t' := by
      rintro rfl
      exact LockProgram.WellLocked.not_holds_of_lock hw ho (holds_iff.2 ⟨j, hj, hl, hno⟩)
    have hunl := hr.unlock_of_lock hw hnn hl ho rfl hne
    have hpc : g.pc t' = j + 1 := by
      by_contra hpc
      exact hno (j + 1) _ (by omega) (by omega) hunl rfl
    have hwait' : g.next t' = none := hstuck t'
    rw [LockState.next_eq_some.2 ⟨hpc ▸ hunl, fun m hm => by cases hm⟩] at hwait'
    cases hwait'

/-- The interleavings that cannot be continued. -/
def LockProgram.maximal (P : LockProgram) : Set (List LockStep) :=
  {w | ∃ g', Interleaves (LockState.init P) w g' ∧ g'.Stuck}

/-- Their traces. -/
def LockProgram.traces (P : LockProgram) : Set LockTrace :=
  (fun w => .mk _ (w.map LockStep.info)) '' P.maximal

/-- The traces that the calls of a run at maximal configurations find. -/
def LockProgram.found (P : LockProgram) (fuel : Nat) (stl : Bool) : List LockTrace :=
  (maximalCalls (P.unfold fuel stl).2.calls).map Call.trace

/-! ## The search without reduction -/

theorem mem_threadSteps (hlen : g.pcs.length = P.length) (hnext : g.next t = some o) :
    ∃ ts, threadSteps P.system g = some ts ∧ ((t : Int), g.step t) ∈ ts := by
  have ht : t < g.pcs.length := hlen ▸ Interleaves.lt_length hlen hnext
  refine ⟨_, threadSteps_eq_some.2 LockProgram.enabled_system, List.mem_filterMap.2
    ⟨(t, g.pcs[t]), List.mem_map.2 ⟨(g.pcs[t], t), ?_, rfl⟩, by simp [lockRun_of_next hnext]⟩⟩
  exact List.mem_zipIdx_iff_getElem?.2 (List.getElem?_eq_getElem ht)

theorem LockState.Stuck.no_steps (h : g.Stuck) : threadSteps P.system g = some [] := by
  rw [threadSteps_eq_some, LockProgram.enabled_system, List.filterMap_eq_nil_iff.2]
  intro p _
  rw [Option.map_eq_none_iff, Option.eq_none_iff_forall_ne_some]
  intro g' hg'
  obtain ⟨t, o, hnext, -⟩ := LockProgram.exists_next hg'
  rw [h t] at hnext
  cases hnext

/-- The threads of the steps. -/
def threadsOf (w : List LockStep) : List TId := w.map fun a => (a.tid : Int)

namespace Interleaves

/-- An interleaving is a path of the computation tree. -/
theorem walk (hw : Interleaves g w g') (hlen : g.pcs.length = P.length) :
    Walk (threadSteps P.system) g (threadsOf w) g' := by
  induction hw with
  | nil g => exact .nil g
  | @cons g g' a w _ hnext _ ih =>
    obtain ⟨ts, hts, hmem⟩ := mem_threadSteps hlen hnext
    exact .cons hts hmem (ih ((LockState.step_length g a.tid).trans hlen))

/-- It is known by its threads. -/
theorem eq_of_threads (hw : Interleaves g w g') (hw' : Interleaves g w' g'')
    (h : threadsOf w = threadsOf w') : w = w' := by
  induction hw generalizing w' with
  | nil => exact (List.map_eq_nil_iff.1 h.symm).symm
  | @cons g g' a w hidx hnext _ ih =>
    cases hw' with
    | nil => simp [threadsOf] at h
    | @cons _ _ b w' hidx' hnext' hw' =>
      obtain ⟨htid, hrest⟩ := List.cons.inj h
      obtain ⟨t, i, o⟩ := a
      obtain ⟨t', i', o'⟩ := b
      obtain rfl : t = t' := Int.ofNat.inj htid
      obtain rfl : i = i' := hidx.trans hidx'.symm
      obtain rfl : o = o' := Option.some_inj.1 (hnext.symm.trans hnext')
      rw [ih hw' hrest]

end Interleaves

theorem ncard_maximal_le (P : LockProgram) :
    P.maximal.Finite ∧ P.maximal.ncard ≤ traces P.system P.system.gbst := by
  have hc := P.finiteTree_system.treeCounted
  have hpaths := encard_threadSteps P.finiteTree_system P.threadsOnce_system
  have hfin : (leafPaths (threadSteps P.system) P.system.gbst).Finite := by
    rw [← Set.encard_ne_top_iff, hpaths, Set.encard_ne_top_iff]
    exact hc.finite
  have hmaps : Set.MapsTo threadsOf P.maximal (leafPaths (threadSteps P.system) P.system.gbst) := by
    rintro w ⟨g', hw, hstuck⟩
    exact ⟨g', hw.walk (by simp [LockState.init]), hstuck.no_steps⟩
  have hinj : Set.InjOn threadsOf P.maximal := by
    rintro w ⟨g, hw, -⟩ w' ⟨g', hw', -⟩ h
    exact hw.eq_of_threads hw' h
  exact ⟨.of_injOn hmaps hinj hfin, (Set.ncard_le_ncard_of_injOn _ hmaps hinj hfin).trans_eq
    (congrArg ENat.toNat hpaths)⟩

/-! ## Every run -/

section Released

variable (hw : P.WellLocked) (hnn : P.NonNested) (hr : P.ReleasesShared) (hfuel : P.depth < fuel)

include hw hnn hfuel

/-- The run returns from its first call. -/
theorem exists_explored (stl : Bool) : (P.unfold fuel stl).1 = .ok () ∧
    ∃ c s, InitialOk fuel (iUnfState stl false 10 P.system) c s ∧
      Quiet (iUnfState stl false 10 P.system) s ∧
      Explored stl true fuel s c botEID [] [] (P.unfold fuel stl).2 := by
  have h := botExplore_explored hw hnn stl fuel
  rw [LockProgram.unfold, unfolder]
  rcases hrun : botExplore fuel (iUnfState stl false 10 P.system) with ⟨err | _, s'⟩
  · obtain ⟨-, c, s, -, hq, hex⟩ := h.of_eq_error hrun
    have hdepth := hex.depth_le rfl
    have hstak : s.stak = [botEID] := hq.stak
    rw [hstak, List.length_singleton, List.length_nil] at hdepth
    omega
  · exact ⟨rfl, h.of_eq_ok hrun⟩

theorem found_nodup (stl : Bool) : (P.found fuel stl).Nodup ∧
    (P.unfold fuel stl).2.stats.nrMaxConf = (P.found fuel stl).length := by
  obtain ⟨-, c, s, -, hq, hex⟩ := exists_explored hw hnn hfuel stl
  obtain ⟨new, hcalls, hnew, hnr⟩ := hex.finds
  have hnil : s.calls = [] := hq.calls
  have hzero : s.stats.nrMaxConf = 0 := hq.nrMaxConf
  rw [LockProgram.found, hcalls, hnil, List.append_nil, List.length_map, hnr, hzero, Nat.zero_add]
  exact ⟨hnew.nodup, rfl⟩

include hr

theorem mem_found_iff (stl : Bool) : τ ∈ P.found fuel stl ↔ τ ∈ P.traces := by
  obtain ⟨-, c, s, hi, hq, hex⟩ := exists_explored hw hnn hfuel stl
  have hcomp := hex.completed hw hnn hr rfl (hi.targetOk hw hnn hq)
  have hstak : s.stak = [botEID] := hq.stak
  have hcalls : s.calls = [] := hq.calls
  simp only [LockProgram.found, List.mem_map]
  constructor
  · rintro ⟨k, hk, rfl⟩
    rcases hcomp.ends k hk with hold | hend
    · simp [hcalls, maximalCalls] at hold
    · obtain ⟨w, g', hW, hstuck, heq⟩ := hend
      exact ⟨w, ⟨g', hW, hstuck⟩, heq.symm⟩
  · rintro ⟨w, ⟨g', hW, hstuck⟩, rfl⟩
    obtain ⟨sk, hl, habove, -⟩ := hcomp.finds w g' (hi.state ▸ hW) hstuck fun x hx => by cases hx
    obtain ⟨c', ê, d, alt, hen, hk⟩ := hl.called
    refine ⟨_, List.mem_filter.2 ⟨hk, by simp [hen]⟩, habove.trace.trans ?_⟩
    rw [hstak]
    rfl

/-- **A run finds the traces of the program**: it returns, and the traces of its calls at maximal
configurations are those of the maximal interleavings, in stateful and in stateless mode. -/
theorem unfold_finds_traces (stl : Bool) : (P.unfold fuel stl).1 = .ok () ∧
    {τ | τ ∈ P.found fuel stl} = P.traces :=
  ⟨(exists_explored hw hnn hfuel stl).1, Set.ext fun _ => mem_found_iff hw hnn hr hfuel stl⟩

theorem nrMaxConf_eq (stl : Bool) : (P.unfold fuel stl).2.stats.nrMaxConf = P.traces.ncard := by
  classical
  obtain ⟨hnodup, hnr⟩ := found_nodup hw hnn hfuel stl
  have htraces : P.traces = ((P.found fuel stl).toFinset : Set LockTrace) := Set.ext fun τ => by
    rw [Finset.mem_coe, List.mem_toFinset, mem_found_iff hw hnn hr hfuel]
  rw [htraces, Set.ncard_coe_finset, List.toFinset_card_of_nodup hnodup, hnr]

/-- **Both modes find the same traces**: each mode finds every trace of the program exactly once, and
`nrMaxConf` counts what it finds, which is the number of the traces. -/
theorem unfold_modes_agree : (P.found fuel true).Perm (P.found fuel false) ∧ ∀ stl,
    (P.found fuel stl).Nodup ∧ (∀ τ, τ ∈ P.found fuel stl ↔ τ ∈ P.traces) ∧
      (P.unfold fuel stl).2.stats.nrMaxConf = (P.found fuel stl).length ∧
      (P.unfold fuel stl).2.stats.nrMaxConf = P.traces.ncard := by
  have hnodup := found_nodup hw hnn hfuel
  have hmem := fun stl τ => mem_found_iff (τ := τ) hw hnn hr hfuel stl
  refine ⟨(List.perm_ext_iff_of_nodup (hnodup true).1 (hnodup false).1).2 fun τ => ?_, fun stl =>
    ⟨(hnodup stl).1, hmem stl, (hnodup stl).2, nrMaxConf_eq hw hnn hr hfuel stl⟩⟩
  rw [hmem, hmem]

/-- **No deadlock is found**: every trace has all steps of all threads. -/
theorem unfold_finishes_threads (stl : Bool) (hτ : τ ∈ P.found fuel stl) :
    ∃ w g', Interleaves (LockState.init P) w g' ∧ τ = .mk _ (w.map LockStep.info) ∧
      ∀ t i o, P.op t i = some o → ⟨t, i, o⟩ ∈ w := by
  obtain ⟨w, ⟨g', hW, hstuck⟩, rfl⟩ := (mem_found_iff hw hnn hr hfuel stl).1 hτ
  refine ⟨w, g', hW, rfl, fun t i o ho => ?_⟩
  have hend : (P.thread t).length ≤ g'.pc t :=
    List.getElem?_eq_none_iff.1 (hstuck.op_eq_none hw hnn hr t)
  exact hW.exists_step (by simp [LockState.init]) (by rw [LockState.pc_init]; exact Nat.zero_le i)
    ((LockProgram.op_lt_length ho).trans_le hend) ho

/-- **The reduction never explores more than the search without it**: `dfs_tree` ends and counts at
least as many traces as the run has maximal configurations. -/
theorem unfold_le_dfsTree (stl : Bool) : ∃ k : Nat,
    (∃ N, ∀ n, N ≤ n → dfsTree P.system n 1 [] [(0, P.system.gbst)] = .ok k) ∧
      (P.unfold fuel stl).2.stats.nrMaxConf ≤ k := by
  obtain ⟨m, hm⟩ := P.finiteTree_system.treeCounted.search
  obtain ⟨hfin, hle⟩ := ncard_maximal_le P
  refine ⟨Poet.traces P.system P.system.gbst, ⟨m, fun n hn => ?_⟩, ?_⟩
  · obtain ⟨n, rfl⟩ := Nat.exists_eq_add_of_le hn
    rw [hm, dfsTree_nil, add_sub_cancel_left]
  · rw [nrMaxConf_eq hw hnn hr hfuel]
    exact (Set.ncard_image_le hfin).trans hle

end Released

theorem unfold_finds_traces_twoSections :
    twoSections.WellLocked ∧ twoSections.NonNested ∧ twoSections.ReleasesShared ∧
      ∀ stl, {τ | τ ∈ twoSections.found (twoSections.depth + 1) stl} = twoSections.traces :=
  ⟨by decide, by decide, by decide, fun stl =>
    (unfold_finds_traces (by decide) (by decide) (by decide) (Nat.lt_succ_self _) stl).2⟩

theorem unfold_finishes_threads_twoSections :
    twoSections.found (twoSections.depth + 1) true ≠ [] ∧
      ∀ τ ∈ twoSections.found (twoSections.depth + 1) true,
        ∃ w g', Interleaves (LockState.init twoSections) w g' ∧ τ = .mk _ (w.map LockStep.info) ∧
          ∀ t i o, twoSections.op t i = some o → ⟨t, i, o⟩ ∈ w := by
  refine ⟨?_, fun τ hτ => unfold_finishes_threads (by decide) (by decide) (by decide)
    (Nat.lt_succ_self _) true hτ⟩
  rw [LockProgram.found, ne_eq, List.map_eq_nil_iff, ← List.length_eq_zero_iff]
  decide +kernel

theorem unfold_le_dfsTree_twoSections : twoSections.ReleasesShared ∧ ∃ k : Nat,
    (∃ N, ∀ n, N ≤ n → dfsTree twoSections.system n 1 [] [(0, twoSections.system.gbst)] = .ok k) ∧
      (twoSections.unfold (twoSections.depth + 1) true).2.stats.nrMaxConf ≤ k := by
  have hfuel : twoSections.depth < twoSections.depth + 1 := Nat.lt_succ_self _
  have h := unfold_le_dfsTree (P := twoSections) (by decide) (by decide) (by decide) hfuel true
  exact ⟨by decide, h⟩

/-- Two critical sections on one mutex can be run in two orders, and each mode finds both of them. -/
theorem unfold_modes_agree_twoSections : twoSections.traces.ncard = 2 ∧ ∀ stl,
    (twoSections.found (twoSections.depth + 1) stl).Nodup ∧
      (twoSections.found (twoSections.depth + 1) stl).length = 2 := by
  have hfuel : twoSections.depth < twoSections.depth + 1 := Nat.lt_succ_self _
  have h := (unfold_modes_agree (by decide) (by decide) (by decide) hfuel).2
  have htwo : twoSections.traces.ncard = 2 := by
    rw [← (h false).2.2.2]
    decide +kernel
  refine ⟨htwo, fun stl => ⟨(h stl).1, ?_⟩⟩
  rw [← (h stl).2.2.1, (h stl).2.2.2, htwo]

end Poet
