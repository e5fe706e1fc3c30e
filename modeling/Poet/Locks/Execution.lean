import Poet.Locks.Invariant

/-!
# Executions of a lock program

The stack of the exploration, read from bottom up, is an execution of the program (`Executes`): each
event is the next step of its thread, is executable, and is above all events before it that it depends
on. Hence each closed part of the stack is one too, in every order that respects causality
(`Executes.part`), and a mutex is held at its end if a lock of it has no unlock above it
(`Executes.held_iff`).
-/

namespace Poet

/-! ## Holding a mutex -/

theorem holds_succ (ops : List LockOp) (p m : Nat) : holds ops (p + 1) m =
    match ops[p]? with
    | some o => if o.mutex = m then decide (o = .lock m) else holds ops p m
    | none => holds ops p m := by
  unfold holds
  rw [List.take_add_one, List.filter_append]
  cases ops[p]? with
  | none => simp
  | some o =>
    by_cases hm : o.mutex = m <;> simp [hm]

/-- A thread holds `m` if it has locked it and has not been at it since. -/
theorem holds_iff {ops : List LockOp} {p m : Nat} : holds ops p m = true ↔
    ∃ j < p, ops[j]? = some (.lock m) ∧ ∀ k o, j < k → k < p → ops[k]? = some o → o.mutex ≠ m := by
  induction p with
  | zero => simp [holds]
  | succ p ih =>
    rw [holds_succ]
    -- a step that is not on `m` changes nothing
    have hskip : (∀ o, ops[p]? = some o → o.mutex ≠ m) → (holds ops p m = true ↔
        ∃ j < p + 1, ops[j]? = some (.lock m) ∧
          ∀ k o, j < k → k < p + 1 → ops[k]? = some o → o.mutex ≠ m) := by
      intro hp
      rw [ih]
      constructor
      · rintro ⟨j, hj, hl, hk⟩
        refine ⟨j, by omega, hl, fun k o hjk hkp ho => ?_⟩
        rcases Nat.lt_succ_iff_lt_or_eq.1 hkp with hkp | rfl
        · exact hk k o hjk hkp ho
        · exact hp o ho
      · rintro ⟨j, hj, hl, hk⟩
        have hjp : j ≠ p := by
          rintro rfl
          exact hp _ hl rfl
        exact ⟨j, by omega, hl, fun k o hjk hkp => hk k o hjk (by omega)⟩
    cases ho : ops[p]? with
    | none => exact hskip fun o h => by simp [ho] at h
    | some o =>
      by_cases hm : o.mutex = m
      · simp only [hm, if_true, decide_eq_true_eq]
        constructor
        · rintro rfl
          exact ⟨p, by omega, ho, fun k o hk hk' => by omega⟩
        · rintro ⟨j, hj, hl, hk⟩
          rcases Nat.lt_succ_iff_lt_or_eq.1 hj with hj | rfl
          · exact absurd hm (hk p o hj (by omega) ho)
          · exact Option.some_inj.1 (ho.symm.trans hl)
      · simp only [hm, if_false]
        refine hskip fun o' h => ?_
        rw [← Option.some_inj.1 (ho.symm.trans h)]
        exact hm

namespace LockProgram

variable {P : LockProgram} {t i m : Nat} {o : LockOp}

theorem op_lt_length (h : P.op t i = some o) : i < (P.thread t).length :=
  (List.getElem?_eq_some_iff.1 h).1

theorem thread_mem (h : P.op t i = some o) : P.thread t ∈ P := by
  have hlt := lt_length_of_op h
  simp [thread, List.getD, List.getElem?_eq_getElem hlt]

theorem WellLocked.holds_of_unlock (h : P.WellLocked) (ho : P.op t i = some (.unlock m)) :
    holds (P.thread t) i m = true := by
  have hok := h _ (thread_mem ho) i (op_lt_length ho)
  rw [op] at ho
  simpa [stepOk, ho] using hok

/-- Without nested critical sections a lock is followed by its unlock. -/
theorem NonNested.unlock_of_lock (hn : P.NonNested) (hw : P.WellLocked)
    (hl : P.op t i = some (.lock m)) (ho : P.op t (i + 1) = some o) : o = .unlock m := by
  have hmem := thread_mem hl
  have hlt := op_lt_length ho
  have hok := hw _ hmem (i + 1) hlt
  have hin : ∀ {j o}, P.op t j = some o → o ∈ P.thread t := fun h => List.mem_of_getElem? h
  have hheld : holds (P.thread t) (i + 1) m = true :=
    holds_iff.2 ⟨i, by omega, hl, fun k o hk hk' => by omega⟩
  have ho' : (P.thread t)[i + 1]? = some o := ho
  cases o with
  | unlock m' =>
    have hm' : holds (P.thread t) (i + 1) m' = true := by simpa [stepOk, ho'] using hok
    obtain rfl : m = m' := hn _ hmem (i + 1) (by omega) _ (hin hl) _ (hin ho) hheld hm'
    rfl
  | lock m' =>
    have hm' : holds (P.thread t) (i + 1) m' = false := by simpa [stepOk, ho'] using hok
    have hne : m' ≠ m := by
      rintro rfl
      rw [hheld] at hm'
      cases hm'
    -- after the second lock the thread has both
    have hboth : ∀ a, a = m ∨ a = m' → holds (P.thread t) (i + 1 + 1) a = true := by
      rintro a (rfl | rfl)
      · rw [holds_succ, ho']
        simpa [LockOp.mutex, hne] using hheld
      · rw [holds_succ, ho']
        simp [LockOp.mutex]
    have := hn _ hmem (i + 1 + 1) (by omega) _ (hin hl) _ (hin ho) (hboth _ (.inl rfl))
      (hboth _ (.inr rfl))
    exact absurd this.symm hne

end LockProgram

namespace LockState

variable {P : LockProgram} {s : LockState P} {t m : Nat} {o : LockOp}

theorem held_iff : s.held m = true ↔ ∃ t j, j < s.pc t ∧ P.op t j = some (.lock m) ∧
    ∀ k o, j < k → k < s.pc t → P.op t k = some o → o.mutex ≠ m := by
  simp only [held, List.any_eq_true, List.mem_range, holds_iff]
  constructor
  · rintro ⟨t, -, h⟩
    exact ⟨t, h⟩
  · rintro ⟨t, j, hj, hl, hk⟩
    exact ⟨t, LockProgram.lt_length_of_op hl, j, hj, hl, hk⟩

theorem next_eq_some : s.next t = some o ↔
    P.op t (s.pc t) = some o ∧ ∀ m, o = .lock m → s.held m = false := by
  unfold next LockProgram.op
  rcases (P.thread t)[s.pc t]? with _ | m | m
  · simp
  · cases hm : s.held m <;> cases o <;> simp [hm]
    all_goals
      rintro rfl
      exact hm
  · cases o <;> simp

/-- A mutex that is free and was locked by a thread has been unlocked by it since. -/
theorem exists_unlock (h : s.held m = false) : ∀ (n j : Nat), s.pc t ≤ n + j → j < s.pc t →
    P.op t j = some (.lock m) → ∃ k, j < k ∧ k < s.pc t ∧ P.op t k = some (.unlock m)
  | 0, _, hn, hj, _ => by omega
  | n + 1, j, hn, hj, hl => by
    by_contra hno
    push Not at hno
    have hheld : s.held m = true := by
      refine held_iff.2 ⟨t, j, hj, hl, fun k o hjk hk ho hm => ?_⟩
      cases o with
      | unlock m' =>
        rw [show m' = m from hm] at ho
        exact hno k hjk hk ho
      | lock m' =>
        rw [show m' = m from hm] at ho
        obtain ⟨k', hk', hlt, hu⟩ := exists_unlock h n k (by omega) hk ho
        exact hno k' (by omega) hlt hu
    rw [h] at hheld
    cases hheld

theorem pc_init (t : Nat) : (init P).pc t = 0 := by
  simp only [pc, init, List.getD_eq_getElem?_getD, List.getElem?_map]
  cases P[t]? <;> rfl

theorem pc_step (hlt : t < s.pcs.length) (t' : Nat) :
    (s.step t).pc t' = if t' = t then s.pc t + 1 else s.pc t' := by
  simp only [pc, step, List.getD_eq_getElem?_getD, List.getElem?_set]
  by_cases h : t' = t
  · subst h
    simp [hlt]
  · simp [h, Ne.symm h]

end LockState

/-! ## Executions -/

/-- Runs the events `l` one after the other from `s`. -/
def runEvents {st act : Type} [DecidableEq st] [DecidableEq act] [LatticeM st] [Projection st]
    [Lattice act] [Action act] [Domain st act] (wid : Int) (syst : System st act) (T : Events act)
    (s : st) (l : EventsID) : Except Err st :=
  l.foldlM (fun s e => do
    let ename ← getName e T
    (·.1) <$> liftDom (Domain.drun wid syst s (ename.tid, ename.pos, ename.sym))) s

/-- The events of `stak`, from bottom up, are an execution that ends in `g`. -/
inductive Executes (P : LockProgram) (T : Events LockAct) : EventsID → LockState P → Prop where
  | bot : Executes P T [botEID] (LockState.init P)
  | push {stak : EventsID} {g : LockState P} {x : EventID} {t : Nat} {o : LockOp}
      (h : Executes P T stak g) (hx : IsStep P T x t (g.pc t) o) (hnext : g.next t = some o)
      (hdep : ∀ y ∈ stak, Dep T y x → Lt T y x) : Executes P T (x :: stak) (g.step t)

namespace Executes

variable {P : LockProgram} {T T' : Events LockAct} {stak : EventsID} {g : LockState P}
  {x y l : EventID} {t t' i j m : Nat} {o o' : LockOp}

theorem of_stable {n : Nat} (h : Executes P T stak g) (hs : Stable n T T') (hT' : Linked T' [])
    (hold : ∀ x ∈ stak, x < n ∧ x ∈ T') : Executes P T' stak g := by
  induction h with
  | bot => exact .bot
  | @push stak g x t o _ hx hnext hdep ih =>
    have hstak : ∀ y ∈ stak, y < n ∧ y ∈ T' := fun y hy => hold y (List.mem_cons_of_mem _ hy)
    obtain ⟨hxn, hxT⟩ := hold x List.mem_cons_self
    refine .push (ih hstak) (hs.isStep hxn hxT hx) hnext fun y hy hd => ?_
    rw [hs.dep_iff (hstak y hy).1 (hstak y hy).2 hxn hxT] at hd
    exact (hs.lt_iff hT' hxn hxT).2 (hdep y hy hd)

theorem pcs_length (h : Executes P T stak g) : g.pcs.length = P.length := by
  induction h with
  | bot => simp [LockState.init]
  | push _ _ _ _ ih => simpa [LockState.step] using ih

variable (hT : LockEvents P T)

include hT

/-- The threads have done the steps whose events are on the stack. -/
theorem lt_pc_iff (h : Executes P T stak g) :
    i < g.pc t ↔ ∃ x ∈ stak, ∃ o, IsStep P T x t i o := by
  induction h with
  | bot =>
    rw [LockState.pc_init]
    refine ⟨fun h => absurd h (Nat.not_lt_zero i), ?_⟩
    rintro ⟨x, hx, o, hst⟩
    exact absurd (List.mem_singleton.1 hx) (hT.ne_bot hst)
  | @push stak g x t₀ o hE hx _ _ ih =>
    have hlt : t₀ < g.pcs.length := by
      rw [hE.pcs_length]
      exact LockProgram.lt_length_of_op hx.op
    rw [LockState.pc_step hlt]
    constructor
    · intro hi
      by_cases hnew : t = t₀ ∧ i = g.pc t₀
      · obtain ⟨rfl, rfl⟩ := hnew
        exact ⟨x, List.mem_cons_self, o, hx⟩
      · have hi' : i < g.pc t := by
          split at hi
          · next h =>
            subst h
            have : i ≠ g.pc t := fun h => hnew ⟨rfl, h⟩
            omega
          · exact hi
        obtain ⟨y, hy, hst⟩ := ih.1 hi'
        exact ⟨y, List.mem_cons_of_mem _ hy, hst⟩
    · rintro ⟨y, hy, o', hst⟩
      rcases List.mem_cons.1 hy with rfl | hy
      · obtain ⟨rfl, rfl, -⟩ := hst.unique hx
        simp
      · have := ih.2 ⟨y, hy, o', hst⟩
        split
        · next h =>
          subst h
          omega
        · exact this

theorem exists_step (h : Executes P T stak g) (hi : i < g.pc t) (ho : P.op t i = some o) :
    ∃ x ∈ stak, IsStep P T x t i o := by
  obtain ⟨x, hx, o', hst⟩ := (h.lt_pc_iff hT).1 hi
  obtain rfl := Option.some_inj.1 (hst.op.symm.trans ho)
  exact ⟨x, hx, hst⟩

/-- The step that a thread is at depends on its events only. -/
theorem pc_eq {r : EventsID} {g' : LockState P} (h : Executes P T stak g) (h' : Executes P T r g')
    (hiff : ∀ x i o, IsStep P T x t i o → (x ∈ stak ↔ x ∈ r)) : g.pc t = g'.pc t := by
  refine eq_of_forall_lt_iff fun i => ?_
  rw [h.lt_pc_iff hT, h'.lt_pc_iff hT]
  constructor
  · rintro ⟨x, hx, o, hst⟩
    exact ⟨x, (hiff x i o hst).1 hx, o, hst⟩
  · rintro ⟨x, hx, o, hst⟩
    exact ⟨x, (hiff x i o hst).2 hx, o, hst⟩

/-- Each step is done once. -/
theorem eq_of_step (h : Executes P T stak g) (hx : x ∈ stak) (hy : y ∈ stak)
    (hsx : IsStep P T x t i o) (hsy : IsStep P T y t i o') : x = y := by
  induction h with
  | bot => rw [List.mem_singleton.1 hx, List.mem_singleton.1 hy]
  | @push stak g z t₀ o₀ hE hz _ _ ih =>
    -- a step of `stak` is not the next one
    have hnew : ∀ {w o}, w ∈ stak → IsStep P T w t₀ (g.pc t₀) o → False := fun hw hst =>
      Nat.lt_irrefl _ ((hE.lt_pc_iff hT).2 ⟨_, hw, _, hst⟩)
    rcases List.mem_cons.1 hx with rfl | hxs <;> rcases List.mem_cons.1 hy with rfl | hys
    · rfl
    · obtain ⟨rfl, rfl, -⟩ := hsx.unique hz
      exact (hnew hys hsy).elim
    · obtain ⟨rfl, rfl, -⟩ := hsy.unique hz
      exact (hnew hxs hsx).elim
    · exact ih hxs hys

/-- The steps of a thread are ordered. -/
theorem lt_of_step_lt (h : Executes P T stak g) (hx : x ∈ stak) (hy : y ∈ stak)
    (hsx : IsStep P T x t i o) (hsy : IsStep P T y t j o') (hij : i < j) : Lt T x y := by
  induction h with
  | bot =>
    rw [List.mem_singleton.1 hx] at hsx
    rw [List.mem_singleton.1 hy] at hsy
    exact absurd (hsx.unique hsy).2.1 (Nat.ne_of_lt hij)
  | @push stak g z t₀ o₀ hE hz _ hdep ih =>
    rcases List.mem_cons.1 hx with rfl | hxs <;> rcases List.mem_cons.1 hy with rfl | hys
    · exact absurd (hsx.unique hsy).2.1 (Nat.ne_of_lt hij)
    · obtain ⟨rfl, rfl, -⟩ := hsx.unique hz
      have := (hE.lt_pc_iff hT).2 ⟨y, hys, o', hsy⟩
      omega
    · exact hdep x hxs ((hsx.dep_iff hsy).2 (.inl rfl))
    · exact ih hxs hys

theorem step_lt_of_lt (h : Executes P T stak g) (hc : Causal T) (hx : x ∈ stak) (hy : y ∈ stak)
    (hsx : IsStep P T x t i o) (hsy : IsStep P T y t j o') (hlt : Lt T x y) : i < j := by
  rcases Nat.lt_trichotomy i j with hij | rfl | hij
  · exact hij
  · rw [h.eq_of_step hT hx hy hsx hsy] at hlt
    exact absurd hlt hc.lt_irrefl
  · exact absurd (hlt.trans (h.lt_of_step_lt hT hy hx hsy hsx hij)) hc.lt_irrefl

omit hT in
/-- Dependent events are ordered. -/
theorem ordered (h : Executes P T stak g) (hsx : IsStep P T x t i o) (hsy : IsStep P T y t' j o')
    (hx : x ∈ stak) (hy : y ∈ stak) (hd : t = t' ∨ o.mutex = o'.mutex) : Le T x y ∨ Lt T y x := by
  induction h with
  | bot =>
    rw [List.mem_singleton.1 hx, List.mem_singleton.1 hy]
    exact .inl (.inl rfl)
  | push _ _ _ hdep ih =>
    rcases List.mem_cons.1 hx with rfl | hxs <;> rcases List.mem_cons.1 hy with rfl | hys
    · exact .inl (.inl rfl)
    · exact .inr (hdep y hys ((hsy.dep_iff hsx).2 (hd.imp Eq.symm Eq.symm)))
    · exact .inl (.inr (hdep x hxs ((hsx.dep_iff hsy).2 hd)))
    · exact ih hxs hys

/-- A lock is taken after the locks below it have been released. -/
theorem released (h : Executes P T stak g) (hc : Causal T) (hx : x ∈ stak)
    (hsx : IsStep P T x t i (.lock m)) (hl : l ∈ stak) (hsl : IsStep P T l t' j (.lock m))
    (hlt : Lt T l x) : ∃ u ∈ stak, ∃ k, j < k ∧ IsStep P T u t' k (.unlock m) ∧ Lt T u x := by
  induction h with
  | bot =>
    rw [List.mem_singleton.1 hx, List.mem_singleton.1 hl] at hlt
    exact absurd hlt hc.lt_irrefl
  | @push stak g z t₀ o₀ hE hz hnext hdep ih =>
    rcases List.mem_cons.1 hx with rfl | hxs <;> rcases List.mem_cons.1 hl with rfl | hls
    · exact absurd hlt hc.lt_irrefl
    · -- the mutex is free when `x` is executed
      obtain ⟨rfl, rfl, rfl⟩ := hsx.unique hz
      have hfree := (LockState.next_eq_some.1 hnext).2 m rfl
      have hj := (hE.lt_pc_iff hT).2 ⟨l, hls, _, hsl⟩
      obtain ⟨k, hjk, hk, hop⟩ := LockState.exists_unlock hfree (g.pc t') j (by omega) hj hsl.op
      obtain ⟨u, hu, hsu⟩ := hE.exists_step hT hk hop
      exact ⟨u, List.mem_cons_of_mem _ hu, k, hjk, hsu,
        hdep u hu ((hsu.dep_iff hsx).2 (.inr rfl))⟩
    · have hback := hdep x hxs ((hsx.dep_iff hsl).2 (.inr rfl))
      exact absurd (hlt.trans hback) hc.lt_irrefl
    · obtain ⟨u, hu, hrest⟩ := ih hxs hls
      exact ⟨u, List.mem_cons_of_mem _ hu, hrest⟩

/-- **A mutex is held at the end if one of its locks has no unlock above it.** -/
theorem held_iff (h : Executes P T stak g) (hc : Causal T) (hw : P.WellLocked) :
    g.held m = true ↔ ∃ l ∈ stak, (∃ t j, IsStep P T l t j (.lock m)) ∧
      ∀ u ∈ stak, ∀ t k, IsStep P T u t k (.unlock m) → ¬ Lt T l u := by
  constructor
  · intro hheld
    obtain ⟨t, j, hj, hop, hlast⟩ := LockState.held_iff.1 hheld
    obtain ⟨l, hl, hsl⟩ := h.exists_step hT hj hop
    refine ⟨l, hl, ⟨t, j, hsl⟩, fun u hu t' k hsu hlt => ?_⟩
    -- the thread of `l` is not at the mutex after `j`
    have hnone : ∀ {w k}, w ∈ stak → j < k → ¬ IsStep P T w t k (.unlock m) := fun hw hk hst =>
      hlast _ _ hk ((h.lt_pc_iff hT).2 ⟨_, hw, _, hst⟩) hst.op rfl
    by_cases htt : t' = t
    · subst htt
      exact hnone hu (h.step_lt_of_lt hT hc hl hu hsl hsu hlt) hsu
    -- the lock that goes with `u`
    obtain ⟨j', hj', hop', hlast'⟩ := holds_iff.1 (hw.holds_of_unlock hsu.op)
    have hk := (h.lt_pc_iff hT).2 ⟨u, hu, _, hsu⟩
    obtain ⟨lu, hlu, hslu⟩ := h.exists_step hT (Nat.lt_trans hj' hk) hop'
    rcases h.ordered hsl hslu hl hlu (.inr rfl) with (heq | hlt') | hlt'
    · rw [heq] at hsl
      exact htt (hslu.unique hsl).1
    · obtain ⟨w, hw, k', hk', hsw, -⟩ := h.released hT hc hlu hslu hl hsl hlt'
      exact hnone hw hk' hsw
    · obtain ⟨w, hw, k', hk', hsw, hwl⟩ := h.released hT hc hl hsl hlu hslu hlt'
      exact hlast' k' _ hk' (h.step_lt_of_lt hT hc hw hu hsw hsu (hwl.trans hlt)) hsw.op rfl
  · rintro ⟨l, hl, ⟨t, j, hsl⟩, hno⟩
    by_contra hfree
    have hj := (h.lt_pc_iff hT).2 ⟨l, hl, _, hsl⟩
    obtain ⟨k, hjk, hk, hop⟩ := LockState.exists_unlock (by simpa using hfree) (g.pc t) j (by omega) hj
      hsl.op
    obtain ⟨u, hu, hsu⟩ := h.exists_step hT hk hop
    exact hno u hu t k hsu (h.lt_of_step_lt hT hl hu hsl hsu hjk)

/-- **A closed part of an execution is one, in every order that respects causality.** -/
theorem part (h : Executes P T stak g) (hc : Causal T) (hmem : ∀ x ∈ stak, x ∈ T)
    (hbot : ∀ x ∈ T, x ≠ botEID → Lt T botEID x) : ∀ r : EventsID, r.Nodup →
    (∀ x ∈ r, x ∈ stak ∧ x ≠ botEID) → (∀ x ∈ r, ∀ y, Lt T y x → y ≠ botEID → y ∈ r) →
    r.Pairwise (fun x y => ¬ Lt T x y) → ∃ g', Executes P T (r ++ [botEID]) g'
  | [], _, _, _, _ => ⟨_, .bot⟩
  | x :: r, hnd, hsub, hclosed, hord => by
    obtain ⟨hxr, hnd⟩ := List.nodup_cons.1 hnd
    obtain ⟨habove, hord⟩ := List.pairwise_cons.1 hord
    obtain ⟨hxs, hxb⟩ := hsub x List.mem_cons_self
    have hsub' : ∀ y ∈ r, y ∈ stak ∧ y ≠ botEID := fun y hy => hsub y (List.mem_cons_of_mem _ hy)
    have hclosed' : ∀ y ∈ r, ∀ z, Lt T z y → z ≠ botEID → z ∈ r := by
      intro y hy z hlt hzb
      rcases List.mem_cons.1 (hclosed y (List.mem_cons_of_mem _ hy) z hlt hzb) with rfl | hz
      · exact absurd hlt (habove y hy)
      · exact hz
    -- what is below `x` comes before it
    have hbelow : ∀ {y}, Lt T y x → y ≠ botEID → y ∈ r := fun hlt hyb =>
      (List.mem_cons.1 (hclosed x List.mem_cons_self _ hlt hyb)).resolve_left fun heq =>
        hc.lt_irrefl (heq ▸ hlt)
    obtain ⟨g', hg'⟩ := h.part hc hmem hbot r hnd hsub' hclosed' hord
    obtain ⟨t, i, o, hst⟩ := hT.step x (hmem x hxs) hxb
    have hin : ∀ {y t i o}, y ∈ r ++ [botEID] → IsStep P T y t i o → y ∈ r := fun hy hst =>
      (List.mem_append.1 hy).resolve_right fun hb => hT.ne_bot hst (List.mem_singleton.1 hb)
    -- of the thread of `x`, the steps before it are done
    have hpc : g'.pc t = i := by
      refine Nat.le_antisymm (Nat.le_of_not_lt fun hlt => ?_) (Nat.le_of_not_lt fun hlt => ?_)
      · obtain ⟨y, hy, hsy⟩ := hg'.exists_step hT hlt hst.op
        have hyr := hin hy hsy
        rw [h.eq_of_step hT (hsub' y hyr).1 hxs hsy hst] at hyr
        exact hxr hyr
      · have hi := (h.lt_pc_iff hT).2 ⟨x, hxs, o, hst⟩
        obtain ⟨y, hy, o', hsy⟩ := (h.lt_pc_iff hT).1 (Nat.lt_trans hlt hi)
        have hyr := hbelow (h.lt_of_step_lt hT hy hxs hsy hst hlt) (hT.ne_bot hsy)
        exact Nat.lt_irrefl _ ((hg'.lt_pc_iff hT).2 ⟨y, List.mem_append_left _ hyr, o', hsy⟩)
    subst hpc
    refine ⟨_, .push hg' hst (LockState.next_eq_some.2 ⟨hst.op, fun m hm => ?_⟩) fun y hy hd => ?_⟩
    · subst hm
      by_contra hheld
      obtain ⟨t', j, hj, hop, hlast⟩ := LockState.held_iff.1 (Bool.not_eq_false _ ▸ hheld)
      obtain ⟨l, hl, hsl⟩ := hg'.exists_step hT hj hop
      have hlr := hin hl hsl
      have hlx : Lt T l x := by
        rcases h.ordered hsl hst (hsub' l hlr).1 hxs (.inr rfl) with (rfl | hlt) | hlt
        · exact absurd hlr hxr
        · exact hlt
        · exact absurd hlt (habove l hlr)
      obtain ⟨u, -, k, hjk, hsu, hux⟩ := h.released hT hc hxs hst (hsub' l hlr).1 hsl hlx
      have hk := (hg'.lt_pc_iff hT).2 ⟨u, List.mem_append_left _ (hbelow hux (hT.ne_bot hsu)), _, hsu⟩
      exact hlast k _ hjk hk hsu.op rfl
    · rcases List.mem_append.1 hy with hy | hy
      · obtain ⟨t', j, o', hsy⟩ := hT.step y (hmem y (hsub' y hy).1) (hsub' y hy).2
        rcases h.ordered hsy hst (hsub' y hy).1 hxs ((hsy.dep_iff hst).1 hd) with (rfl | hlt) | hlt
        · exact absurd hy hxr
        · exact hlt
        · exact absurd hlt (habove y hy)
      · rw [List.mem_singleton.1 hy]
        exact hbot x (hmem x hxs) hxb

omit hT in
/-- An execution can be run. -/
theorem runEvents : ∀ {r : EventsID} {g : LockState P}, Executes P T (r ++ [botEID]) g →
    runEvents 10 P.system T (LockState.init P) r.reverse = .ok g
  | [], _, h => by
    cases h with
    | bot => rfl
    | push h => cases h
  | x :: r, _, h => by
    rw [List.cons_append] at h
    generalize hr : r ++ [botEID] = l at h
    cases h with
    | bot => simp at hr
    | @push _ g _ t o h hx hnext _ =>
      subst hr
      obtain ⟨ev, hl, hname, -⟩ := Events.lookup_of_names hx.name hx.acts
      have hdrun : Domain.drun 10 P.system g (ev.name.tid, ev.name.pos, ev.name.sym) =
          .ok (g.step t, o.act) := by
        rw [hname]
        exact drun_lock.2 ⟨rfl, o, hnext, rfl⟩
      rw [List.reverse_cons, Poet.runEvents, List.foldlM_append, ← Poet.runEvents, h.runEvents]
      simp [getName, getEvent_ok _ hl, hdrun, liftDom]

end Executes

end Poet
