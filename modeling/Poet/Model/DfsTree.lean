import Mathlib.Algebra.Order.BigOperators.Group.Finset
import Poet.Lib.CompTree
import Poet.Locks.Execution
import Poet.Locks.Explore
import Poet.Model.Interpreter

/-!
# Search over the computation tree (`Model/Interpreter.hs:88-103`)

`dfs_tree` has no table of visited states: it pops a state, counts it if nothing is enabled there, and
otherwise puts the enabled steps on top of the states to pop. If the computation tree is finite it
ends, and the number it reports is the number of paths to the leaves of the tree (`dfsTree_counts`).

A path is given by the positions of its steps in the lists that `enabled` returns (`branches`), or by
their threads (`threadSteps`). The two notions agree where `enabled` lists no thread twice, as the default
of the class does: it goes through a map from threads.
-/

namespace Poet

section DfsTree

variable {st act : Type} [DecidableEq st] [DecidableEq act] [LatticeM st] [Projection st]
  [Lattice act] [Action act] [Domain st act]

/-- `dfs_tree n stack mode syst todo`, with a bound on the number of states popped; the number of
traces that it prints at the end. -/
def dfsTree (syst : System st act) : Nat → Int → List TId → List (TId × st) → Except SearchErr Int
  | 0, n, _, todo =>
    match todo with
    | [] => .ok (n - 1)
    | _ :: _ => .error .outOfFuel
  | fuel + 1, n, stack, todo =>
    match todo with
    | [] => .ok (n - 1)
    | (i, s) :: ss =>
      match Domain.enabled syst s with
      | .error e => .error (.domain e)
      | .ok [] => dfsTree syst fuel (n + 1) stack ss
      | .ok ts => dfsTree syst fuel n (i :: stack) (ts ++ ss)

/-- The steps that are enabled in a state, each with its thread. -/
def threadSteps (syst : System st act) (s : st) : Option (List (TId × st)) :=
  (Domain.enabled syst s).toOption

/-- The same, each with its position in the list. -/
def branches (syst : System st act) (s : st) : Option (List (Nat × st)) :=
  (threadSteps syst s).map fun ts => ts.zipIdx.map fun x => (x.2, x.1.2)

variable {syst : System st act} {s : st} {ts ss : List (TId × st)} {i : TId} {fuel : Nat} {n : Int}
  {stack : List TId}

theorem threadSteps_eq_some : threadSteps syst s = some ts ↔ Domain.enabled syst s = .ok ts := by
  unfold threadSteps
  cases Domain.enabled syst s <;> simp [Except.toOption]

theorem branches_of_enabled (h : Domain.enabled syst s = .ok ts) :
    branches syst s = some (ts.zipIdx.map fun x => (x.2, x.1.2)) := by
  rw [branches, threadSteps_eq_some.2 h, Option.map_some]

@[simp] theorem dfsTree_nil : dfsTree syst fuel n stack [] = .ok (n - 1) := by
  cases fuel <;> rfl

theorem dfsTree_leaf (h : Domain.enabled syst s = .ok []) :
    dfsTree syst (fuel + 1) n stack ((i, s) :: ss) = dfsTree syst fuel (n + 1) stack ss := by
  simp only [dfsTree, h]

theorem dfsTree_node (h : Domain.enabled syst s = .ok ts) (hne : ts ≠ []) :
    dfsTree syst (fuel + 1) n stack ((i, s) :: ss) =
      dfsTree syst fuel n (i :: stack) (ts ++ ss) := by
  cases ts with
  | nil => exact absurd rfl hne
  | cons t ts => simp only [dfsTree, h]

/-- The threads of the path are kept, but never read. -/
theorem dfsTree_stack (stack' : List TId) :
    dfsTree syst fuel n stack ss = dfsTree syst fuel n stack' ss := by
  induction fuel generalizing n stack stack' ss with
  | zero => rfl
  | succ fuel ih =>
    cases ss with
    | nil => rfl
    | cons x ss =>
      simp only [dfsTree]
      split
      · rfl
      · exact ih stack'
      · exact ih (x.1 :: stack')

/-- A result does not depend on the bound. -/
theorem dfsTree_mono {r : Int} (m : Nat) (h : dfsTree syst fuel n stack ss = .ok r) :
    dfsTree syst (fuel + m) n stack ss = .ok r := by
  induction fuel generalizing n stack ss with
  | zero =>
    cases ss with
    | nil => simpa [dfsTree] using h
    | cons x ss => cases h
  | succ fuel ih =>
    cases ss with
    | nil => simpa using h
    | cons x ss =>
      rw [Nat.succ_add]
      simp only [dfsTree] at h ⊢
      split at h
      · cases h
      · exact ih h
      · exact ih h

/-! ## One state and everything below it -/

/-- The number of paths from `s` to the leaves. -/
noncomputable def traces (syst : System st act) (s : st) : Nat := (leafPaths (branches syst) s).ncard

/-- The search pops `s` and all states below it, and has then counted the paths from `s`. -/
structure TreeCounted (syst : System st act) (s : st) : Prop where
  finite : (leafPaths (branches syst) s).Finite
  search : ∃ m, ∀ fuel n stack i ss, dfsTree syst (m + fuel) n stack ((i, s) :: ss) =
    dfsTree syst fuel (n + traces syst s) stack ss

theorem TreeCounted.encard (h : TreeCounted syst s) :
    (leafPaths (branches syst) s).encard = (traces syst s : ℕ∞) := h.finite.cast_ncard_eq.symm

theorem treeCounted_leaf (h : Domain.enabled syst s = .ok []) : TreeCounted syst s := by
  have hpaths : leafPaths (branches syst) s = {[]} := leafPaths_leaf (branches_of_enabled h)
  refine ⟨hpaths ▸ Set.finite_singleton _, 1, fun fuel n stack i ss => ?_⟩
  rw [Nat.add_comm, dfsTree_leaf h, traces, hpaths, Set.ncard_singleton, Nat.cast_one]

theorem encard_branches (h : Domain.enabled syst s = .ok ts) (hne : ts ≠ []) :
    (leafPaths (branches syst) s).encard =
      (ts.map fun x => (leafPaths (branches syst) x.2).encard).sum := by
  rw [encard_leafPaths (branches_of_enabled h)]
  · have hstates : ts.map (fun x => (leafPaths (branches syst) x.2).encard) =
        ts.zipIdx.map fun x => (leafPaths (branches syst) x.1.2).encard := by
      conv_lhs => rw [← List.zipIdx_map_fst 0 ts, List.map_map]
      rfl
    rw [hstates, List.map_map]
    rfl
  · simpa using hne
  · have hpos : (ts.zipIdx.map fun x => (x.2, x.1.2)).map (·.1) = List.range' 0 ts.length := by
      rw [← List.zipIdx_map_snd 0 ts, List.map_map]
      rfl
    rw [hpos]
    exact List.nodup_range'

theorem sum_encard (hts : ∀ x ∈ ts, TreeCounted syst x.2) :
    (ts.map fun x => (leafPaths (branches syst) x.2).encard).sum =
      ((ts.map fun x => traces syst x.2).sum : Nat) := by
  induction ts with
  | nil => rfl
  | cons x ts ih =>
    rw [List.map_cons, List.map_cons, List.sum_cons, List.sum_cons, Nat.cast_add,
      ih fun y hy => hts y (List.mem_cons_of_mem x hy), (hts x List.mem_cons_self).encard]

/-- The siblings are popped one after the other, each with everything below it. -/
theorem search_siblings (hts : ∀ x ∈ ts, TreeCounted syst x.2) :
    ∃ m, ∀ fuel n stack ss, dfsTree syst (m + fuel) n stack (ts ++ ss) =
      dfsTree syst fuel (n + (ts.map fun x => traces syst x.2).sum) stack ss := by
  induction ts with
  | nil => exact ⟨0, fun fuel n stack ss => by simp⟩
  | cons x ts ih =>
    obtain ⟨m, hm⟩ := (hts x List.mem_cons_self).search
    obtain ⟨m', hm'⟩ := ih fun y hy => hts y (List.mem_cons_of_mem x hy)
    refine ⟨m + m', fun fuel n stack ss => ?_⟩
    rw [Nat.add_assoc, List.cons_append, hm, hm', List.map_cons, List.sum_cons, Nat.cast_add,
      Int.add_assoc]

theorem treeCounted_node (h : Domain.enabled syst s = .ok ts) (hne : ts ≠ [])
    (hts : ∀ x ∈ ts, TreeCounted syst x.2) : TreeCounted syst s := by
  have hsum := (encard_branches h hne).trans (sum_encard hts)
  have htraces : traces syst s = (ts.map fun x => traces syst x.2).sum := by
    rw [traces, Set.ncard, hsum, ENat.toNat_natCast]
  obtain ⟨m, hm⟩ := search_siblings hts
  refine ⟨Set.finite_of_encard_eq_coe hsum, m + 1, fun fuel n stack i ss => ?_⟩
  rw [Nat.add_right_comm, dfsTree_node h hne, hm, htraces]
  exact dfsTree_stack stack

theorem FiniteTree.treeCounted (h : FiniteTree (threadSteps syst) s) : TreeCounted syst s := by
  refine h.induction fun s ts _ hs ih => ?_
  have hen := threadSteps_eq_some.1 hs
  by_cases hne : ts = []
  · subst hne
    exact treeCounted_leaf hen
  · exact treeCounted_node hen hne fun x hx => ih x.1 x.2 hx

/-! ## Paths and sequences of threads -/

/-- In no state of the tree from `s` does `enabled` list a thread twice. -/
def ThreadsOnce (syst : System st act) (s : st) : Prop :=
  ∀ p u ts, Walk (threadSteps syst) s p u → Domain.enabled syst u = .ok ts → (ts.map (·.1)).Nodup

/-- Where no thread is listed twice, a path is known by its threads. -/
theorem encard_threadSteps (h : FiniteTree (threadSteps syst) s) : ThreadsOnce syst s →
    (leafPaths (threadSteps syst) s).encard = (leafPaths (branches syst) s).encard := by
  refine h.induction (motive := fun s => ThreadsOnce syst s →
    (leafPaths (threadSteps syst) s).encard = (leafPaths (branches syst) s).encard)
    fun s ts _ hs ih hnd => ?_
  have hen := threadSteps_eq_some.1 hs
  by_cases hne : ts = []
  · subst hne
    rw [leafPaths_leaf hs, leafPaths_leaf (branches_of_enabled hen)]
    simp
  · rw [encard_branches hen hne, encard_leafPaths hs hne (hnd [] s ts (.nil s) hen)]
    refine congrArg List.sum (List.map_congr_left fun x hx => ih x.1 x.2 hx ?_)
    exact fun p u us hw => hnd (x.1 :: p) u us (.cons hs hx hw)

/-- If the computation tree is finite, the search ends with any bound from some number on, and what it
reports is the number of paths to the leaves: of the lists of positions, and of the sequences of
threads where `enabled` lists no thread twice. -/
theorem dfsTree_counts (h : FiniteTree (threadSteps syst) syst.gbst) :
    ∃ k : Nat, (∃ N, ∀ fuel, N ≤ fuel → dfsTree syst fuel 1 [] [(0, syst.gbst)] = .ok k) ∧
      (leafPaths (branches syst) syst.gbst).encard = k ∧
      (ThreadsOnce syst syst.gbst → (leafPaths (threadSteps syst) syst.gbst).encard = k) := by
  have hc := h.treeCounted
  obtain ⟨m, hm⟩ := hc.search
  refine ⟨traces syst syst.gbst, ⟨m, fun fuel hfuel => ?_⟩, hc.encard, fun hnd => ?_⟩
  · obtain ⟨fuel, rfl⟩ := Nat.exists_eq_add_of_le hfuel
    rw [hm, dfsTree_nil, add_sub_cancel_left]
  · rw [encard_threadSteps h hnd, hc.encard]

end DfsTree

/-! ## Lock programs

Every step of a lock program uses up an operation of a thread, so the tree of each of them is finite. -/

namespace LockProgram

variable {P : LockProgram} {s : LockState P}

/-- The number of operations that are left. -/
def remaining (s : LockState P) : Nat :=
  ∑ t ∈ Finset.range P.length, ((P.thread t).length - s.pc t)

theorem remaining_step {t : Nat} {o : LockOp} (hlen : s.pcs.length = P.length)
    (hnext : s.next t = some o) : remaining (s.step t) < remaining s := by
  have hop := (LockState.next_eq_some.1 hnext).1
  have ht := lt_length_of_op hop
  have hpc := LockState.pc_step (s := s) (hlen ▸ ht)
  have hlt := op_lt_length hop
  refine Finset.sum_lt_sum (fun t' _ => ?_) ⟨t, Finset.mem_range.2 ht, ?_⟩
  · rw [hpc]
    by_cases heq : t' = t
    · subst heq
      rw [if_pos rfl]
      omega
    · rw [if_neg heq]
  · rw [hpc, if_pos rfl]
    omega

theorem enabled_system : Domain.enabled P.system s = .ok ((Projection.controlPart s).filterMap fun p =>
    ((lockRun s p.1).head?.map (·.1)).map (p.1, ·)) := by
  have hask : ∀ tid, Domain.isEnabled P.system s tid = .ok ((lockRun s tid).head?.map (·.1)) :=
    fun _ => rfl
  exact enabledDefault_of_ok hask

/-- What a thread is enabled for is its next operation. -/
theorem exists_next {tid : TId} {s' : LockState P}
    (h : (lockRun s tid).head?.map (·.1) = some s') : ∃ t o, s.next t = some o ∧ s' = s.step t := by
  cases tid with
  | negSucc t => simp [lockRun] at h
  | ofNat t =>
    cases hn : s.next t with
    | none => simp [lockRun, hn] at h
    | some o => exact ⟨t, o, hn, by simpa [lockRun, hn] using h.symm⟩

theorem finiteTree_system (P : LockProgram) : FiniteTree (threadSteps P.system) P.system.gbst := by
  refine .of_rank (R := fun s => s.pcs.length = P.length) remaining (fun s hlen => ?_) (by
    simp [system, LockState.init])
  refine ⟨_, threadSteps_eq_some.2 enabled_system, ?_⟩
  rintro ⟨tid, s'⟩ hmem
  obtain ⟨p, -, hp⟩ := List.mem_filterMap.1 hmem
  obtain ⟨s₁, hs₁, heq⟩ := Option.map_eq_some_iff.1 hp
  obtain ⟨-, rfl⟩ := Prod.mk.inj heq
  obtain ⟨t, o, hnext, rfl⟩ := exists_next hs₁
  exact ⟨by simpa [LockState.step] using hlen, remaining_step hlen hnext⟩

theorem threadsOnce_system (P : LockProgram) : ThreadsOnce P.system P.system.gbst := by
  intro p u ts _ hts
  refine enabledDefault_nodup ?_ hts
  have hkeys : (Projection.controlPart u).map (·.1) = (List.range' 0 u.pcs.length).map Int.ofNat := by
    rw [← List.zipIdx_map_snd 0 u.pcs, List.map_map]
    simp [Projection.controlPart]
  rw [hkeys]
  exact List.Nodup.map (fun _ _ => Int.ofNat.inj) List.nodup_range'

end LockProgram

/-- The two orders of two critical sections. -/
theorem dfsTree_counts_twoSections :
    dfsTree twoSections.system 9 1 [] [(0, twoSections.system.gbst)] = .ok 2 ∧
      (leafPaths (threadSteps twoSections.system) twoSections.system.gbst).encard = 2 := by
  have hrun : dfsTree twoSections.system 9 1 [] [(0, twoSections.system.gbst)] = .ok 2 := by decide
  obtain ⟨k, ⟨N, hN⟩, -, hthreads⟩ := dfsTree_counts twoSections.finiteTree_system
  have hk : (k : Int) = 2 := Except.ok.inj
    ((hN (9 + N) (Nat.le_add_left N 9)).symm.trans (dfsTree_mono N hrun))
  obtain rfl : k = 2 := by omega
  exact ⟨hrun, hthreads twoSections.threadsOnce_system⟩

end Poet
