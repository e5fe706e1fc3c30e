import Poet.Locks.Traces
import Poet.Model.DfsTree

/-!
# Interleavings of a lock program

An interleaving is a list of steps, each executable where it is done (`Interleaves`). Steps of other
threads on other mutexes commute (`Interleaves.move_front`), a critical section can be put before steps
that are not on its mutex (`Interleaves.insert_section`), and every state is followed by an interleaving to
a state in which no thread can go on (`exists_maximal`). Where a thread can go on, the first step of a
maximal interleaving on its mutex (`firstOn`) is its own, or both are locks
(`Interleaves.firstOn_lock`); in both cases the thread could have gone first (`exists_front`).
-/

namespace Poet

open scoped List

/-- A step of a thread: its number and what it does. -/
structure LockStep where
  tid : Nat
  idx : Nat
  op : LockOp
deriving DecidableEq, Repr

namespace LockStep

variable {a b : LockStep}

def mutex (a : LockStep) : Nat := a.op.mutex

/-- The name and the action of the step. -/
def info (a : LockStep) : EventInfo LockAct := (stepName a.tid a.idx, a.op.act)

theorem isDependent_info : isDependent a.info b.info = true ↔ a.tid = b.tid ∨ a.mutex = b.mutex :=
  isDependent_step

end LockStep

/-- The first step on `m`. -/
def firstOn (m : Nat) (w : List LockStep) : Option LockStep := w.find? (·.mutex = m)

theorem firstOn_eq_some {m : Nat} {w : List LockStep} {a : LockStep} : firstOn m w = some a ↔
    a.mutex = m ∧ ∃ u v, w = u ++ a :: v ∧ ∀ b ∈ u, b.mutex ≠ m := by
  simp [firstOn, List.find?_eq_some_iff_append]

theorem firstOn_append_of_some {m : Nat} {u v : List LockStep} {a : LockStep}
    (h : firstOn m u = some a) : firstOn m (u ++ v) = some a := by
  rw [firstOn, List.find?_append, ← firstOn, h, Option.some_or]

theorem firstOn_append_of_none {m : Nat} {u v : List LockStep} (h : ∀ b ∈ u, b.mutex ≠ m) :
    firstOn m (u ++ v) = firstOn m v := by
  rw [firstOn, List.find?_append, List.find?_eq_none.2 (by simpa using h), Option.none_or, firstOn]

theorem firstOn_append_cons_of_ne {m : Nat} {u v : List LockStep} {a : LockStep} (h : a.mutex ≠ m) :
    firstOn m (u ++ a :: v) = firstOn m (u ++ v) := by
  rw [firstOn, List.find?_append, List.find?_cons_of_neg (by simpa using h), firstOn, List.find?_append]

theorem firstOn_filter {m : Nat} {q : LockStep → Bool} {w : List LockStep}
    (h : ∀ a ∈ w, a.mutex = m → q a = true) : firstOn m (w.filter q) = firstOn m w := by
  rw [firstOn, List.find?_filter, firstOn]
  induction w with
  | nil => rfl
  | cons a w ih =>
    rw [List.find?_cons, List.find?_cons, ih fun b hb => h b (List.mem_cons_of_mem a hb)]
    by_cases ham : a.mutex = m
    · simp [ham, h a List.mem_cons_self ham]
    · simp [ham]

namespace LockProgram

/-- No thread ends while it holds a mutex that another thread uses. -/
def ReleasesShared (P : LockProgram) : Prop :=
  ∀ t < P.length, ∀ a ∈ P.thread t, holds (P.thread t) (P.thread t).length a.mutex = true →
    ∀ t' < P.length, t' ≠ t → ∀ b ∈ P.thread t', b.mutex ≠ a.mutex

instance (P : LockProgram) : Decidable P.ReleasesShared := by
  unfold ReleasesShared
  infer_instance

variable {P : LockProgram} {t t' i j m : Nat} {o : LockOp}

/-- The lock of a mutex that another thread uses is followed by its unlock. -/
theorem ReleasesShared.unlock_of_lock (hr : P.ReleasesShared) (hw : P.WellLocked) (hn : P.NonNested)
    (hl : P.op t i = some (.lock m)) (ho : P.op t' j = some o) (hm : o.mutex = m) (hne : t' ≠ t) :
    P.op t (i + 1) = some (.unlock m) := by
  have hlt := op_lt_length hl
  by_cases hend : i + 1 < (P.thread t).length
  · have hop : P.op t (i + 1) = some (P.thread t)[i + 1] := List.getElem?_eq_getElem hend
    rw [hop, hn.unlock_of_lock hw hl hop]
  · have hheld : holds (P.thread t) (P.thread t).length m = true :=
      holds_iff.2 ⟨i, hlt, hl, fun k o hk hk' => by omega⟩
    exact absurd hm (hr t (lt_length_of_op hl) (.lock m) (List.mem_of_getElem? hl) hheld t'
      (lt_length_of_op ho) hne o (List.mem_of_getElem? ho))

theorem WellLocked.not_holds_of_lock (h : P.WellLocked) (ho : P.op t i = some (.lock m)) :
    ¬ holds (P.thread t) i m = true := by
  have hok := h _ (thread_mem ho) i (op_lt_length ho)
  rw [op] at ho
  simpa [stepOk, ho] using hok

/-- Before an unlock is its lock. -/
theorem NonNested.lock_of_unlock (hn : P.NonNested) (hw : P.WellLocked)
    (hu : P.op t i = some (.unlock m)) : ∃ j, i = j + 1 ∧ P.op t j = some (.lock m) := by
  obtain ⟨j, hj, hl, hno⟩ := holds_iff.1 (hw.holds_of_unlock hu)
  have hlt := op_lt_length hu
  have hop : P.op t (j + 1) = some ((P.thread t).get ⟨j + 1, by omega⟩) :=
    List.getElem?_eq_getElem (by omega)
  have hunl := hn.unlock_of_lock hw hl hop
  refine ⟨j, ?_, hl⟩
  by_contra hne
  rw [hunl] at hop
  exact hno (j + 1) _ (by omega) (by omega) hop rfl

end LockProgram

namespace LockState

variable {P : LockProgram} {g h : LockState P} {t t' m : Nat} {o : LockOp}

theorem ext_pc (hlen : g.pcs.length = h.pcs.length) (hpc : ∀ t, g.pc t = h.pc t) : g = h := by
  cases g with | mk pcs =>
  cases h with | mk pcs' =>
  congr 1
  refine List.ext_getElem hlen fun t ht ht' => ?_
  have := hpc t
  simpa [pc, List.getD_eq_getElem?_getD, List.getElem?_eq_getElem, ht, ht'] using this

theorem step_length (g : LockState P) (t : Nat) : (g.step t).pcs.length = g.pcs.length := by
  simp [step]

/-- No thread can go on. -/
def Stuck (g : LockState P) : Prop := ∀ t, g.next t = none

/-- No mutex is held by two threads. -/
def Exclusive (g : LockState P) : Prop :=
  ∀ m t t', holds (P.thread t) (g.pc t) m = true → holds (P.thread t') (g.pc t') m = true → t = t'

theorem exclusive_init : (init P).Exclusive := by
  intro m t t' h
  rw [pc_init] at h
  simp [holds] at h

theorem not_holds_of_not_held (h : g.held m = false) (t : Nat) :
    holds (P.thread t) (g.pc t) m = false := by
  by_contra hno
  obtain ⟨j, hj, hl, hk⟩ := holds_iff.1 (by simpa using hno)
  have : g.held m = true := held_iff.2 ⟨t, j, hj, hl, hk⟩
  rw [h] at this
  cases this

/-- The states agree but for the step that thread `t` is at, and for mutexes outside `M` that it holds. -/
structure SameBut (t : Nat) (M : Nat → Prop) (g h : LockState P) : Prop where
  length : h.pcs.length = g.pcs.length
  pc : ∀ t', t' ≠ t → h.pc t' = g.pc t'
  holds : ∀ m, M m → holds (P.thread t) (h.pc t) m = holds (P.thread t) (g.pc t) m

namespace SameBut

variable {M : Nat → Prop}

theorem held (hs : SameBut t M g h) (hm : M m) : h.held m = g.held m := by
  unfold LockState.held
  congr 1
  funext t'
  by_cases heq : t' = t
  · rw [heq, hs.holds m hm]
  · rw [hs.pc t' heq]

theorem next_eq (hs : SameBut t M g h) (hne : t' ≠ t) (hnext : g.next t' = some o) (hm : M o.mutex) :
    h.next t' = some o := by
  rw [next_eq_some] at hnext ⊢
  refine ⟨(hs.pc t' hne).symm ▸ hnext.1, ?_⟩
  rintro m rfl
  exact (hs.held hm).trans (hnext.2 m rfl)

theorem step (hs : SameBut t M g h) (hne : t' ≠ t) (hlt : t' < g.pcs.length) :
    SameBut t M (g.step t') (h.step t') where
  length := by rw [step_length, step_length, hs.length]
  pc t₁ h₁ := by
    rw [pc_step (hs.length ▸ hlt), pc_step hlt, hs.pc t' hne, hs.pc t₁ h₁]
  holds m hm := by
    rw [pc_step (hs.length ▸ hlt), pc_step hlt, if_neg (Ne.symm hne), if_neg (Ne.symm hne), hs.holds m hm]

/-- One step of the thread changes only what it holds of its mutex. -/
theorem of_step (hlt : t < g.pcs.length) (hop : P.op t (g.pc t) = some o) :
    SameBut t (· ≠ o.mutex) g (g.step t) where
  length := step_length g t
  pc t' hne := by rw [pc_step hlt, if_neg hne]
  holds m hm := by
    rw [pc_step hlt, if_pos rfl, holds_succ, show (P.thread t)[g.pc t]? = some o from hop]
    simp [Ne.symm hm]

end SameBut

/-- The states agree but for thread `t`, which is at step `p` or later; in `h` it has done the critical
section that starts there. -/
structure Ahead (t p : Nat) (g h : LockState P) : Prop where
  length : h.pcs.length = g.pcs.length
  pc : ∀ t', t' ≠ t → h.pc t' = g.pc t'
  low : p ≤ g.pc t
  high : h.pc t = max (g.pc t) (p + 2)

namespace Ahead

variable {p : Nat}

/-- The thread holds nothing that it does not hold in `g`. -/
theorem holds (hs : Ahead t p g h) (hl : P.op t p = some (.lock m))
    (hu : P.op t (p + 1) = some (.unlock m)) {m' : Nat}
    (hh : Poet.holds (P.thread t) (h.pc t) m' = true) : Poet.holds (P.thread t) (g.pc t) m' = true := by
  have hlow := hs.low
  rw [hs.high] at hh
  by_cases hge : p + 2 ≤ g.pc t
  · rwa [Nat.max_eq_left hge] at hh
  · rw [Nat.max_eq_right (by omega), holds_succ, show (P.thread t)[p + 1]? = some (.unlock m) from hu] at hh
    by_cases hm : m = m'
    · simp [LockOp.mutex, hm] at hh
    · have hh : Poet.holds (P.thread t) (p + 1) m' = true := by simpa [LockOp.mutex, hm] using hh
      rcases (show g.pc t = p + 1 ∨ g.pc t = p by omega) with heq | heq
      · rwa [heq]
      · rw [holds_succ, show (P.thread t)[p]? = some (.lock m) from hl] at hh
        rw [heq]
        simpa [LockOp.mutex, hm] using hh

theorem next_eq (hs : Ahead t p g h) (hl : P.op t p = some (.lock m))
    (hu : P.op t (p + 1) = some (.unlock m)) (hpc : h.pc t' = g.pc t') (hnext : g.next t' = some o) :
    h.next t' = some o := by
  rw [next_eq_some] at hnext ⊢
  refine ⟨hpc.symm ▸ hnext.1, ?_⟩
  rintro m' rfl
  have hfree := hnext.2 m' rfl
  simp only [held, List.any_eq_false, List.mem_range] at hfree ⊢
  intro t₁ ht₁ hheld
  by_cases heq : t₁ = t
  · subst heq
    exact hfree t₁ ht₁ (hs.holds hl hu hheld)
  · exact hfree t₁ ht₁ (hs.pc t₁ heq ▸ hheld)

/-- A step that was done in `h`. -/
theorem skip (hs : Ahead t p g h) (hlt : t < g.pcs.length) (hpc : g.pc t < p + 2) :
    Ahead t p (g.step t) h where
  length := by rw [step_length, hs.length]
  pc t' hne := by rw [pc_step hlt, if_neg hne, hs.pc t' hne]
  low := by rw [pc_step hlt, if_pos rfl]; exact Nat.le_succ_of_le hs.low
  high := by rw [pc_step hlt, if_pos rfl, hs.high]; omega

theorem step (hs : Ahead t p g h) (hlt : t' < g.pcs.length) (hpc : h.pc t' = g.pc t') :
    Ahead t p (g.step t') (h.step t') where
  length := by rw [step_length, step_length, hs.length]
  pc t₁ h₁ := by rw [pc_step (hs.length ▸ hlt), pc_step hlt, hpc, hs.pc t₁ h₁]
  low := by
    rw [pc_step hlt]
    split
    · next heq => exact Nat.le_succ_of_le (heq ▸ hs.low)
    · exact hs.low
  high := by
    rw [pc_step (hs.length ▸ hlt), pc_step hlt]
    split
    · next heq =>
      have hhigh := hs.high
      rw [heq] at hhigh
      omega
    · exact hs.high

theorem of_section (hlt : t < g.pcs.length) : Ahead t (g.pc t) g ((g.step t).step t) where
  length := by rw [step_length, step_length]
  pc t' hne := by
    rw [pc_step ((step_length g t).symm ▸ hlt), if_neg hne, pc_step hlt, if_neg hne]
  low := Nat.le_refl _
  high := by
    rw [pc_step ((step_length g t).symm ▸ hlt), if_pos rfl, pc_step hlt, if_pos rfl]
    omega

end Ahead

theorem Exclusive.step (hx : g.Exclusive) (hlt : t < g.pcs.length) (hnext : g.next t = some o) :
    (g.step t).Exclusive := by
  have hs := next_eq_some.1 hnext
  have hnew : ∀ m t₁, holds (P.thread t₁) ((g.step t).pc t₁) m = true →
      holds (P.thread t₁) (g.pc t₁) m = true ∨ (t₁ = t ∧ o = .lock m) := by
    intro m t₁ h
    rw [pc_step hlt] at h
    split at h
    · next heq =>
      subst heq
      rw [holds_succ, show (P.thread t₁)[g.pc t₁]? = some o from hs.1] at h
      by_cases hm : o.mutex = m
      · exact .inr ⟨rfl, by simpa [hm] using h⟩
      · exact .inl (by simpa [hm] using h)
    · exact .inl h
  intro m t₁ t₂ h₁ h₂
  rcases hnew m t₁ h₁ with h₁' | ⟨rfl, hl⟩ <;> rcases hnew m t₂ h₂ with h₂' | ⟨rfl, hl'⟩
  · exact hx m t₁ t₂ h₁' h₂'
  · exact absurd h₁' (by simp [not_holds_of_not_held (hs.2 m hl')])
  · exact absurd h₂' (by simp [not_holds_of_not_held (hs.2 m hl)])
  · rfl

/-- No other thread can go on with the mutex of a thread that is to unlock it. -/
theorem Exclusive.eq_of_unlock (hx : g.Exclusive) (hw : P.WellLocked)
    (hu : P.op t (g.pc t) = some (.unlock m)) (hnext : g.next t' = some o) (hm : o.mutex = m) :
    t' = t := by
  have hholds := hw.holds_of_unlock hu
  cases o with
  | lock m' =>
    obtain rfl : m' = m := hm
    rw [not_holds_of_not_held ((next_eq_some.1 hnext).2 m' rfl)] at hholds
    cases hholds
  | unlock m' =>
    obtain rfl : m' = m := hm
    exact hx m' t' t (hw.holds_of_unlock (op_of_next hnext)) hholds

end LockState

/-- The steps `w` can be done one after the other from `g`, and lead to `g'`. -/
inductive Interleaves {P : LockProgram} : LockState P → List LockStep → LockState P → Prop where
  | nil (g : LockState P) : Interleaves g [] g
  | cons {g g' : LockState P} {a : LockStep} {w : List LockStep} (hidx : a.idx = g.pc a.tid)
      (hnext : g.next a.tid = some a.op) (hw : Interleaves (g.step a.tid) w g') :
      Interleaves g (a :: w) g'

namespace Interleaves

variable {P : LockProgram} {g g' g'' h : LockState P} {u v w : List LockStep} {a b : LockStep}
  {t i m : Nat} {o : LockOp}

theorem append (hu : Interleaves g u g') (hv : Interleaves g' v g'') : Interleaves g (u ++ v) g'' := by
  induction hu with
  | nil => exact hv
  | cons hidx hnext _ ih => exact .cons hidx hnext (ih hv)

theorem of_append : ∀ {u : List LockStep} {g : LockState P}, Interleaves g (u ++ v) g'' →
    ∃ g', Interleaves g u g' ∧ Interleaves g' v g''
  | [], g, hv => ⟨g, .nil g, hv⟩
  | _ :: _, _, .cons hidx hnext hw => by
    obtain ⟨g', hu, hv⟩ := of_append hw
    exact ⟨g', .cons hidx hnext hu, hv⟩

theorem pcs_length (hw : Interleaves g w g') : g'.pcs.length = g.pcs.length := by
  induction hw with
  | nil => rfl
  | cons _ _ _ ih => rw [ih, LockState.step_length]

section Length

variable (hlen : g.pcs.length = P.length)

include hlen

theorem lt_length (hnext : g.next t = some o) : t < g.pcs.length :=
  hlen ▸ LockProgram.lt_length_of_op (LockState.op_of_next hnext)

theorem pc_le (hw : Interleaves g w g') (t : Nat) : g.pc t ≤ g'.pc t := by
  induction hw with
  | nil => exact Nat.le_refl _
  | @cons g g' a w _ hnext _ ih =>
    have hstep := LockState.pc_step (lt_length hlen hnext) t
    have := ih ((LockState.step_length g a.tid).trans hlen)
    split at hstep
    · next heq => subst heq; omega
    · omega

/-- The steps between the two states. -/
theorem mem_iff (hw : Interleaves g w g') :
    a ∈ w ↔ g.pc a.tid ≤ a.idx ∧ a.idx < g'.pc a.tid ∧ P.op a.tid a.idx = some a.op := by
  induction hw with
  | nil => simp; omega
  | @cons g g' b w hidx hnext hw ih =>
    have hlen' := (LockState.step_length g b.tid).trans hlen
    have hstep := LockState.pc_step (lt_length hlen hnext) a.tid
    have hle := pc_le hlen' hw a.tid
    have hop := LockState.op_of_next hnext
    rw [List.mem_cons, ih hlen']
    by_cases htid : a.tid = b.tid
    · rw [if_pos htid] at hstep
      rw [← hidx, ← htid] at hop
      rw [htid] at hstep hle ⊢
      constructor
      · rintro (rfl | ⟨h₁, h₂, h₃⟩)
        · exact ⟨by omega, by omega, hop⟩
        · exact ⟨by omega, h₂, h₃⟩
      · rintro ⟨h₁, h₂, h₃⟩
        by_cases heq : a.idx = b.idx
        · refine .inl ?_
          cases a; cases b
          simp only at htid heq h₃ hop
          subst htid heq
          rw [hop, Option.some_inj] at h₃
          rw [h₃]
        · exact .inr ⟨by omega, h₂, h₃⟩
    · rw [if_neg htid] at hstep
      rw [hstep]
      refine ⟨fun h => h.resolve_left fun heq => htid (heq ▸ rfl), .inr⟩

theorem exists_step (hw : Interleaves g w g') (hi : g.pc t ≤ i) (hi' : i < g'.pc t)
    (hop : P.op t i = some o) : (⟨t, i, o⟩ : LockStep) ∈ w := (mem_iff hlen hw).2 ⟨hi, hi', hop⟩

theorem nodup (hw : Interleaves g w g') : w.Nodup := by
  induction hw with
  | nil => exact List.nodup_nil
  | @cons g g' a w hidx hnext hw ih =>
    have hlen' := (LockState.step_length g a.tid).trans hlen
    refine List.nodup_cons.2 ⟨fun hm => ?_, ih hlen'⟩
    have hge := ((mem_iff hlen' hw).1 hm).1
    rw [LockState.pc_step (lt_length hlen hnext), if_pos rfl] at hge
    omega

/-- The steps of a thread are in order. -/
theorem idx_lt (hw : Interleaves g (u ++ a :: v) g') (hb : b ∈ u) (htid : b.tid = a.tid) :
    b.idx < a.idx := by
  obtain ⟨g₁, hu, hv⟩ := of_append hw
  cases hv with
  | cons hidx _ _ =>
    rw [hidx, ← htid]
    exact ((mem_iff hlen hu).1 hb).2.1

theorem exclusive (hw : Interleaves g w g') (hx : g.Exclusive) : g'.Exclusive := by
  induction hw with
  | nil => exact hx
  | @cons g g' a w _ hnext _ ih =>
    exact ih ((LockState.step_length g a.tid).trans hlen) (hx.step (lt_length hlen hnext) hnext)

/-- What is not on `m` does not change whether it is held. -/
theorem held_eq (hw : Interleaves g w g') (hno : ∀ a ∈ w, a.mutex ≠ m) : g'.held m = g.held m := by
  induction hw with
  | nil => rfl
  | @cons g g' a w _ hnext _ ih =>
    rw [ih ((LockState.step_length g a.tid).trans hlen) fun b hb => hno b (List.mem_cons_of_mem a hb)]
    exact (LockState.SameBut.of_step (lt_length hlen hnext) (LockState.op_of_next hnext)).held
      (hno a List.mem_cons_self).symm

theorem pc_eq (hw : Interleaves g w g') (hno : ∀ a ∈ w, a.tid ≠ t) : g'.pc t = g.pc t := by
  induction hw with
  | nil => rfl
  | @cons g g' a w _ hnext _ ih =>
    rw [ih ((LockState.step_length g a.tid).trans hlen) fun b hb => hno b (List.mem_cons_of_mem a hb),
      LockState.pc_step (lt_length hlen hnext), if_neg (hno a List.mem_cons_self).symm]

/-- The steps can be done from a state that differs in a thread which has none of them. -/
theorem of_sameBut {M : Nat → Prop} (hw : Interleaves g w g') (hs : LockState.SameBut t M g h)
    (hno : ∀ a ∈ w, a.tid ≠ t ∧ M a.mutex) :
    ∃ h', Interleaves h w h' ∧ LockState.SameBut t M g' h' := by
  induction hw generalizing h with
  | nil => exact ⟨h, .nil h, hs⟩
  | @cons g g' a w hidx hnext _ ih =>
    obtain ⟨hne, hm⟩ := hno a List.mem_cons_self
    obtain ⟨h', hw', hs'⟩ := ih ((LockState.step_length g a.tid).trans hlen)
      (hs.step hne (lt_length hlen hnext)) fun b hb => hno b (List.mem_cons_of_mem a hb)
    exact ⟨h', .cons (hidx.trans (hs.pc a.tid hne).symm) (hs.next_eq hne hnext hm) hw', hs'⟩

/-- A thread waits while the others do steps that it is independent of. -/
theorem next_of_independent (hw : Interleaves g w g') (hnext : g.next t = some o)
    (hno : ∀ a ∈ w, a.tid ≠ t ∧ a.mutex ≠ o.mutex) : g'.next t = some o := by
  rw [LockState.next_eq_some] at hnext ⊢
  refine ⟨(hw.pc_eq hlen fun a ha => (hno a ha).1).symm ▸ hnext.1, ?_⟩
  rintro m rfl
  exact (hw.held_eq hlen fun a ha => (hno a ha).2).trans (hnext.2 m rfl)

/-- The next step of a thread can be done before steps that it is independent of. -/
theorem step_front (hw : Interleaves g w g') (hnext : g.next t = some o)
    (hno : ∀ a ∈ w, a.tid ≠ t ∧ a.mutex ≠ o.mutex) : Interleaves (g.step t) w (g'.step t) := by
  have hlt := lt_length hlen hnext
  obtain ⟨h', hw', hs⟩ := hw.of_sameBut hlen
    (LockState.SameBut.of_step hlt (LockState.op_of_next hnext)) hno
  have hlt' : t < g'.pcs.length := hw.pcs_length.symm ▸ hlt
  have heq : h' = g'.step t := by
    refine LockState.ext_pc (hs.length.trans (LockState.step_length g' t).symm) fun t' => ?_
    rw [LockState.pc_step hlt']
    split
    · next heq =>
      subst heq
      rw [hw'.pc_eq ((LockState.step_length g t').trans hlen) fun a ha => (hno a ha).1,
        LockState.pc_step hlt, if_pos rfl, hw.pc_eq hlen fun a ha => (hno a ha).1]
    · next hne => exact hs.pc t' hne
  exact heq ▸ hw'

/-- Before the first step on the mutex of the next step of thread `t` the thread does nothing. -/
theorem independent_of_no_mutex (hw : Interleaves g w g') (hop : P.op t (g.pc t) = some o)
    (hno : ∀ a ∈ w, a.mutex ≠ o.mutex) : ∀ a ∈ w, a.tid ≠ t ∧ a.mutex ≠ o.mutex := by
  refine fun a ha => ⟨?_, hno a ha⟩
  rintro rfl
  have hpc := (hw.mem_iff hlen).1 ha
  exact hno _ (hw.exists_step hlen (Nat.le_refl _) (Nat.lt_of_le_of_lt hpc.1 hpc.2.1) hop) rfl

/-- **The first step on the mutex can be moved to the front if it is the thread's own.** -/
theorem move_front (hw : Interleaves g w g') (hnext : g.next t = some o)
    (hfirst : firstOn o.mutex w = some a) (htid : a.tid = t) :
    a = ⟨t, g.pc t, o⟩ ∧ ∃ u v, w = u ++ a :: v ∧ (∀ b ∈ u, b.tid ≠ t ∧ b.mutex ≠ o.mutex) ∧
      Interleaves (g.step t) (u ++ v) g' := by
  obtain ⟨-, u, v, rfl, hu⟩ := firstOn_eq_some.1 hfirst
  obtain ⟨g₁, hwu, hwv⟩ := of_append hw
  have hboth := hwu.independent_of_no_mutex hlen (LockState.op_of_next hnext) hu
  have hnext₁ := hwu.next_of_independent hlen hnext hboth
  cases hwv with
  | cons hidx hnexta hv =>
    subst htid
    rw [hwu.pc_eq hlen fun b hb => (hboth b hb).1] at hidx
    obtain rfl : o = a.op := Option.some_inj.1 (hnext₁.symm.trans hnexta)
    exact ⟨by rw [← hidx], u, v, rfl, hboth, (hwu.step_front hlen hnext hboth).append hv⟩

/-- The mutex of a thread that can go on is used before all threads are stuck. -/
theorem exists_firstOn (hw : Interleaves g w g') (hstuck : g'.Stuck) (hnext : g.next t = some o) :
    ∃ a, firstOn o.mutex w = some a := by
  by_contra hno
  push Not at hno
  have hnone : ∀ a ∈ w, a.mutex ≠ o.mutex := by
    simpa [firstOn] using Option.eq_none_iff_forall_not_mem.2 hno
  have hnext' := hw.next_of_independent hlen hnext
    (hw.independent_of_no_mutex hlen (LockState.op_of_next hnext) hnone)
  rw [hstuck t] at hnext'
  cases hnext'

/-- The first step on the mutex of a thread that can go on, if it is not the thread's own: both are
locks. -/
theorem firstOn_lock (hx : g.Exclusive) (hwl : P.WellLocked) (hw : Interleaves g w g')
    (hnext : g.next t = some o) (hfirst : firstOn o.mutex w = some a) (htid : a.tid ≠ t) :
    o = .lock o.mutex ∧ a.op = .lock o.mutex := by
  obtain ⟨ham, u, v, rfl, hu⟩ := firstOn_eq_some.1 hfirst
  obtain ⟨g₁, hwu, hwv⟩ := of_append hw
  have hnext₁ := hwu.next_of_independent hlen hnext
    (hwu.independent_of_no_mutex hlen (LockState.op_of_next hnext) hu)
  have hx₁ := hwu.exclusive hlen hx
  cases hwv with
  | cons hidx hnexta hv =>
    rw [LockStep.mutex] at ham
    cases o with
    | lock m =>
      refine ⟨rfl, ?_⟩
      cases hao : a.op with
      | lock m' => rw [hao] at ham; exact congrArg _ ham
      | unlock m' =>
        rw [hao] at ham hnexta
        exact absurd (hx₁.eq_of_unlock hwl (LockState.op_of_next hnexta) hnext₁ ham.symm).symm htid
    | unlock m =>
      exact absurd (hx₁.eq_of_unlock hwl (LockState.op_of_next hnext₁) hnexta ham) htid

/-- The steps of another state that is ahead. -/
theorem of_ahead {p : Nat} (hw : Interleaves g w g') (hs : LockState.Ahead t p g h)
    (hl : P.op t p = some (.lock m)) (hu : P.op t (p + 1) = some (.unlock m)) :
    ∃ h', Interleaves h (w.filter fun a => ¬ (a.tid = t ∧ a.idx < p + 2)) h' := by
  induction hw generalizing h with
  | nil => exact ⟨h, .nil h⟩
  | @cons g g' a w hidx hnext _ ih =>
    have hlt := lt_length hlen hnext
    have hlen' := (LockState.step_length g a.tid).trans hlen
    by_cases hskip : a.tid = t ∧ a.idx < p + 2
    · -- the step was done
      obtain ⟨rfl, hlow⟩ := hskip
      obtain ⟨h', hw'⟩ := ih hlen' (hs.skip hlt (by omega))
      exact ⟨h', by simpa [hlow] using hw'⟩
    · have hpc : h.pc a.tid = g.pc a.tid := by
        by_cases htid : a.tid = t
        · have hhigh := hs.high
          have := fun h => hskip ⟨htid, h⟩
          rw [← htid] at hhigh
          omega
        · exact hs.pc a.tid htid
      obtain ⟨h', hw'⟩ := ih hlen' (hs.step hlt hpc)
      refine ⟨h', ?_⟩
      rw [List.filter_cons, if_pos (decide_eq_true hskip)]
      exact .cons (hidx.trans hpc.symm) (hs.next_eq hl hu hpc hnext) hw'

/-- A critical section is put first, and left out where the thread comes to it. -/
theorem section_first (hw : Interleaves g w g') (hnext : g.next t = some (.lock m))
    (hu : P.op t (g.pc t + 1) = some (.unlock m)) :
    ∃ h', Interleaves (g.step t) (⟨t, g.pc t + 1, .unlock m⟩ ::
      w.filter fun a => ¬ (a.tid = t ∧ a.idx < g.pc t + 2)) h' := by
  have hlt := lt_length hlen hnext
  have hpc : (g.step t).pc t = g.pc t + 1 := by rw [LockState.pc_step hlt, if_pos rfl]
  obtain ⟨h', hw'⟩ := hw.of_ahead hlen (.of_section hlt) (LockState.op_of_next hnext) hu
  exact ⟨h', .cons hpc.symm (LockState.next_eq_some.2 ⟨hpc.symm ▸ hu, fun m' h => by cases h⟩) hw'⟩

/-- A critical section can be put before steps of other threads. -/
theorem insert_section (hw : Interleaves g w g') (hnext : g.next t = some (.lock m))
    (hu : P.op t (g.pc t + 1) = some (.unlock m)) (hno : ∀ a ∈ w, a.tid ≠ t) :
    ∃ h', Interleaves (g.step t) (⟨t, g.pc t + 1, .unlock m⟩ :: w) h' := by
  have hfirst := hw.section_first hlen hnext hu
  rw [List.filter_eq_self.2] at hfirst
  · exact hfirst
  · exact fun a ha => decide_eq_true fun h => hno a ha h.1

/-- **A critical section can be put first**, also if the thread comes to it later. -/
theorem section_front (hw : Interleaves g w g') (hnext : g.next t = some (.lock m))
    (hu : P.op t (g.pc t + 1) = some (.unlock m)) :
    ∃ w' h', Interleaves g (⟨t, g.pc t, .lock m⟩ :: w') h' ∧
      ∀ m', m' ≠ m → firstOn m' w' = firstOn m' w := by
  have hl := LockState.op_of_next hnext
  obtain ⟨h', hw'⟩ := hw.section_first hlen hnext hu
  refine ⟨_, h', .cons rfl hnext hw', fun m' hm => ?_⟩
  -- what is left out is on the mutex
  have hkeep : ∀ a ∈ w, a.mutex = m' → ¬ (a.tid = t ∧ a.idx < g.pc t + 2) := by
    rintro a ha rfl ⟨rfl, hidx⟩
    obtain ⟨hle, -, hop⟩ := (hw.mem_iff hlen).1 ha
    rcases (show a.idx = g.pc a.tid ∨ a.idx = g.pc a.tid + 1 by omega) with heq | heq
    · rw [heq, hl, Option.some_inj] at hop
      exact hm (congrArg LockOp.mutex hop).symm
    · rw [heq, hu, Option.some_inj] at hop
      exact hm (congrArg LockOp.mutex hop).symm
  exact (firstOn_append_cons_of_ne (u := []) (Ne.symm hm)).trans
    (firstOn_filter fun a ha ham => decide_eq_true (hkeep a ha ham))

/-- **The next step of a thread can be put first**, alone or with the critical section that it opens. -/
theorem exists_front (hx : g.Exclusive) (hwl : P.WellLocked) (hnn : P.NonNested)
    (hr : P.ReleasesShared) (hw : Interleaves g w g') (hnext : g.next t = some o) :
    ∃ w' h', Interleaves g (⟨t, g.pc t, o⟩ :: w') h' ∧
      ∀ m, m ≠ o.mutex → firstOn m w' = firstOn m w := by
  cases hfirst : firstOn o.mutex w with
  | none =>
    have hno : ∀ a ∈ w, a.mutex ≠ o.mutex := by simpa [firstOn] using hfirst
    exact ⟨w, _, .cons rfl hnext (hw.step_front hlen hnext
      (hw.independent_of_no_mutex hlen (LockState.op_of_next hnext) hno)), fun _ _ => rfl⟩
  | some a =>
    by_cases htid : a.tid = t
    · obtain ⟨rfl, u, v, rfl, -, hw'⟩ := hw.move_front hlen hnext hfirst htid
      refine ⟨u ++ v, g', .cons rfl hnext hw', fun m hm => ?_⟩
      exact (firstOn_append_cons_of_ne (Ne.symm hm)).symm
    · obtain ⟨ho, hao⟩ := firstOn_lock hlen hx hwl hw hnext hfirst htid
      generalize o.mutex = m at *
      subst ho
      obtain ⟨ham, u, v, rfl, -⟩ := firstOn_eq_some.1 hfirst
      have hopa := ((hw.mem_iff hlen).1 (by simp : a ∈ u ++ a :: v)).2.2
      exact hw.section_front hlen hnext
        (hr.unlock_of_lock hwl hnn (LockState.op_of_next hnext) hopa ham htid)

/-- Every state is followed by one in which no thread can go on. -/
theorem exists_maximal : ∃ w g', Interleaves g w g' ∧ g'.Stuck := by
  induction hn : LockProgram.remaining g using Nat.strong_induction_on generalizing g with
  | _ n ih =>
    by_cases hst : g.Stuck
    · exact ⟨[], g, .nil g, hst⟩
    · simp only [LockState.Stuck, not_forall] at hst
      obtain ⟨t, ht⟩ := hst
      obtain ⟨o, hnext⟩ := Option.ne_none_iff_exists'.1 ht
      obtain ⟨w, g', hw, hst'⟩ := ih _ (hn ▸ LockProgram.remaining_step hlen hnext)
        ((LockState.step_length g t).trans hlen) rfl
      exact ⟨⟨t, g.pc t, o⟩ :: w, g', .cons rfl hnext hw, hst'⟩

end Length

end Interleaves

end Poet
