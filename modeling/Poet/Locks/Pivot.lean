import Poet.Locks.Above

/-!
# Alternatives that are found

A call goes on with steps that avoid its disabled events (`Avoids`): the first step on the mutex of a
disabled event that can be added is another thread's. For each disabled event the branch in which it was
added has left alternatives for the locks that could have come before it (`DoneAt`). Hence `alt2` finds an
alternative that can be followed, whatever the steps are (`exists_passes`).
-/

namespace Poet

open scoped List

variable {P : LockProgram} {T T' : Events LockAct} {C D R S : EventsID} {g g' : LockState P}
  {e x y z : EventID} {u v w : List LockStep} {a b : LockStep} {n n' t i m : Nat} {o : LockOp}

/-- The first step on the mutex of an event of `D` that `S` can be extended with is another thread's. -/
def Avoids (P : LockProgram) (T : Events LockAct) (S D : EventsID) (w : List LockStep) : Prop :=
  ∀ x ∈ D, CanExtend T S x → ∀ t i o, IsStep P T x t i o → ∃ a, firstOn o.mutex w = some a ∧ a.tid ≠ t

/-- No event of `D` that `S` can be extended with is a lock of `m`. -/
def NoLock (P : LockProgram) (T : Events LockAct) (S D : EventsID) (m : Nat) : Prop :=
  ∀ x ∈ D, CanExtend T S x → ∀ t i, ¬ IsStep P T x t i (.lock m)

/-- The lock `z` of thread `t` was added to the stack `C`. If another lock of the mutex could come before
it, after steps that `z` is independent of, there is an alternative for that. -/
def AltesFound (P : LockProgram) (T : Events LockAct) (n : Nat) (C : EventsID) (g : LockState P)
    (z : EventID) (D : EventsID) : Prop :=
  ∀ t i m, IsStep P T z t i (.lock m) → NoLock P T C D m →
    ∀ w b g', Interleaves g (w ++ [b]) g' → (∀ a ∈ w, a.tid ≠ t ∧ a.mutex ≠ m) → b.op = .lock m →
      b.tid ≠ t → Avoids P T (z :: C) D (w ++ [b]) →
      ∃ v ∈ T.alteOf z, ∃ R, (∀ x ∈ R, x ∈ v) ∧ Above P T n C (w ++ [b]) R

/-- The branch in which `z` was added to a part of the stack, with the disabled events `D`, has been
explored. -/
def DoneAt (P : LockProgram) (T : Events LockAct) (n : Nat) (S : EventsID) (z : EventID)
    (D : EventsID) : Prop :=
  ∃ C g, C <:+ S ∧ StackRun P T n C g ∧ CanExtend T C z ∧ AltesFound P T n C g z D

/-- The same of all disabled events, each with those that were disabled before it. -/
def AllDone (P : LockProgram) (T : Events LockAct) (n : Nat) (S D : EventsID) : Prop :=
  ∀ l z D', D = l ++ z :: D' → DoneAt P T n S z D'

/-! ## The last of the first steps -/

/-- The last of the first steps on the mutexes `M`. -/
theorem exists_last_first {M : Nat → Prop} (hM : ∃ m, M m) (h : ∀ m, M m → ∃ a ∈ w, a.mutex = m) :
    ∃ k b rest, w = k ++ b :: rest ∧ M b.mutex ∧ (∀ a ∈ k, a.mutex ≠ b.mutex) ∧
      ∀ m, M m → m = b.mutex ∨ ∃ a ∈ k, a.mutex = m := by
  induction w using List.reverseRecOn with
  | nil =>
    obtain ⟨m, hm⟩ := hM
    obtain ⟨a, ha, -⟩ := h m hm
    cases ha
  | append_singleton w b ih =>
    by_cases hw : ∀ m, M m → ∃ a ∈ w, a.mutex = m
    · obtain ⟨k, b', rest, rfl, hb, hk, hall⟩ := ih hw
      exact ⟨k, b', rest ++ [b], by simp, hb, hk, hall⟩
    · push Not at hw
      obtain ⟨m, hm, hno⟩ := hw
      obtain ⟨a, ha, ham⟩ := h m hm
      have hab : a = b := by
        rcases List.mem_append.1 ha with ha | ha
        · exact absurd ham (hno a ha)
        · exact List.mem_singleton.1 ha
      subst hab ham
      refine ⟨w, a, [], rfl, hm, hno, fun m' hm' => ?_⟩
      obtain ⟨c, hc, hcm⟩ := h m' hm'
      rcases List.mem_append.1 hc with hc | hc
      · exact .inr ⟨c, hc, hcm⟩
      · exact .inl (hcm ▸ List.mem_singleton.1 hc ▸ rfl)

/-- The last element of a list with a property. -/
theorem exists_last_mem {α : Type} {p : α → Prop} {l : List α} (h : ∃ x ∈ l, p x) :
    ∃ l₁ z l₂, l = l₁ ++ z :: l₂ ∧ p z ∧ ∀ x ∈ l₂, ¬ p x := by
  induction l with
  | nil =>
    obtain ⟨x, hx, -⟩ := h
    cases hx
  | cons y l ih =>
    by_cases hl : ∃ x ∈ l, p x
    · obtain ⟨l₁, z, l₂, rfl, hz, hno⟩ := ih hl
      exact ⟨y :: l₁, z, l₂, rfl, hz, hno⟩
    · push Not at hl
      obtain ⟨x, hx, hpx⟩ := h
      rcases List.mem_cons.1 hx with rfl | hx
      · exact ⟨[], x, l, rfl, hpx, hl⟩
      · exact absurd hpx (hl x hx)

/-! ## Steps above a part of the stack -/

namespace StepsOver

variable (hs : StepsOver P T n C g v S g')

include hs

theorem above : Above P T n C v S :=
  ⟨⟨g', hs.high⟩, congrArg _ hs.word⟩

/-- The steps are independent of what can be added before and after them. -/
theorem independent (hx : CanExtend T C x) (hxS : CanExtend T S x) (hst : IsStep P T x t i o) :
    ∀ a ∈ v, a.tid ≠ t ∧ a.mutex ≠ o.mutex := by
  intro a ha
  obtain ⟨y, hy, hyC, hsy⟩ := hs.event a ha
  refine not_or.1 fun hd => hyC (hx.below hs.low.closed (hxS.dep y hy ((hsy.dep_iff hst).2 hd)))

/-- The first step on the mutex of an event that could be added is its own only if the event was added. -/
theorem first_tid (h : LockPrefix P T n) (hx : CanExtend T C x) (hxS : x ∉ S)
    (hst : IsStep P T x t i o) (hnext : g.next t = some o) (hi : i = g.pc t)
    (hfirst : firstOn o.mutex v = some a) : a.tid ≠ t := by
  intro htid
  obtain ⟨rfl, u, rest, rfl, hu, hfront⟩ := hs.steps.move_front hs.low.exec.pcs_length hnext hfirst htid
  obtain ⟨y, hy, hyC, hsy⟩ := (hs.above.move hu).exists_first h hs.low (.cons rfl hnext hfront)
  exact hxS (hx.eq_of_step hyC h (hi ▸ hst) hsy ▸ hy)

end StepsOver

/-! ## The alternative -/

section Passes

variable (h : LockPrefix P T n) (hwl : P.WellLocked) (hnn : P.NonNested) (hS : StackRun P T n S g)

include h hwl hnn hS

theorem CanExtend.next (hx : CanExtend T S x) (hst : IsStep P T x t i o) :
    i = g.pc t ∧ g.next t = some o :=
  h.past.next_of_canExtend h.table h.wf hwl hnn hS.exec hS.closed hx hst

theorem CanExtend.push (hx : CanExtend T S x) (hst : IsStep P T x t i o) :
    StackRun P T n (x :: S) (g.step t) := by
  obtain ⟨rfl, hnext⟩ := hx.next h hwl hnn hS hst
  refine ⟨h.wf, h.table, ⟨List.forall_mem_cons.2 ⟨hx.mem, hS.closed.mem⟩, fun y hy p hp => ?_⟩,
    .push hS.exec hst hnext hx.dep⟩
  rcases List.mem_cons.1 hy with rfl | hy
  · exact List.mem_cons_of_mem y (hx.pred p hp)
  · exact List.mem_cons_of_mem x (hS.closed.pred y hy p hp)

/-- A disabled event that can be added is a lock, and another lock of the mutex comes first. -/
theorem Avoids.exists_lock (havoid : Avoids P T S D w) (hw : Interleaves g w g') (hxD : x ∈ D)
    (hx : CanExtend T S x) : ∃ t m a, IsStep P T x t (g.pc t) (.lock m) ∧ g.next t = some (.lock m) ∧
      firstOn m w = some a ∧ a.tid ≠ t ∧ a.op = .lock m := by
  obtain ⟨t, i, o, hst⟩ := h.table.step x hx.mem fun heq => hx.notMem (heq ▸ hS.bot_mem)
  obtain ⟨rfl, hnext⟩ := hx.next h hwl hnn hS hst
  obtain ⟨a, hfirst, htid⟩ := havoid x hxD hx t _ o hst
  obtain ⟨ho, ha⟩ := hw.firstOn_lock hS.exec.pcs_length hS.exec.exclusive hwl hnext hfirst htid
  refine ⟨t, o.mutex, a, ?_, ?_, hfirst, htid, ha⟩
  · rwa [← ho]
  · rwa [← ho]

omit h hwl hnn hS in
theorem exists_firstOn_of_mem (ha : a ∈ w) : ∃ b, firstOn a.mutex w = some b :=
  Option.isSome_iff_exists.1 (List.find?_isSome.2 ⟨a, ha, by simp⟩)

omit hwl hnn in
/-- An alternative with the steps up to the first one on each mutex passes. -/
theorem Above.passes {u : List LockStep} {v : Alternative} (hR : Above P T n S u R)
    (hu : Interleaves g u g') (hnext : ∀ x ∈ D, CanExtend T S x → ∀ t i o, IsStep P T x t i o →
      g.next t = some o) (havoid : Avoids P T S D u)
    (hdis : ∀ x ∈ D, x ∈ T ∧ x ∉ S ∧ ∀ p ∈ T.predOf x, p ∈ S) (hv : ∀ x ∈ R, x ∈ v)
    (hok : AltOk T v) : Passes T S D v := by
  have hsub : ∀ x ∈ S, x ∈ v := fun x hx => hv x (hR.subset hS h.unique hu x hx)
  refine ⟨fun x hxD => ?_, fun x hx y hy hyS => hok.cf x hx y (hsub y hyS) hy⟩
  obtain ⟨hxT, hxS, hpred⟩ := hdis x hxD
  by_cases hx : CanExtend T S x
  · obtain ⟨t, i, o, hst⟩ := h.table.step x hxT fun heq => hxS (heq ▸ hS.bot_mem)
    obtain ⟨a, hfirst, htid⟩ := havoid x hxD hx t i o hst
    obtain ⟨y, hy, -, hi⟩ := hR.exists_conflict hS h.unique hu h.past hx hst (hnext x hxD hx t i o hst)
      hfirst htid
    exact ⟨y, hv y hy, hi⟩
  · obtain ⟨y, hy, hi⟩ := hS.exists_conflict_of_not_canExtend h.past hxT hxS hpred hx
    exact ⟨y, hsub y hy, hi⟩

/-- The steps up to the last of the first ones on the mutexes of the disabled events avoid them. -/
theorem Avoids.of_last {k rest : List LockStep} (havoid : Avoids P T S D (k ++ b :: rest))
    (hw : Interleaves g (k ++ b :: rest) g')
    (hall : ∀ x ∈ D, CanExtend T S x → ∀ t i m, IsStep P T x t i (.lock m) →
      m = b.mutex ∨ ∃ a ∈ k, a.mutex = m) : Avoids P T S D (k ++ [b]) := by
  intro x hxD hx t i o hst
  obtain ⟨t', m, a, hst', -, hfirst, htid, -⟩ := havoid.exists_lock h hwl hnn hS hw hxD hx
  obtain ⟨rfl, rfl, rfl⟩ := hst.unique hst'
  obtain ⟨c, hc, rfl⟩ : ∃ c ∈ k ++ [b], c.mutex = m := by
    rcases hall x hxD hx t _ m hst with rfl | ⟨a, ha, ham⟩
    · exact ⟨b, by simp, rfl⟩
    · exact ⟨a, List.mem_append_left _ ha, ham⟩
  obtain ⟨c', hc'⟩ := exists_firstOn_of_mem hc
  have heq := firstOn_append_of_some (v := rest) hc'
  rw [List.append_assoc, List.singleton_append, hfirst] at heq
  obtain rfl := Option.some_inj.1 heq
  exact ⟨a, hc', htid⟩

omit hS in
/-- Of the disabled events with the last mutex the oldest, `z`, was added to `C`. The steps since then
avoid the events that were disabled then. -/
theorem StepsOver.avoids {u w : List LockStep} (hs : StepsOver P T n C g' w S g) (hzS : z ∉ S)
    (havoid : Avoids P T S D u) (hdis : ∀ x ∈ D, x ∉ S ∧ ∀ p ∈ T.predOf x, p ∈ S) :
    Avoids P T (z :: C) D (w ++ u) := by
  intro x hxD hx t i o hst
  obtain ⟨hxS, hpred⟩ := hdis x hxD
  have hxC : CanExtend T C x := by
    refine ⟨⟨fun hm => hx.notMem (List.mem_cons_of_mem z hm), fun p hp => ?_, fun y hy =>
      hx.chain y (List.mem_cons_of_mem z hy)⟩, hx.mem, fun y hy => hx.dep y (List.mem_cons_of_mem z hy)⟩
    exact (List.mem_cons.1 (hx.pred p hp)).resolve_left fun heq => hzS (heq ▸ hpred p hp)
  obtain ⟨hi, hnext⟩ := hxC.next h hwl hnn hs.low hst
  by_cases hno : ∀ a ∈ w, a.mutex ≠ o.mutex
  · have hxS' := hs.above.canExtend hs.low h.unique hs.steps hxC hxS hst
      (hs.steps.independent_of_no_mutex hs.low.exec.pcs_length (LockState.op_of_next hnext) hno)
    obtain ⟨a, hfirst, htid⟩ := havoid x hxD hxS' t i o hst
    exact ⟨a, (firstOn_append_of_none hno).trans hfirst, htid⟩
  · push Not at hno
    obtain ⟨a, ha, ham⟩ := hno
    obtain ⟨c, hc⟩ := exists_firstOn_of_mem ha
    rw [ham] at hc
    exact ⟨c, firstOn_append_of_some hc, hs.first_tid h hxC hxS hst hnext hi hc⟩

/-- Of the disabled events that can be added, `z` is the oldest one on the mutex that is used last. The
first step of `k ++ b :: rest` on this mutex is `b`. -/
structure Pivot (P : LockProgram) (T : Events LockAct) (S : EventsID) (g : LockState P) (k : List LockStep)
    (b : LockStep) (l : EventsID) (z : EventID) (D : EventsID) (t : Nat) : Prop where
  ext : CanExtend T S z
  lock : IsStep P T z t (g.pc t) (.lock b.mutex)
  next : g.next t = some (.lock b.mutex)
  other : b.tid ≠ t
  op : b.op = .lock b.mutex
  before : ∀ a ∈ k, a.mutex ≠ b.mutex
  last : ∀ x ∈ l ++ z :: D, CanExtend T S x → ∀ t i m, IsStep P T x t i (.lock m) →
    m = b.mutex ∨ ∃ a ∈ k, a.mutex = m
  oldest : NoLock P T S D b.mutex

theorem exists_pivot (hw : Interleaves g w g') (havoid : Avoids P T S D w)
    (hex : ∃ x ∈ D, CanExtend T S x) : ∃ k b rest l z D' t, w = k ++ b :: rest ∧ D = l ++ z :: D' ∧
      Pivot P T S g k b l z D' t := by
  have hlock : ∀ x ∈ D, CanExtend T S x → ∃ t m a, IsStep P T x t (g.pc t) (.lock m) ∧
      g.next t = some (.lock m) ∧ firstOn m w = some a ∧ a.tid ≠ t ∧ a.op = .lock m :=
    fun x hxD hx => havoid.exists_lock h hwl hnn hS hw hxD hx
  obtain ⟨k, b, rest, rfl, ⟨x₀, hx₀, hx₀S, hst₀⟩, hk, hall⟩ := exists_last_first
    (M := fun m => ∃ x ∈ D, CanExtend T S x ∧ ∃ t i, IsStep P T x t i (.lock m))
    (by
      obtain ⟨x, hxD, hx⟩ := hex
      obtain ⟨t, m, a, hst, -⟩ := hlock x hxD hx
      exact ⟨m, x, hxD, hx, t, _, hst⟩)
    (w := w)
    (by
      rintro m ⟨x, hxD, hx, t, i, hst⟩
      obtain ⟨t', m', a, hst', -, hfirst, -⟩ := hlock x hxD hx
      obtain ⟨rfl, rfl, ho⟩ := hst.unique hst'
      cases ho
      obtain ⟨ham, u, v, rfl, -⟩ := firstOn_eq_some.1 hfirst
      exact ⟨a, by simp, ham⟩)
  obtain ⟨l, z, D', rfl, ⟨hzS, tz, iz, hsz⟩, hold⟩ := exists_last_mem
    (p := fun x => CanExtend T S x ∧ ∃ t i, IsStep P T x t i (.lock b.mutex)) ⟨x₀, hx₀, hx₀S, hst₀⟩
  obtain ⟨t', m', b', hsz', hnextz, hfirst, htid, hop⟩ := hlock z (by simp) hzS
  obtain ⟨rfl, rfl, ho⟩ := hsz.unique hsz'
  cases ho
  obtain rfl : b' = b := by
    have : firstOn b.mutex (k ++ b :: rest) = some b := firstOn_eq_some.2 ⟨rfl, k, rest, rfl, hk⟩
    exact Option.some_inj.1 (hfirst.symm.trans this)
  exact ⟨k, b', rest, l, z, D', tz, rfl, rfl, hzS, hsz, hnextz, htid, hop, hk,
    fun x hxD hx t i m hst => hall m ⟨x, hxD, hx, t, i, hst⟩,
    fun x hxD hx t i hst => hold x hxD ⟨hx, t, i, hst⟩⟩

/-- **There is an alternative that can be followed**, if the disabled events were explored and one of them
can be added. It has the first of the steps. -/
theorem exists_passes (hw : Interleaves g w g') (havoid : Avoids P T S D w)
    (hdis : ∀ x ∈ D, x ∈ T ∧ x ∉ S ∧ ∀ p ∈ T.predOf x, p ∈ S)
    (hdone : AllDone P T n S D) (hex : ∃ x ∈ D, CanExtend T S x) :
    ∃ z ∈ D, ∃ v ∈ T.alteOf z, Passes T S D v ∧ ∃ k b rest R, w = k ++ b :: rest ∧ (∀ x ∈ R, x ∈ v) ∧
      Above P T n S (k ++ [b]) R := by
  obtain ⟨k, b, rest, l, z, D', tz, rfl, rfl, hpiv⟩ := exists_pivot h hwl hnn hS hw havoid hex
  -- `z` was added to `C`, and the stack has `w₁` above it
  obtain ⟨C, gC, hCS, hCrun, hzC, hfound⟩ := hdone l z D' rfl
  obtain ⟨gC', w₁, hs⟩ := hS.suffix hCS (List.ne_nil_of_mem hCrun.bot_mem)
  obtain rfl := hs.low.exec.unique hCrun.exec h.events
  have hindep := hs.independent hzC hpiv.ext hpiv.lock
  have hkb : Avoids P T S (l ++ z :: D') (k ++ [b]) := havoid.of_last h hwl hnn hS hw hpiv.last
  have hwk : Interleaves g ((k ++ [b]) ++ rest) g' := by simpa using hw
  obtain ⟨gb, hwb, -⟩ := Interleaves.of_append hwk
  obtain ⟨gk, hwk', -⟩ := Interleaves.of_append hwb
  have hkindep := hwk'.independent_of_no_mutex hS.exec.pcs_length (LockState.op_of_next hpiv.next) hpiv.before
  have hnone : NoLock P T C D' b.mutex := by
    intro x hxD hxC t' j hst
    -- else it would be an older one
    have hxS : x ∉ S := (hdis x (by simp [hxD])).2.1
    obtain ⟨-, hnext⟩ := hxC.next h hwl hnn hs.low hst
    have hboth := hs.steps.independent_of_no_mutex hs.low.exec.pcs_length (LockState.op_of_next hnext)
      fun a ha => (hindep a ha).2
    exact hpiv.oldest x hxD (hs.above.canExtend hs.low h.unique hs.steps hxC hxS hst hboth) t' j hst
  have hwall : Interleaves gC' ((w₁ ++ k) ++ [b]) gb := by
    rw [List.append_assoc]
    exact hs.steps.append hwb
  have hbefore : ∀ a ∈ w₁ ++ k, a.tid ≠ tz ∧ a.mutex ≠ b.mutex :=
    List.forall_mem_append.2 ⟨hindep, hkindep⟩
  have havoid' : Avoids P T (z :: C) D' ((w₁ ++ k) ++ [b]) := by
    rw [List.append_assoc]
    refine hs.avoids h hwl hnn hpiv.ext.notMem (fun x hxD hx => hkb x ?_ hx) fun x hxD => ?_
    · simp [hxD]
    · exact (hdis x (by simp [hxD])).2
  obtain ⟨v, hv, R, hRv, hR⟩ :=
    hfound tz _ _ hpiv.lock hnone _ b gb hwall hbefore hpiv.op hpiv.other havoid'
  have hRS : Above P T n S (k ++ [b]) R := by
    refine ⟨hR.run, ?_⟩
    rw [hR.trace, hs.word]
    simp
  refine ⟨z, by simp, v, hv, ?_, k, b, rest, R, rfl, hRv, hRS⟩
  exact hRS.passes h hS hwb (fun x hxD hx t i o hst => (hx.next h hwl hnn hS hst).2) hkb hdis hRv
    (h.table.alte z v hv)

end Passes

end Poet
