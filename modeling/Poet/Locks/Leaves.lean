import Poet.Locks.Target

/-!
# What a maximal configuration leaves

A call that adds a lock `e` adds its unlock next (`Adds.chooses_unlock`). At a maximal configuration that is
found above, with another lock of the mutex after the section, the alternative that exchanges the two is
stored (`Adds.exists_alt`). So when all interleavings from `e` have been found, its branch is done
(`Adds.doneAt`).
-/

namespace Poet

open scoped List

variable {P : LockProgram} {T : Events LockAct} {s s' s₁ s₂ s₃ s₄ sk : UnfolderState (LockState P) LockAct}
  {c nc : Configuration (LockState P)} {d D C : EventsID} {alt v : Alternative} {e ê u x y z : EventID}
  {w rest : List LockStep} {a b : LockStep} {n t i m : Nat} {o : LockOp} {stl : Bool} {g g' : LockState P}

/-! ## The unlock is chosen after the lock -/

theorem chooseEvent_head {l stak : EventsID} (h : alt = [] ∨ u ∈ alt) :
    chooseEvent ê (u :: l) alt stak = .ok u := by
  rcases h with rfl | hu
  · rfl
  · have hne : alt.isEmpty = false := by simpa using List.ne_nil_of_mem hu
    rw [chooseEvent, hne, List.inter_cons_of_mem l hu]
    rfl

namespace Adds

variable (h : Adds stl n s c ê d alt e nc s₁) (hw : P.WellLocked) (hnn : P.NonNested)
  (ht : TargetOk stl s c d alt)

include h hw hnn ht

/-- After a lock, its unlock is the first of the enabled events. -/
theorem unlock_head (hse : IsStep P s.evts e t i (.lock m)) (hop : P.op t (i + 1) = some (.unlock m)) :
    ∃ u l, nc.enevs = u :: l ∧ IsStep P s₁.evts u t (i + 1) (.unlock m) ∧ Lt s₁.evts e u := by
  have hs := h.search
  have hu := h.unfolded
  have hleft := h.target_left hw hnn ht
  obtain ⟨t', o, hse', hnext, hstate⟩ := h.step
  obtain ⟨rfl, rfl, rfl⟩ := hse.unique hse'
  have hlen := hs.exec.pcs_length
  have hlt : t < c.state.pcs.length := hlen ▸ LockProgram.lt_length_of_op hse.op
  have hpc : nc.state.pc t = c.state.pc t + 1 := by rw [hstate, LockState.pc_step hlt, if_pos rfl]
  have hnextu : nc.state.next t = some (.unlock m) :=
    LockState.next_eq_some.2 ⟨hpc ▸ hop, fun m' hm => by cases hm⟩
  obtain ⟨u, hun, hsu⟩ := hleft.found t _ hnextu
  have hext : ∀ {x}, x ∈ nc.enevs → CanExtend s₁.evts (e :: s₁.stak) x := fun hx =>
    h.stak_eq.symm ▸ hu.enevs _ hx
  have hse₁ := h.stable.isStep (h.old h.mem).1 (h.old h.mem).2 hse
  have heu : Lt s₁.evts e u := (hext hun).dep e List.mem_cons_self ((hse₁.dep_iff hsu).2 (.inl rfl))
  obtain ⟨nn, sen, hen, hsen, hnew⟩ := hu.order
  -- the other threads have enabled events that stay
  have hone : ∀ x ∈ nn, x = u := by
    intro x hx
    obtain ⟨t', o', hnext', hname, hno⟩ := hnew x hx
    have hxn : x ∈ nc.enevs := hen ▸ List.mem_append_left sen hx
    have htid : t' = t := by
      by_contra hne
      have hm : o'.mutex ≠ m := fun hm =>
        hne (hleft.exec.exclusive.eq_of_unlock hw (hpc ▸ hop) hnext' hm)
      obtain ⟨hnext₀, -⟩ := h.next_before hse hnext' hne hm
      obtain ⟨y, hy, hsy⟩ := ht.found t' o' hnext₀
      refine hno y hy hsy.mem (fun heq => hne (hsy.unique (heq ▸ hse)).1) (fun hd => ?_) hsy.tidOf
      exact ((hse.dep_iff hsy).1 hd).elim (Ne.symm hne) (Ne.symm hm)
    subst htid
    have hsx := hu.table.isStep (hext hxn).mem hname hsu.op
    exact (hext hxn).eq_of_step (hext hun) hleft.lockPrefix hsx hsu
  have hunn : u ∈ nn := by
    rw [hen] at hun
    refine (List.mem_append.1 hun).resolve_right fun hsenu => ?_
    obtain ⟨huT, hnd⟩ := hsen u hsenu
    have hsu₀ := (h.stable.isStep_iff (h.old huT).1 (h.old huT).2).1 hsu
    exact hnd ((hse.dep_iff hsu₀).2 (.inl rfl))
  cases nn with
  | nil => cases hunn
  | cons x nn =>
    obtain rfl := hone x List.mem_cons_self
    exact ⟨x, nn ++ sen, hen, hpc ▸ hsu, heu⟩

/-- **After a lock its unlock is chosen**, if no event that could come instead of the lock is disabled. -/
theorem chooses_unlock (hse : IsStep P s.evts e t i (.lock m)) (hop : P.op t (i + 1) = some (.unlock m))
    (hnone : NoLock P s.evts s.stak d m) :
    ∃ u, Chooses nc e (alt.erase e) (s₁.withStack (e :: s₁.stak)) u ∧
      IsStep P s₁.evts u t (i + 1) (.unlock m) := by
  have hs := h.search
  obtain ⟨u, l, hen, hsu, heu⟩ := h.unlock_head hw hnn ht hse hop
  refine ⟨u, ⟨by simp [hen], ?_⟩, hsu⟩
  rw [hen]
  refine chooseEvent_head ?_
  by_cases hnil : alt = []
  · exact .inl (by simp [hnil])
  obtain ⟨x, hx, v, hv, hmem⟩ := ht.followed.resolve_left hnil
  have heA := (chooseEvent_mem h.chooses.chosen).2 hnil
  obtain ⟨m', z, hz⟩ := ht.shape x v hv
  -- `e` is not the lock that the alternative is for
  have hez : e ≠ z := by
    rintro rfl
    obtain ⟨t', i', hse'⟩ := hz.other
    obtain ⟨-, -, ho⟩ := hse.unique hse'
    obtain rfl := LockOp.lock.inj ho
    obtain ⟨hxT, hxS, hpred⟩ := hs.node.disabled x hx
    obtain ⟨tx, ix, hsx⟩ := hz.lock
    exact hnone x hx (hz.canExtend hs.lockPrefix hs.stackRun h.canExtend hxS hpred) tx ix hsx
  have hev := ((hmem e).1 heA).1
  obtain ⟨u', hu', hsu', heu'⟩ := hz.unlocks e hev hez t i m hse (by rw [hop]; simp)
  have huT := (hs.node.lock.alte x v hv).closed.mem u' hu'
  have hold := h.old huT
  -- the unlock of `e` in the alternative is the one that is enabled
  obtain rfl : u' = u := (h.target_left hw hnn ht).lockPrefix.unlock_eq hw hnn
    (h.stable.isStep (h.old h.mem).1 (h.old h.mem).2 hse) (h.stable.isStep hold.1 hold.2 hsu')
    ((h.stable.lt_iff h.unfolded.good.linked hold.1 hold.2).2 heu') hsu heu
  refine .inr ((hs.call.nodup.mem_erase_iff).2 ⟨?_, (hmem u').2 ⟨hu', fun huS => ?_⟩⟩)
  · rintro rfl
    exact hs.lockPrefix.causal.lt_irrefl heu'
  · exact h.canExtend.notMem (hs.node.stack.closed.of_lt huS heu')

end Adds

/-! ## Maximal configurations of a branch -/

/-- Between `s` and `s'` there was a call at the maximal configuration of `sk`. The alternatives of what
was on the stack in `s` were entered there. -/
structure LeafIn (d : EventsID) (s sk s' : UnfolderState (LockState P) LockAct) : Prop where
  pre : LockPrefix P sk.evts sk.cntr
  discovered : Discovered P sk.evts sk.stak
  called : ∃ c ê d alt, c.enevs = [] ∧ ⟨c, ê, d, alt, sk.stak, sk.evts⟩ ∈ s'.calls
  stack : s.stak <:+ sk.stak
  present : ∀ x, x ∈ s.stak ∨ x ∈ d → x ∈ sk.evts
  before : Stable s.cntr s.evts sk.evts
  le : s.cntr ≤ sk.cntr
  keeps : KeepsConflicts s.stak s.evts sk.evts
  disas : ∀ x ∈ s.stak, sk.evts.disaOf x = s.evts.disaOf x
  after : Stable sk.cntr sk.evts s'.evts
  ge : sk.cntr ≤ s'.cntr
  altes : ∀ x ∈ s.stak, ∀ y, CExt sk x y → ValidAlt sk.evts sk.stak (sk.evts.disaOf x) x y →
    ∃ v ∈ s'.evts.alteOf x, IsAlt sk.evts sk.stak y v

namespace LeafIn

/-- The call that finds the maximal configuration. -/
theorem self (h : TargetOk stl s c d alt) (hen : c.enevs = [])
    (hmax : MaximalDone c.cfevs d (s.called c ê d alt) s') : LeafIn d s s s' where
  pre := h.lockPrefix
  discovered := h.discovered
  called := ⟨c, ê, d, alt, hen, by rw [hmax.calls]; exact List.mem_cons_self⟩
  stack := List.suffix_refl _
  present x hx := hx.elim h.node.stak_mem fun hx => (h.node.disabled x hx).1
  before := .refl _ _
  le := Nat.le_refl _
  keeps := .of_keeps h.node.linked fun _ hx => hx
  disas _ _ := rfl
  after := hmax.evolves.stable
  ge := hmax.evolves.cntr
  altes x hx y hy hval := by
    obtain ⟨s₁, hadd, hevts, -⟩ := hmax.altes
    have hcf := h.marked hen x hx (List.ne_nil_of_mem hy.1)
    obtain ⟨v, hv, halt⟩ := hadd.stored x y ⟨hcf, hy⟩ hval
    exact ⟨v, by rw [hevts]; exact hv, halt⟩

/-- What comes later keeps the alternatives of the stack. -/
theorem evolves (h : LeafIn d s sk s₁) (hev : NodeEvolves D s₁ s')
    (hstak : ∀ x ∈ s.stak, x ∈ s₁.stak) : LeafIn d s sk s' :=
  { h with
    called := by
      obtain ⟨c, ê, d, alt, hen, hk⟩ := h.called
      exact ⟨c, ê, d, alt, hen, hev.calls.subset hk⟩
    after := h.after.trans hev.stable h.ge
    ge := h.ge.trans hev.cntr
    altes := fun x hx y hy hval => by
      obtain ⟨v, hv, halt⟩ := h.altes x hx y hy hval
      exact ⟨v, hev.altes x (.inl (hstak x hx)) v hv, halt⟩ }

/-- Seen from below the event that was added. -/
theorem of_left (h : Adds stl n s c ê d alt e nc s₁)
    (hl : LeafIn d (s₁.withStack (e :: s₁.stak)) sk s₂) : LeafIn d s sk (s₂.withStack s₁.stak) where
  pre := hl.pre
  discovered := hl.discovered
  called := hl.called
  stack := by
    have hsuf : s.stak <:+ e :: s₁.stak := by
      rw [h.stak_eq]
      exact List.suffix_cons e s.stak
    exact hsuf.trans hl.stack
  present x hx := hl.present x (hx.imp_left fun hx => List.mem_cons_of_mem e (h.stak_eq.symm ▸ hx))
  before := h.stable.trans hl.before h.unfolded.grows.cntr
  le := h.unfolded.grows.cntr.trans hl.le
  keeps := h.keepsConflicts hl.keeps
  disas x hx := by
    have hxe : x ≠ e := fun heq => h.canExtend.notMem (heq ▸ hx)
    refine (hl.disas x (List.mem_cons_of_mem e (h.stak_eq.symm ▸ hx))).trans ?_
    exact (h.unfolded.disas x).trans (if_neg hxe)
  after := hl.after
  ge := hl.ge
  altes x hx := hl.altes x (List.mem_cons_of_mem e (h.stak_eq.symm ▸ hx))

/-- Seen from before the branch of `e`. -/
theorem of_right (hev : NodeEvolves d s s₃) (hk : KeepsConflicts s.stak s.evts s₃.evts)
    (hg : NodeOk P s d) (hr : LeafIn (e :: d) s₃ sk s₄) : LeafIn d s sk s₄ where
  pre := hr.pre
  discovered := hr.discovered
  called := hr.called
  stack := hev.stak ▸ hr.stack
  present x hx := hr.present x (hx.imp (hev.stak ▸ ·) (List.mem_cons_of_mem e))
  before := hev.stable.trans hr.before hev.cntr
  le := hev.cntr.trans hr.le
  keeps := hk.trans hr.keeps (fun _ hx => hev.stak ▸ hx) hev.stable hg.wf fun x hx =>
    ⟨hg.stak_mem hx, hev.kept x hx⟩
  disas x hx := (hr.disas x (hev.stak ▸ hx)).trans (hev.disas x hx)
  after := hr.after
  ge := hr.ge
  altes x hx := hr.altes x (hev.stak ▸ hx)

end LeafIn

/-- The call that was made in `s` finds every interleaving that avoids the disabled events, and goes on
with the chosen event if this is where its mutex is used first. -/
def FindsAll (s : UnfolderState (LockState P) LockAct) (c : Configuration (LockState P)) (ê : EventID)
    (d : EventsID) (alt : Alternative) (s' : UnfolderState (LockState P) LockAct) : Prop :=
  ∀ w g', Interleaves c.state w g' → g'.Stuck → Avoids P s.evts s.stak d w →
    ∃ sk, LeafIn d s sk s' ∧ Above P sk.evts sk.cntr s.stak w sk.stak ∧
      ∀ e, Chooses c ê alt s e → ∀ t i o a, IsStep P s.evts e t i o → firstOn o.mutex w = some a →
        a.tid = t → e :: s.stak <:+ sk.stak

namespace Adds

variable (h : Adds stl n s c ê d alt e nc s₁)

include h

/-- A disabled event that can be added after `e` is independent of it. -/
theorem independent_of_disabled (hse : IsStep P s.evts e t i o) (hx : x ∈ d)
    (hxe : CanExtend s₁.evts (e :: s.stak) x) {t' i' : Nat} {o' : LockOp}
    (hst : IsStep P s₁.evts x t' i' o') : t' ≠ t ∧ o'.mutex ≠ o.mutex := by
  have hs := h.search
  obtain ⟨hxT, -, hpred⟩ := hs.node.disabled x hx
  have hse₁ := h.stable.isStep (h.old h.mem).1 (h.old h.mem).2 hse
  refine not_or.1 fun hd => ?_
  have hlt := hxe.dep e List.mem_cons_self ((hse₁.dep_iff hst).2 (hd.imp Eq.symm Eq.symm))
  exact h.canExtend.notMem (hs.node.stack.closed.of_pred hpred
    ((h.stable.lt_iff h.unfolded.good.linked (h.old hxT).1 (h.old hxT).2).1 hlt))

/-- What the lock `e` and its unlock are followed by. -/
theorem sectionFirst (hl : LeafIn d (s₁.withStack (e :: s₁.stak)) sk s₂)
    (habove : Above P sk.evts sk.cntr (e :: s.stak) (⟨t, i + 1, .unlock m⟩ :: (w ++ b :: rest)) sk.stak)
    (hover : u :: e :: s.stak <:+ sk.stak) (hse : IsStep P s.evts e t i (.lock m))
    (hsu : IsStep P s₁.evts u t (i + 1) (.unlock m))
    (hsteps : Interleaves nc.state (⟨t, i + 1, .unlock m⟩ :: (w ++ b :: rest)) g)
    (hwithout : Interleaves c.state (w ++ [b]) g') (hindep : ∀ a ∈ w, a.tid ≠ t ∧ a.mutex ≠ m)
    (hop : b.op = .lock m) (hother : b.tid ≠ t) :
    SectionFirst P sk.evts sk.cntr s.stak c.state e u t i m w b sk.stak := by
  have hs := h.search
  have hleaf := LeafIn.of_left h hl
  obtain ⟨gS, hS⟩ := habove.run
  have hin : ∀ x ∈ u :: e :: s.stak, x ∈ sk.evts := fun x hx => hS.closed.mem x (hover.subset hx)
  have hold : ∀ x ∈ s.stak, x < s.cntr ∧ x ∈ sk.evts := fun x hx =>
    ⟨hs.node.stak_lt hx, hin x (by simp [hx])⟩
  have he : e < s.cntr ∧ e ∈ sk.evts := ⟨(h.old h.mem).1, hin e (by simp)⟩
  have hsek := hleaf.before.isStep he.1 he.2 hse
  have huk : u < s₁.cntr ∧ u ∈ sk.evts := ⟨h.unfolded.good.wf.lt_cntr hsu.mem, hin u (by simp)⟩
  obtain ⟨t', o, hse', hnext, hstate⟩ := h.step
  obtain ⟨rfl, rfl, rfl⟩ := hse.unique hse'
  refine ⟨hl.pre, hs.stackRun.of_stable hleaf.before hl.pre.wf hl.pre.table fun x hx => (hold x hx).2,
    (hleaf.before.canExtend_iff hl.pre.wf.linked he.1 he.2 hold).2 h.canExtend, hsek,
    hl.before.isStep huk.1 huk.2 hsu, hover, ⟨rest, g, ⟨habove.run, ?_⟩, .cons rfl hnext ?_⟩,
    ⟨g', hwithout⟩, hindep, hop, hother⟩
  · rw [habove.trace, wordOf_cons (hl.pre.events.ne_bot hsek) hsek.infoOf]
    simp [LockStep.info]
  · rw [← hstate]
    exact hsteps

/-- With the unlock of `e` first, the disabled events are avoided still. -/
theorem avoids_section (hse : IsStep P s.evts e t i (.lock m))
    (havoid : Avoids P s.evts (e :: s.stak) d (w ++ [b])) (rest : List LockStep) :
    Avoids P s₁.evts (e :: s.stak) d (⟨t, i + 1, .unlock m⟩ :: (w ++ b :: rest)) := by
  have hs := h.search
  have hmem : ∀ x ∈ e :: s.stak, x < s.cntr ∧ x ∈ s₁.evts :=
    List.forall_mem_cons.2 ⟨h.old h.mem, fun x hx => h.old (hs.node.stak_mem hx)⟩
  have hd : ∀ x ∈ d, x < s.cntr ∧ x ∈ s₁.evts := fun x hx => h.old (hs.node.disabled x hx).1
  intro x hx hxe t' i' o' hsx
  obtain ⟨-, hm⟩ := h.independent_of_disabled hse hx hxe hsx
  obtain ⟨a, hfirst, hatid⟩ :=
    (Avoids.stable_iff h.stable h.unfolded.good.wf hmem hd).2 havoid x hx hxe t' i' o' hsx
  refine ⟨a, ?_, hatid⟩
  rw [show w ++ b :: rest = (w ++ [b]) ++ rest by simp]
  exact (firstOn_append_cons_of_ne (u := []) (Ne.symm hm)).trans
    (firstOn_append_of_some (u := w ++ [b]) hfirst)

variable (hw : P.WellLocked) (hnn : P.NonNested)

include hw hnn

/-- The lock of another thread that could be added instead of `e` is in the prefix of a maximal
configuration above `e`. -/
theorem found_instead (hl : LeafIn d (s₁.withStack (e :: s₁.stak)) sk s₂) (hse : IsStep P s.evts e t i o)
    (hz : CanExtend s.evts s.stak z) {t' i' : Nat} {o' : LockOp} (hsz : IsStep P s.evts z t' i' o')
    (hm : o'.mutex = o.mutex) (htid : t' ≠ t) :
    CanExtend sk.evts s.stak z ∧ IsStep P sk.evts z t' i' o' := by
  have hs := h.search
  have hleaf := LeafIn.of_left h hl
  have hicnf : z ∈ s.evts.icnfOf e := by
    refine (h.canExtend.push hs.lockPrefix hw hnn hs.stackRun hse).conflict_of_first hs.past
      (fun _ => List.mem_cons_of_mem e) hs.stackRun.closed hz (fun hm => ?_) List.mem_cons_self
      h.canExtend.notMem ((hse.dep_iff hsz).2 (.inr hm.symm)) fun w hw hwS hlt => ?_
    · rcases List.mem_cons.1 hm with rfl | hzS
      · exact htid (hsz.unique hse).1
      · exact hz.notMem hzS
    · exact absurd ((List.mem_cons.1 hw).resolve_right hwS ▸ hlt) hs.lockPrefix.causal.lt_irrefl
  have hzk : z ∈ sk.evts := by
    have hold := h.old hsz.mem
    have hi₁ := h.stable.icnf_kept (h.old h.mem).1 hold.1 (h.old h.mem).2 hold.2 hicnf
    refine hl.keeps e List.mem_cons_self z hi₁ fun q hq => ?_
    rw [show (s₁.withStack (e :: s₁.stak)).evts.predOf z = _ from h.stable.pred hold.1 hold.2] at hq
    exact List.mem_cons_of_mem e (h.stak_eq.symm ▸ hz.pred q hq)
  have hold : ∀ x ∈ s.stak, x < s.cntr ∧ x ∈ sk.evts := fun x hx =>
    ⟨hs.node.stak_lt hx, hleaf.present x (.inl hx)⟩
  have hzn := (h.old hsz.mem).1
  exact ⟨(hleaf.before.canExtend_iff hl.pre.wf.linked hzn hzk hold).2 hz, hleaf.before.isStep hzn hzk hsz⟩

variable (ht : TargetOk stl s c d alt)

include ht

/-- The maximal configuration where the section of `e` comes first, then `w` and the lock `b`. -/
theorem exists_section (hr : P.ReleasesShared)
    (hfind : FindsAll (s₁.withStack (e :: s₁.stak)) nc e d (alt.erase e) s₂)
    (hse : IsStep P s.evts e t i (.lock m)) (hwb : Interleaves c.state (w ++ [b]) g')
    (hindep : ∀ a ∈ w, a.tid ≠ t ∧ a.mutex ≠ m) (hop : b.op = .lock m) (htid : b.tid ≠ t)
    (hnone : NoLock P s.evts s.stak d m)
    (havoid : Avoids P s.evts (e :: s.stak) d (w ++ [b])) :
    ∃ sk u, LeafIn d (s₁.withStack (e :: s₁.stak)) sk s₂ ∧
      SectionFirst P sk.evts sk.cntr s.stak c.state e u t i m w b sk.stak := by
  obtain ⟨t', o, hse', hnext, hstate⟩ := h.step
  obtain ⟨rfl, rfl, rfl⟩ := hse.unique hse'
  have hlen := h.search.exec.pcs_length
  have hbop := ((hwb.mem_iff hlen).1 (List.mem_append_right w List.mem_cons_self)).2.2
  have hunlock := hr.unlock_of_lock hw hnn hse.op hbop (congrArg LockOp.mutex hop) htid
  -- the section of `e` is put first, and the interleaving is completed
  obtain ⟨h₁, hw₁⟩ := hwb.insert_section hlen hnext hunlock fun a ha =>
    (List.mem_append.1 ha).elim (fun ha => (hindep a ha).1) fun ha => List.mem_singleton.1 ha ▸ htid
  have hlen₁ : h₁.pcs.length = P.length := by
    rw [hw₁.pcs_length, LockState.step_length, hlen]
  obtain ⟨rest, g₁, hrest, hstuck⟩ := Interleaves.exists_maximal hlen₁
  have hsteps : Interleaves nc.state (⟨t, c.state.pc t + 1, .unlock m⟩ :: (w ++ b :: rest)) g₁ := by
    rw [hstate]
    simpa using hw₁.append hrest
  obtain ⟨sk, hl, habove, hchosen⟩ :=
    hfind _ g₁ hsteps hstuck (h.stak_eq.symm ▸ h.avoids_section hse havoid rest)
  obtain ⟨u, hu, hsu⟩ := h.chooses_unlock hw hnn ht hse hunlock hnone
  have hover : u :: e :: s₁.stak <:+ sk.stak := hchosen u hu t _ _ ⟨t, c.state.pc t + 1, .unlock m⟩ hsu
    (firstOn_eq_some.2 ⟨rfl, [], w ++ b :: rest, rfl, by simp⟩) rfl
  rw [h.stak_eq] at hover
  replace habove : Above P sk.evts sk.cntr (e :: s.stak) _ sk.stak := h.stak_eq ▸ habove
  exact ⟨sk, u, hl, h.sectionFirst hl habove hover hse hsu hsteps hwb hindep hop htid⟩

/-- The alternative that exchanges the section with the lock `b` was entered there. -/
theorem exists_alt (hl : LeafIn d (s₁.withStack (e :: s₁.stak)) sk s₂)
    (hsec : SectionFirst P sk.evts sk.cntr s.stak c.state e u t i m w b sk.stak)
    (hse : IsStep P s.evts e t i (.lock m)) (hwb : Interleaves c.state (w ++ [b]) g')
    (hnone : NoLock P s.evts s.stak d m)
    (havoid : Avoids P s.evts (e :: s.stak) d (w ++ [b])) :
    ∃ v ∈ s₂.evts.alteOf e, ∃ R, (∀ x ∈ R, x ∈ v) ∧ Above P sk.evts sk.cntr s.stak (w ++ [b]) R := by
  have hs := h.search
  obtain ⟨t', o, hse', hnext, -⟩ := h.step
  obtain ⟨rfl, rfl, rfl⟩ := hse.unique hse'
  obtain ⟨z, R, hz⟩ := hsec.exists_exchange hl.discovered ((LockState.next_eq_some.1 hnext).2 m rfl)
    fun hnextb => by
      obtain ⟨z, hzen, hsz⟩ := ht.found _ _ hnextb
      have hzS := hs.call.canExtend hzen hsz.mem
      exact ⟨z, h.found_instead hw hnn hl hse hzS hsz (congrArg LockOp.mutex hsec.op) hsec.other⟩
  have hleaf := LeafIn.of_left h hl
  have hd : ∀ x ∈ d, x < s.cntr ∧ x ∈ sk.evts := fun x hx =>
    ⟨hs.node.wf.lt_cntr (hs.node.disabled x hx).1, hleaf.present x (.inr hx)⟩
  have hmem : ∀ x ∈ s.stak, x < s.cntr ∧ x ∈ sk.evts := fun x hx =>
    ⟨hs.node.stak_lt hx, hleaf.present x (.inl hx)⟩
  have he : e < s.cntr ∧ e ∈ sk.evts := ⟨(h.old h.mem).1, hl.present e (.inl List.mem_cons_self)⟩
  have hcf : ∀ x ∈ d, ∃ y ∈ z :: R, x ∈ sk.evts.icnfOf y := by
    refine hz.exists_conflict hl.pre hw hnn hsec.low hwb hsec.added hsec.lock hnext (fun x hx => ?_)
      (fun x hx hxS t' j hsx => ?_) ?_
    · obtain ⟨-, hxS, hpred⟩ := hs.node.disabled x hx
      refine ⟨(hd x hx).2, hxS, fun p hpp => hpred p ?_⟩
      rwa [hleaf.before.pred (hd x hx).1 (hd x hx).2] at hpp
    · exact hnone x hx ((hleaf.before.canExtend_iff hl.pre.wf.linked (hd x hx).1 (hd x hx).2 hmem).1 hxS)
        t' j ((hleaf.before.isStep_iff (hd x hx).1 (hd x hx).2).1 hsx)
    · exact (Avoids.stable_iff hleaf.before hl.pre.wf (List.forall_mem_cons.2 ⟨he, hmem⟩) hd).2 havoid
  have hdisa : sk.evts.disaOf e = d :=
    (hl.disas e List.mem_cons_self).trans ((h.unfolded.disas e).trans (if_pos rfl))
  have hval : ValidAlt sk.evts sk.stak (sk.evts.disaOf e) e z := by
    rw [hdisa]
    exact hz.validAlt hl.pre hsec.low hwb ((List.suffix_cons u _).trans hsec.stack) hcf
  obtain ⟨v, hv, halt⟩ := hl.altes e List.mem_cons_self z
    ⟨hz.conflict, fun p hpp => hz.subset p (hz.ext.pred p hpp)⟩ hval
  exact ⟨v, hv, z :: R, fun x hx => (halt x).2 ((List.mem_cons.1 hx).imp_right (hz.stays x)),
    hz.above hl.pre hw hnn⟩

/-- **When all interleavings from `e` were found, its branch is done.** -/
theorem doneAt (hr : P.ReleasesShared) (hls : Searched stl d d (s₁.withStack (e :: s₁.stak)) s₂)
    (hfind : FindsAll (s₁.withStack (e :: s₁.stak)) nc e d (alt.erase e) s₂) :
    DoneAt P s₂.evts s₂.cntr s.stak e d := by
  have hs := h.search
  have hp := h.popped hls
  have hst : Stable s.cntr s.evts s₂.evts := hp.evolves.stable
  have hlink : Linked s₂.evts [] := hp.node.linked
  have hmem := h.stak_old hp
  have he : e < s.cntr ∧ e ∈ s₂.evts := ⟨(h.old h.mem).1, (hp.node.disabled e List.mem_cons_self).1⟩
  have hd : ∀ x ∈ d, x < s.cntr ∧ x ∈ s₂.evts := fun x hx =>
    ⟨hs.node.wf.lt_cntr (hs.node.disabled x hx).1, hp.evolves.disabled x hx⟩
  refine ⟨s.stak, c.state, List.suffix_refl _,
    hs.stackRun.of_stable hst hp.node.wf hp.node.lock fun x hx => (hmem x hx).2,
    (hst.canExtend_iff hlink he.1 he.2 hmem).2 h.canExtend, ?_⟩
  intro t i m hse₂ hnone₂ w b g' hwb hindep hop htid havoid₂
  -- what is asked in the prefix of `s₂` holds in that of `s`
  have hse := (hst.isStep_iff he.1 he.2).1 hse₂
  have hnone : NoLock P s.evts s.stak d m := fun x hx hxS t' j hsx =>
    hnone₂ x hx ((hst.canExtend_iff hlink (hd x hx).1 (hd x hx).2 hmem).2 hxS)
      t' j ((hst.isStep_iff (hd x hx).1 (hd x hx).2).2 hsx)
  have havoid := (Avoids.stable_iff hst hp.node.wf (List.forall_mem_cons.2 ⟨he, hmem⟩) hd).1 havoid₂
  obtain ⟨sk, u, hl, hsec⟩ := h.exists_section hw hnn ht hr hfind hse hwb hindep hop htid hnone havoid
  obtain ⟨v, hv, R, hRv, hR⟩ := h.exists_alt hw hnn ht hl hsec hse hwb hnone havoid
  refine ⟨v, hv, R, hRv, hR.of_stable hl.after hp.node.wf hp.node.lock (fun x hx => ?_)
    fun x hx => (hp.node.lock.alte e v hv).closed.mem x (hRv x hx)⟩
  exact ⟨Nat.lt_of_lt_of_le (hmem x hx).1 (LeafIn.of_left h hl).le, (hmem x hx).2⟩

end Adds

end Poet
