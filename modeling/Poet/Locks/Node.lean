import Poet.Locks.Alternatives

/-!
# The calls of `explore` on a lock program

`NodeOk` is what holds of the state when `explore` is called with a disabled set, and again when it
returns; `CallOk` is what holds of the arguments. Each lemma takes them over one part of the body of
`explore`: the push of an event (`CallOk.push`), its pop (`NodeOk.pop`), the choice of an alternative
(`CallOk.follow`) and the pruning of the prefix (`pruneBranch_lock`). `NodeEvolves` says what is left
of the prefix for the configurations that are still on the recursion.
-/

namespace Poet

variable {P : LockProgram} {s s' s'' s₁ s₂ : UnfolderState (LockState P) LockAct}
  {c nc : Configuration (LockState P)} {d : EventsID} {alt : Alternative} {e ê : EventID} {fuel : Nat}

/-- The disabled events could be added to the stack; without a stack or a disabled set to need them,
alternatives are dropped in stateless mode. -/
structure NodeOk (P : LockProgram) (s : UnfolderState (LockState P) LockAct) (d : EventsID) :
    Prop extends LockGood P s where
  disabled : ∀ x ∈ d, x ∈ s.evts ∧ x ∉ s.stak ∧ ∀ p ∈ s.evts.predOf x, p ∈ s.stak
  idle : s.opts.stateless = true → ∀ x, x ∉ s.stak → x ∉ d → s.evts.alteOf x = []

/-- What a call with the disabled set `d` leaves. -/
structure NodeEvolves (d : EventsID) (s s' : UnfolderState (LockState P) LockAct) : Prop extends
    Evolves s s' where
  stable : Stable s.cntr s.evts s'.evts
  disabled : ∀ x ∈ d, x ∈ s'.evts
  altes : ∀ x, x ∈ s.stak ∨ x ∈ d → ∀ v ∈ s.evts.alteOf x, v ∈ s'.evts.alteOf x
  disas : ∀ x ∈ s.stak, s'.evts.disaOf x = s.evts.disaOf x
  calls : s.calls <:+ s'.calls

namespace NodeEvolves

theorem refl (h : NodeOk P s d) : NodeEvolves d s s where
  toEvolves := h.evolves_refl
  stable := .refl _ _
  disabled x hx := (h.disabled x hx).1
  altes _ _ _ hv := hv
  disas _ _ := rfl
  calls := List.suffix_rfl

theorem trans (h : NodeEvolves d s s') (h' : NodeEvolves d s' s'') : NodeEvolves d s s'' where
  toEvolves := h.toEvolves.trans h'.toEvolves
  stable := h.stable.trans h'.stable h.cntr
  disabled := h'.disabled
  altes x hx v hv := h'.altes x (h.stak ▸ hx) v (h.altes x hx v hv)
  disas x hx := (h'.disas x (h.stak ▸ hx)).trans (h.disas x hx)
  calls := h.calls.trans h'.calls

theorem weaken (h : NodeEvolves (e :: d) s s') : NodeEvolves d s s' :=
  { h with
    disabled := fun x hx => h.disabled x (List.mem_cons_of_mem e hx)
    altes := fun x hx => h.altes x (hx.imp_right (List.mem_cons_of_mem e)) }

end NodeEvolves

/-! ## The arguments of a call -/

/-- The configuration of a call. -/
structure EnabledOk (s : UnfolderState (LockState P) LockAct) (c : Configuration (LockState P)) :
    Prop where
  conf : ConfOk P.system s.evts s.cntr s.stak c
  dep : ∀ x ∈ c.enevs, x ∈ s.evts → ∀ y ∈ s.stak, Dep s.evts y x → Lt s.evts y x
  present : s.opts.stateless = false → ∀ x ∈ c.enevs, x ∈ s.evts
  cfevs : ∀ x ∈ c.cfevs, x ∈ s.stak

/-- The alternative of a call: what is left of one that is stored for a disabled event. Together with
the stack it is a configuration that has a conflict with each disabled event. -/
structure FollowOk (s : UnfolderState (LockState P) LockAct) (d : EventsID) (alt : Alternative) :
    Prop where
  nodup : alt.Nodup
  fresh : ∀ x ∈ alt, x ∉ s.stak
  src : ∀ x ∈ alt, ∃ d₁ ∈ d, ∃ v ∈ s.evts.alteOf d₁, x ∈ v
  pred : ∀ x ∈ alt, ∀ p ∈ s.evts.predOf x, p ∈ s.stak ∨ p ∈ alt
  cf : ∀ x ∈ alt, ∀ y, y ∈ s.stak ∨ y ∈ alt → y ∉ s.evts.icnfOf x
  just : ∀ z ∈ d, ∃ x, (x ∈ s.stak ∨ x ∈ alt) ∧ z ∈ s.evts.icnfOf x

structure CallOk (s : UnfolderState (LockState P) LockAct) (c : Configuration (LockState P))
    (d : EventsID) (alt : Alternative) : Prop extends EnabledOk s c, FollowOk s d alt

theorem EnabledOk.canExtend (h : EnabledOk s c) {x : EventID} (hx : x ∈ c.enevs) (hxT : x ∈ s.evts) :
    CanExtend s.evts s.stak x :=
  ⟨h.conf.enevs x hx hxT, hxT, h.dep x hx hxT⟩

/-- A configuration outlives the exploration of a branch. -/
theorem EnabledOk.of_evolves (h : EnabledOk s c) (hg : Good P.system s) (hev : NodeEvolves d s s')
    (hg' : Good P.system s') : EnabledOk s' c where
  conf := hg.confOk h.conf hev.toEvolves hg'
  dep x hx hxT y hy hd := by
    have hxn := h.conf.enevs_lt x hx
    have hyT := hg'.stak_mem hy
    rw [hev.stak] at hy
    rw [hev.stable.dep_iff (hg.stak_lt hy) hyT hxn hxT] at hd
    rw [hev.stable.lt_iff hg'.linked hxn hxT]
    exact h.dep x hx (hev.stable.mem hxn hxT) y hy hd
  present hm x hx := hev.stateful (hev.opts ▸ hm) x (h.present (hev.opts ▸ hm) x hx)
  cfevs x hx := hev.stak.symm ▸ h.cfevs x hx

/-- **The chosen event is not disabled.** -/
theorem CallOk.chosen_notMem (h : CallOk s c d alt) (hn : NodeOk P s d)
    (hchoose : chooseEvent ê c.enevs alt s.stak = .ok e) (heT : e ∈ s.evts) : e ∉ d := by
  intro hed
  obtain ⟨hen, halt⟩ := chooseEvent_mem hchoose
  obtain ⟨x, hx, hi⟩ := h.just e hed
  have hi' := (hn.linked.icnf_symm List.not_mem_nil hi).1
  rcases hx with hx | hx
  · exact (h.canExtend hen heT).noConflict hn.lock hn.wf.bot hx hi'
  · exact h.cf x hx e (.inr (halt (List.ne_nil_of_mem hx))) hi

/-! ## The push -/

theorem LockUnfolded.lockGood_push (hu : LockUnfolded fuel s c d e nc s₁) (hn : LockGood P s)
    (hc : EnabledOk s c) (he : e ∈ c.enevs) (heT : e ∈ s.evts) :
    LockGood P (s₁.withStack (e :: s₁.stak)) where
  toGood := hu.good.withStack (hu.grows.stak.symm ▸ hu.frontier.stack)
  cutoffs := (congrArg (·.cutoffs) hu.grows.opts).trans hn.cutoffs
  lock := hu.table
  ordered x hx y hy hd := by
    have hkeep : ∀ z ∈ e :: s₁.stak, z < s.cntr ∧ z ∈ s₁.evts := by
      intro z hz
      rw [hu.grows.stak] at hz
      have hzT : z ∈ s.evts := by
        rcases List.mem_cons.1 hz with rfl | hz
        · exact heT
        · exact hn.stak_mem hz
      exact ⟨hn.wf.lt_cntr hzT, hu.grows.keeps z hzT⟩
    obtain ⟨hxn, hxT⟩ := hkeep x hx
    obtain ⟨hyn, hyT⟩ := hkeep y hy
    change Dep s₁.evts x y at hd
    change Le s₁.evts x y ∨ Lt s₁.evts y x
    rw [hu.stable.dep_iff hxn hxT hyn hyT] at hd
    rw [Le, hu.stable.lt_iff hu.good.linked hyn hyT, hu.stable.lt_iff hu.good.linked hxn hxT]
    change x ∈ e :: s₁.stak at hx
    change y ∈ e :: s₁.stak at hy
    rw [hu.grows.stak] at hx hy
    -- what `e` depends on is below it
    rcases List.mem_cons.1 hx with rfl | hxs <;> rcases List.mem_cons.1 hy with rfl | hys
    · exact .inl (.inl rfl)
    · exact .inr (hc.dep x he heT y hys (hn.lock.dep_symm hn.wf.bot hd))
    · exact .inl (.inr (hc.dep y he heT x hxs hd))
    · exact hn.ordered x hxs y hys hd

theorem NodeOk.push (hn : NodeOk P s d) (hc : EnabledOk s c) (he : e ∈ c.enevs) (heT : e ∈ s.evts)
    (hed : e ∉ d) (hu : LockUnfolded fuel s c d e nc s₁) :
    NodeOk P (s₁.withStack (e :: s₁.stak)) d where
  toLockGood := hu.lockGood_push hn.toLockGood hc he heT
  disabled x hx := by
    obtain ⟨hxT, hxs, hp⟩ := hn.disabled x hx
    have hxT' := hu.grows.keeps x hxT
    change x ∈ s₁.evts ∧ x ∉ e :: s₁.stak ∧ ∀ p ∈ s₁.evts.predOf x, p ∈ e :: s₁.stak
    rw [hu.stable.pred (hn.wf.lt_cntr hxT) hxT', hu.grows.stak]
    refine ⟨hxT', fun hm => ?_, fun p hpp => List.mem_cons_of_mem e (hp p hpp)⟩
    rcases List.mem_cons.1 hm with rfl | hm
    · exact hed hx
    · exact hxs hm
  idle hm x hxs hxd := by
    change x ∉ e :: s₁.stak at hxs
    change s₁.evts.alteOf x = []
    rw [hu.grows.stak] at hxs
    rw [hu.altes x]
    refine hn.idle ?_ x (fun h => hxs (List.mem_cons_of_mem e h)) hxd
    rw [← hu.grows.opts]
    exact hm

theorem CallOk.push (h : CallOk s c d alt) (hn : NodeOk P s d)
    (hchoose : chooseEvent ê c.enevs alt s.stak = .ok e) (heT : e ∈ s.evts)
    (hu : LockUnfolded fuel s c d e nc s₁) :
    CallOk (s₁.withStack (e :: s₁.stak)) nc d (alt.erase e) := by
  obtain ⟨hen, halt⟩ := chooseEvent_mem hchoose
  have hstak : s₁.stak = s.stak := hu.grows.stak
  -- the events of `alt` are in the prefix
  have haltT : ∀ x ∈ alt, x ∈ s.evts := by
    intro x hx
    obtain ⟨d₁, -, v, hv, hxv⟩ := h.src x hx
    exact (hn.lock.alte d₁ v hv).closed.mem x hxv
  have hold : ∀ x ∈ s.evts, x < s.cntr ∧ x ∈ s₁.evts := fun x hx =>
    ⟨hn.wf.lt_cntr hx, hu.grows.keeps x hx⟩
  have hmem : ∀ x, x ∈ s.stak ∨ x ∈ alt → x ∈ e :: s.stak ∨ x ∈ alt.erase e := by
    rintro x (hx | hx)
    · exact .inl (List.mem_cons_of_mem e hx)
    · by_cases hxe : x = e
      · exact .inl (hxe ▸ List.mem_cons_self)
      · exact .inr ((List.mem_erase_of_ne hxe).2 hx)
  have hmem' : alt ≠ [] → ∀ x, x ∈ e :: s.stak ∨ x ∈ alt.erase e → x ∈ s.stak ∨ x ∈ alt := by
    rintro hne x (hx | hx)
    · rcases List.mem_cons.1 hx with rfl | hx
      · exact .inr (halt hne)
      · exact .inl hx
    · exact .inr (List.mem_of_mem_erase hx)
  have hreach : Reached P.system nc.state := by
    obtain ⟨t, o, -, hnext, hst⟩ := hu.step
    exact hst ▸ h.conf.reached.step_lock hnext
  refine ⟨⟨⟨hreach, hu.frontier.nodup, ?_, fun x hx => hu.good.wf.lt_cntr (hu.enevs x hx).mem,
    fun x hx _ => ?_⟩, fun x hx _ y hy => ?_, fun _ x hx => (hu.enevs x hx).mem, fun x hx => ?_⟩,
    h.nodup.erase e, fun x hx hm => ?_, fun x hx => ?_, fun x hx p hp => ?_, fun x hx y hy hi => ?_,
    fun z hz => ?_⟩
  · exact hstak.symm ▸ hu.frontier.maximal
  · exact hstak.symm ▸ (hu.enevs x hx).toExtends
  · exact (hu.enevs x hx).dep y (hstak ▸ hy)
  · exact hstak.symm ▸ ((hu.cfevs x).1 hx).1
  · change x ∈ e :: s₁.stak at hm
    rw [hstak] at hm
    rcases List.mem_cons.1 hm with rfl | hm
    · exact (h.nodup.mem_erase_iff.1 hx).1 rfl
    · exact h.fresh x (List.mem_of_mem_erase hx) hm
  · obtain ⟨d₁, hd₁, v, hv, hxv⟩ := h.src x (List.mem_of_mem_erase hx)
    exact ⟨d₁, hd₁, v, (hu.altes d₁).symm ▸ hv, hxv⟩
  · have hxa := List.mem_of_mem_erase hx
    obtain ⟨hxn, hxT⟩ := hold x (haltT x hxa)
    change p ∈ s₁.evts.predOf x at hp
    rw [hu.stable.pred hxn hxT] at hp
    exact hstak.symm ▸ hmem p (h.pred x hxa p hp)
  · have hxa := List.mem_of_mem_erase hx
    change y ∈ e :: s₁.stak ∨ y ∈ alt.erase e at hy
    rw [hstak] at hy
    have hy' := hmem' (List.ne_nil_of_mem hxa) y hy
    have hyT : y ∈ s.evts := hy'.elim hn.stak_mem (haltT y)
    exact h.cf x hxa y hy' (hu.stable.icnf (hold x (haltT x hxa)).1 (hold y hyT).1 hi)
  · obtain ⟨x, hx, hi⟩ := h.just z hz
    have hxT : x ∈ s.evts := hx.elim hn.stak_mem (haltT x)
    have hzT := (hn.disabled z hz).1
    refine ⟨x, hstak.symm ▸ hmem x hx, ?_⟩
    exact hu.stable.icnf_kept (hold x hxT).1 (hold z hzT).1 (hold x hxT).2 (hold z hzT).2 hi

/-! ## The pop -/

/-- What the branch of `e` leaves, seen from below `e`. -/
theorem NodeEvolves.pop (hu : LockUnfolded fuel s c d e nc s₁)
    (he : e ∉ s.stak) (hcalls : s₁.calls = s.calls)
    (h₂ : NodeEvolves d (s₁.withStack (e :: s₁.stak)) s₂) :
    NodeEvolves d s (s₂.withStack s₁.stak) := by
  have hmem : ∀ x ∈ s.stak, x ∈ e :: s₁.stak := fun x hx =>
    List.mem_cons_of_mem e (hu.grows.stak.symm ▸ hx)
  refine ⟨⟨hu.grows.stak, h₂.opts.trans hu.grows.opts, Nat.le_trans hu.grows.cntr h₂.cntr,
    hu.grows.older.trans h₂.older hu.grows.cntr, fun x hx => h₂.kept x (hmem x hx), fun hm x hx => ?_⟩,
    hu.stable.trans h₂.stable hu.grows.cntr, h₂.disabled, fun x hx v hv => ?_, fun x hx => ?_, ?_⟩
  · exact h₂.stateful ((congrArg (·.stateless) hu.grows.opts).trans hm) x (hu.grows.keeps x hx)
  · exact h₂.altes x (hx.imp_left (hmem x)) v ((hu.altes x).symm ▸ hv)
  · refine (h₂.disas x (hmem x hx)).trans ?_
    change s₁.evts.disaOf x = _
    rw [hu.disas x, if_neg fun hxe => he (by rw [← hxe]; exact hx)]
  · exact hcalls ▸ h₂.calls

theorem NodeOk.pop (hn : NodeOk P s d) (he : CanExtend s.evts s.stak e)
    (hu : LockUnfolded fuel s c d e nc s₁) (h₂ : NodeOk P s₂ d)
    (hev : NodeEvolves d (s₁.withStack (e :: s₁.stak)) s₂) :
    NodeOk P (s₂.withStack s₁.stak) (e :: d) := by
  have hstak₂ : s₂.stak = e :: s₁.stak := hev.stak
  have hsub : ∀ x ∈ s₁.stak, x ∈ s₂.stak := fun x hx => hstak₂ ▸ List.mem_cons_of_mem e hx
  have heT : e ∈ s₂.evts := hev.kept e List.mem_cons_self
  have hst := hu.stable.trans hev.stable hu.grows.cntr
  have hpred : ∀ x ∈ s.evts, x ∈ s₂.evts → s₂.evts.predOf x = s.evts.predOf x := fun x hx hx₂ =>
    hst.pred (hn.wf.lt_cntr hx) hx₂
  have hstack : StackOk s₂.evts s₁.stak := by
    rw [hu.grows.stak] at hsub ⊢
    exact hst.toOlder.stackOk h₂.linked hn.stack (fun _ => hn.stak_lt) fun x hx =>
      h₂.stak_mem (hsub x hx)
  refine ⟨⟨h₂.toGood.withStack hstack, h₂.cutoffs, h₂.lock, fun x hx y hy =>
    h₂.ordered x (hsub x hx) y (hsub y hy)⟩, fun x hx => ?_, fun hm x hxs hxd => ?_⟩
  · change x ∈ s₂.evts ∧ x ∉ s₁.stak ∧ ∀ p ∈ s₂.evts.predOf x, p ∈ s₁.stak
    rcases List.mem_cons.1 hx with rfl | hx
    · rw [hpred x he.mem heT, hu.grows.stak]
      exact ⟨heT, he.notMem, he.pred⟩
    · obtain ⟨hxT, hxs, hp⟩ := hn.disabled x hx
      have hxT₂ := (h₂.disabled x hx).1
      rw [hpred x hxT hxT₂, hu.grows.stak]
      exact ⟨hxT₂, hxs, hp⟩
  · refine h₂.idle hm x (fun h => ?_) fun h => hxd (List.mem_cons_of_mem e h)
    rw [hstak₂] at h
    rcases List.mem_cons.1 h with rfl | h
    · exact hxd List.mem_cons_self
    · exact hxs h

/-! ## The alternative -/

/-- An alternative that passes can be followed. -/
theorem CallOk.follow {v : Alternative} (hc : EnabledOk s c) (hn : NodeOk P s d) {d₁ : EventID}
    (hd₁ : d₁ ∈ d) (hv : v ∈ s.evts.alteOf d₁) (hp : Passes s.evts s.stak d v) :
    CallOk s c d (v.diff s.stak) := by
  have hok := hn.lock.alte d₁ v hv
  have hmem : ∀ x, x ∈ v.diff s.stak ↔ x ∈ v ∧ x ∉ s.stak := fun x => hok.nodup.mem_sdiff_iff
  have hor : ∀ x ∈ v, x ∈ s.stak ∨ x ∈ v.diff s.stak := by
    intro x hx
    by_cases hxs : x ∈ s.stak
    · exact .inl hxs
    · exact .inr ((hmem x).2 ⟨hx, hxs⟩)
  refine ⟨hc, hok.nodup.diff, fun x hx => ((hmem x).1 hx).2,
    fun x hx => ⟨d₁, hd₁, v, hv, ((hmem x).1 hx).1⟩, fun x hx p hpx => ?_, fun x hx y hy hi => ?_,
    fun z hz => ?_⟩
  · exact hor p (hok.closed.pred x ((hmem x).1 hx).1 p hpx)
  · rcases hy with hy | hy
    · exact hp.cf x ((hmem x).1 hx).1 y hi hy
    · exact hok.cf x ((hmem x).1 hx).1 y ((hmem y).1 hy).1 hi
  · obtain ⟨x, hx, hi⟩ := hp.just z hz
    exact ⟨x, hor x hx, hi⟩

/-! ## The pruning -/

theorem core_ok {T : Events LockAct} {conf : EventsID} (hT : ∀ x, x ∈ conf ∨ x ∈ d → x ∈ T) :
    ∃ r, core conf d T = .ok r ∧ ∀ x, x ∈ r ↔ (x ∈ conf ∨ x ∈ d) ∨
      ∃ y, (y ∈ conf ∨ y ∈ d) ∧ ∃ v ∈ T.alteOf y, x ∈ v := by
  have hget : ∀ x ∈ conf ++ d, ∃ ev, getEvent "compute_core" x T = .ok ev := by
    intro x hx
    obtain ⟨ev, hl⟩ := Events.lookup_of_mem (hT x (List.mem_append.1 hx))
    exact ⟨ev, getEvent_ok _ hl⟩
  obtain ⟨evs, hevs⟩ := exists_mapM' hget
  refine ⟨_, by rw [core, hevs, ok_bind, pure_eq_ok], fun x => ?_⟩
  rw [List.mem_eraseDups, List.mem_append, List.mem_append, List.mem_flatten]
  refine or_congr_right ?_
  obtain ⟨hin, hout⟩ := mapM'_mem hevs
  constructor
  · rintro ⟨v, hv, hx⟩
    obtain ⟨ev, hev, hv⟩ := List.mem_flatMap.1 hv
    obtain ⟨y, hy, hget⟩ := hout ev hev
    exact ⟨y, List.mem_append.1 hy, v, Events.alteOf_of_lookup (lookup_of_getEvent hget) ▸ hv, hx⟩
  · rintro ⟨y, hy, v, hv, hx⟩
    obtain ⟨ev, hev, hget⟩ := hin y (List.mem_append.2 hy)
    exact ⟨v, List.mem_flatMap.2 ⟨ev, hev,
      Events.alteOf_of_lookup (lookup_of_getEvent hget) ▸ hv⟩, hx⟩

/-- Deleting an event keeps what is in a closed set without it. -/
theorem delEvent_lock {K : EventID → Prop} {x : EventID} (h : LockGood P s)
    (hm : s.opts.stateless = true) (hK : DownClosed s.evts K) (hstak : ∀ y ∈ s.stak, K y)
    (hx : ¬ K x) (halte : ∀ y, y ≠ x → ∀ v ∈ s.evts.alteOf y, ∀ z ∈ v, K z) :
    Op.Sat (onEvts (delEvent x)) s
      (fun _ s' => LockGood P s' ∧ Evolves s s' ∧ Stable s.cntr s.evts s'.evts ∧
        (∀ z, K z → z ∈ s'.evts) ∧
        (∀ y, K y → ∀ v, v ∈ s'.evts.alteOf y ↔ v ∈ s.evts.alteOf y) ∧
        (∀ y, y = x ∨ s.evts.alteOf y = [] → s'.evts.alteOf y = []) ∧
        (∀ y, K y → s'.evts.disaOf y = s.evts.disaOf y) ∧ s'.calls = s.calls ∧ s'.cntr = s.cntr)
      (fun _ _ => False) := by
  obtain ⟨T', hok, hd⟩ := delEvent_ok h.linked x
  refine sat_onEvts.2 ⟨fun T'' hT'' => ?_, fun err herr => ?_⟩
  swap
  · rw [hok] at herr
    cases herr
  obtain rfl : T' = T'' := Except.ok.inj (hok.symm.trans hT'')
  have hkept : ∀ z, K z → z ∈ T' := hd.survive K hK (by simpa using hx)
  have hst : Stable s.cntr s.evts T' := .of_deleted hd s.cntr
  have hwf : WF T' s.cntr := hd.wf h.wf (hkept botEID (hstak botEID h.stack.bot))
  have hgood : Good P.system { s with evts := T', seen := ⟨T', s.cntr, s.stak⟩ :: s.seen } :=
    h.set_evts (h.table.of_older hst.toOlder hwf) hst.toOlder fun y hy => hkept y (hstak y hy)
  have hsub : ∀ y, ∀ v ∈ T'.alteOf y, y ≠ x ∧ v ∈ s.evts.alteOf y := by
    intro y v hv
    have hyT' := Events.mem_of_mem_alteOf hv
    refine ⟨?_, ?_⟩
    · rintro rfl
      exact hd.gone y (by simp) hyT'
    · obtain ⟨ev', hl'⟩ := Events.lookup_of_mem hyT'
      obtain ⟨ev, hl, hr⟩ := hd.shrunk y ev' hl'
      rw [Events.alteOf_of_lookup hl'] at hv
      rw [Events.alteOf_of_lookup hl]
      exact hr.alte hv
  have hlock : LockTable P T' := by
    refine h.lock.of_stable hst hwf fun y v hv => ?_
    obtain ⟨hyx, hv⟩ := hsub y v hv
    have hok := h.lock.alte y v hv
    exact hok.of_older hst.toOlder (fun z hz => h.wf.lt_cntr (hok.closed.mem z hz)) fun z hz =>
      hkept z (halte y hyx v hv z hz)
  refine ⟨h.of_stable hgood rfl rfl hst hlock, ⟨rfl, rfl, Nat.le_refl _, hst.toOlder,
    fun y hy => hkept y (hstak y hy), fun hf => by simp [hm] at hf⟩, hst, hkept,
    fun y hy v => ⟨fun hv => (hsub y v hv).2, fun hv => ?_⟩, fun y hy => ?_, fun y hy => ?_, rfl, rfl⟩
  · obtain ⟨ev', hl'⟩ := Events.lookup_of_mem (hkept y hy)
    obtain ⟨ev, hl, -⟩ := hd.shrunk y ev' hl'
    change v ∈ T'.alteOf y
    rw [Events.alteOf_of_lookup hl] at hv
    rw [Events.alteOf_of_lookup hl']
    refine (hd.keeps y ev ev' hl hl').2 v hv fun z hz => hkept z ?_
    refine halte y (fun hyx => hx (hyx ▸ hy)) v ?_ z hz
    rwa [Events.alteOf_of_lookup hl]
  · refine List.eq_nil_iff_forall_not_mem.2 fun v hv => ?_
    obtain ⟨hyx, hv⟩ := hsub y v hv
    rcases hy with rfl | hy
    · exact hyx rfl
    · simp [hy] at hv
  · obtain ⟨ev', hl'⟩ := Events.lookup_of_mem (hkept y hy)
    obtain ⟨ev, hl, hr⟩ := hd.shrunk y ev' hl'
    change T'.disaOf y = _
    rw [Events.disaOf_of_lookup hl, Events.disaOf_of_lookup hl', hr.disa]

/-- While events outside the closed set `K` are deleted; the alternatives of `ex` are still to be
dropped. -/
structure Pruned (K ex : EventID → Prop) (d : EventsID) (s s' : UnfolderState (LockState P) LockAct) :
    Prop where
  lock : LockGood P s'
  evolves : NodeEvolves d s s'
  kept : ∀ x, K x → x ∈ s'.evts
  idle : ∀ x, x ∉ s.stak → x ∉ d → ¬ ex x → s'.evts.alteOf x = []
  only : ∀ x, ∀ v ∈ s'.evts.alteOf x, v ∈ s.evts.alteOf x
  disas : ∀ x, K x → s'.evts.disaOf x = s.evts.disaOf x
  cntr : s'.cntr = s.cntr

/-- What pruning must keep: the stack, the disabled events and their alternatives. -/
structure IsCore (s : UnfolderState (LockState P) LockAct) (d : EventsID) (K : EventID → Prop) :
    Prop where
  closed : DownClosed s.evts K
  mem : ∀ y, y ∈ s.stak ∨ y ∈ d → K y
  alte : ∀ y, y ∈ s.stak ∨ y ∈ d → ∀ v ∈ s.evts.alteOf y, ∀ z ∈ v, K z

theorem Pruned.delEvent {K ex : EventID → Prop} {x : EventID} (h : Pruned K ex d s s₁)
    (hK : IsCore s d K) (hn : LockGood P s) (hm : s.opts.stateless = true) (hx : ¬ K x)
    (hex : ∀ y, ex y → y = x) :
    Op.Sat (onEvts (delEvent x)) s₁ (fun _ s' => Pruned K (fun _ => False) d s s')
      (fun _ _ => False) := by
  have hev := h.evolves
  have hstak : s₁.stak = s.stak := hev.stak
  have hK₁ : DownClosed s₁.evts K := hev.older.downClosed hK.closed
    (fun y hy => hn.wf.lt_cntr (hK.closed.mem y hy)) h.kept
  refine (delEvent_lock h.lock (hev.opts ▸ hm) hK₁ (fun y hy => hK.mem y (.inl (hstak ▸ hy))) hx
    fun y hyx v hv => ?_).mono (fun _ s₂ h₂ => ?_) fun _ _ h => h
  · have hy : y ∈ s.stak ∨ y ∈ d := by
      by_contra hno
      push Not at hno
      have := h.idle y hno.1 hno.2 fun hy => hyx (hex y hy)
      simp [this] at hv
    exact hK.alte y hy v (h.only y v hv)
  · obtain ⟨hlg, hev₂, hst₂, hkept₂, halte₂, hnil₂, hdisa₂, hcalls₂, hcntr₂⟩ := h₂
    refine ⟨hlg, hev.trans ⟨hev₂, hst₂, fun y hy => hkept₂ y (hK.mem y (.inr hy)), fun y hy v hv =>
      (halte₂ y (hK.mem y (hstak ▸ hy)) v).2 hv, fun y hy => hdisa₂ y (hK.mem y (.inl (hstak ▸ hy))),
      hcalls₂ ▸ List.suffix_rfl⟩, hkept₂, fun y hys hyd _ => hnil₂ y ?_, fun y v hv => ?_,
      fun y hy => (hdisa₂ y hy).trans (h.disas y hy), hcntr₂.trans h.cntr⟩
    · by_cases hyx : y = x
      · exact .inl hyx
      · exact .inr (h.idle y hys hyd fun hy => hyx (hex y hy))
    · refine h.only y v ?_
      by_contra hno
      by_cases hKy : K y
      · exact hno ((halte₂ y hKy v).1 hv)
      · -- outside the core there are no alternatives left
        have hys : y ∉ s.stak := fun hy => hKy (hK.mem y (.inl hy))
        have hyd : y ∉ d := fun hy => hKy (hK.mem y (.inr hy))
        have : s₂.evts.alteOf y = [] := by
          refine hnil₂ y ?_
          by_cases hyx : y = x
          · exact .inl hyx
          · exact .inr (h.idle y hys hyd fun hy => hyx (hex y hy))
        simp [this] at hv

/-- Dropping the alternatives of an event of the core. -/
theorem Pruned.resetAlte {K : EventID → Prop} (h : Pruned K (· = e) d s s₁) (heT : e ∈ s₁.evts)
    (hes : e ∉ s.stak) (hed : e ∉ d) :
    Op.Sat (onEvts (resetAlte e)) s₁ (fun _ s' => Pruned K (fun _ => False) d s s')
      (fun _ _ => False) := by
  have hev := h.evolves
  obtain ⟨ev, hl⟩ := Events.lookup_of_mem heT
  have hset : Poet.resetAlte e s₁.evts = .ok (s₁.evts.insert e { ev with alte := [] }) := by
    rw [Poet.resetAlte, getEvent_ok _ hl, ok_bind, pure_eq_ok, setEvent]
  obtain ⟨T', hT'⟩ : ∃ T' : Events LockAct, T' = s₁.evts.insert e { ev with alte := [] } := ⟨_, rfl⟩
  rw [← hT'] at hset
  refine sat_onEvts.2 ⟨fun T'' hT'' => ?_, fun err herr => ?_⟩
  swap
  · rw [hset] at herr
    cases herr
  obtain rfl : T' = T'' := Except.ok.inj (hset.symm.trans hT'')
  have hss : SameSteps s₁.evts T' := by
    refine ⟨.resetAlte hset, fun x => ?_⟩
    rw [hT', Events.actsOf_insert]
    split
    · next hx => rw [hx, Events.actsOf_of_lookup hl]
    · rfl
  have halte : ∀ x, T'.alteOf x = if x = e then [] else s₁.evts.alteOf x := fun x => by
    rw [hT', Events.alteOf_insert]
  have hdisa : ∀ x, T'.disaOf x = s₁.evts.disaOf x := by
    intro x
    rw [hT', Events.disaOf, Events.disaOf]
    by_cases hx : x = e
    · subst hx
      rw [AList.lookup_insert, hl, Option.map_some, Option.map_some]
    · rw [AList.lookup_insert_ne hx]
  have hmem : ∀ x, x ∈ T' ↔ x ∈ s₁.evts := fun x => hss.links.mem_iff
  have hst := hss.stable s₁.cntr
  have hwf : WF T' s₁.cntr := hss.links.wf h.lock.wf
  have hgood : Good P.system { s₁ with evts := T', seen := ⟨T', s₁.cntr, s₁.stak⟩ :: s₁.seen } :=
    h.lock.set_evts (h.lock.table.of_older hst.toOlder hwf) hst.toOlder fun y hy =>
      (hmem y).2 (h.lock.stak_mem hy)
  have hlock : LockTable P T' := by
    refine h.lock.lock.of_stable hst hwf fun y v hv => ?_
    rw [halte] at hv
    split at hv
    · cases hv
    · exact hss.links.altOk (h.lock.lock.alte y v hv)
  refine ⟨h.lock.of_stable hgood rfl rfl hst hlock, hev.trans ⟨⟨rfl, rfl, Nat.le_refl _, hst.toOlder,
    fun y hy => (hmem y).2 (h.lock.stak_mem hy), fun _ y hy => (hmem y).2 hy⟩, hst,
    fun y hy => (hmem y).2 (hev.disabled y hy), fun y hy v hv => ?_, fun y _ => hdisa y,
    List.suffix_rfl⟩, fun y hy => (hmem y).2 (h.kept y hy), fun y hys hyd _ => ?_, fun y v hv => ?_,
    fun y hy => (hdisa y).trans (h.disas y hy), h.cntr⟩
  · change v ∈ T'.alteOf y
    rw [halte, if_neg]
    · exact hv
    · rintro rfl
      exact hy.elim (fun hy => hes (hev.stak ▸ hy)) hed
  · change T'.alteOf y = []
    rw [halte]
    split
    · rfl
    · next hye => exact h.idle y hys hyd hye
  · change v ∈ T'.alteOf y at hv
    rw [halte] at hv
    split at hv
    · cases hv
    · exact h.only y v hv

/-- The event `x` is in both tables, with the same name, actions, predecessors and disabled set. -/
structure SameEvent {act : Type} (T T' : Events act) (x : EventID) : Prop where
  mem : x ∈ T'
  name : T'.nameOf x = T.nameOf x
  acts : T'.actsOf x = T.actsOf x
  pred : T'.predOf x = T.predOf x
  disa : T'.disaOf x = T.disaOf x

theorem Pruned.sameEvent {K ex : EventID → Prop} {x : EventID} (h : Pruned K ex d s s₁)
    (hn : LockGood P s) (hK : IsCore s d K) (hx : K x) : SameEvent s.evts s₁.evts x :=
  have hlt := hn.wf.lt_cntr (hK.closed.mem x hx)
  have hm := h.kept x hx
  ⟨hm, h.evolves.stable.name hlt hm, h.evolves.stable.acts hlt hm, h.evolves.stable.pred hlt hm,
    h.disas x hx⟩

/-- Pruning leaves what is in a closed set without the events that it starts from. -/
theorem prune_pruned {core : EventsID} {K : EventID → Prop} (hn : NodeOk P s (e :: d))
    (hm : s.opts.stateless = true) (hK : IsCore s d K)
    (hroots : ∀ x ∉ core, x = e ∨ (∃ v ∈ s.evts.alteOf e, x ∈ v) → ¬ K x) (hed : e ∉ d) :
    Op.Sat (prune e core) s (fun _ s' => Pruned K (fun _ => False) d s s') (fun _ _ => False) := by
  obtain ⟨heT, hes, -⟩ := hn.disabled e List.mem_cons_self
  obtain ⟨ev, hl⟩ := Events.lookup_of_mem heT
  have halte : s.evts.alteOf e = ev.alte := by simp [Events.alteOf, hl]
  have hstart : Pruned K (· = e) d s s := by
    refine ⟨hn.toLockGood, (NodeEvolves.refl hn).weaken, hK.closed.mem, fun x hxs hxd hxe => ?_,
      fun _ _ hv => hv, fun _ _ => rfl, rfl⟩
    exact hn.idle hm x hxs fun hx => (List.mem_cons.1 hx).elim hxe hxd
  have hrest : ∀ s₁, Pruned K (fun _ => False) d s s₁ →
      Op.Sat (ev.alte.mapM' fun v => v.mapM' fun x =>
        if x ∈ core then pure () else onEvts (delEvent x)) s₁
        (fun _ s' => Pruned K (fun _ => False) d s s') (fun _ _ => False) := by
    intro s₁ h₁
    refine Op.sat_mapM' (fun _ _ s₂ => Pruned K (fun _ => False) d s s₂) (fun _ v _ s₂ hv h₂ => ?_) h₁
    refine Op.sat_mapM' (fun _ _ s₃ => Pruned K (fun _ => False) d s s₃) (fun _ x _ s₃ hx h₃ => ?_) h₂
    rw [Op.sat_ite]
    refine ⟨fun _ => h₃, fun hxc => h₃.delEvent hK hn.toLockGood hm ?_ fun _ h => h.elim⟩
    exact hroots x hxc (.inr ⟨v, halte ▸ hv.subset (by simp), hx.subset (by simp)⟩)
  simp only [prune, Op.sat_bind, Op.sat_get, Op.sat_monadLift, Op.sat_ite, Op.sat_pure,
    getEvent_ok _ hl]
  refine ⟨fun ev' hev' => ?_, fun _ h => by cases h⟩
  obtain rfl : ev = ev' := Except.ok.inj hev'
  exact ⟨fun _ => (hstart.resetAlte heT hes hed).mono (fun _ s₁ => hrest s₁) fun _ _ h => h,
    fun hx => (hstart.delEvent hK hn.toLockGood hm (hroots e hx (.inl rfl)) fun _ h => h).mono
      (fun _ s₁ => hrest s₁) fun _ _ h => h⟩

theorem prune_lock {core : EventsID} (hn : NodeOk P s (e :: d)) (hm : s.opts.stateless = true)
    (hK : IsCore s d (· ∈ core)) (hed : e ∉ d) :
    Op.Sat (prune e core) s (fun _ s' => NodeOk P s' d ∧ NodeEvolves d s s' ∧
      (∀ x ∈ core, SameEvent s.evts s'.evts x) ∧ s'.cntr = s.cntr) (fun _ _ => False) := by
  refine (prune_pruned hn hm hK (fun x hx _ => hx) hed).mono (fun _ s' h => ?_) fun _ _ h => h
  refine ⟨⟨h.lock, fun x hx => ?_, fun _ x hxs hxd => ?_⟩, h.evolves, fun x =>
    h.sameEvent hn.toLockGood hK, h.cntr⟩
  · obtain ⟨hxT, hxs, hp⟩ := hn.disabled x (List.mem_cons_of_mem e hx)
    have hxT' := h.evolves.disabled x hx
    rw [h.evolves.stak, h.evolves.stable.pred (hn.wf.lt_cntr hxT) hxT']
    exact ⟨hxT', hxs, hp⟩
  · exact h.idle x (h.evolves.stak ▸ hxs) hxd fun h => h

/-- `core` returns what pruning must keep. -/
theorem NodeOk.core (hn : NodeOk P s (e :: d)) :
    ∃ r, core s.stak d s.evts = .ok r ∧ IsCore s d (· ∈ r) := by
  have hT : ∀ x, x ∈ s.stak ∨ x ∈ d → x ∈ s.evts := by
    rintro x (hx | hx)
    · exact hn.stak_mem hx
    · exact (hn.disabled x (List.mem_cons_of_mem e hx)).1
  obtain ⟨r, hr, hmem⟩ := core_ok hT
  refine ⟨r, hr, ⟨fun x hx => ?_, fun x hx p hp => ?_⟩, fun y hy => (hmem y).2 (.inl hy),
    fun y hy v hv z hz => (hmem z).2 (.inr ⟨y, hy, v, hv, hz⟩)⟩
  · rcases (hmem x).1 hx with hx | ⟨y, -, v, hv, hxv⟩
    · exact hT x hx
    · exact (hn.lock.alte y v hv).closed.mem x hxv
  · rcases (hmem x).1 hx with (hx | hx) | ⟨y, hy, v, hv, hxv⟩
    · exact (hmem p).2 (.inl (.inl (hn.stack.closed.pred x hx p hp)))
    · exact (hmem p).2 (.inl (.inl ((hn.disabled x (List.mem_cons_of_mem e hx)).2.2 p hp)))
    · exact (hmem p).2 (.inr ⟨y, hy, v, hv, (hn.lock.alte y v hv).closed.pred x hxv p hp⟩)

theorem pruneBranch_lock (hn : NodeOk P s (e :: d)) (hed : e ∉ d) :
    Op.Sat (pruneBranch s.stak d e) s
      (fun _ s' => NodeOk P s' d ∧ NodeEvolves d s s' ∧ s'.cntr = s.cntr) (fun _ _ => False) := by
  simp only [pruneBranch, Op.sat_bind, Op.sat_get]
  split
  · next hm =>
    obtain ⟨r, hr, hK⟩ := hn.core
    simp only [Op.sat_bind, Op.sat_monadLift, hr]
    refine ⟨fun core hcore => ?_, fun _ h => by cases h⟩
    obtain rfl : r = core := Except.ok.inj hcore
    exact (prune_lock hn hm hK hed).mono (fun _ _ h => ⟨h.1, h.2.1, h.2.2.2⟩) fun _ _ h => h
  · next hm =>
    refine ⟨⟨hn.toLockGood, fun x hx => hn.disabled x (List.mem_cons_of_mem e hx), fun h => ?_⟩,
      (NodeEvolves.refl hn).weaken, rfl⟩
    exact absurd h (by simpa using hm)

/-- Pruning enters no alternative, and keeps the events over the stack that are not in an alternative of
`e`. -/
theorem pruneBranch_keeps (hn : NodeOk P s (e :: d)) (hed : e ∉ d) :
    Op.Sat (pruneBranch s.stak d e) s
      (fun _ s' => (∀ x, ∀ v ∈ s'.evts.alteOf x, v ∈ s.evts.alteOf x) ∧
        ∀ z ∈ s.evts, z ≠ e → (∀ v ∈ s.evts.alteOf e, z ∉ v) → (∀ p ∈ s.evts.predOf z, p ∈ s.stak) →
          z ∈ s'.evts) (fun _ _ => False) := by
  simp only [pruneBranch, Op.sat_bind, Op.sat_get]
  split
  · next hm =>
    obtain ⟨r, hr, hK⟩ := hn.core
    simp only [Op.sat_bind, Op.sat_monadLift, hr]
    refine ⟨fun core hcore => ?_, fun _ h => by cases h⟩
    obtain rfl : r = core := Except.ok.inj hcore
    obtain ⟨u, s', hrun, h⟩ := (prune_pruned hn hm hK (fun x hx _ => hx) hed).exists_ok fun _ _ h => h
    refine (Op.sat_of_eq_ok hrun).2 ⟨h.only, fun z hz hze hzv hzp => ?_⟩
    -- the core with `z` is closed too
    have hK' : IsCore s d fun x => x ∈ r ∨ x = z := by
      refine ⟨⟨fun x hx => ?_, fun x hx p hp => ?_⟩, fun y hy => .inl (hK.mem y hy),
        fun y hy v hv x hx => .inl (hK.alte y hy v hv x hx)⟩
      · exact hx.elim (hK.closed.mem x) fun heq => heq ▸ hz
      · rcases hx with hx | rfl
        · exact .inl (hK.closed.pred x hx p hp)
        · exact .inl (hK.mem p (.inl (hzp p hp)))
    refine ((prune_pruned hn hm hK' (fun x hx hroot => ?_) hed).of_eq_ok hrun).kept z (.inr rfl)
    rintro (hxr | rfl)
    · exact hx hxr
    · rcases hroot with rfl | ⟨v, hv, hxv⟩
      · exact hze rfl
      · exact hzv v hv hxv
  · exact ⟨fun _ _ hv => hv, fun z hz _ _ _ => hz⟩

end Poet
