import Poet.Locks.Unfold

/-!
# Alternatives

The alternatives that a run on a lock program stores are configurations (`possibleAltes_lock`), and
every valid alternative of the events of a maximal configuration is stored (`AltesAdded.stored`).
`alt2` returns the first stored alternative that passes `filterAlte`,
if there is one (`alt2_ok`).
-/

namespace Poet

/-! ## At a maximal configuration -/

/-- What holds between two operations on a lock program: the events of the stack that depend on each
other are ordered. -/
structure LockGood (P : LockProgram) (s : UnfolderState (LockState P) LockAct) : Prop extends
    Good P.system s where
  cutoffs : s.opts.cutoffs = false
  lock : LockTable P s.evts
  ordered : ∀ x ∈ s.stak, ∀ y ∈ s.stak, Dep s.evts x y → Le s.evts x y ∨ Lt s.evts y x

namespace LockGood

variable {P : LockProgram} {s s' : UnfolderState (LockState P) LockAct} (h : LockGood P s)

include h

theorem conflictFree {x y : EventID} (hx : x ∈ s.stak) (hy : y ∈ s.stak) : y ∉ s.evts.icnfOf x := by
  intro hi
  obtain ⟨hd, h₁, h₂⟩ := h.lock.icnf x y hi
  rcases h.ordered x hx y hy hd with hle | hlt
  · exact h₁ hle
  · exact h₂ (.inr hlt)

theorem of_stable (hg : Good P.system s') (hstak : s'.stak = s.stak) (hopts : s'.opts = s.opts)
    (hs : Stable s.cntr s.evts s'.evts) (hT : LockTable P s'.evts) : LockGood P s' where
  toGood := hg
  cutoffs := hopts ▸ h.cutoffs
  lock := hT
  ordered x hx y hy hd := by
    have hxT := hg.stak_mem hx
    have hyT := hg.stak_mem hy
    rw [hstak] at hx hy
    rw [hs.dep_iff (h.stak_lt hx) hxT (h.stak_lt hy) hyT] at hd
    rw [Le, hs.lt_iff hg.linked (h.stak_lt hy) hyT, hs.lt_iff hg.linked (h.stak_lt hx) hxT]
    exact h.ordered x hx y hy hd

/-- An immediate conflict of an event of the stack, with its predecessors on the stack. -/
theorem conflictingExt {x y : EventID} (hx : x ∈ s.stak) (hy : y ∈ s.evts.icnfOf x)
    (hp : ∀ p ∈ s.evts.predOf y, p ∈ s.stak) : ConflictingExt s.evts s.stak y where
  nodup := h.stack.nodup
  closed := h.stack.closed
  cf _ ha _ hb := h.conflictFree ha hb
  mem := h.linked.icnf_mem List.not_mem_nil hy
  notMem hys := h.conflictFree hx hys hy
  pred := hp
  incomp c hc := (h.lock.icnf y c hc).2.2

end LockGood

section PossibleAltes

variable {P : LockProgram} {s s₁ : UnfolderState (LockState P) LockAct} {evs : EventsID}
  {done : EventID → EventID → Prop} {x y : EventID}

/-- `y` is a conflicting extension of the stack by a conflict with `x`. -/
def CExt (s : UnfolderState (LockState P) LockAct) (x y : EventID) : Prop :=
  y ∈ s.evts.icnfOf x ∧ ∀ p ∈ s.evts.predOf y, p ∈ s.stak

/-- `v` is the alternative of `x` by a conflicting extension. -/
structure NewAlt (s : UnfolderState (LockState P) LockAct) (x : EventID) (v : Alternative) : Prop
    extends AltOk s.evts v where
  source : ∃ y, CExt s x y ∧ IsAlt s.evts s.stak y v ∧ ValidAlt s.evts s.stak (s.evts.disaOf x) x y

/-- While alternatives are entered for pairs of an event and a conflicting extension: nothing but
alternatives changes, and those of the pairs `done` are there if they are valid. -/
structure AltesAdded (s : UnfolderState (LockState P) LockAct) (evs : EventsID)
    (done : EventID → EventID → Prop) (s' : UnfolderState (LockState P) LockAct) : Prop where
  good : Good P.system s'
  grows : Grows s s'
  cntr : s'.cntr = s.cntr
  steps : SameSteps s.evts s'.evts
  disas : ∀ x, s'.evts.disaOf x = s.evts.disaOf x
  more : ∀ x, ∀ v ∈ s.evts.alteOf x, v ∈ s'.evts.alteOf x
  only : ∀ x, ∀ v ∈ s'.evts.alteOf x, v ∈ s.evts.alteOf x ∨ (x ∈ evs ∧ NewAlt s x v)
  stored : ∀ x y, done x y → ValidAlt s.evts s.stak (s.evts.disaOf x) x y →
    ∃ v ∈ s'.evts.alteOf x, IsAlt s.evts s.stak y v

namespace AltesAdded

theorem refl (hg : Good P.system s) : AltesAdded s evs (fun _ _ => False) s :=
  ⟨hg, .refl s, rfl, ⟨.refl _, fun _ => rfl⟩, fun _ => rfl, fun _ _ h => h, fun _ _ h => .inl h,
    fun _ _ h => h.elim⟩

theorem mono {done' : EventID → EventID → Prop} (h : AltesAdded s evs done s₁)
    (hd : ∀ x y, done' x y → done x y) : AltesAdded s evs done' s₁ :=
  { h with stored := fun x y hxy => h.stored x y (hd x y hxy) }

theorem lockTable (h : AltesAdded s evs done s₁) (hs : LockTable P s.evts) : LockTable P s₁.evts := by
  refine hs.of_stable (h.steps.stable s₁.cntr) h.good.wf fun x v hv => ?_
  rcases h.only x v hv with hv | ⟨-, hv⟩
  · exact h.steps.links.altOk (hs.alte x v hv)
  · exact h.steps.links.altOk hv.toAltOk

theorem lockGood (h : AltesAdded s evs done s₁) (hs : LockGood P s) : LockGood P s₁ :=
  hs.of_stable h.good h.grows.stak h.grows.opts (h.steps.stable s.cntr) (h.lockTable hs.lock)

/-- The alternative of one pair. -/
theorem addV (h : AltesAdded s evs done s₁) (hs : LockGood P s) (hx : x ∈ s.stak) (hxe : x ∈ evs)
    (hy : y ∈ s.evts.icnfOf x) (hp : ∀ p ∈ s.evts.predOf y, p ∈ s.stak) :
    Op.Sat (addV s.stak (s.evts.disaOf x) x y) s₁
      (fun _ s' => AltesAdded s evs (fun x' y' => done x' y' ∨ (x' = x ∧ y' = y)) s')
      (fun _ _ => False) := by
  have hl := h.steps.links
  have hc : ConflictingExt s.evts s.stak y := hs.conflictingExt hx hy hp
  have hc₁ : ConflictingExt s₁.evts s.stak y := by
    rw [← h.grows.stak]
    refine (h.lockGood hs).conflictingExt (h.grows.stak.symm ▸ hx) (hl.icnfOf x ▸ hy) fun p hpp => ?_
    rw [h.grows.stak]
    exact hp p (hl.predOf y ▸ hpp)
  obtain ⟨r, hr, hsome, hnone⟩ := computeV_ok h.good.linked.causal
    (fun hi => (h.good.linked.icnf_symm List.not_mem_nil hi).1) hc₁ hx (s.evts.disaOf x)
  simp only [Poet.addV, Op.sat_bind, Op.sat_get, Op.sat_monadLift]
  refine ⟨fun r' hr' => ?_, fun err herr => ?_⟩
  swap
  · rw [hr] at herr
    cases herr
  obtain rfl : r = r' := Except.ok.inj (hr.symm.trans hr')
  cases r with
  | none =>
    refine { h with stored := fun x' y' hd hval => ?_ }
    rcases hd with hd | ⟨rfl, rfl⟩
    · exact h.stored x' y' hd hval
    · exact absurd rfl (hnone (hl.validAlt_iff.2 hval))
  | some v =>
    obtain ⟨hok, halt, hvalid⟩ := hsome v rfl
    obtain ⟨ev, hev⟩ := Events.lookup_of_mem (h.good.stak_mem (h.grows.stak.symm ▸ hx))
    have hadd : addAlte x v s₁.evts =
        .ok (s₁.evts.insert x { ev with alte := (v :: ev.alte).eraseDups }) := by
      rw [addAlte, getEvent_ok _ hev, ok_bind, pure_eq_ok, setEvent]
    have hnofail : Op.Sat (onEvts (addAlte x v)) s₁ (fun _ _ => True) (fun _ _ => False) :=
      sat_onEvts.2 ⟨fun _ _ => trivial, fun err herr => by
        rw [hadd] at herr
        cases herr⟩
    refine ((h.good.onEvts_sameLinks fun T' hT' => .addAlte hT').and hnofail).mono
      (fun _ s₂ h₂ => ?_) fun _ _ h => h.2
    obtain ⟨⟨hg₂, hgr₂, hcntr, hevts⟩, -⟩ := h₂
    have hl₂ : SameLinks s₁.evts s₂.evts := .addAlte hevts
    rw [hadd] at hevts
    have hevts : s₂.evts = s₁.evts.insert x { ev with alte := (v :: ev.alte).eraseDups } :=
      (Except.ok.inj hevts).symm
    have halte : ∀ x' w, w ∈ s₂.evts.alteOf x' ↔ w ∈ s₁.evts.alteOf x' ∨ (x' = x ∧ w = v) := by
      intro x' w
      rw [hevts, Events.alteOf_insert]
      split
      · next hxx =>
        subst hxx
        simp [Events.alteOf_of_lookup hev, or_comm]
      · next hxx => simp [hxx]
    refine ⟨hg₂, h.grows.trans hgr₂, hcntr.trans h.cntr, h.steps.trans ⟨hl₂, fun x' => ?_⟩,
      fun x' => ?_, fun x' w hw => (halte x' w).2 (.inl (h.more x' w hw)), fun x' w hw => ?_,
      fun x' y' hd hval => ?_⟩
    · rw [hevts, Events.actsOf_insert]
      split
      · next hxx => rw [hxx, Events.actsOf_of_lookup hev]
      · rfl
    · rw [← h.disas x', hevts, Events.disaOf, Events.disaOf]
      by_cases hxx : x' = x
      · subst hxx
        rw [AList.lookup_insert, hev, Option.map_some, Option.map_some]
      · rw [AList.lookup_insert_ne hxx]
    · rcases (halte x' w).1 hw with hw | ⟨rfl, rfl⟩
      · exact h.only x' w hw
      · exact .inr ⟨hxe, (hl.isAlt_iff.1 halt).altOk
          (fun hi => (hs.linked.icnf_symm List.not_mem_nil hi).1) hc hok.nodup, y, ⟨hy, hp⟩,
          hl.isAlt_iff.1 halt, hl.validAlt_iff.1 hvalid⟩
    · rcases hd with hd | ⟨rfl, rfl⟩
      · obtain ⟨w, hw, hwa⟩ := h.stored x' y' hd hval
        exact ⟨w, (halte x' w).2 (.inl hw), hwa⟩
      · exact ⟨v, (halte x' v).2 (.inr ⟨rfl, rfl⟩), hl.isAlt_iff.1 halt⟩

end AltesAdded

theorem isCExtension_ok {T : Events LockAct} {stack cext : EventsID} (hy : y ∈ T)
    (hcext : y ∈ cext → ∀ p ∈ T.predOf y, p ∈ stack) :
    ∃ b, isCExtension stack cext T y = .ok b ∧ (b = true ↔ ∀ p ∈ T.predOf y, p ∈ stack) := by
  unfold isCExtension
  split
  · next h => exact ⟨true, rfl, by simpa using hcext h⟩
  · refine ⟨(T.predOf y).all (· ∈ stack), ?_, by simp⟩
    rw [getPred_ok hy, ok_bind, pure_eq_ok]

/-- The alternatives of one event. -/
theorem possibleAlte_lock {cext : EventsID} (h : AltesAdded s evs done s₁) (hs : LockGood P s)
    (hx : x ∈ s.stak) (hxe : x ∈ evs) (hcext : ∀ y ∈ cext, ∀ p ∈ s.evts.predOf y, p ∈ s.stak) :
    Op.Sat (possibleAlte s.stak cext x) s₁
      (fun cext' s' => AltesAdded s evs (fun x' y => done x' y ∨ (x' = x ∧ CExt s x y)) s' ∧
        ∀ y ∈ cext', ∀ p ∈ s.evts.predOf y, p ∈ s.stak)
      (fun _ _ => False) := by
  have hl := h.steps.links
  have hxT : x ∈ s₁.evts := hl.mem_iff.2 (hs.stak_mem hx)
  have hcx : ∀ y ∈ s.evts.icnfOf x, ∃ b, isCExtension s.stak cext s₁.evts y = .ok b ∧
      (b = true ↔ ∀ p ∈ s.evts.predOf y, p ∈ s.stak) := by
    intro y hy
    rw [← hl.predOf y]
    refine isCExtension_ok (hl.mem_iff.2 (hs.linked.icnf_mem List.not_mem_nil hy)) fun hyc => ?_
    rw [hl.predOf y]
    exact hcext y hyc
  simp only [possibleAlte, Op.sat_bind, Op.sat_get, Op.sat_monadLift, Op.sat_pure,
    getIcnf_ok hxT, hl.icnfOf x]
  refine ⟨fun cfle hcfle => ⟨fun ext hext => ⟨fun de hde => ?_, fun err herr => ?_⟩,
    fun err herr => ?_⟩, fun err herr => by cases herr⟩
  all_goals obtain rfl : s.evts.icnfOf x = cfle := Except.ok.inj hcfle
  · have hmem : ∀ y, y ∈ ext ↔ CExt s x y := by
      intro y
      constructor
      · intro hy
        have hyc := (filterM_sublist hext).subset hy
        obtain ⟨b, hb, hiff⟩ := hcx y hyc
        obtain rfl : true = b := Except.ok.inj ((filterM_true hext y hy).symm.trans hb)
        exact ⟨hyc, hiff.1 rfl⟩
      · rintro ⟨hyc, hp⟩
        obtain ⟨b, hb, hiff⟩ := hcx y hyc
        obtain ⟨b', hb', hin⟩ := filterM_mem hext y hyc
        obtain rfl : b = b' := Except.ok.inj (hb.symm.trans hb')
        exact hin (hiff.2 hp)
    obtain rfl : s.evts.disaOf x = de := by
      obtain ⟨ev, hev⟩ := Events.lookup_of_mem hxT
      rw [getDisa, getEvent_ok _ hev] at hde
      rw [← h.disas x, Events.disaOf_of_lookup hev]
      exact Except.ok.inj hde
    refine (Op.sat_mapM' (fun ys _ s₂ => AltesAdded s evs
      (fun x' y => done x' y ∨ (x' = x ∧ y ∈ ys)) s₂) (fun ys y _ s₂ hpre h₂ => ?_)
      (h.mono (by simp))).mono (fun _ s₂ h₂ => ⟨h₂.mono ?_, fun y hy => ?_⟩) fun _ _ h => h
    · obtain ⟨hyi, hyp⟩ := (hmem y).1 (hpre.subset (by simp))
      refine (h₂.addV hs hx hxe hyi hyp).mono (fun _ s₃ h₃ => h₃.mono ?_) fun _ _ h => h
      rintro x' y' (hd | ⟨rfl, hy'⟩)
      · exact .inl (.inl hd)
      · rcases List.mem_append.1 hy' with hy' | hy'
        · exact .inl (.inr ⟨rfl, hy'⟩)
        · exact .inr ⟨rfl, List.mem_singleton.1 hy'⟩
    · rintro x' y (hd | ⟨rfl, hy⟩)
      · exact .inl hd
      · exact .inr ⟨rfl, (hmem y).2 hy⟩
    · rcases List.mem_append.1 hy with hy | hy
      · exact hcext y hy
      · exact ((hmem y).1 hy).2
  · obtain ⟨ev, hev⟩ := Events.lookup_of_mem hxT
    simp [getDisa, getEvent_ok _ hev] at herr
  · obtain ⟨r, hr⟩ := exists_filterM fun y hy => (hcx y hy).imp fun _ h => h.1
    rw [hr] at herr
    cases herr

/-- The alternatives of the events `evs` of the stack: those by a conflicting extension are stored when
they are valid. -/
theorem possibleAltes_lock (hs : LockGood P s) (hevs : ∀ x ∈ evs, x ∈ s.stak) :
    Op.Sat (possibleAltes evs) s
      (fun _ s' => AltesAdded s evs (fun x y => x ∈ evs ∧ CExt s x y) s') (fun _ _ => False) := by
  simp only [possibleAltes, Op.sat_bind, Op.sat_get, Op.sat_pure]
  refine (Op.sat_foldlM_done (fun xs cext s₁ =>
    AltesAdded s evs (fun x y => x ∈ xs ∧ CExt s x y) s₁ ∧
      ∀ y ∈ cext, ∀ p ∈ s.evts.predOf y, p ∈ s.stak) (fun xs cext x s₁ hpre h₁ => ?_) ?_).mono
    (fun _ _ h => h.1) fun _ _ h => h
  · have hxe : x ∈ evs := hpre.subset (by simp)
    refine (possibleAlte_lock h₁.1 hs (hevs x hxe) hxe h₁.2).mono
      (fun cext' s₂ h₂ => ⟨h₂.1.mono ?_, h₂.2⟩) fun _ _ h => h
    rintro x' y ⟨hx', hy⟩
    rcases List.mem_append.1 hx' with hx' | hx'
    · exact .inl ⟨hx', hy⟩
    · obtain rfl := List.mem_singleton.1 hx'
      exact .inr ⟨rfl, hy⟩
  · exact ⟨(AltesAdded.refl hs.toGood).mono (by simp), by simp⟩

end PossibleAltes

/-! ## The alternative to follow -/

section Alt2

variable {act : Type} {T : Events act} {stak ods : EventsID}

/-- `v` justifies `ods` and has no conflict with the stack. -/
structure Passes (T : Events act) (stak ods : EventsID) (v : Alternative) : Prop where
  just : ∀ z ∈ ods, ∃ x ∈ v, z ∈ T.icnfOf x
  cf : ∀ x ∈ v, ∀ y ∈ T.icnfOf x, y ∉ stak

theorem filterAlte_ok (stak ods : EventsID) {v : Alternative} (hv : ∀ x ∈ v, x ∈ T) :
    ∃ b, filterAlte stak ods T v = .ok b ∧ (b = true ↔ Passes T stak ods v) := by
  have hmem : ∀ z, z ∈ ((v.map T.icnfOf).flatten).eraseDups ↔ ∃ x ∈ v, z ∈ T.icnfOf x := by
    intro z
    simp only [List.mem_eraseDups, List.mem_flatten, List.mem_map]
    constructor
    · rintro ⟨_, ⟨x, hx, rfl⟩, hz⟩
      exact ⟨x, hx, hz⟩
    · rintro ⟨x, hx, hz⟩
      exact ⟨_, ⟨x, hx, rfl⟩, hz⟩
  refine ⟨ods.all (· ∈ ((v.map T.icnfOf).flatten).eraseDups) &&
      !((v.map T.icnfOf).flatten).eraseDups.any (· ∈ stak), ?_, ?_⟩
  · rw [filterAlte, mapM'_ok fun x hx => getIcnf_ok (hv x hx)]
    rfl
  · simp only [Bool.and_eq_true, List.all_eq_true, decide_eq_true_eq, Bool.not_eq_true',
      List.any_eq_false, hmem]
    constructor
    · rintro ⟨h₁, h₂⟩
      exact ⟨h₁, fun x hx y hy => h₂ y ⟨x, hx, hy⟩⟩
    · rintro ⟨h₁, h₂⟩
      refine ⟨h₁, ?_⟩
      rintro y ⟨x, hx, hy⟩
      exact h₂ x hx y hy

/-- `alt2` returns a stored alternative that passes, if there is one. -/
theorem alt2_ok : ∀ {ds : EventsID}, (∀ d ∈ ds, d ∈ T ∧ ∀ v ∈ T.alteOf d, ∀ x ∈ v, x ∈ T) →
    ∃ r, alt2 stak T ods ds = .ok r ∧
      (∀ v, r = some v → ∃ d ∈ ds, v ∈ T.alteOf d ∧ Passes T stak ods v) ∧
      (r = none → ∀ d ∈ ds, ∀ v ∈ T.alteOf d, ¬ Passes T stak ods v)
  | [], _ => ⟨none, rfl, by simp, by simp⟩
  | d :: ds, h => by
    obtain ⟨hd, hvs⟩ := h d List.mem_cons_self
    obtain ⟨r, hr, hsome, hnone⟩ := alt2_ok fun d' hd' => h d' (List.mem_cons_of_mem d hd')
    obtain ⟨mv, hmv⟩ := exists_filterM fun v hv => (filterAlte_ok stak ods
      (hvs v hv)).imp fun _ h => h.1
    have hpass : ∀ v, v ∈ mv ↔ v ∈ T.alteOf d ∧ Passes T stak ods v := by
      intro v
      constructor
      · intro hv
        have hvd := (filterM_sublist hmv).subset hv
        obtain ⟨b, hb, hiff⟩ := filterAlte_ok stak ods (hvs v hvd)
        obtain rfl : true = b := Except.ok.inj ((filterM_true hmv v hv).symm.trans hb)
        exact ⟨hvd, hiff.1 rfl⟩
      · rintro ⟨hvd, hp⟩
        obtain ⟨b, hb, hiff⟩ := filterAlte_ok stak ods (hvs v hvd)
        obtain ⟨b', hb', hin⟩ := filterM_mem hmv v hvd
        obtain rfl : b = b' := Except.ok.inj (hb.symm.trans hb')
        exact hin (hiff.2 hp)
    rw [alt2, getAlte_ok hd, ok_bind, hmv, ok_bind]
    cases mv with
    | nil =>
      refine ⟨r, hr, fun v hv => ?_, fun hn d' hd' v hv hp => ?_⟩
      · obtain ⟨d', hd', h'⟩ := hsome v hv
        exact ⟨d', List.mem_cons_of_mem d hd', h'⟩
      · rcases List.mem_cons.1 hd' with rfl | hd'
        · exact absurd ((hpass v).2 ⟨hv, hp⟩) List.not_mem_nil
        · exact hnone hn d' hd' v hv hp
    | cons v mv =>
      refine ⟨some v, rfl, fun w hw => ?_, by simp⟩
      obtain rfl := Option.some_inj.1 hw
      exact ⟨d, List.mem_cons_self, (hpass v).1 List.mem_cons_self⟩

end Alt2

end Poet
