import Poet.Locks.Invariant

/-!
# Unfolding a lock program

What `extend` and `unfold` do on a lock program, in one record each: the prefix they leave, the
events they return and why they are there (`ThreadFound`, `LockUnfolded`), and the only ways in which
they can fail (`ThreadFails`, `UnfoldFails`). Later modules read these records and do not look into
the operations again.
-/

namespace Poet

variable {act : Type}

/-- The alternatives and the disabled sets are the same. -/
def SameAltes (T T' : Events act) : Prop :=
  ∀ x, T'.alteOf x = T.alteOf x ∧ T'.disaOf x = T.disaOf x

theorem SameAltes.refl (T : Events act) : SameAltes T T := fun _ => ⟨rfl, rfl⟩

theorem SameAltes.trans {T T' T'' : Events act} (h : SameAltes T T') (h' : SameAltes T' T'') :
    SameAltes T T'' := fun x => ⟨(h' x).1.trans (h x).1, (h' x).2.trans (h x).2⟩

/-- The same events, in tables that may be built differently. -/
def SameEvents (T T' : Events act) : Prop := ∀ x, T'.lookup x = T.lookup x

namespace SameEvents

variable {T T' : Events act}

theorem sameLinks (h : SameEvents T T') : SameLinks T T' := fun x => by rw [h x]

theorem stable (h : SameEvents T T') (n : Nat) : Stable n T T' :=
  .of_sameLinks h.sameLinks (fun x => by rw [Events.actsOf, Events.actsOf, h x]) n

theorem sameAltes (h : SameEvents T T') : SameAltes T T' := fun x => by
  simp [Events.alteOf, Events.disaOf, h x]

end SameEvents

/-- The events have the same links and actions. -/
structure SameSteps (T T' : Events act) : Prop where
  links : SameLinks T T'
  acts : ∀ x, T'.actsOf x = T.actsOf x

namespace SameSteps

variable {T T' T'' : Events act}

theorem of_sameEvents (h : SameEvents T T') : SameSteps T T' :=
  ⟨h.sameLinks, fun x => by rw [Events.actsOf, Events.actsOf, h x]⟩

theorem trans (h : SameSteps T T') (h' : SameSteps T' T'') : SameSteps T T'' :=
  ⟨fun x => (h'.links x).trans (h.links x), fun x => (h'.acts x).trans (h.acts x)⟩

theorem stable (h : SameSteps T T') (n : Nat) : Stable n T T' := .of_sameLinks h.links h.acts n

theorem dep_iff [Action act] (h : SameSteps T T') {x y : EventID} : Dep T' x y ↔ Dep T x y := by
  simp only [dep_iff_names, h.links.nameOf, h.acts]

theorem lt_of_dep [Action act] (h : SameSteps T T') {l stak stak' : EventsID} (hstak : stak' = stak)
    (hdep : ∀ x ∈ l, x ∈ T → ∀ y ∈ stak, Dep T y x → Lt T y x) :
    ∀ x ∈ l, x ∈ T' → ∀ y ∈ stak', Dep T' y x → Lt T' y x := by
  intro x hx hxT y hy hd
  rw [h.links.lt_iff]
  exact hdep x hx (h.links.mem_iff.1 hxT) y (hstak ▸ hy) (h.dep_iff.1 hd)

theorem isStep_iff {P : LockProgram} {T T' : Events LockAct} (h : SameSteps T T') {x : EventID}
    {t i : Nat} {o : LockOp} : IsStep P T' x t i o ↔ IsStep P T x t i o :=
  ⟨fun hs => hs.of_same (h.links.nameOf x).symm (h.acts x).symm,
    fun hs => hs.of_same (h.links.nameOf x) (h.acts x)⟩

end SameSteps

theorem IsHistory.of_older [Action act] {info : EventInfo act} {T T' : Events act} {n : Nat}
    {l h : EventsID} (hh : IsHistory info T l h) (ho : Older n T T') (hwf : WF T n)
    (hT' : Linked T' []) (hkeeps : ∀ x ∈ T, x ∈ T') (hacts : ∀ x ∈ T, T'.actsOf x = T.actsOf x)
    (hl : ∀ x ∈ l, x ∈ T) : IsHistory info T' l h := by
  have hlt : ∀ {a b}, b ∈ T → (Lt T' a b ↔ Lt T a b) := fun hb =>
    ho.lt_iff hT' (hwf.lt_cntr hb) (hkeeps _ hb)
  have hunder : ∀ {k x}, (∀ y ∈ k, y ∈ T) → (Under T' k x ↔ Under T k x) := by
    intro k x hk
    refine exists_congr fun m => and_congr_right fun hm => or_congr_right ?_
    exact hlt (hk m hm)
  have hmem : ∀ {x}, Under T l x → x ∈ T := by
    rintro x ⟨m, hm, hle⟩
    exact hwf.linked.causal.mem_of_le hle (hl m hm)
  have hdep : ∀ {x}, x ∈ T → dependsOn info T' x = dependsOn info T x := fun hx =>
    dependsOn_congr (ho.name (hwf.lt_cntr hx) (hkeeps _ hx)) (hacts _ hx)
  have hhT : ∀ x ∈ h, x ∈ T := fun x hx => hmem (hh.under x hx)
  refine ⟨hh.nodup, fun a ha b hb hab => ?_, fun x hx => ?_, fun x hx => ?_, fun x hx hd => ?_⟩
  · exact hh.anti a ha b hb ((hlt (hhT b hb)).1 hab)
  · rw [hdep (hhT x hx)]
    exact hh.dep x hx
  · exact (hunder hl).2 (hh.under x hx)
  · have hx' := (hunder hl).1 hx
    rw [hdep (hmem hx')] at hd
    exact (hunder hhT).2 (hh.cover x hx' hd)

theorem IsEvent.of_older {T T' : Events act} {n : Nat} {name : EventName} {h : History} {x : EventID}
    (hx : IsEvent T name h x) (ho : Older n T T') (hlt : x < n) (hm : x ∈ T') :
    IsEvent T' name h x :=
  ⟨hm, (ho.name hlt hm).trans hx.name, by rw [ho.pred hlt hm]; exact hx.pred⟩

theorem SameEvents.lockTable {P : LockProgram} {T T' : Events LockAct} {n : Nat}
    (h : SameEvents T T') (hwf : WF T' n) (hT : LockTable P T) : LockTable P T' := by
  refine hT.of_stable (h.stable n) hwf fun x v hv => ?_
  rw [(h.sameAltes x).1] at hv
  have hok := hT.alte x v hv
  have hmem : ∀ y ∈ v, y ∈ T' := fun y hy => h.sameLinks.mem_iff.2 (hok.closed.mem y hy)
  exact hok.of_older (h.sameLinks.older n) (fun y hy => hwf.lt_cntr (hmem y hy)) hmem

/-- `x` can be added to the configuration, and is above all that it depends on there. -/
structure CanExtend [Action act] (T : Events act) (conf : EventsID) (x : EventID) : Prop extends
    Extends T conf x where
  mem : x ∈ T
  dep : ∀ y ∈ conf, Dep T y x → Lt T y x

theorem CanExtend.of_stable [Action act] {T T' : Events act} {n : Nat} {conf : EventsID} {x : EventID}
    (h : CanExtend T conf x) (hs : Stable n T T') (hT' : Linked T' []) (hxn : x < n) (hxm : x ∈ T')
    (hlt : ∀ y ∈ conf, y < n) (hmem : ∀ y ∈ conf, y ∈ T') : CanExtend T' conf x where
  toExtends := hs.toOlder.extendsStack hT' h.toExtends hxn hxm hlt hmem
  mem := hxm
  dep y hy hd := (hs.lt_iff hT' hxn hxm).2
    (h.dep y hy ((hs.dep_iff (hlt y hy) (hmem y hy) hxn hxm).1 hd))

/-- It has no conflict in the configuration. -/
theorem CanExtend.noConflict {P : LockProgram} {T : Events LockAct} {conf : EventsID} {x y : EventID}
    (h : CanExtend T conf x) (hT : LockTable P T) (hb : botEID ∈ T) (hy : y ∈ conf) :
    y ∉ T.icnfOf x := by
  intro hi
  obtain ⟨hd, -, hn⟩ := hT.icnf x y hi
  exact hn (.inr (h.dep y hy (hT.dep_symm hb hd)))

/-- An event with the history of the next step of a thread is above all that it depends on. -/
theorem lt_of_history {P : LockProgram} {T : Events LockAct} {n : Nat} {conf maxevs : EventsID}
    {nst : LockState P} {t : Nat} {o : LockOp} {h0 : History} {x : EventID} (hT : LockEvents P T)
    (hwf : WF T n) (hf : Frontier T conf maxevs) (hnext : nst.next t = some o)
    (hh : IsHistory (stepName t (nst.pc t), o.act) T maxevs h0)
    (hx : IsEvent T (stepName t (nst.pc t)) h0 x) {y : EventID} (hy : y ∈ conf) (hd : Dep T y x) :
    Lt T y x := by
  obtain ⟨a, b, hla, hlb, hdep⟩ := hT.dep_symm hwf.bot hd
  have hxb : x ≠ botEID := by
    rintro rfl
    exact stepName_ne_bot _ _ (Option.some_inj.1 (hx.name.symm.trans hT.bot))
  obtain ⟨t', i', o', hst⟩ := hT.step x hx.mem hxb
  obtain ⟨rfl, rfl⟩ := stepName_inj.1 (Option.some_inj.1 (hst.name.symm.trans hx.name))
  obtain rfl : o' = o := Option.some_inj.1 (hst.op.symm.trans (LockState.op_of_next hnext))
  have hname := hst.name
  have hacts := hst.acts
  rw [Events.nameOf_of_lookup hla, Option.some_inj] at hname
  rw [Events.actsOf_of_lookup hla, Option.some_inj] at hacts
  have hdo : dependsOn (stepName t' (nst.pc t'), o'.act) T y = true := by
    rw [dependsOn, hlb, ← hname, ← hacts]
    exact hdep
  obtain ⟨m, hm, hle⟩ := hh.cover y ((hf.under_iff hwf.linked).2 hy) hdo
  exact hle.trans_lt (lt_of_mem_pred ((hx.pred m).2 hm))

/-! ## What a run of additions keeps -/

section AddSteps

variable {P : LockProgram} {conf maxevs : EventsID} {e : EventID} {nst : LockState P}
  {T T' : Events LockAct}

theorem AddStep.sameAltes {a : Addition LockAct} {n : Nat}
    (hs : AddStep P.system conf maxevs e nst a T n T') : SameAltes T T' := by
  intro x
  by_cases hx : x = n
  · subst hx
    have hl : T.lookup x = none := by
      rw [← Option.not_isSome_iff_eq_none, AList.lookup_isSome]
      exact hs.notMem
    simp [Events.alteOf, Events.disaOf, hs.added.new, hl]
  · rw [Events.alteOf, Events.alteOf, Events.disaOf, Events.disaOf, hs.added.old x hx]
    cases T.lookup x <;> simp [linkTo]

theorem AddSteps.sameAltes (h : AddSteps P.system conf maxevs e nst T T') : SameAltes T T' :=
  h.invariant (fun _ _ _ _ hs ih => ih.trans hs.sameAltes) (.refl T)

theorem AddSteps.lockTable (h : AddSteps P.system conf maxevs e nst T T') (hT : LockTable P T) :
    LockTable P T' := h.invariant (fun _ _ _ _ hs hI => hs.lockTable hI) hT

/-- Additions keep the actions and the conflicts. -/
theorem AddSteps.stable {n : Nat} (h : AddSteps P.system conf maxevs e nst T T')
    (ho : Older n T T') : Stable n T T' := by
  have hacts : ∀ x ∈ T, x ∈ T' ∧ T'.actsOf x = T.actsOf x :=
    h.invariant (I := fun T' => ∀ x ∈ T, x ∈ T' ∧ T'.actsOf x = T.actsOf x)
      (fun a T₁ n₁ T₂ hs hI x hx => by
        obtain ⟨hm, ha⟩ := hI x hx
        rw [hs.stable.acts (hs.old hm).1 (hs.old hm).2]
        exact ⟨(hs.old hm).2, ha⟩) fun _ hx => ⟨hx, rfl⟩
  have hicnf : ∀ x y, y ∈ T.icnfOf x → y ∈ T'.icnfOf x :=
    h.invariant (I := fun T' => ∀ x y, y ∈ T.icnfOf x → y ∈ T'.icnfOf x)
      (fun a T₁ n₁ T₂ hs hI x y hy =>
        (hs.added.mem_icnfOf hs.notMem fun _ => hs.cs_mem).2 (.inl (hI x y hy))) fun _ _ hy => hy
  exact ⟨ho, fun hx hm => (hacts _ (ho.mem hx hm)).2, fun _ _ _ _ hy => hicnf _ _ hy⟩

end AddSteps

/-! ## One thread -/

section Extend

variable {P : LockProgram} {s : UnfolderState (LockState P) LockAct} {conf maxevs : EventsID}
  {e : EventID} {nst : LockState P} {t : Nat} {o : LockOp}

/-- The prefix `T'` after thread `t` was extended from `e`: the event of its next step `o` with the
history in the configuration is among `r`, and those with the other histories are in the prefix. -/
def ThreadFound (fuel : Nat) (maxevs : EventsID) (e : EventID) (nst : LockState P) (t : Nat)
    (o : LockOp) (T' : Events LockAct) (r : EventsID) : Prop :=
  ∃ h0 T₀ n₀, WF T₀ n₀ ∧ Stable n₀ T₀ T' ∧ (∀ x ∈ T₀, x ∈ T') ∧ (∀ x ∈ maxevs, x ∈ T₀) ∧
    IsHistory (stepName t (nst.pc t), o.act) T₀ maxevs h0 ∧
    (e ∈ h0 → (∃ x ∈ r, IsEvent T' (stepName t (nst.pc t)) h0 x) ∧
      ∃ his, extHistories fuel (stepName t (nst.pc t), o.act) e h0 T₀ = .ok his ∧
        ∀ h ∈ his, ∃ x, IsEvent T' (stepName t (nst.pc t)) h x)

/-- The histories of the next step of a thread cannot be computed. -/
def ThreadFails (fuel : Nat) (conf maxevs : EventsID) (e : EventID) (nst : LockState P)
    (T : Events LockAct) (err : Err) : Prop :=
  ∃ t o h0 n, WF T n ∧ nst.next t = some o ∧ Frontier T conf maxevs ∧
    IsHistory (stepName t (nst.pc t), o.act) T maxevs h0 ∧ e ∈ h0 ∧
    extHistories fuel (stepName t (nst.pc t), o.act) e h0 T = .error err

theorem ThreadFound.mono {fuel : Nat} {T T' : Events LockAct} {r r' : EventsID} {n : Nat}
    (h : ThreadFound fuel maxevs e nst t o T r) (hwf : WF T n) (hs : Stable n T T')
    (hkeeps : ∀ x ∈ T, x ∈ T') (hr : r ⊆ r') : ThreadFound fuel maxevs e nst t o T' r' := by
  obtain ⟨h0, T₀, n₀, hwf₀, hs₀, hk₀, hmax, hh, hfound⟩ := h
  have hev : ∀ {h x}, IsEvent T (stepName t (nst.pc t)) h x → IsEvent T' (stepName t (nst.pc t)) h x :=
    fun hx => hx.of_older hs.toOlder (hwf.lt_cntr hx.mem) (hkeeps _ hx.mem)
  -- the ids of `T₀` are below both counters
  have hs₁ : Stable (min n₀ n) T₀ T := by
    refine ⟨⟨fun hx => hs₀.mem (by lia), fun hx => hs₀.name (by lia), fun hx => hs₀.pred (by lia),
      fun hx hy => hs₀.icnf (by lia) (by lia)⟩, fun hx => hs₀.acts (by lia),
      fun hx hy => hs₀.icnf_kept (by lia) (by lia)⟩
  refine ⟨h0, T₀, min n₀ n, ⟨hwf₀.linked, fun hx => ?_, hwf₀.anti, hwf₀.bot, hwf₀.root⟩,
    hs₁.trans hs (Nat.min_le_right _ _), fun x hx => hkeeps x (hk₀ x hx), hmax, hh, fun he => ?_⟩
  · exact Nat.lt_min.2 ⟨hwf₀.lt_cntr hx, hwf.lt_cntr (hk₀ _ hx)⟩
  · obtain ⟨⟨x, hx, hxe⟩, his, hhis, hall⟩ := hfound he
    refine ⟨⟨x, hr hx, hev hxe⟩, his, hhis, fun h hm => ?_⟩
    obtain ⟨y, hy⟩ := hall h hm
    exact ⟨y, hev hy⟩

theorem extend_lock (fuel : Nat) (hg : Good P.system s) (hcut : s.opts.cutoffs = false)
    (hf : Frontier s.evts conf maxevs) (he : e ∈ maxevs) (hnext : nst.next t = some o)
    (htid : ∀ t₁ t₂, TwoThreads P.system t₁ t₂ → (t : Int) = t₁ ∨ (t : Int) = t₂) :
    Op.Sat (extend fuel e maxevs nst (t : Int)) s
      (fun r s' => ExtOk P.system conf maxevs e nst s r s' ∧
        (∀ x ∈ r, ∃ h0, IsHistory (stepName t (nst.pc t), o.act) s.evts maxevs h0 ∧
          IsEvent s'.evts (stepName t (nst.pc t)) h0 x) ∧
        ThreadFound fuel maxevs e nst t o s'.evts r)
      (fun err s' => Safe P.system s' ∧ ThreadFails fuel conf maxevs e nst s.evts err) := by
  simp only [extend, addWarns, onStats, Op.sat_bind, Op.sat_get, Op.sat_monadLift, Op.sat_modify,
    Op.sat_pure]
  refine ⟨fun res hres => ?_, fun err herr => by cases herr⟩
  obtain rfl : ([], lockRun nst (t : Int)) = res := Except.ok.inj hres
  dsimp only
  rw [lockRun_of_next hnext]
  simp only [List.mapM'_cons, List.mapM'_nil, Op.sat_bind, Op.sat_pure]
  have hname : ∀ sym, Projection.toThCFGSym (nst.step t) (t : Int) = .ok sym →
      (⟨(t : Int), ((nst.pc t + 1 : Nat) : Pos), sym⟩ : EventName) = stepName t (nst.pc t) := by
    intro sym hsym
    obtain rfl : ⟨(t : Int)⟩ = sym := Except.ok.inj hsym
    rfl
  have hruns : ∀ sym, Projection.toThCFGSym (nst.step t) (t : Int) = .ok sym →
      Runs P.system nst ⟨(t : Int), ((nst.pc t + 1 : Nat) : Pos), sym⟩ o.act := fun sym hsym =>
    ⟨0, [], lockRun nst t, nst.step t, rfl, by rw [lockRun_of_next hnext]; simp, hsym⟩
  refine (ext_spec fuel (hg.set_stats _) hf he (nst.step t) (t : Int) _ hruns
    (fun _ => o.act_lockLike) htid).mono (fun r s' h => ?_) fun err s' h => ⟨h.1, ?_⟩
  · obtain ⟨⟨hg', hgr, hext, hsteps⟩, sym, h0, hsym, hh, hfound⟩ := h
    rw [hname sym hsym] at hh hfound
    have hgr' : Grows s s' := ⟨hgr.stak, hgr.opts, hgr.cntr, hgr.older, hgr.keeps⟩
    refine ⟨⟨hg', hgr', by simpa using hext, hsteps⟩, fun x hx => ?_, ?_⟩
    · exact ⟨h0, hh, hfound.isEvent x (by simpa using hx)⟩
    · refine ⟨h0, s.evts, s.cntr, hg.wf, hsteps.stable hgr.older, hgr.keeps, fun _ => hf.mem, hh,
        fun heh => ?_⟩
      obtain ⟨x, hx⟩ := List.exists_mem_of_ne_nil r (hfound.some heh hcut)
      obtain ⟨his, hhis, hall⟩ := hfound.others heh hcut
      exact ⟨⟨x, by simpa using hx, hfound.isEvent x hx⟩, his, hhis, hall⟩
  · rcases h.2 P.restricted hcut with ⟨derr, herr, -⟩ | ⟨sym, h0, hsym, hh, heh, herr⟩
    · cases herr
    · rw [hname sym hsym] at hh herr
      exact ⟨t, o, h0, s.cntr, hg.wf, hnext, hf, hh, heh, herr⟩

/-- After the threads `done` were extended from `e`: the prefix has grown by additions, and the events
`r` that were returned can be added to the configuration. -/
structure ThreadsDone (fuel : Nat) (conf maxevs : EventsID) (e : EventID) (nst : LockState P)
    (s : UnfolderState (LockState P) LockAct) (done : List TId) (r : EventsID)
    (s₁ : UnfolderState (LockState P) LockAct) : Prop where
  good : Good P.system s₁
  grows : Grows s s₁
  steps : AddSteps P.system conf maxevs e nst s.evts s₁.evts
  enevs : ∀ x ∈ r, CanExtend s₁.evts conf x
  found : ∀ (t : Nat) (o : LockOp), (t : Int) ∈ done → nst.next t = some o →
    ThreadFound fuel maxevs e nst t o s₁.evts r
  own : ∀ x ∈ r, ∃ (t : Nat) (o : LockOp), (t : Int) ∈ done ∧ nst.next t = some o ∧
    s₁.evts.nameOf x = some (stepName t (nst.pc t))

theorem ThreadsDone.step {fuel : Nat} {done : List TId} {r : EventsID}
    {s₁ : UnfolderState (LockState P) LockAct}
    (h : ThreadsDone fuel conf maxevs e nst s done r s₁) (hwf : WF s.evts s.cntr)
    (hcut : s.opts.cutoffs = false) (hT : LockTable P s.evts) (hf : Frontier s.evts conf maxevs)
    (he : e ∈ maxevs) (hnext : nst.next t = some o)
    (htid : ∀ t₁ t₂, TwoThreads P.system t₁ t₂ → (t : Int) = t₁ ∨ (t : Int) = t₂) :
    Op.Sat (extend fuel e maxevs nst (t : Int)) s₁
      (fun b s₂ => ∀ r', r ⊆ r' → b ⊆ r' → r' ⊆ r ++ b →
        ThreadsDone fuel conf maxevs e nst s (done ++ [(t : Int)]) r' s₂)
      (fun err s' => Safe P.system s' ∧ ∃ T₀, AddSteps P.system conf maxevs e nst s.evts T₀ ∧
        ThreadFails fuel conf maxevs e nst T₀ err) := by
  have hf₁ := h.grows.frontier hwf h.good.linked hf
  refine (extend_lock fuel h.good (h.grows.opts ▸ hcut) hf₁ he hnext htid).mono
    (fun b s₂ hb r' hr hb' hr' => ?_) fun err s' hE => ⟨hE.1, s₁.evts, h.steps, hE.2⟩
  obtain ⟨⟨hg₂, hgr₂, hext, hsteps⟩, hisev, hfound⟩ := hb
  have hwf₁ := h.good.wf
  have hst := hsteps.stable hgr₂.older
  have hT₂ := (h.steps.trans hsteps).lockTable hT
  have hf₂ := hgr₂.frontier hwf₁ hg₂.linked hf₁
  have hconf : ∀ y ∈ conf, y < s₁.cntr ∧ y ∈ s₂.evts := fun y hy =>
    ⟨hwf₁.lt_cntr (hf₁.stack.closed.mem y hy), hgr₂.keeps y (hf₁.stack.closed.mem y hy)⟩
  refine ⟨hg₂, h.grows.trans hgr₂, h.steps.trans hsteps, fun x hx => ?_, fun t' o' ht' hn' => ?_,
    fun x hx => ?_⟩
  · rcases List.mem_append.1 (hr' hx) with hx | hx
    · have hxc := h.enevs x hx
      exact hxc.of_stable hst hg₂.linked (hwf₁.lt_cntr hxc.mem) (hgr₂.keeps x hxc.mem)
        (fun y hy => (hconf y hy).1) fun y hy => (hconf y hy).2
    · obtain ⟨h0, hh, hxe⟩ := hisev x hx
      have hh₂ := hh.of_older hgr₂.older hwf₁ hg₂.linked hgr₂.keeps
        (fun x hx => hst.acts (hwf₁.lt_cntr hx) (hgr₂.keeps x hx)) fun _ => hf₁.mem
      exact ⟨(hext x hx).toExtends, (hext x hx).mem, fun y hy hd =>
        lt_of_history hT₂.toLockEvents hg₂.wf hf₂ hnext hh₂ hxe hy hd⟩
  · rcases List.mem_append.1 ht' with ht' | ht'
    · exact (h.found t' o' ht' hn').mono hwf₁ hst hgr₂.keeps hr
    · obtain rfl : t' = t := Int.ofNat.inj (List.mem_singleton.1 ht')
      obtain rfl : o = o' := Option.some_inj.1 (hnext.symm.trans hn')
      exact hfound.mono hg₂.wf (.refl _ _) (fun _ h => h) hb'
  · rcases List.mem_append.1 (hr' hx) with hx | hx
    · obtain ⟨t', o', ht', hn', hname⟩ := h.own x hx
      have hxT := (h.enevs x hx).mem
      exact ⟨t', o', List.mem_append_left _ ht', hn',
        (hst.name (hwf₁.lt_cntr hxT) (hgr₂.keeps x hxT)).trans hname⟩
    · obtain ⟨h0, -, hxe⟩ := hisev x hx
      exact ⟨t, o, by simp, hnext, hxe.name⟩

/-- Threads with a next step are extended from `e` one after the other. -/
theorem extendThreads_lock (fuel : Nat) {l : List TId} (hg : Good P.system s)
    (hcut : s.opts.cutoffs = false) (hT : LockTable P s.evts) (hf : Frontier s.evts conf maxevs)
    (he : e ∈ maxevs)
    (hl : ∀ tid ∈ l, (∃ (t : Nat) (o : LockOp), tid = (t : Int) ∧ nst.next t = some o) ∧
      ∀ t₁ t₂, TwoThreads P.system t₁ t₂ → tid = t₁ ∨ tid = t₂) :
    Op.Sat (l.mapM' (extend fuel e maxevs nst)) s
      (fun bs s' => ThreadsDone fuel conf maxevs e nst s l bs.flatten s')
      (fun err s' => Safe P.system s' ∧ ∃ T₀, AddSteps P.system conf maxevs e nst s.evts T₀ ∧
        ThreadFails fuel conf maxevs e nst T₀ err) := by
  refine Op.sat_mapM' (fun done bs s₂ => ThreadsDone fuel conf maxevs e nst s done bs.flatten s₂)
    (fun done tid bs s₂ hpre hI => ?_) ⟨hg, .refl _, .refl, by simp, by simp, by simp⟩
  obtain ⟨⟨t, o, rfl, hn⟩, htwo⟩ := hl tid (hpre.subset (by simp))
  refine (hI.step hg.wf hcut hT hf he hn htwo).mono (fun b s₃ hb => hb _ ?_ ?_ ?_) fun _ _ h => h <;>
    simp

end Extend

/-! ## The configuration with one more event -/

theorem isIndependent_ok {act : Type} [Action act] {T : Events act} {e x : EventID} (he : e ∈ T)
    (hx : x ∈ T) : ∃ b, isIndependent e x T = .ok b ∧ (b = true ↔ ¬ Dep T e x) := by
  obtain ⟨a, hla⟩ := Events.lookup_of_mem he
  obtain ⟨b, hlb⟩ := Events.lookup_of_mem hx
  have hid : ∀ y : EventID, ¬ (y : Int) = botID := by
    intro y
    simp only [botID]
    omega
  refine ⟨!isDependent (a.name, a.acts) (b.name, b.acts), ?_, ?_⟩
  · rw [isIndependent, if_neg (by simp [hid]), getEvent_ok _ hla, ok_bind, getEvent_ok _ hlb, ok_bind,
      pure_eq_ok]
  · rw [dep_of_lookup hla hlb]
    simp

section Checks

variable {act : Type} [Action act] {T : Events act} {conf enevs senevs : EventsID} {e x : EventID}

theorem exists_filterM_isIndependent (he : e ∈ T) (h : ∀ x ∈ enevs, x ∈ T) :
    ∃ r, filterM (isIndependent e · T) (enevs.erase e) = .ok r :=
  exists_filterM fun x hx => by
    obtain ⟨b, hb, -⟩ := isIndependent_ok he (h x (List.mem_of_mem_erase hx))
    exact ⟨b, hb⟩

/-- An enabled event that is independent of `e` can still be added when `e` is. -/
theorem canExtend_of_isIndependent (he : e ∈ T) (hen : ∀ x ∈ enevs, x ∈ T → Extends T conf x)
    (hdep : ∀ x ∈ enevs, x ∈ T → ∀ y ∈ conf, Dep T y x → Lt T y x)
    (hsen : filterM (isIndependent e · T) (enevs.erase e) = .ok senevs) (hx : x ∈ senevs) :
    x ∈ enevs ∧ x ≠ e ∧ ¬ Dep T e x ∧ CanExtend T (e :: conf) x := by
  have htrue := filterM_true hsen x hx
  obtain ⟨hxT, htid⟩ := isIndependent_true htrue
  have hxen : x ∈ enevs := List.mem_of_mem_erase ((filterM_sublist hsen).subset hx)
  obtain ⟨b, hb, hiff⟩ := isIndependent_ok he hxT
  obtain rfl : true = b := Except.ok.inj (htrue.symm.trans hb)
  have hnd : ¬ Dep T e x := hiff.1 rfl
  refine ⟨hxen, fun h => htid (h ▸ rfl), hnd, (hen x hxen hxT).push htid, hxT, fun y hy hd => ?_⟩
  rcases List.mem_cons.1 hy with rfl | hy
  · exact absurd hd hnd
  · exact hdep x hxen hxT y hy hd

theorem mem_of_isIndependent (he : e ∈ T) (hxT : x ∈ T) (hxe : x ≠ e) (hnd : ¬ Dep T e x)
    (hsen : filterM (isIndependent e · T) (enevs.erase e) = .ok senevs) (hx : x ∈ enevs) :
    x ∈ senevs := by
  obtain ⟨b, hb, hmem⟩ := filterM_mem hsen x ((List.mem_erase_of_ne hxe).2 hx)
  obtain ⟨b', hb', hiff⟩ := isIndependent_ok he hxT
  obtain rfl : b = b' := Except.ok.inj (hb.symm.trans hb')
  exact hmem (hiff.2 hnd)

omit [Action act] in
theorem getTid_ok (hx : x ∈ T) : ∃ tid, getTid x T = .ok tid ∧ T.tidOf x = some tid := by
  obtain ⟨ev, hl⟩ := Events.lookup_of_mem hx
  exact ⟨ev.name.tid, by simp [getTid, getEvent_ok _ hl], Events.tidOf_of_lookup hl⟩

omit [Action act] in
/-- The test of `unfold` for a new event without a conflict in the configuration. -/
theorem noConflict_ok (hx : x ∈ T) (h : ∀ y ∈ conf, y ∉ T.icnfOf x) :
    (do
      let ev ← getEvent "unfold" x T
      pure (ev.icnf ∩ conf).isEmpty : Except Err Bool) = .ok true := by
  obtain ⟨ev, hl⟩ := Events.lookup_of_mem hx
  rw [getEvent_ok _ hl, ok_bind, pure_eq_ok, ← Events.icnfOf_of_lookup hl]
  refine congrArg Except.ok (List.isEmpty_iff.2 (List.eq_nil_iff_forall_not_mem.2 fun y hy => ?_))
  obtain ⟨hyi, hyc⟩ := List.mem_inter_iff.1 hy
  exact h y hyc hyi

omit [Action act] in
theorem hasConflict_ok (hx : x ∈ T) :
    (do
      let ev ← getEvent "unfold" x T
      pure !ev.icnf.isEmpty : Except Err Bool) = .ok !(T.icnfOf x).isEmpty := by
  obtain ⟨ev, hl⟩ := Events.lookup_of_mem hx
  rw [getEvent_ok _ hl, ok_bind, pure_eq_ok, Events.icnfOf_of_lookup hl]

end Checks

section Unfold

variable {P : LockProgram} {s : UnfolderState (LockState P) LockAct} {c : Configuration (LockState P)}
  {e : EventID}

/-- The threads that `enabled` lists are those with a next step. -/
theorem enabled_lock (nst : LockState P) : ∃ l, Domain.enabled P.system nst = .ok l ∧
    ∀ tid : TId, tid ∈ l.map (·.1) ↔
      ∃ (t : Nat) (o : LockOp), tid = (t : Int) ∧ t < nst.pcs.length ∧ nst.next t = some o := by
  let g : TId × Pos → Option (TId × LockState P) := fun p =>
    ((lockRun nst p.1).head?.map Prod.fst).map (Prod.mk p.1)
  refine ⟨((Projection.controlPart nst).map g).filterMap id, ?_, fun tid => ?_⟩
  · change (do
      let rs ← (Projection.controlPart nst).mapM' (fun p => (.ok (g p) : Except DomErr _))
      pure (rs.filterMap id)) = _
    rw [mapM'_ok fun p _ => rfl, ok_bind, pure_eq_ok]
  · have hcontrol : ∀ p : TId × Pos, p ∈ Projection.controlPart nst ↔
        ∃ (t : Nat) (pc : Nat), nst.pcs[t]? = some pc ∧ p = ((t : Int), (pc : Int)) := by
      intro p
      change p ∈ nst.pcs.zipIdx.map (fun q => ((q.2 : Int), (q.1 : Int))) ↔ _
      simp only [List.mem_map, Prod.exists, List.mem_zipIdx_iff_getElem?]
      constructor
      · rintro ⟨pc, t, h, rfl⟩
        exact ⟨t, pc, h, rfl⟩
      · rintro ⟨t, pc, h, rfl⟩
        exact ⟨pc, t, h, rfl⟩
    have hg : ∀ (t : Nat) (q : Pos), g ((t : Int), q) =
        (nst.next t).map fun _ => ((t : Int), nst.step t) := by
      intro t q
      cases hn : nst.next t with
      | none =>
        simp [g, lockRun_of_none hn]
      | some o => simp [g, lockRun_of_next hn]
    simp only [List.mem_map, List.mem_filterMap, id]
    constructor
    · rintro ⟨r, ⟨_, ⟨p, hp, rfl⟩, hr⟩, rfl⟩
      obtain ⟨t, pc, ht, rfl⟩ := (hcontrol p).1 hp
      rw [hg] at hr
      obtain ⟨o, ho, rfl⟩ := Option.map_eq_some_iff.1 hr
      exact ⟨t, o, rfl, (List.getElem?_eq_some_iff.1 ht).1, ho⟩
    · rintro ⟨t, o, rfl, hlt, hn⟩
      refine ⟨((t : Int), nst.step t), ⟨_, ⟨((t : Int), (nst.pcs[t] : Int)), ?_, rfl⟩, ?_⟩, rfl⟩
      · exact (hcontrol _).2 ⟨t, nst.pcs[t], List.getElem?_eq_getElem hlt, rfl⟩
      · rw [hg, hn, Option.map_some]

theorem enabled_threads {nst : LockState P} {l : List (TId × LockState P)}
    (hreach : Reached P.system nst) (hl : Domain.enabled P.system nst = .ok l) : ∀ tid ∈ l.map (·.1),
    (∃ (t : Nat) (o : LockOp), tid = (t : Int) ∧ nst.next t = some o) ∧
      ∀ t₁ t₂, TwoThreads P.system t₁ t₂ → tid = t₁ ∨ tid = t₂ := by
  intro tid htid
  obtain ⟨l', hl', hmem⟩ := enabled_lock nst
  obtain rfl : l' = l := Except.ok.inj (hl'.symm.trans hl)
  obtain ⟨t, o, rfl, -, hn⟩ := (hmem tid).1 htid
  refine ⟨⟨t, o, rfl, hn⟩, fun t₁ t₂ htwo => ?_⟩
  obtain ⟨p, hp, hpt⟩ := List.mem_map.1 htid
  exact hpt ▸ htwo _ _ hreach hl p hp

theorem enabled_nodup {nst : LockState P} {l : List (TId × LockState P)}
    (hl : Domain.enabled P.system nst = .ok l) : (l.map (·.1)).Nodup := by
  obtain ⟨g, hg, hfst⟩ : ∃ g : TId × Pos → Option (TId × LockState P),
      Domain.enabled P.system nst = .ok ((Projection.controlPart nst).filterMap g) ∧
        ∀ p r, g p = some r → r.1 = p.1 := by
    refine ⟨fun p => ((lockRun nst p.1).head?.map Prod.fst).map (Prod.mk p.1), ?_, fun p r hr => ?_⟩
    · change (do
        let rs ← (Projection.controlPart nst).mapM' (fun p : TId × Pos => (.ok
          (((lockRun nst p.1).head?.map Prod.fst).map (Prod.mk p.1)) : Except DomErr _))
        pure (rs.filterMap id)) = _
      rw [mapM'_ok fun p _ => rfl, ok_bind, pure_eq_ok, List.filterMap_map]
      rfl
    · obtain ⟨_, -, rfl⟩ := Option.map_eq_some_iff.1 hr
      rfl
  obtain rfl : (Projection.controlPart nst).filterMap g = l := Except.ok.inj (hg.symm.trans hl)
  have hsub : ∀ ps : List (TId × Pos), ((ps.filterMap g).map (·.1)).Sublist (ps.map (·.1)) := by
    intro ps
    induction ps with
    | nil => exact .slnil
    | cons p ps ih =>
      cases hp : g p with
      | none =>
        rw [List.filterMap_cons_none hp]
        exact ih.cons _
      | some r =>
        rw [List.filterMap_cons_some hp, List.map_cons, List.map_cons, hfst p r hp]
        exact ih.cons_cons _
  refine (hsub _).nodup ?_
  change ((nst.pcs.zipIdx.map fun q => ((q.2 : Int), (q.1 : Int))).map (·.1)).Nodup
  rw [List.map_map]
  have hidx : (nst.pcs.zipIdx.map (·.2)).Nodup := by
    rw [List.zipIdx_map_snd]
    exact List.nodup_range'
  rw [show ((fun p : Int × Int => p.1) ∘ fun q : Nat × Nat => ((q.2 : Int), (q.1 : Int))) =
    (fun n : Nat => (n : Int)) ∘ (·.2) from rfl, ← List.map_map]
  exact hidx.map fun _ _ => Int.ofNat.inj

/-- What `execute` does to an event of the program: its actions are those it has. -/
theorem execute_lock (hg : Good P.system s) (hT : LockTable P s.evts) (heb : e ≠ botEID)
    (heT : e ∈ s.evts) (nst : LockState P) :
    Op.Sat (execute nst e) s
      (fun nst' s₁ => Good P.system s₁ ∧ SameEvents s.evts s₁.evts ∧ s₁.cntr = s.cntr ∧
        s₁.stak = s.stak ∧ s₁.opts = s.opts ∧
        ∃ t o, IsStep P s.evts e t (nst.pc t) o ∧ nst.next t = some o ∧ nst' = nst.step t)
      (fun _ s' => Safe P.system s' ∧
        ∀ t i o, IsStep P s.evts e t i o → ¬ (i = nst.pc t ∧ nst.next t = some o)) := by
  obtain ⟨t, i, o, hstep⟩ := hT.step e heT heb
  obtain ⟨ev, hl, hname, hacts⟩ := Events.lookup_of_names hstep.name hstep.acts
  simp only [execute, Op.sat_bind, Op.sat_get, Op.sat_monadLift, Op.sat_pure, getEvent_ok _ hl,
    hg.syst_eq]
  refine ⟨fun ev' hev => ?_, fun _ h => by cases h⟩
  obtain rfl : ev = ev' := Except.ok.inj hev
  have hdrun : ∀ r, liftDom (Domain.drun s.opts.widening P.system nst
      (ev.name.tid, ev.name.pos, ev.name.sym)) = .ok r ↔
        i = nst.pc t ∧ ∃ o, nst.next t = some o ∧ r = (nst.step t, o.act) := by
    intro r
    rw [hname, ← drun_lock]
    cases Domain.drun s.opts.widening P.system nst
      ((stepName t i).tid, (stepName t i).pos, (stepName t i).sym) <;> simp [liftDom]
  refine ⟨fun r hr => ?_, fun err herr => ⟨hg.toSafe, ?_⟩⟩
  · obtain ⟨rfl, o', hnext, rfl⟩ := (hdrun r).1 hr
    obtain rfl : o = o' := Option.some_inj.1 (hstep.op.symm.trans (LockState.op_of_next hnext))
    have hsame : SameEvents s.evts (setEvent e { ev with acts := o.act } s.evts) := by
      intro x
      by_cases hx : x = e
      · subst hx
        rw [setEvent, AList.lookup_insert, hl, ← hacts]
      · rw [setEvent, AList.lookup_insert_ne hx]
    refine sat_onEvts.2 ⟨fun T' hT' => ?_, fun _ h => by cases h⟩
    obtain rfl := Except.ok.inj hT'
    have ho := hsame.sameLinks.older s.cntr
    exact ⟨hg.set_evts (hg.table.of_older ho (hsame.sameLinks.wf hg.wf)) ho
      fun x hx => hsame.sameLinks.mem_iff.2 (hg.stak_mem hx), hsame, rfl, rfl, rfl, t, o, hstep, hnext,
      rfl⟩
  · rintro t' i' o' hstep' ⟨rfl, hnext⟩
    obtain ⟨rfl, rfl, rfl⟩ := hstep.unique hstep'
    rw [(hdrun _).2 ⟨rfl, o, hnext, rfl⟩] at herr
    cases herr

/-- The configuration `nc` and the state `s'` with `e` added to `c`, from the state `s`, when the
disabled set of `e` is `d`. -/
structure LockUnfolded (fuel : Nat) (s : UnfolderState (LockState P) LockAct)
    (c : Configuration (LockState P)) (d : EventsID) (e : EventID) (nc : Configuration (LockState P))
    (s' : UnfolderState (LockState P) LockAct) : Prop where
  good : Good P.system s'
  grows : Grows s s'
  stable : Stable s.cntr s.evts s'.evts
  altes : ∀ x, s'.evts.alteOf x = s.evts.alteOf x
  disas : ∀ x, s'.evts.disaOf x = if x = e then d else s.evts.disaOf x
  table : LockTable P s'.evts
  frontier : Frontier s'.evts (e :: s.stak) nc.maevs
  enevs : ∀ x ∈ nc.enevs, CanExtend s'.evts (e :: s.stak) x
  step : ∃ t o, IsStep P s.evts e t (c.state.pc t) o ∧ c.state.next t = some o ∧
    nc.state = c.state.step t
  steps : ∃ T₁, SameSteps s.evts T₁ ∧
    AddSteps P.system (e :: s.stak) nc.maevs e nc.state T₁ s'.evts
  kept : ∀ x ∈ c.enevs, x ≠ e → x ∈ s.evts → ¬ Dep s.evts e x → x ∈ nc.enevs
  threads : ∀ t o, t < nc.state.pcs.length → nc.state.next t = some o →
    (∃ x ∈ c.enevs, x ≠ e ∧ ¬ Dep s.evts e x ∧ s.evts.tidOf x = some (t : Int)) ∨
      ThreadFound fuel nc.maevs e nc.state t o s'.evts nc.enevs
  cfevs : ∀ x, x ∈ nc.cfevs ↔ x ∈ e :: s.stak ∧ s'.evts.icnfOf x ≠ []
  /-- First come the events of the threads that were extended, then those that are independent of `e`. -/
  order : ∃ nn sen, nc.enevs = nn ++ sen ∧ (∀ x ∈ sen, x ∈ s.evts ∧ ¬ Dep s.evts e x) ∧
    ∀ x ∈ nn, ∃ (t : Nat) (o : LockOp), nc.state.next t = some o ∧
      s'.evts.nameOf x = some (stepName t (nc.state.pc t)) ∧
      ∀ y ∈ c.enevs, y ∈ s.evts → y ≠ e → ¬ Dep s.evts e y → s.evts.tidOf y ≠ some (t : Int)

/-- The ways in which `unfold` can fail: the event is not the next step of its thread, an enabled event
is gone from the prefix in stateful mode, or the histories of a lock cannot be computed. -/
def UnfoldFails (fuel : Nat) (s : UnfolderState (LockState P) LockAct)
    (c : Configuration (LockState P)) (e : EventID) (err : Err) : Prop :=
  (∀ t i o, IsStep P s.evts e t i o → ¬ (i = c.state.pc t ∧ c.state.next t = some o)) ∨
    (s.opts.stateless = false ∧ ∃ x ∈ c.enevs, x ∉ s.evts) ∨
    ∃ t o T₁ T₀ maxevs, IsStep P s.evts e t (c.state.pc t) o ∧ c.state.next t = some o ∧
      SameSteps s.evts T₁ ∧ LockTable P T₁ ∧ Frontier T₁ (e :: s.stak) maxevs ∧
      AddSteps P.system (e :: s.stak) maxevs e (c.state.step t) T₁ T₀ ∧
      ThreadFails fuel (e :: s.stak) maxevs e (c.state.step t) T₀ err

/-- The enabled events that stay because they are independent of `e`, and their threads, when the
table is `T₁` after `e` was executed. -/
structure KeptEvents (s : UnfolderState (LockState P) LockAct) (c : Configuration (LockState P))
    (e : EventID) (T₁ : Events LockAct) (senevs : EventsID) (itrs : List TId) : Prop where
  mem : ∀ x ∈ senevs, x ∈ c.enevs ∧ x ≠ e ∧ ¬ Dep s.evts e x ∧ CanExtend T₁ (e :: s.stak) x
  all : ∀ x ∈ c.enevs, x ∈ s.evts → x ≠ e → ¬ Dep s.evts e x → x ∈ senevs
  thread : ∀ tid, tid ∈ itrs ↔ ∃ x ∈ senevs, s.evts.tidOf x = some tid

section Kept

variable {T₁ : Events LockAct} {senevs : EventsID} (hsame : SameEvents s.evts T₁) (heT₁ : e ∈ T₁)
  (hen : ∀ x ∈ c.enevs, x ∈ T₁ → Extends T₁ s.stak x)
  (hdep : ∀ x ∈ c.enevs, x ∈ T₁ → ∀ y ∈ s.stak, Dep T₁ y x → Lt T₁ y x)
  (hsen : filterM (isIndependent e · T₁) (c.enevs.erase e) = .ok senevs)

include hsame heT₁ hen hdep hsen

theorem kept_canExtend : ∀ x ∈ senevs, x ∈ c.enevs ∧ x ≠ e ∧ ¬ Dep s.evts e x ∧
    CanExtend T₁ (e :: s.stak) x := by
  intro x hx
  obtain ⟨hxen, hxe, hnd, hxc⟩ := canExtend_of_isIndependent heT₁ hen hdep hsen hx
  exact ⟨hxen, hxe, fun h => hnd (by simpa only [Dep, hsame e, hsame x] using h), hxc⟩

/-- The threads of the events that stay are read from the table. -/
theorem exists_kept_threads : ∃ itrs, senevs.mapM' (getTid · T₁) = .ok itrs :=
  exists_mapM' fun x hx =>
    (getTid_ok (kept_canExtend hsame heT₁ hen hdep hsen x hx).2.2.2.mem).imp fun _ h => h.1

theorem keptEvents {itrs : List TId} (hitrs : senevs.mapM' (getTid · T₁) = .ok itrs) :
    KeptEvents s c e T₁ senevs itrs := by
  have hmem := kept_canExtend hsame heT₁ hen hdep hsen
  have htid : ∀ x ∈ senevs, ∀ tid, getTid x T₁ = .ok tid ↔ s.evts.tidOf x = some tid := by
    intro x hx tid
    obtain ⟨tid', hget, htid'⟩ := getTid_ok (hmem x hx).2.2.2.mem
    rw [Events.tidOf, hsame.sameLinks.nameOf, ← Events.tidOf] at htid'
    rw [hget, htid']
    simp
  refine ⟨hmem, fun x hx hxT hxe hnd => ?_, fun tid => ⟨fun ht => ?_, ?_⟩⟩
  · refine mem_of_isIndependent heT₁ (hsame.sameLinks.mem_iff.2 hxT) hxe (fun hd => hnd ?_) hsen hx
    simpa only [Dep, hsame e, hsame x] using hd
  · obtain ⟨x, hx, hget⟩ := (mapM'_mem hitrs).2 tid ht
    exact ⟨x, hx, (htid x hx tid).1 hget⟩
  · rintro ⟨x, hx, hxt⟩
    obtain ⟨tid', hmem', hget⟩ := (mapM'_mem hitrs).1 x hx
    obtain rfl := Except.ok.inj (hget.symm.trans ((htid x hx tid).2 hxt))
    exact hmem'

end Kept

theorem unfold_lock (fuel : Nat) (hg : Good P.system s) (hcut : s.opts.cutoffs = false)
    (hT : LockTable P s.evts) (hc : ConfOk P.system s.evts s.cntr s.stak c)
    (hdep : ∀ x ∈ c.enevs, x ∈ s.evts → ∀ y ∈ s.stak, Dep s.evts y x → Lt s.evts y x)
    (hpres : s.opts.stateless = true → ∀ x ∈ c.enevs, x ∈ s.evts) (he : e ∈ c.enevs)
    (heT : e ∈ s.evts) :
    Op.Sat (unfold fuel c e) s (fun nc s' => LockUnfolded fuel s c (s.evts.disaOf e) e nc s')
      (fun err s' => Safe P.system s' ∧ UnfoldFails fuel s c e err) := by
  have heb : e ≠ botEID := fun h => (hc.enevs e he heT).notMem (h ▸ hg.stack.bot)
  simp only [unfold, Op.sat_bind, Op.sat_map, Op.sat_get, Op.sat_monadLift, Op.sat_pure]
  refine (execute_lock hg hT heb heT c.state).mono (fun nst s₁ h₁ => ?_)
    fun err s' h => ⟨h.1, .inl h.2⟩
  obtain ⟨hg₁, hsame, hcntr, hstak, hopts, t, o, hstep, hnext, rfl⟩ := h₁
  have hgr₁ : Grows s s₁ := ⟨hstak, hopts, Nat.le_of_eq hcntr.symm, hsame.sameLinks.older _,
    fun x hx => hsame.sameLinks.mem_iff.2 hx⟩
  have hT₁ : LockTable P s₁.evts := hsame.lockTable hg₁.wf hT
  have hmem₁ : ∀ {x}, x ∈ s₁.evts ↔ x ∈ s.evts := hsame.sameLinks.mem_iff
  have heT₁ := hgr₁.keeps e heT
  have hc₁ := hg.confOk hc (hgr₁.evolves fun _ => hg.stak_mem) hg₁
  have hfr := frontier_push hg₁.linked hg₁.stack (hc₁.enevs e he heT₁) heT₁ hc₁.nodup hc₁.maevs
  have hconf : ∀ y ∈ e :: s₁.stak, y ∈ s₁.evts := hfr.stack.closed.mem
  rw [getPred_ok heT₁]
  refine ⟨fun iprede hpred => ?_, fun err h => by cases h⟩
  obtain rfl : s₁.evts.predOf e = iprede := Except.ok.inj hpred
  obtain ⟨maxevs, hmax⟩ : ∃ l, l = e :: c.maevs.diff (s₁.evts.predOf e) := ⟨_, rfl⟩
  rw [← hmax] at hfr ⊢
  refine ⟨fun senevs hsen => ?_, fun err herr => ⟨hg₁.toSafe, .inr (.inl ?_)⟩⟩
  swap
  · have hgone : ¬ ∀ x ∈ c.enevs, x ∈ s.evts := by
      intro hall
      obtain ⟨r, hr⟩ := exists_filterM_isIndependent heT₁ fun x hx => hmem₁.2 (hall x hx)
      rw [hr] at herr
      cases herr
    exact ⟨Bool.eq_false_iff.2 fun hm => hgone (hpres hm), by push Not at hgone; exact hgone⟩
  have hdep' := (SameSteps.of_sameEvents hsame).lt_of_dep hstak hdep
  rw [hstak] at hdep' hfr hconf
  have hen₁ : ∀ x ∈ c.enevs, x ∈ s₁.evts → Extends s₁.evts s.stak x := hstak ▸ hc₁.enevs
  refine ⟨fun itrs hitrs => ?_, fun err herr => ?_⟩
  swap
  · obtain ⟨r, hr⟩ := exists_kept_threads hsame heT₁ hen₁ hdep' hsen
    rw [hr] at herr
    cases herr
  have hkept := keptEvents hsame heT₁ hen₁ hdep' hsen hitrs
  obtain ⟨l, hl, hlmem⟩ := enabled_lock (c.state.step t)
  rw [hg₁.syst_eq, hl]
  refine ⟨fun entrs hent => ?_, fun err h => by cases h⟩
  obtain rfl : l = entrs := Except.ok.inj hent
  have hent : ∀ tid ∈ (l.map (·.1)).diff itrs,
      (∃ (t' : Nat) (o' : LockOp), tid = (t' : Int) ∧ (c.state.step t).next t' = some o') ∧
        ∀ t₁ t₂, TwoThreads P.system t₁ t₂ → tid = t₁ ∨ tid = t₂ := fun tid htid =>
    enabled_threads (hc.reached.step_lock hnext) hl tid (List.diff_subset _ _ htid)
  have hemax : e ∈ maxevs := hmax ▸ List.mem_cons_self
  refine (extendThreads_lock fuel hg₁ (hopts ▸ hcut) hT₁ hfr hemax hent).mono (fun bs s₂ h₂ => ?_)
    fun err s' h => ⟨h.1, .inr (.inr ?_)⟩
  swap
  · obtain ⟨-, T₀, hsteps, hfails⟩ := h
    exact ⟨t, o, s₁.evts, T₀, maxevs, hstep, hnext, .of_sameEvents hsame, hT₁, hfr, hsteps, hfails⟩
  rw [hstak]
  obtain ⟨hg₂, hgr₂, hsteps₂, hen₂, hfound₂, hown₂⟩ := h₂
  have hT₂ := hsteps₂.lockTable hT₁
  have hst₂ := hsteps₂.stable hgr₂.older
  have hconf₂ : ∀ y ∈ e :: s.stak, y < s₁.cntr ∧ y ∈ s₂.evts := fun y hy =>
    ⟨hg₁.wf.lt_cntr (hconf y hy), hgr₂.keeps y (hconf y hy)⟩
  -- nothing that was found is in conflict with the configuration
  have hpass := filterM_ok fun x hx =>
    noConflict_ok (hen₂ x hx).mem fun y hy => (hen₂ x hx).noConflict hT₂ hg₂.wf.bot hy
  have hcnf := filterM_ok fun x hx => hasConflict_ok (hconf₂ x hx).2
  rw [hpass, hcnf, List.filter_true]
  refine ⟨fun nnevs hnn => ⟨fun ncevs hnc => ?_, fun _ h => by cases h⟩, fun _ h => by cases h⟩
  obtain rfl : bs.flatten = nnevs := Except.ok.inj hnn
  obtain rfl := Except.ok.inj hnc
  have haltes := hsame.sameAltes.trans hsteps₂.sameAltes
  refine ⟨hg₂, hgr₁.trans hgr₂, (hsame.stable s.cntr).trans hst₂ hgr₁.cntr, fun x => (haltes x).1,
    fun x => ?_, hT₂, hgr₂.frontier hg₁.wf hg₂.linked hfr, fun x hx => ?_, ⟨t, o, hstep, hnext, rfl⟩,
    ⟨s₁.evts, .of_sameEvents hsame, hsteps₂⟩, fun x hx hxe hxT hnd => ?_, fun t' o' hlt hn' => ?_,
    fun x => ?_, bs.flatten, senevs, rfl, fun x hx => ?_, fun x hx => ?_⟩
  · rw [(haltes x).2]
    split
    · next h => rw [h]
    · rfl
  · rcases List.mem_append.1 hx with hx | hx
    · exact hen₂ x hx
    · have hxc := (hkept.mem x hx).2.2.2
      exact hxc.of_stable hst₂ hg₂.linked (hg₁.wf.lt_cntr hxc.mem) (hgr₂.keeps x hxc.mem)
        (fun y hy => (hconf₂ y hy).1) fun y hy => (hconf₂ y hy).2
  · exact List.mem_append_right _ (hkept.all x hx hxT hxe hnd)
  · by_cases hit : (t' : Int) ∈ itrs
    · obtain ⟨x, hx, hxt⟩ := (hkept.thread _).1 hit
      obtain ⟨hxc, hxe, hnd, -⟩ := hkept.mem x hx
      exact .inl ⟨x, hxc, hxe, hnd, hxt⟩
    · refine .inr ((hfound₂ t' o' (List.mem_diff_of_mem ?_ hit) hn').mono hg₂.wf (.refl _ _)
        (fun _ h => h) (List.subset_append_left _ _))
      exact (hlmem _).2 ⟨t', o', rfl, hlt, hn'⟩
  · rw [List.mem_filter]
    simp
  · obtain ⟨-, -, hnd, hxc⟩ := hkept.mem x hx
    exact ⟨hmem₁.1 hxc.mem, hnd⟩
  · obtain ⟨t', o', ht', hn', hname⟩ := hown₂ x hx
    refine ⟨t', o', hn', hname, fun y hy hyT hye hnd htid => ?_⟩
    -- the thread of an enabled event that is independent of `e` is not extended
    exact ((enabled_nodup hl).mem_sdiff_iff.1 ht').2
      ((hkept.thread _).2 ⟨y, hkept.all y hy hyT hye hnd, htid⟩)

section Disa

variable {s₁ s' : UnfolderState (LockState P) LockAct} {c' nc : Configuration (LockState P)}
  {d : EventsID} {fuel : Nat} (hss : SameSteps s.evts s₁.evts) (hgr : Grows s s₁)
  (hstate : c'.state = c.state) (hsub : ∀ x ∈ c'.enevs, x ∈ c.enevs)

include hss hgr hstate hsub

/-- The result of `unfold` read from the state before the disabled set of `e` was entered. -/
theorem LockUnfolded.of_disa (h : LockUnfolded fuel s₁ c' d e nc s')
    (haltes : ∀ x, s₁.evts.alteOf x = s.evts.alteOf x)
    (hdisas : ∀ x, x ≠ e → s₁.evts.disaOf x = s.evts.disaOf x)
    (hkeep : ∀ x ∈ c.enevs, x ∈ s.evts → x ∈ c'.enevs) : LockUnfolded fuel s c d e nc s' where
  good := h.good
  grows := hgr.trans h.grows
  stable := (hss.stable s.cntr).trans h.stable hgr.cntr
  altes x := (h.altes x).trans (haltes x)
  disas x := by
    rw [h.disas]
    split
    · rfl
    · next hx => exact hdisas x hx
  table := h.table
  frontier := hgr.stak ▸ h.frontier
  enevs := hgr.stak ▸ h.enevs
  step := by
    obtain ⟨t, o, hst, hn, hnc⟩ := h.step
    rw [hstate] at hst hn hnc
    exact ⟨t, o, hss.isStep_iff.1 hst, hn, hnc⟩
  steps := by
    obtain ⟨T₁, hT₁, hsteps⟩ := h.steps
    exact ⟨T₁, hss.trans hT₁, hgr.stak ▸ hsteps⟩
  kept x hx hxe hxT hnd := h.kept x (hkeep x hx hxT) hxe (hss.links.mem_iff.2 hxT)
    fun hd => hnd (hss.dep_iff.1 hd)
  threads t o hlt hn := by
    refine (h.threads t o hlt hn).imp_left fun ⟨x, hx, hxe, hnd, htid⟩ => ?_
    refine ⟨x, hsub x hx, hxe, fun hd => hnd (hss.dep_iff.2 hd), ?_⟩
    rw [← htid, Events.tidOf, Events.tidOf, hss.links.nameOf]
  cfevs := hgr.stak ▸ h.cfevs
  order := by
    obtain ⟨nn, sen, heq, hsen, hnn⟩ := h.order
    refine ⟨nn, sen, heq, fun x hx => ?_, fun x hx => ?_⟩
    · obtain ⟨hxT, hnd⟩ := hsen x hx
      exact ⟨hss.links.mem_iff.1 hxT, fun hd => hnd (hss.dep_iff.2 hd)⟩
    obtain ⟨t, o, hn, hname, hall⟩ := hnn x hx
    refine ⟨t, o, hn, hname, fun y hy hyT hye hnd htid => ?_⟩
    refine hall y (hkeep y hy hyT) (hss.links.mem_iff.2 hyT) hye (fun hd => hnd (hss.dep_iff.1 hd)) ?_
    rw [← htid, Events.tidOf, Events.tidOf, hss.links.nameOf]

theorem UnfoldFails.of_disa {err : Err} (h : UnfoldFails fuel s₁ c' e err) :
    UnfoldFails fuel s c e err := by
  rw [UnfoldFails, hgr.stak, hstate, hgr.opts] at h
  rcases h with h | ⟨hm, x, hx, hxT⟩ | ⟨t, o, T₁, T₀, maxevs, hst, hn, hT₁, hrest⟩
  · exact .inl fun t i o hst => h t i o (hss.isStep_iff.2 hst)
  · exact .inr (.inl ⟨hm, x, hsub x hx, fun hm => hxT (hss.links.mem_iff.2 hm)⟩)
  · exact .inr (.inr ⟨t, o, T₁, T₀, maxevs, hss.isStep_iff.1 hst, hn, hss.trans hT₁, hrest⟩)

end Disa

/-- The disabled set of an event is entered. -/
theorem setDisa_lock (hg : Good P.system s) (hT : LockTable P s.evts) (d : EventsID) :
    Op.Sat (onEvts (setDisa e d)) s
      (fun _ s₁ => e ∈ s.evts ∧ Good P.system s₁ ∧ Grows s s₁ ∧ SameSteps s.evts s₁.evts ∧
        LockTable P s₁.evts ∧ (∀ x, s₁.evts.alteOf x = s.evts.alteOf x) ∧
        ∀ x, s₁.evts.disaOf x = if x = e then d else s.evts.disaOf x)
      (fun _ s' => Safe P.system s' ∧ e ∉ s.evts) := by
  by_cases heT : e ∈ s.evts
  swap
  · have hl : s.evts.lookup e = none := by
      rwa [← Option.not_isSome_iff_eq_none, AList.lookup_isSome]
    refine sat_onEvts.2 ⟨fun T' hT' => ?_, fun _ _ => ⟨hg.toSafe, heT⟩⟩
    simp [setDisa, getEvent, hl] at hT'
  obtain ⟨ev, hl⟩ := Events.lookup_of_mem heT
  have hset : setDisa e d s.evts = .ok (setEvent e { ev with disa := d } s.evts) := by
    rw [setDisa, getEvent_ok _ hl, ok_bind, pure_eq_ok]
  have hnofail : Op.Sat (onEvts (setDisa e d)) s (fun _ _ => True) (fun _ _ => False) :=
    sat_onEvts.2 ⟨fun _ _ => trivial, fun err herr => by
      rw [hset] at herr
      cases herr⟩
  refine ((hg.onEvts_sameLinks fun T' hT' => .setDisa hT').and hnofail).mono (fun _ s₁ h₁ => ?_)
    fun err s' h => h.2.elim
  obtain ⟨⟨hg₁, hgr₁, -, hevts⟩, -⟩ := h₁
  have hevts : s₁.evts = s.evts.insert e { ev with disa := d } := by
    rw [hset] at hevts
    exact (Except.ok.inj hevts).symm
  have hss : SameSteps s.evts s₁.evts := by
    refine ⟨.setDisa (hset.trans (congrArg Except.ok hevts.symm)), fun x => ?_⟩
    rw [hevts, Events.actsOf_insert]
    split
    · next h => rw [h, Events.actsOf_of_lookup hl]
    · rfl
  have haltes : ∀ x, s₁.evts.alteOf x = s.evts.alteOf x := by
    intro x
    rw [hevts, Events.alteOf_insert]
    split
    · next h => rw [h, Events.alteOf_of_lookup hl]
    · rfl
  refine ⟨heT, hg₁, hgr₁, hss, ?_, haltes, fun x => ?_⟩
  · refine hT.of_stable (hss.stable s₁.cntr) hg₁.wf fun x v hv => ?_
    rw [haltes] at hv
    have hok := hT.alte x v hv
    have hmem : ∀ y ∈ v, y ∈ s₁.evts := fun y hy => hgr₁.keeps y (hok.closed.mem y hy)
    exact hok.of_older (hss.links.older s₁.cntr) (fun y hy => hg₁.wf.lt_cntr (hmem y hy)) hmem
  · rw [hevts, Events.disaOf]
    split
    · next h => rw [h, AList.lookup_insert, Option.map_some, Option.getD_some]
    · next h => rw [AList.lookup_insert_ne h, Events.disaOf]

/-- The configuration with `e`, after its disabled set was entered and, in stateless mode, the deleted
events were taken out of the enabled ones. -/
theorem addToConf_lock (fuel : Nat) (hg : Good P.system s) (hcut : s.opts.cutoffs = false)
    (hT : LockTable P s.evts) (hc : ConfOk P.system s.evts s.cntr s.stak c)
    (hdep : ∀ x ∈ c.enevs, x ∈ s.evts → ∀ y ∈ s.stak, Dep s.evts y x → Lt s.evts y x)
    (he : e ∈ c.enevs) (d : EventsID) :
    Op.Sat (addToConf fuel c d e) s (fun nc s' => e ∈ s.evts ∧ LockUnfolded fuel s c d e nc s')
      (fun err s' => Safe P.system s' ∧ (e ∈ s.evts → UnfoldFails fuel s c e err)) := by
  simp only [addToConf, Op.sat_bind, Op.sat_get]
  refine (setDisa_lock hg hT d).mono (fun _ s₁ h₁ => ?_) fun _ _ h => ⟨h.1, fun heT => absurd heT h.2⟩
  obtain ⟨heT, hg₁, hgr₁, hss, hT₁, haltes, hdisas⟩ := h₁
  have hc₁ := hg.confOk hc (hgr₁.evolves fun _ => hg.stak_mem) hg₁
  have hdep₁ := hss.lt_of_dep hgr₁.stak hdep
  have hunf : ∀ c' : Configuration (LockState P), c'.state = c.state →
      ConfOk P.system s₁.evts s₁.cntr s₁.stak c' → (∀ x ∈ c'.enevs, x ∈ c.enevs) →
      (∀ x ∈ c.enevs, x ∈ s.evts → x ∈ c'.enevs) →
      (s₁.opts.stateless = true → ∀ x ∈ c'.enevs, x ∈ s₁.evts) →
      Op.Sat (unfold fuel c' e) s₁ (fun nc s' => e ∈ s.evts ∧ LockUnfolded fuel s c d e nc s')
        (fun err s' => Safe P.system s' ∧ (e ∈ s.evts → UnfoldFails fuel s c e err)) := by
    intro c' hstate hc' hsub hkeep hpres
    refine (unfold_lock fuel hg₁ (hgr₁.opts ▸ hcut) hT₁ hc' (fun x hx => hdep₁ x (hsub x hx)) hpres
      (hkeep e he heT) (hgr₁.keeps e heT)).mono (fun nc s' h => ⟨heT, ?_⟩)
      fun err s' h => ⟨h.1, fun _ => h.2.of_disa hss hgr₁ hstate hsub⟩
    rw [hdisas, if_pos rfl] at h
    exact h.of_disa hss hgr₁ hstate hsub haltes (fun x hx => by rw [hdisas, if_neg hx]) hkeep
  split
  · refine hunf _ rfl hc₁.pruneConfig (fun x hx => (List.mem_filter.1 hx).1) (fun x hx hxT => ?_)
      fun _ x hx => ?_
    · exact List.mem_filter.2 ⟨hx, by simpa [filterEvent, AList.lookup_isSome] using hgr₁.keeps x hxT⟩
    · simpa [filterEvent, AList.lookup_isSome] using (List.mem_filter.1 hx).2
  · next hm => exact hunf c rfl hc₁ (fun _ h => h) (fun _ h _ => h) fun h => absurd h hm

end Unfold

end Poet
