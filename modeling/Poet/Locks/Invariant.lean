import Poet.Exploration.Alternatives
import Poet.Locks.Steps

/-!
# The prefix of a lock program

`LockTable` is what holds of the prefix beyond its links: every event is a step of the program that
depends on its predecessors, immediate conflicts are dependent events that are not ordered, and every
stored alternative is a configuration. `Stable` says what an operation leaves as it is, and with it the
lemmas below carry `LockTable` through the three ways in which the prefix changes.
-/

namespace Poet

variable {st act : Type}

/-! ## What stays -/

/-- `Older`, for operations that keep the actions and lose conflicts only with their events. -/
structure Stable (n : Nat) (T T' : Events act) : Prop extends Older n T T' where
  acts : ∀ {x}, x < n → x ∈ T' → T'.actsOf x = T.actsOf x
  icnf_kept : ∀ {x y}, x < n → y < n → x ∈ T' → y ∈ T' → y ∈ T.icnfOf x → y ∈ T'.icnfOf x

namespace Stable

variable {n m : Nat} {T T' T'' : Events act} {x y : EventID}

theorem refl (n : Nat) (T : Events act) : Stable n T T :=
  ⟨.refl n T, fun _ _ => rfl, fun _ _ _ _ h => h⟩

theorem trans (h : Stable n T T') (h' : Stable m T' T'') (hnm : n ≤ m) : Stable n T T'' where
  toOlder := h.toOlder.trans h'.toOlder hnm
  acts hx hm := by
    have hx' := Nat.lt_of_lt_of_le hx hnm
    exact (h'.acts hx' hm).trans (h.acts hx (h'.mem hx' hm))
  icnf_kept hx hy hxm hym hi := by
    have hx' := Nat.lt_of_lt_of_le hx hnm
    have hy' := Nat.lt_of_lt_of_le hy hnm
    exact h'.icnf_kept hx' hy' hxm hym (h.icnf_kept hx hy (h'.mem hx' hxm) (h'.mem hy' hym) hi)

theorem of_sameLinks (h : SameLinks T T') (ha : ∀ x, T'.actsOf x = T.actsOf x) (n : Nat) :
    Stable n T T' :=
  ⟨h.older n, fun _ _ => ha _, fun _ _ _ _ hi => (h.icnfOf _).symm ▸ hi⟩

theorem of_added {name : EventName} {acts : act} {h cs : EventsID}
    (ha : Added T n name acts h cs T') (hn : n ∉ T) (hcs : ∀ c ∈ cs, c ∈ T) : Stable n T T' where
  toOlder := ha.older hn hcs
  acts hx _ := by rw [ha.actsOf, if_neg (Nat.ne_of_lt hx)]
  icnf_kept _ _ _ _ hi := (ha.mem_icnfOf hn hcs).2 (.inl hi)

theorem of_deleted {es : EventsID} (h : Deleted T [] es T') (n : Nat) : Stable n T T' where
  toOlder := h.older n
  acts _ hm := by
    obtain ⟨ev', hl'⟩ := Events.lookup_of_mem hm
    obtain ⟨ev, hl, hr⟩ := h.shrunk _ ev' hl'
    rw [Events.actsOf_of_lookup hl, Events.actsOf_of_lookup hl', hr.acts]
  icnf_kept _ _ hxm hym hi := by
    obtain ⟨ev', hl'⟩ := Events.lookup_of_mem hxm
    obtain ⟨ev, hl, -⟩ := h.shrunk _ ev' hl'
    rw [Events.icnfOf_of_lookup hl'] at *
    exact (h.keeps _ ev ev' hl hl').1 _ (Events.icnfOf_of_lookup hl ▸ hi) hym

theorem isStep {P : LockProgram} {T T' : Events LockAct} {t i : Nat} {o : LockOp}
    (h : Stable n T T') (hx : x < n) (hm : x ∈ T') (hs : IsStep P T x t i o) :
    IsStep P T' x t i o := hs.of_same (h.name hx hm) (h.acts hx hm)

theorem isStep_iff {P : LockProgram} {T T' : Events LockAct} {t i : Nat} {o : LockOp}
    (h : Stable n T T') (hx : x < n) (hm : x ∈ T') : IsStep P T' x t i o ↔ IsStep P T x t i o :=
  ⟨fun hs => hs.of_same (h.name hx hm).symm (h.acts hx hm).symm, h.isStep hx hm⟩

theorem dep_iff [Action act] (h : Stable n T T') (hx : x < n) (hxm : x ∈ T') (hy : y < n)
    (hym : y ∈ T') : Dep T' x y ↔ Dep T x y := by
  rw [dep_iff_names, dep_iff_names, h.name hx hxm, h.acts hx hxm, h.name hy hym, h.acts hy hym]

end Stable

/-! ## The table -/

/-- Every event is a step of the program. -/
structure LockEvents (P : LockProgram) (T : Events LockAct) : Prop where
  bot : T.nameOf botEID = some botName
  step : ∀ x ∈ T, x ≠ botEID → ∃ t i o, IsStep P T x t i o

namespace LockEvents

variable {P : LockProgram} {T T' : Events LockAct} {x y : EventID} {n : Nat}

theorem ne_bot (h : LockEvents P T) {t i : Nat} {o : LockOp} (hx : IsStep P T x t i o) :
    x ≠ botEID := by
  rintro rfl
  exact stepName_ne_bot t i (Option.some_inj.1 (hx.name.symm.trans h.bot))

/-- Bottom depends on everything, and everything on it. -/
theorem dep_bot (h : LockEvents P T) (hb : botEID ∈ T) (hx : x ∈ T) :
    Dep T botEID x ∧ Dep T x botEID := by
  obtain ⟨b, hlb⟩ := Events.lookup_of_mem hb
  obtain ⟨a, hla⟩ := Events.lookup_of_mem hx
  have hname := h.bot
  rw [Events.nameOf_of_lookup hlb, Option.some_inj] at hname
  rw [dep_of_lookup hlb hla, dep_of_lookup hla hlb, hname]
  simp [isDependent, botName]

theorem dependsOn_bot (h : LockEvents P T) (hb : botEID ∈ T) (info : EventInfo LockAct) :
    dependsOn info T botEID = true := by
  obtain ⟨b, hlb⟩ := Events.lookup_of_mem hb
  have hname := h.bot
  rw [Events.nameOf_of_lookup hlb, Option.some_inj] at hname
  simp [dependsOn, hlb, hname, isDependent, botName]

theorem dep_symm (h : LockEvents P T) (hb : botEID ∈ T) (hd : Dep T x y) : Dep T y x := by
  obtain ⟨a, b, hla, hlb, hdep⟩ := hd
  have hx := Events.mem_of_lookup hla
  have hy := Events.mem_of_lookup hlb
  by_cases hxb : x = botEID
  · subst hxb
    exact (h.dep_bot hb hy).2
  by_cases hyb : y = botEID
  · subst hyb
    exact (h.dep_bot hb hx).1
  obtain ⟨t, i, o, hs⟩ := h.step x hx hxb
  obtain ⟨t', i', o', hs'⟩ := h.step y hy hyb
  rw [hs'.dep_iff hs]
  rcases (hs.dep_iff hs').1 ⟨a, b, hla, hlb, hdep⟩ with ht | hm
  · exact .inl ht.symm
  · exact .inr hm.symm

/-- A change that enters no event. -/
theorem of_stable (h : LockEvents P T) (hs : Stable n T T') (hwf : WF T' n) : LockEvents P T' where
  bot := (hs.name (hwf.lt_cntr hwf.bot) hwf.bot).trans h.bot
  step x hx hb := by
    obtain ⟨t, i, o, hst⟩ := h.step x (hs.mem (hwf.lt_cntr hx) hx) hb
    exact ⟨t, i, o, hs.isStep (hwf.lt_cntr hx) hx hst⟩

end LockEvents

structure LockTable (P : LockProgram) (T : Events LockAct) : Prop extends LockEvents P T where
  pred : ∀ x, ∀ p ∈ T.predOf x, Dep T p x
  icnf : ∀ x y, y ∈ T.icnfOf x → Dep T x y ∧ ¬ Le T x y ∧ ¬ Le T y x
  alte : ∀ x, ∀ v ∈ T.alteOf x, AltOk T v

theorem LockTable.of_stable {P : LockProgram} {T T' : Events LockAct} {n : Nat} (h : LockTable P T)
    (hs : Stable n T T') (hwf : WF T' n) (halte : ∀ x, ∀ v ∈ T'.alteOf x, AltOk T' v) :
    LockTable P T' where
  toLockEvents := h.toLockEvents.of_stable hs hwf
  pred x p hp := by
    have hx := (lt_of_mem_pred hp).mem
    have hpT := hwf.linked.causal.mem_of_pred hp
    rw [hs.dep_iff (hwf.lt_cntr hpT) hpT (hwf.lt_cntr hx) hx]
    exact h.pred x p (hs.pred (hwf.lt_cntr hx) hx ▸ hp)
  icnf x y hy := by
    have hx := Events.mem_of_mem_icnfOf hy
    have hyT := hwf.linked.icnf_mem List.not_mem_nil hy
    have hxn := hwf.lt_cntr hx
    have hyn := hwf.lt_cntr hyT
    rw [hs.dep_iff hxn hx hyn hyT, Le, Le, hs.lt_iff hwf.linked hyn hyT,
      hs.lt_iff hwf.linked hxn hx]
    exact h.icnf x y (hs.icnf hxn hyn hy)
  alte := halte

/-! ## Entering an event -/

namespace AddStep

section General

variable [DecidableEq st] [DecidableEq act] [LatticeM st] [Projection st] [Lattice act] [Action act]
  [Domain st act] {syst : System st act} {conf maxevs : EventsID} {e : EventID} {nst : st}
  {a : Addition act} {T T' : Events act} {n : Nat} (hs : AddStep syst conf maxevs e nst a T n T')

include hs

theorem notMem : n ∉ T := fun hm => Nat.lt_irrefl _ (hs.wf.lt_cntr hm)

theorem cs_mem {c : EventID} (hc : c ∈ a.cs) : c ∈ T := (hs.cnfls.sound c hc).mem

theorem stable : Stable n T T' := .of_added hs.added hs.notMem fun _ => hs.cs_mem

theorem old {x : EventID} (hx : x ∈ T) : x < n ∧ x ∈ T' :=
  ⟨hs.wf.lt_cntr hx, hs.added.mem_iff.2 (.inr hx)⟩

theorem h_mem {p : EventID} (hp : p ∈ a.h) : p ∈ T := by
  have hp' : p ∈ T'.predOf n := by rwa [hs.added.predOf, if_pos rfl]
  rcases hs.added.mem_iff.1 (hs.wf'.linked.causal.mem_of_pred hp') with rfl | hpT
  · exact absurd (hs.wf'.linked.pred_lt hp') (Nat.lt_irrefl _)
  · exact hpT

/-- What is below the new event is its local history. -/
theorem lt_new {x : EventID} : Lt T' x n ↔ Under T a.h x := by
  rw [lt_iff_pred, hs.added.predOf, if_pos rfl]
  refine exists_congr fun p => and_congr_right fun hp => or_congr_right ?_
  exact hs.added.lt_iff hs.wf.linked hs.notMem (hs.h_mem hp)

theorem not_new_lt {x : EventID} (hx : x ∈ T) : ¬ Lt T' n x := fun hlt => by
  rw [hs.added.lt_iff hs.wf.linked hs.notMem hx] at hlt
  exact hs.notMem (hs.wf.linked.causal.mem_of_lt hlt)

theorem dep_new {c : EventID} (hc : c ∈ T) (hdep : dependsOn (a.name, a.acts) T c = true) :
    Dep T' n c := by
  obtain ⟨b, hlb⟩ := Events.lookup_of_mem hc
  have hlb' := hs.added.old c (Nat.ne_of_lt (hs.old hc).1)
  rw [hlb, Option.map_some] at hlb'
  rw [dependsOn, hlb] at hdep
  rw [dep_of_lookup hs.added.new hlb']
  exact hdep

/-- The new event against one of its conflicts. -/
theorem conflict {c : EventID} (hc : c ∈ a.cs) : Dep T' n c ∧ ¬ Le T' n c ∧ ¬ Le T' c n := by
  obtain ⟨hcT, hlh, hdep, -⟩ := hs.cnfls.sound c hc
  refine ⟨hs.dep_new hcT hdep, ?_, ?_⟩
  · rintro (rfl | hlt)
    · exact hs.notMem hcT
    · exact hs.not_new_lt hcT hlt
  · rintro (rfl | hlt)
    · exact hs.notMem hcT
    · exact hlh ((hs.lh_iff c).2 (hs.lt_new.1 hlt))

theorem alteOf (x : EventID) : T'.alteOf x = if x = n then [] else T.alteOf x := by
  by_cases hx : x = n
  · subst hx
    simp [Events.alteOf_of_lookup hs.added.new]
  · rw [if_neg hx, Events.alteOf, Events.alteOf, hs.added.old x hx]
    cases T.lookup x <;> simp [linkTo]

end General

variable {P : LockProgram} {conf maxevs : EventsID} {e : EventID} {nst : LockState P}
  {a : Addition LockAct} {T T' : Events LockAct} {n : Nat}
  (hs : AddStep P.system conf maxevs e nst a T n T')

include hs

/-- The new event is the next step of a thread. -/
theorem isStep : ∃ t o, a.name = stepName t (nst.pc t) ∧ nst.next t = some o ∧ a.acts = o.act ∧
    IsStep P T' n t (nst.pc t) o := by
  obtain ⟨t, o, hname, hnext, hacts⟩ := step_of_runs hs.runs
  exact ⟨t, o, hname, hnext, hacts, by rw [hs.added.nameOf, if_pos rfl, hname],
    by rw [hs.added.actsOf, if_pos rfl, hacts], LockState.op_of_next hnext⟩

theorem lockEvents (h : LockEvents P T) : LockEvents P T' where
  bot := by
    rw [hs.added.nameOf, if_neg (Nat.ne_of_lt (hs.old hs.wf.bot).1)]
    exact h.bot
  step x hx hb := by
    rcases hs.added.mem_iff.1 hx with rfl | hxT
    · obtain ⟨t, o, -, -, -, hnew⟩ := hs.isStep
      exact ⟨_, _, _, hnew⟩
    · obtain ⟨t, i, o, hst⟩ := h.step x hxT hb
      exact ⟨t, i, o, hs.stable.isStep (hs.old hxT).1 hx hst⟩

/-- The new event depends on its predecessors. -/
theorem dependsOn_h (h : LockEvents P T) {p : EventID} (hph : p ∈ a.h) :
    dependsOn (a.name, a.acts) T p = true := by
  have hsame : ∀ x ∈ a.T₀, dependsOn (a.name, a.acts) T x = dependsOn (a.name, a.acts) a.T₀ x :=
    fun x hx => dependsOn_congr (hs.older.name (hs.wf₀.lt_cntr hx) (hs.keeps x hx)) (hs.acts x hx)
  have hgood := hs.history.good hs.wf₀.linked.causal fun _ => hs.frontier.mem
  have hh0 : ∀ x ∈ a.h0, dependsOn (a.name, a.acts) T x = true := fun x hx =>
    (hsame x (hgood.mem x hx)).trans (hs.history.dep x hx)
  rcases hs.origin with heq | ⟨fuel, his, hhis, hmem⟩
  · exact hh0 p (heq ▸ hph)
  obtain ⟨t, o, hname, -, hacts⟩ := step_of_runs hs.runs
  rw [hname, hacts] at hhis hsame hh0 ⊢
  rcases extHistories_act hhis with rfl | ⟨m, rfl, hlock⟩
  · cases hmem
  have hext := fun h hm => (historiesLock_good hs.wf₀.linked.causal hgood hs.mem_h0 hlock h hm).1
  rcases historiesLock_mem hs.wf₀.linked.causal hgood hs.mem_h0 hlock a.h hmem p hph with hp | hp
  · exact hh0 p hp
  -- the others are unlocks of the mutex
  by_cases hpb : p = botEID
  · exact hpb ▸ h.dependsOn_bot hs.wf.bot _
  · obtain ⟨t', i', o', hst⟩ := h.step p (hs.h_mem hph) hpb
    have hpT₀ := (hext a.h hmem).mem p hph
    rw [← unlocksFor_congr (hs.acts p hpT₀)] at hp
    obtain ⟨m', hm', rfl⟩ := hst.unlocksFor_iff.1 hp
    exact hst.dependsOn_iff.2 (.inr (by rw [hm']; rfl))

theorem lockTable (h : LockTable P T) : LockTable P T' := by
  have hev := hs.lockEvents h.toLockEvents
  refine ⟨hev, fun x p hp => ?_, fun x y hy => ?_, fun x v hv => ?_⟩
  · rw [hs.added.predOf] at hp
    split at hp
    · next hx =>
      subst hx
      exact hev.dep_symm hs.wf'.bot (hs.dep_new (hs.h_mem hp) (hs.dependsOn_h h.toLockEvents hp))
    · have hxT := (lt_of_mem_pred hp).mem
      have hpT := hs.wf.linked.causal.mem_of_pred hp
      rw [hs.stable.dep_iff (hs.old hpT).1 (hs.old hpT).2 (hs.old hxT).1 (hs.old hxT).2]
      exact h.pred x p hp
  · rcases (hs.added.mem_icnfOf hs.notMem fun _ => hs.cs_mem).1 hy with hy | ⟨rfl, hx⟩ | ⟨rfl, hy⟩
    · have hxT := Events.mem_of_mem_icnfOf hy
      have hyT := hs.wf.linked.icnf_mem List.not_mem_nil hy
      rw [hs.stable.dep_iff (hs.old hxT).1 (hs.old hxT).2 (hs.old hyT).1 (hs.old hyT).2, Le, Le,
        hs.added.lt_iff hs.wf.linked hs.notMem hyT, hs.added.lt_iff hs.wf.linked hs.notMem hxT]
      exact h.icnf x y hy
    · obtain ⟨hdep, h₁, h₂⟩ := hs.conflict hx
      exact ⟨hev.dep_symm hs.wf'.bot hdep, h₂, h₁⟩
    · exact hs.conflict hy
  · rw [hs.alteOf] at hv
    split at hv
    · cases hv
    · have hok := h.alte x v hv
      exact hok.of_older hs.stable.toOlder (fun x hx => (hs.old (hok.closed.mem x hx)).1)
        fun x hx => (hs.old (hok.closed.mem x hx)).2

end AddStep

end Poet
