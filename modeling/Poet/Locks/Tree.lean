import Mathlib.Algebra.Order.Group.Nat
import Mathlib.Data.List.ProdSigma
import Mathlib.Data.List.Sublists
import Poet.Locks.Enabled

/-!
# The tree of calls

Without nested critical sections a call of `explore` either returns or the bound of the model is too
small: it chooses an enabled event of the alternative, the event can be executed, and the histories of
the threads that are extended can be computed. `Explored` has the calls that are made on the way as a
tree, with what holds of each of them, so that what follows about runs is by induction on it.
-/

namespace Poet

variable {P : LockProgram} {s s' s₁ s₂ s₃ s₄ : UnfolderState (LockState P) LockAct}
  {c nc : Configuration (LockState P)} {d d' : EventsID} {alt v : Alternative} {e ê x y : EventID}
  {n fuel : Nat} {stl : Bool}

/-! ## Calls -/

/-- What holds of a call. -/
structure SearchOk (stl : Bool) (s : UnfolderState (LockState P) LockAct)
    (c : Configuration (LockState P)) (d : EventsID) (alt : Alternative) : Prop extends
    ExploreOk stl s c d alt where
  past : PastOk P s.evts
  complete : EnabledComplete s c
  present : alt = [] → ∀ x ∈ c.enevs, x ∈ s.evts
  distinct : d.Nodup

/-- What holds when a call, or a part of it, that was made in `s` returns. -/
structure Searched (stl : Bool) (d d' : EventsID) (s s' : UnfolderState (LockState P) LockAct) :
    Prop where
  node : NodeOk P s' d'
  evolves : NodeEvolves d s s'
  calls : CallsOk stl s'
  past : PastOk P s'.evts
  fresh : Fresh s s'

/-- The call chooses `e` and adds it. -/
structure Adds (stl : Bool) (n : Nat) (s : UnfolderState (LockState P) LockAct)
    (c : Configuration (LockState P)) (ê : EventID) (d : EventsID) (alt : Alternative) (e : EventID)
    (nc : Configuration (LockState P)) (s₁ : UnfolderState (LockState P) LockAct) : Prop where
  search : SearchOk stl s c d alt
  chooses : Chooses c ê alt s e
  mem : e ∈ s.evts
  unfolded : LockUnfolded n (s.called c ê d alt) c d e nc s₁
  quiet : Quiet (s.called c ê d alt) s₁

/-- After the branch of `e` the prefix was pruned. -/
structure PruneDone (e : EventID) (d : EventsID) (s s' : UnfolderState (LockState P) LockAct) :
    Prop where
  node : NodeOk P s' d
  evolves : NodeEvolves d s s'
  quiet : Quiet s s'
  cntr : s'.cntr = s.cntr
  only : ∀ x, ∀ v ∈ s'.evts.alteOf x, v ∈ s.evts.alteOf x
  kept : ∀ z ∈ s.evts, z ≠ e → (∀ v ∈ s.evts.alteOf e, z ∉ v) → (∀ p ∈ s.evts.predOf z, p ∈ s.stak) →
    z ∈ s'.evts

/-- The call `explore n c ê d alt` that was made in `s` has come to `s'`: it has returned if the flag is
set, else the bound was reached in it. -/
inductive Explored (stl : Bool) : Bool → Nat → UnfolderState (LockState P) LockAct →
    Configuration (LockState P) → EventID → EventsID → Alternative →
    UnfolderState (LockState P) LockAct → Prop where
  | cut {s : UnfolderState (LockState P) LockAct} {c : Configuration (LockState P)} {ê : EventID}
      {d : EventsID} {alt : Alternative} (h : SearchOk stl s c d alt) :
      Explored stl false 0 s c ê d alt s
  | leaf {n : Nat} {s s' : UnfolderState (LockState P) LockAct} {c : Configuration (LockState P)}
      {ê : EventID} {d : EventsID} {alt : Alternative} (h : SearchOk stl s c d alt) (hen : c.enevs = [])
      (hmax : MaximalDone c.cfevs d (s.called c ê d alt) s') :
      Explored stl true (n + 1) s c ê d alt s'
  | inLeft {n : Nat} {s s₁ s₂ : UnfolderState (LockState P) LockAct}
      {c nc : Configuration (LockState P)} {ê e : EventID} {d : EventsID} {alt : Alternative}
      (h : Adds stl n s c ê d alt e nc s₁)
      (hleft : Explored stl false n (s₁.withStack (e :: s₁.stak)) nc e d (alt.erase e) s₂) :
      Explored stl false (n + 1) s c ê d alt s₂
  | inRight {n : Nat} {s s₁ s₂ s₄ : UnfolderState (LockState P) LockAct}
      {c nc : Configuration (LockState P)} {ê e : EventID} {d : EventsID} {alt v : Alternative}
      (h : Adds stl n s c ê d alt e nc s₁)
      (hleft : Explored stl true n (s₁.withStack (e :: s₁.stak)) nc e d (alt.erase e) s₂)
      (halt : alt2 s₁.stak s₂.evts (e :: d) (e :: d) = .ok (some v))
      (hright : Explored stl false n (s₂.withStack s₁.stak) c ê (e :: d) (v.diff s.stak) s₄) :
      Explored stl false (n + 1) s c ê d alt s₄
  | alone {n : Nat} {s s₁ s₂ s' : UnfolderState (LockState P) LockAct}
      {c nc : Configuration (LockState P)} {ê e : EventID} {d : EventsID} {alt : Alternative}
      (h : Adds stl n s c ê d alt e nc s₁)
      (hleft : Explored stl true n (s₁.withStack (e :: s₁.stak)) nc e d (alt.erase e) s₂)
      (halt : alt2 s₁.stak s₂.evts (e :: d) (e :: d) = .ok none)
      (hprune : PruneDone e d (s₂.withStack s₁.stak) s') : Explored stl true (n + 1) s c ê d alt s'
  | both {n : Nat} {s s₁ s₂ s₄ s' : UnfolderState (LockState P) LockAct}
      {c nc : Configuration (LockState P)} {ê e : EventID} {d : EventsID} {alt v : Alternative}
      (h : Adds stl n s c ê d alt e nc s₁)
      (hleft : Explored stl true n (s₁.withStack (e :: s₁.stak)) nc e d (alt.erase e) s₂)
      (halt : alt2 s₁.stak s₂.evts (e :: d) (e :: d) = .ok (some v))
      (hright : Explored stl true n (s₂.withStack s₁.stak) c ê (e :: d) (v.diff s.stak) s₄)
      (hprune : PruneDone e d s₄ s') : Explored stl true (n + 1) s c ê d alt s'

/-! ## What the parts of a call keep -/

theorem Fresh.trans (h : Fresh s s') (h' : Fresh s' s₁) (ho : Older s'.cntr s'.evts s₁.evts)
    (hwf : WF s'.evts s'.cntr) (hstak : ∀ x ∈ s.stak, x ∈ s'.stak) : Fresh s s₁ := by
  intro x hx
  rcases h' x hx with hx' | ⟨p, hp, hps⟩
  · refine (h x hx').imp_right fun ⟨p, hp, hps⟩ => ⟨p, ?_, hps⟩
    rwa [ho.pred (hwf.lt_cntr hx') hx]
  · exact .inr ⟨p, hp, fun hm => hps (hstak p hm)⟩

/-- Without additions nothing is new. -/
theorem Fresh.of_older (ho : Older s.cntr s.evts s'.evts) (hwf : WF s'.evts s'.cntr)
    (hcntr : s'.cntr = s.cntr) : Fresh s s' := fun _ hx =>
  .inl (ho.mem (hcntr ▸ hwf.lt_cntr hx) hx)

theorem MaximalDone.searched (h : SearchOk stl s c d alt)
    (hmax : MaximalDone c.cfevs d (s.called c ê d alt) s') : Searched stl d d s s' := by
  obtain ⟨s₁, hadd, hevts, hcntr⟩ := hmax.altes
  have hev := (h.node.evolves_called c ê alt).trans hmax.evolves
  have hc : s'.cntr = s.cntr := hcntr.trans hadd.cntr
  exact ⟨hmax.node, hev, (h.calls.called h.node h.call h.mode ê).of_calls hmax.calls,
    h.past.of_stable hev.stable (hc ▸ hmax.node.wf), .of_older hev.older hmax.node.wf hc⟩

theorem PruneDone.searched (hp : PruneDone e d s₄ s') (h : Searched stl d d' s s₄) :
    Searched stl d d s s' := by
  refine ⟨hp.node, h.evolves.trans hp.evolves, h.calls.of_calls hp.quiet.calls,
    h.past.of_stable hp.evolves.stable (hp.cntr ▸ hp.node.wf), ?_⟩
  exact h.fresh.trans (.of_older hp.evolves.older hp.node.wf hp.cntr) hp.evolves.older h.node.wf
    fun x hx => h.evolves.stak ▸ hx

namespace Adds

variable (h : Adds stl n s c ê d alt e nc s₁)

include h

theorem mem_enevs : e ∈ c.enevs := (chooseEvent_mem h.chooses.chosen).1

theorem canExtend : CanExtend s.evts s.stak e := h.search.call.canExtend h.mem_enevs h.mem

/-- The call with `e`. -/
theorem left (hw : P.WellLocked) (hn : P.NonNested) :
    SearchOk stl (s₁.withStack (e :: s₁.stak)) nc d (alt.erase e) := by
  have hs := h.search
  have hg := (hs.node.called c ê alt).toLockGood
  have hc := (hs.call.called ê).toEnabledOk
  exact ⟨hs.toExploreOk.push h.chooses h.mem h.unfolded h.quiet,
    h.unfolded.pastOk hg hs.past h.canExtend hs.exec,
    h.unfolded.enabledComplete hg hc h.mem_enevs h.mem hs.exec hs.past hw hn hs.complete,
    fun _ x hx => (h.unfolded.enevs x hx).mem, hs.distinct⟩

theorem popped (hl : Searched stl d d (s₁.withStack (e :: s₁.stak)) s₂) :
    Searched stl d (e :: d) s (s₂.withStack s₁.stak) := by
  obtain ⟨-, hn₃, hev₃⟩ := h.search.toExploreOk.popped h.chooses h.mem h.unfolded h.quiet hl.node
    hl.evolves
  have hstak : s₁.stak = s.stak := h.quiet.stak
  refine ⟨hn₃, hev₃, hl.calls, hl.past, ?_⟩
  have hfresh : Fresh s (s₁.withStack (e :: s₁.stak)) := h.unfolded.fresh h.canExtend.notMem
  exact hfresh.trans hl.fresh hl.evolves.older h.unfolded.good.wf fun x hx =>
    List.mem_cons_of_mem e (hstak ▸ hx)

/-- The call without `e`. -/
theorem right (hl : Searched stl d d (s₁.withStack (e :: s₁.stak)) s₂)
    (halt : alt2 s₁.stak s₂.evts (e :: d) (e :: d) = .ok (some v)) :
    SearchOk stl (s₂.withStack s₁.stak) c (e :: d) (v.diff s.stak) := by
  have hp := h.popped hl
  have hs := h.search
  have hright := hs.toExploreOk.follow hp.node hp.evolves hp.calls halt
  have hcomplete := hs.complete.of_evolves hs.node.toGood hp.evolves hp.node.toGood hp.fresh
  have hed := (hs.toExploreOk.popped h.chooses h.mem h.unfolded h.quiet hl.node hl.evolves).1
  refine ⟨hright, hp.past, hcomplete, fun hnil => ?_, List.nodup_cons.2 ⟨hed, hs.distinct⟩⟩
  -- the conflict with `e` is in the alternative
  obtain ⟨x, hx, hi⟩ := hright.call.just e List.mem_cons_self
  rw [hnil] at hx
  have heT := (hp.node.disabled e List.mem_cons_self).1
  have hext := hright.call.canExtend h.mem_enevs heT
  have hxs := hx.resolve_right List.not_mem_nil
  exact absurd (hp.node.linked.icnf_symm List.not_mem_nil hi).1
    (hext.noConflict hp.node.lock hp.node.wf.bot hxs)

theorem after (hl : Searched stl d d (s₁.withStack (e :: s₁.stak)) s₂)
    (hr : Searched stl (e :: d) (e :: d) (s₂.withStack s₁.stak) s₄) : Searched stl d (e :: d) s s₄ := by
  have hp := h.popped hl
  exact ⟨hr.node, hp.evolves.trans hr.evolves.weaken, hr.calls, hr.past,
    hp.fresh.trans hr.fresh hr.evolves.older hp.node.wf fun x hx => hp.evolves.stak ▸ hx⟩

end Adds

/-- A call that has returned. -/
theorem Explored.searched {b : Bool} (h : Explored stl b n s c ê d alt s') :
    b = true → Searched stl d d s s' := by
  induction h with
  | cut | inLeft | inRight => intro hb; cases hb
  | leaf h _ hmax => exact fun _ => hmax.searched h
  | alone h _ _ hprune ih => exact fun _ => hprune.searched (h.popped (ih rfl))
  | both h _ _ _ hprune ihl ihr => exact fun _ => hprune.searched (h.after (ihl rfl) (ihr rfl))

/-! ## Runs -/

section NonNested

variable (hw : P.WellLocked) (hnn : P.NonNested)

include hw hnn

/-- The event that was chosen can be added. -/
theorem SearchOk.addToConf_ok (h : SearchOk stl s c d alt) (he : Chooses c ê alt s e) :
    Op.Sat (addToConf n c d e) (s.called c ê d alt) (fun nc s₁ => Adds stl n s c ê d alt e nc s₁)
      (fun _ _ => False) := by
  have hn := h.node.called c ê alt
  have hc := h.call.called ê
  obtain ⟨hen, halt⟩ := chooseEvent_mem he.chosen
  have heT : e ∈ s.evts := by
    by_cases hnil : alt = []
    · exact h.present hnil e hen
    · obtain ⟨d₁, -, v, hv, hev⟩ := h.call.src e (halt hnil)
      exact (h.node.lock.alte d₁ v hv).closed.mem e hev
  have hext := h.call.canExtend hen heT
  refine ((addToConf_lock n hn.toGood hn.cutoffs hn.lock hc.conf hc.dep hen d).always
    (addToConf_quiet n c d e)).mono (fun nc s₁ h₁ => ?_) fun err s₁ h₁ => ?_
  · exact ⟨h, he, heT, h₁.1.2, h₁.2⟩
  rcases h₁.1.2 heT with hno | ⟨hm, x, hx, hxT⟩ | ⟨t, o, T₁, T₀, maxevs, hst, hnext, hss, hT₁, hfr,
    hsteps, hfails⟩
  · obtain ⟨t, i, o, hst⟩ := hn.lock.step e heT fun heq => hext.notMem (heq ▸ hn.stack.bot)
    exact hno t i o hst
      (h.past.next_of_canExtend hn.lock hn.wf hw hnn h.exec hn.stack.closed hext hst)
  · exact hxT (h.call.present hm x hx)
  · have hwf₁ : WF T₁ s.cntr := hss.links.wf hn.wf
    have hmem := hfr.stack.closed.mem
    have hclosed : DownClosed T₁ (· ∈ s.stak) := (hss.links.older s.cntr).downClosed hn.stack.closed
      (fun _ => hn.stak_lt) fun x hx => hmem x (List.mem_cons_of_mem e hx)
    refine hfails.false hsteps hT₁
      (hfr.last_mem hwf₁.linked.causal hext.notMem hclosed) hmem ?_
    exact (Executes.push h.exec hst hnext hext.dep).of_stable (hss.stable s.cntr) hwf₁.linked
      fun x hx => ⟨hwf₁.lt_cntr (hmem x hx), hmem x hx⟩

/-- One call, when those that it makes return or reach the bound. -/
theorem exploreStep_explored (n : Nat)
    (hrec : ∀ (c : Configuration (LockState P)) ê d alt s, SearchOk stl s c d alt →
      Op.Sat (explore n c ê d alt) s (fun _ s' => Explored stl true n s c ê d alt s')
        (fun err s' => err = .outOfFuel ∧ Explored stl false n s c ê d alt s'))
    (h : SearchOk stl s c d alt) (ê : EventID) :
    Op.Sat (exploreStep n (explore n) c ê d alt) s
      (fun _ s' => Explored stl true (n + 1) s c ê d alt s')
      (fun err s' => err = .outOfFuel ∧ Explored stl false (n + 1) s c ê d alt s') := by
  refine exploreStep_rule (fun hen => ?_) (fun err hen herr => ?_) fun e hen hchoose => ?_
  · exact (maximalConf_lock (h.node.called c ê alt) h.call.cfevs).mono
      (fun _ s' hmax => .leaf h hen hmax) fun _ _ hf => hf.elim
  · obtain ⟨e, he⟩ := h.call.chooseEvent_ok h.node h.past h.complete hen ê
    cases he.symm.trans herr
  refine (h.addToConf_ok hw hnn ⟨hen, hchoose⟩).mono (fun nc s₁ ha => ?_) fun _ _ hf => hf.elim
  refine (hrec nc e d (alt.erase e) _ (ha.left hw hnn)).mono (fun _ s₂ hl => ?_)
    fun err s₂ hl => ⟨hl.1, .inLeft ha hl.2⟩
  have hls := hl.searched rfl
  rw [sat_pop hls.evolves.stak]
  have hp := ha.popped hls
  have hprune : ∀ {s₄}, Searched stl d (e :: d) s s₄ →
      Op.Sat (pruneBranch s.stak d e) s₄ (fun _ s' => PruneDone e d s₄ s') (fun _ _ => False) := by
    intro s₄ h₄
    have hed := (ha.search.toExploreOk.popped ha.chooses ha.mem ha.unfolded ha.quiet hls.node
      hls.evolves).1
    rw [← h₄.evolves.stak]
    refine (((pruneBranch_lock h₄.node hed).and (pruneBranch_keeps h₄.node hed)).always
      (pruneBranch_quiet _ d e)).mono (fun _ s' h₅ => ?_) fun _ _ hf => hf.1.1
    obtain ⟨⟨⟨hn, hev, hcntr⟩, honly, hkept⟩, hq⟩ := h₅
    exact ⟨hn, hev, hq, hcntr, honly, hkept⟩
  refine ⟨fun malt hmalt => ?_, fun err herr => ?_⟩
  · cases malt with
    | none => exact (hprune hp).mono (fun _ s' h' => .alone ha hl hmalt h') fun _ _ hf => hf.elim
    | some v =>
      refine (hrec c ê (e :: d) (v.diff s.stak) _ (ha.right hls hmalt)).mono (fun _ s₄ hr => ?_)
        fun err s₄ hr => ⟨hr.1, .inRight ha hl hmalt hr.2⟩
      exact (hprune (ha.after hls (hr.searched rfl))).mono (fun _ s' h' => .both ha hl hmalt hr h')
        fun _ _ hf => hf.elim
  · obtain ⟨r, hr, -⟩ := alt2_ok fun d₁ hd₁ =>
      ⟨(hp.node.disabled d₁ hd₁).1, fun v hv => (hp.node.lock.alte d₁ v hv).closed.mem⟩
    cases hr.symm.trans herr

theorem explore_explored : ∀ (n : Nat) (c : Configuration (LockState P)) (ê : EventID)
    (d : EventsID) (alt : Alternative) (s : UnfolderState (LockState P) LockAct),
    SearchOk stl s c d alt → Op.Sat (explore n c ê d alt) s
      (fun _ s' => Explored stl true n s c ê d alt s')
      (fun err s' => err = .outOfFuel ∧ Explored stl false n s c ê d alt s')
  | 0, _, _, _, _, _, h => ⟨rfl, .cut h⟩
  | n + 1, _, ê, _, _, _, h => exploreStep_explored hw hnn n (explore_explored n) h ê

/-- The first call. -/
theorem InitialOk.searchOk (h : InitialOk fuel (iUnfState stl false 10 P.system) c s)
    (hq : Quiet (iUnfState stl false 10 P.system) s) : SearchOk stl s c [] [] := by
  have hexplore := h.exploreOk hq
  obtain ⟨trs, htrs, hd⟩ := h.done
  have hok := hd.extendOk (iUnfState_extendOk stl)
  have hpast : PastOk P s.evts := hd.steps.pastOk botPrefix_lockTable List.mem_cons_self
    (fun x hx => mem_botPrefix.2 (List.mem_singleton.1 hx)) .bot botPrefix_pastOk
  refine ⟨hexplore, hpast, fun x hxT hx => ?_, fun _ x hx => (hd.enevs x hx).mem, List.nodup_nil⟩
  have hstak : s.stak = [botEID] := hq.stak
  rw [hstak] at hx
  -- a thread with an event above bottom was extended
  have hxb : x ≠ botEID := fun heq => hx.notMem (heq ▸ List.mem_cons_self)
  obtain ⟨t, i, o, hst⟩ := hok.lock.step x hxT hxb
  obtain ⟨rfl, hnext⟩ := hpast.next_of_canExtend hok.lock hok.wf hw hnn hok.exec
    hok.frontier.stack.closed hx hst
  obtain ⟨h0, T₀, n₀, hwf₀, hst₀, hkeeps, hmax, hh, hfound⟩ := hd.found t o (htrs t o hnext) hnext
  have hh₁ := hh.of_older hst₀.toOlder hwf₀ hok.wf.linked hkeeps
    (fun y hy => hst₀.acts (hwf₀.lt_cntr hy) (hkeeps y hy)) hmax
  have hpred := hx.mem_pred_iff hok.lock hok.wf hok.frontier hst hh₁
  have hbh : botEID ∈ h0 := by
    obtain ⟨p, hp⟩ := List.exists_mem_of_ne_nil _ (hok.wf.root hxT hxb)
    rw [← hpred, ← List.mem_singleton.1 (hx.pred p hp)]
    exact hp
  obtain ⟨⟨y, hy, hye⟩, -⟩ := hfound hbh
  have hxy : x = y := hd.good.table.unique P.restricted x hxT y hye.mem
    (hst.name.trans hye.name.symm) fun p => by rw [hpred, hye.pred]
  exact hxy ▸ hy

theorem botExplore_explored (stl : Bool) (fuel : Nat) :
    Op.Sat (botExplore fuel) (iUnfState stl false 10 P.system)
      (fun _ s' => ∃ c s, InitialOk fuel (iUnfState stl false 10 P.system) c s ∧
        Quiet (iUnfState stl false 10 P.system) s ∧ Explored stl true fuel s c botEID [] [] s')
      (fun err s' => err = .outOfFuel ∧ ∃ c s, InitialOk fuel (iUnfState stl false 10 P.system) c s ∧
        Quiet (iUnfState stl false 10 P.system) s ∧ Explored stl false fuel s c botEID [] [] s') := by
  simp only [botExplore, Op.sat_bind]
  refine ((initialExt_lock fuel (iUnfState_lockGood stl) botPrefix_frontier).always
    (initialExt_quiet fuel)).mono (fun c s h => ?_) fun err s h => ?_
  · exact (explore_explored hw hnn fuel c botEID [] [] s (h.1.searchOk hw hnn h.2)).mono
      (fun _ s' h' => ⟨c, s, h.1, h.2, h'⟩) fun err s' h' => ⟨h'.1, c, s, h.1, h.2, h'.2⟩
  · obtain ⟨⟨-, T₀, hsteps, hfails⟩, -⟩ := h
    refine (hfails.false hsteps botPrefix_lockTable List.mem_cons_self (fun x hx => ?_) .bot).elim
    exact mem_botPrefix.2 (List.mem_singleton.1 hx)

end NonNested

/-! ## The bound -/

namespace LockProgram

/-- The steps of the program. -/
def steps (P : LockProgram) : List (Nat × Nat) :=
  (List.range P.length).flatMap fun t => (List.range (P.thread t).length).map (t, ·)

theorem mem_steps {t i : Nat} {o : LockOp} (h : P.op t i = some o) : (t, i) ∈ P.steps := by
  simp only [steps, List.mem_flatMap, List.mem_range, List.mem_map, Prod.mk.injEq]
  exact ⟨t, lt_length_of_op h, i, op_lt_length h, rfl, rfl⟩

/-- A depth of the recursion that is enough: a call adds an event to the stack, of which there are no
more than there are steps, or disables one, and these differ in their step or in the predecessors that
they have on the stack. -/
def depth (P : LockProgram) : Nat := P.steps.length + P.steps.length * 2 ^ (P.steps.length + 1)

end LockProgram

/-- The step that an event is named after. -/
def Events.stepOf (T : Events LockAct) (x : EventID) : Nat × Nat :=
  ((T.nameOf x).map fun name => (name.tid.toNat, name.pos.toNat - 1)).getD (0, 0)

theorem IsStep.stepOf {T : Events LockAct} {t i : Nat} {o : LockOp} (h : IsStep P T x t i o) :
    T.stepOf x = (t, i) := by
  simp [Events.stepOf, h.name, stepName]

theorem SearchOk.stak_length_le (h : SearchOk stl s c d alt) :
    s.stak.length ≤ P.steps.length + 1 := by
  have hev := h.node.lock.toLockEvents
  have hmem : ∀ x ∈ s.stak.erase botEID, x ∈ s.stak ∧ ∃ t i o, IsStep P s.evts x t i o := by
    intro x hx
    obtain ⟨hxb, hx⟩ := h.node.stack.nodup.mem_erase_iff.1 hx
    exact ⟨hx, hev.step x (h.node.stak_mem hx) hxb⟩
  have hnd : ((s.stak.erase botEID).map s.evts.stepOf).Nodup := by
    refine (h.node.stack.nodup.erase botEID).map_on fun x hx y hy heq => ?_
    obtain ⟨hxs, t, i, o, hsx⟩ := hmem x hx
    obtain ⟨hys, t', i', o', hsy⟩ := hmem y hy
    rw [hsx.stepOf, hsy.stepOf, Prod.mk.injEq] at heq
    obtain ⟨rfl, rfl⟩ := heq
    exact h.exec.eq_of_step hev hxs hys hsx hsy
  have hsub : (s.stak.erase botEID).map s.evts.stepOf ⊆ P.steps := by
    intro p hp
    obtain ⟨x, hx, rfl⟩ := List.mem_map.1 hp
    obtain ⟨-, t, i, o, hst⟩ := hmem x hx
    rw [hst.stepOf]
    exact LockProgram.mem_steps hst.op
  have hle := (hnd.subperm hsub).length_le
  rw [List.length_map, List.length_erase_of_mem h.node.stack.bot] at hle
  omega

theorem SearchOk.disabled_length_le (h : SearchOk stl s c d alt) :
    d.length ≤ P.steps.length * 2 ^ (P.steps.length + 1) := by
  have hstep : ∀ x ∈ d, ∃ t i o, IsStep P s.evts x t i o := fun x hx =>
    h.node.lock.step x (h.node.disabled x hx).1 fun heq =>
      (h.node.disabled x hx).2.1 (heq ▸ h.node.stack.bot)
  -- an event is its step and its predecessors
  let code : EventID → (Nat × Nat) × EventsID := fun x =>
    (s.evts.stepOf x, s.stak.filter (· ∈ s.evts.predOf x))
  have hnd : (d.map code).Nodup := by
    refine h.distinct.map_on fun x hx y hy heq => ?_
    obtain ⟨hxT, -, hpx⟩ := h.node.disabled x hx
    obtain ⟨hyT, -, hpy⟩ := h.node.disabled y hy
    obtain ⟨t, i, o, hsx⟩ := hstep x hx
    obtain ⟨t', i', o', hsy⟩ := hstep y hy
    obtain ⟨hst, hpred⟩ := Prod.mk.inj heq
    rw [hsx.stepOf, hsy.stepOf, Prod.mk.injEq] at hst
    obtain ⟨rfl, rfl⟩ := hst
    refine h.node.table.unique P.restricted x hxT y hyT (hsx.name.trans hsy.name.symm) fun p => ?_
    have hiff := congrArg (p ∈ ·) hpred
    simp only [List.mem_filter, decide_eq_true_eq, eq_iff_iff] at hiff
    exact ⟨fun hp => (hiff.1 ⟨hpx p hp, hp⟩).2, fun hp => (hiff.2 ⟨hpy p hp, hp⟩).2⟩
  have hsub : d.map code ⊆ P.steps ×ˢ s.stak.sublists := by
    intro p hp
    obtain ⟨x, hx, rfl⟩ := List.mem_map.1 hp
    obtain ⟨t, i, o, hst⟩ := hstep x hx
    refine List.mem_product.2 ⟨?_, List.mem_sublists.2 List.filter_sublist⟩
    rw [hst.stepOf]
    exact LockProgram.mem_steps hst.op
  have hle := (hnd.subperm hsub).length_le
  rw [List.length_map, List.length_product, List.length_sublists] at hle
  refine hle.trans (Nat.mul_le_mul_left _ (Nat.pow_le_pow_right (by decide) h.stak_length_le))

/-- Where the bound is reached, the stack and the disabled events have grown with each call. -/
theorem Explored.depth_le {b : Bool} (h : Explored stl b n s c ê d alt s') :
    b = false → n + s.stak.length + d.length ≤ P.depth + 1 := by
  induction h with
  | cut h =>
    intro _
    have h₁ := h.stak_length_le
    have h₂ := h.disabled_length_le
    simp only [LockProgram.depth]
    omega
  | leaf | alone | both => intro hb; cases hb
  | inLeft h _ ih =>
    intro _
    have hlen := ih rfl
    have hstak := h.quiet.stak
    simp only [UnfolderState.withStack, UnfolderState.called, List.length_cons] at hlen hstak
    rw [hstak] at hlen
    omega
  | inRight h _ _ _ _ ih =>
    intro _
    have hlen := ih rfl
    have hstak := h.quiet.stak
    simp only [UnfolderState.withStack, UnfolderState.called, List.length_cons] at hlen hstak
    rw [hstak] at hlen
    omega

/-! ## No run aborts -/

/-- **Without nested critical sections the exploration returns**, in stateful and in stateless mode: with
any bound it does not abort, and `P.depth + 1` is enough for it to return. -/
theorem unfold_returns (hw : P.WellLocked) (hnn : P.NonNested) (fuel : Nat) (stl : Bool) :
    ((P.unfold fuel stl).1 = .ok () ∨ (P.unfold fuel stl).1 = .error .outOfFuel) ∧
      (P.depth < fuel → (P.unfold fuel stl).1 = .ok ()) := by
  have h := botExplore_explored hw hnn stl fuel
  rw [LockProgram.unfold, unfolder]
  rcases hrun : botExplore fuel (iUnfState stl false 10 P.system) with ⟨err | _, s'⟩
  · obtain ⟨rfl, c, s, -, hq, hex⟩ := h.of_eq_error hrun
    refine ⟨.inr rfl, fun hfuel => ?_⟩
    have hdepth := hex.depth_le rfl
    have hstak : s.stak = [botEID] := hq.stak
    rw [hstak] at hdepth
    simp at hdepth
    omega
  · exact ⟨.inl rfl, fun _ => rfl⟩

theorem unfold_returns_twoSections :
    twoSections.WellLocked ∧ twoSections.NonNested ∧
      (twoSections.unfold (twoSections.depth + 1) false).1 = .ok () ∧
      (twoSections.unfold (twoSections.depth + 1) true).1 = .ok () :=
  ⟨by decide, by decide, (unfold_returns (by decide) (by decide) _ false).2 (Nat.lt_succ_self _),
    (unfold_returns (by decide) (by decide) _ true).2 (Nat.lt_succ_self _)⟩

/-- Two threads that take mutex `0` while they hold mutex `1`; the first one gives `1` back first. -/
def overlappingSections : LockProgram :=
  [[.lock 1, .lock 0, .unlock 1, .unlock 0], [.lock 1, .lock 0]]

/-- With nested critical sections the run can abort: the history that `historiesLock` gives the second
thread's `lock 0` leaves the mutex held, so that an alternative is built from an event the stack does not
enable, and `explore` finds `A ∩ en(C) = ∅`. -/
theorem overlappingSections_aborts :
    overlappingSections.WellLocked ∧
      (overlappingSections.unfold 40 false).1 = .error (.altDisjoint 7 [6] [8] [7, 5, 4, 1, 0]) ∧
      (overlappingSections.unfold 40 true).1 = .error (.altDisjoint 7 [6] [8] [7, 5, 4, 1, 0]) :=
  ⟨by decide, by decide +kernel, by decide +kernel⟩

end Poet
