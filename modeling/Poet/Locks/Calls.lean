import Poet.Exploration.Calls
import Poet.Locks.Execution
import Poet.Locks.Explore

/-!
# The calls of a run on a lock program

What holds of each call that the exploration makes on a lock program (`Invocation.LockOk`), by one
lemma for each way in which a call is reached. In particular the stack of a call of `explore` is an
execution of the program that ends in the state of its configuration, and `prune` is called with the
core of the prefix, of which it deletes nothing (`prune_keeps_core`).
-/

namespace Poet

variable {P : LockProgram} {s s₁ s₃ s₄ : UnfolderState (LockState P) LockAct}
  {c nc : Configuration (LockState P)} {d conf maxevs : EventsID} {alt v : Alternative} {e ê : EventID}
  {g : LockState P} {n : Nat} {stl : Bool}

/-- A call of `explore`. -/
structure ExploreOk (stl : Bool) (s : UnfolderState (LockState P) LockAct)
    (c : Configuration (LockState P)) (d : EventsID) (alt : Alternative) : Prop where
  mode : s.opts.stateless = stl
  node : NodeOk P s d
  call : CallOk s c d alt
  calls : CallsOk stl s
  exec : Executes P s.evts s.stak c.state

/-- A call of `unfold`. -/
structure UnfoldOk (s : UnfolderState (LockState P) LockAct) (c : Configuration (LockState P))
    (e : EventID) : Prop extends Good P.system s where
  cutoffs : s.opts.cutoffs = false
  lock : LockTable P s.evts
  conf : ConfOk P.system s.evts s.cntr s.stak c
  dep : ∀ x ∈ c.enevs, x ∈ s.evts → ∀ y ∈ s.stak, Dep s.evts y x → Lt s.evts y x
  enabled : e ∈ c.enevs
  present : e ∈ s.evts
  exec : Executes P s.evts s.stak c.state

/-- The prefix `T` is extended from the event `e` of the configuration `conf`, which ends in `g`. -/
structure ExtendOk (T : Events LockAct) (k : Nat) (conf maxevs : EventsID) (e : EventID)
    (g : LockState P) : Prop where
  wf : WF T k
  lock : LockTable P T
  frontier : Frontier T conf maxevs
  last : e ∈ maxevs
  exec : Executes P T conf g

/-- The histories of the next step of thread `t`, a lock of `m`, are computed from the largest one. -/
structure LockHistoryOk (T : Events LockAct) (k : Nat) (conf maxevs : EventsID) (e : EventID)
    (g : LockState P) (t m : Nat) (h0 : History) : Prop extends ExtendOk T k conf maxevs e g where
  next : g.next t = some (.lock m)
  history : IsHistory (stepName t (g.pc t), (LockOp.lock m).act) T maxevs h0
  mem : e ∈ h0

/-- What holds of a call. -/
def Invocation.LockOk (stl : Bool) : Invocation (LockState P) LockAct → Prop
  | .initialExt _ s => s = iUnfState stl false 10 P.system
  | .explore _ c _ d alt s => ExploreOk stl s c d alt
  | .unfold _ c e s => UnfoldOk s c e
  | .extend _ e maxevs g th s => ∃ conf, ExtendOk s.evts s.cntr conf maxevs e g ∧
      ∃ (t : Nat) (o : LockOp), th = (t : Int) ∧ g.next t = some o
  | .ext _ e maxevs g' tid pos acts s => ∃ conf g, ExtendOk s.evts s.cntr conf maxevs e g ∧
      ∃ (t : Nat) (o : LockOp), g.next t = some o ∧ g' = g.step t ∧ tid = (t : Int) ∧
        pos = ((g.pc t + 1 : Nat) : Int) ∧ acts = o.act
  | .historiesLock info e h0 T => ∃ (g : LockState P) (k : Nat) (conf maxevs : EventsID) (t m : Nat),
      LockHistoryOk T k conf maxevs e g t m h0 ∧ info = (stepName t (g.pc t), (LockOp.lock m).act)
  | .prune e core s => s.opts.stateless = true ∧
      ∃ d, NodeOk P s (e :: d) ∧ e ∉ d ∧ IsCore s d (· ∈ core)

/-! ## The calls of `explore` -/

theorem LockUnfolded.executes (hu : LockUnfolded n s c d e nc s₁) (hg : Good P.system s)
    (hc : EnabledOk s c) (he : e ∈ c.enevs) (heT : e ∈ s.evts)
    (hE : Executes P s.evts s.stak c.state) : Executes P s₁.evts (e :: s₁.stak) nc.state := by
  obtain ⟨t, o, hst, hnext, hstate⟩ := hu.step
  have hE' : Executes P s.evts (e :: s.stak) nc.state := by
    rw [hstate]
    exact .push hE hst hnext (hc.dep e he heT)
  rw [hu.grows.stak]
  refine hE'.of_stable hu.stable hu.good.linked fun x hx => ?_
  have hxT : x ∈ s.evts := by
    rcases List.mem_cons.1 hx with rfl | hx
    · exact heT
    · exact hg.stak_mem hx
  exact ⟨hg.wf.lt_cntr hxT, hu.grows.keeps x hxT⟩

namespace ExploreOk

variable (h : ExploreOk stl s c d alt)

include h

theorem adds (he : Chooses c ê alt s e)
    (hadd : addToConf n c d e (s.called c ê d alt) = (.ok nc, s₁)) :
    e ∈ s.evts ∧ LockUnfolded n (s.called c ê d alt) c d e nc s₁ ∧
      Quiet (s.called c ê d alt) s₁ := by
  have hn := h.node.called c ê alt
  have hsat := (addToConf_lock n hn.toGood hn.cutoffs hn.lock h.call.conf h.call.dep
    (chooseEvent_mem he.chosen).1 d).always (addToConf_quiet n c d e)
  obtain ⟨⟨heT, hu⟩, hq⟩ := hsat.of_eq_ok hadd
  exact ⟨heT, hu, hq⟩

theorem push (he : Chooses c ê alt s e) (heT : e ∈ s.evts)
    (hu : LockUnfolded n (s.called c ê d alt) c d e nc s₁) (hq : Quiet (s.called c ê d alt) s₁) :
    ExploreOk stl (s₁.withStack (e :: s₁.stak)) nc d (alt.erase e) := by
  have hn := h.node.called c ê alt
  have hc := h.call.called ê
  have hen := (chooseEvent_mem he.chosen).1
  exact ⟨(congrArg (·.stateless) hq.opts).trans h.mode,
    hn.push hc.toEnabledOk hen heT (hc.chosen_notMem hn he.chosen heT) hu,
    hc.push hn he.chosen heT hu, (h.calls.called h.node h.call h.mode ê).of_calls hq.calls,
    hu.executes hn.toGood hc.toEnabledOk hen heT h.exec⟩

theorem left (he : Chooses c ê alt s e)
    (hadd : addToConf n c d e (s.called c ê d alt) = (.ok nc, s₁)) :
    ExploreOk stl (s₁.withStack (e :: s₁.stak)) nc d (alt.erase e) := by
  obtain ⟨heT, hu, hq⟩ := h.adds he hadd
  exact h.push he heT hu hq

/-- After the branch with `e` the event is disabled. -/
theorem popped (he : Chooses c ê alt s e) (heT : e ∈ s.evts)
    (hu : LockUnfolded n (s.called c ê d alt) c d e nc s₁) (hq : Quiet (s.called c ê d alt) s₁)
    {s₂ : UnfolderState (LockState P) LockAct} (hn₂ : NodeOk P s₂ d)
    (hev₂ : NodeEvolves d (s₁.withStack (e :: s₁.stak)) s₂) :
    e ∉ d ∧ NodeOk P (s₂.withStack s₁.stak) (e :: d) ∧ NodeEvolves d s (s₂.withStack s₁.stak) := by
  have hn := h.node.called c ê alt
  have hc := h.call.called ê
  have hext := hc.canExtend (chooseEvent_mem he.chosen).1 heT
  exact ⟨hc.chosen_notMem hn he.chosen heT, hn.pop hext hu hn₂ hev₂,
    (h.node.evolves_called c ê alt).trans (.pop hu hext.notMem hq.calls hev₂)⟩

theorem branchDone (hleft : BranchDone n c ê d alt s e s₃) :
    e ∉ d ∧ NodeOk P s₃ (e :: d) ∧ NodeEvolves d s s₃ ∧ CallsOk stl s₃ := by
  obtain ⟨he, nc, s₁, s₂, hadd, hrun, hpop⟩ := hleft
  obtain ⟨heT, hu, hq⟩ := h.adds he hadd
  have hl := h.left he hadd
  obtain ⟨hn₂, hev₂, hcalls₂⟩ :=
    (explore_lock n nc e d (alt.erase e) _ hl.mode hl.node hl.call hl.calls).of_eq_ok hrun
  obtain rfl : s₂.withStack s₁.stak = s₃ :=
    ((sat_pop (Q := fun _ t => s₂.withStack s₁.stak = t) (E := fun _ _ => True) hev₂.stak).2
      rfl).of_eq_ok hpop
  obtain ⟨hed, hn₃, hev₃⟩ := h.popped he heT hu hq hn₂ hev₂
  exact ⟨hed, hn₃, hev₃, hcalls₂⟩

theorem exec_of_evolves (hev : NodeEvolves d s s₃) (hg : Good P.system s₃) :
    Executes P s₃.evts s₃.stak c.state := by
  rw [hev.stak]
  exact h.exec.of_stable hev.stable hg.linked fun x hx => ⟨h.node.stak_lt hx, hev.kept x hx⟩

/-- The call without `e`, when there is an alternative. -/
theorem follow (hn₃ : NodeOk P s₃ (e :: d)) (hev₃ : NodeEvolves d s s₃) (hcalls₃ : CallsOk stl s₃)
    (halt : alt2 s₃.stak s₃.evts (e :: d) (e :: d) = .ok (some v)) :
    ExploreOk stl s₃ c (e :: d) (v.diff s.stak) := by
  obtain ⟨r, hr, hsome, -⟩ := alt2_ok fun d₁ hd₁ =>
    ⟨(hn₃.disabled d₁ hd₁).1, fun v hv => (hn₃.lock.alte d₁ v hv).closed.mem⟩
  obtain rfl : r = some v := Except.ok.inj (hr.symm.trans halt)
  obtain ⟨d₁, hd₁, hv, hpass⟩ := hsome v rfl
  refine ⟨(congrArg (·.stateless) hev₃.opts).trans h.mode, hn₃, ?_, hcalls₃,
    h.exec_of_evolves hev₃ hn₃.toGood⟩
  rw [← hev₃.stak]
  exact CallOk.follow (h.call.toEnabledOk.of_evolves h.node.toGood hev₃ hn₃.toGood) hn₃ hd₁ hv hpass

theorem right (hleft : BranchDone n c ê d alt s e s₃)
    (halt : alt2 s₃.stak s₃.evts (e :: d) (e :: d) = .ok (some v)) :
    ExploreOk stl s₃ c (e :: d) (v.diff s.stak) := by
  obtain ⟨-, hn₃, hev₃, hcalls₃⟩ := h.branchDone hleft
  exact h.follow hn₃ hev₃ hcalls₃ halt

theorem prune {malt : Option Alternative} {corePre : EventsID}
    (hleft : BranchDone n c ê d alt s e s₃)
    (halt : alt2 s₃.stak s₃.evts (e :: d) (e :: d) = .ok malt)
    (hright : onSome malt (fun v => explore n c ê (e :: d) (v.diff s.stak)) s₃ = (.ok (), s₄))
    (hcore : core s.stak d s₄.evts = .ok corePre) :
    NodeOk P s₄ (e :: d) ∧ e ∉ d ∧ IsCore s₄ d (· ∈ corePre) := by
  obtain ⟨hed, hn₃, hev₃, -⟩ := h.branchDone hleft
  have hafter : NodeOk P s₄ (e :: d) ∧ NodeEvolves d s s₄ := by
    cases malt with
    | none =>
      obtain rfl : s₃ = s₄ := (Prod.mk.inj hright).2
      exact ⟨hn₃, hev₃⟩
    | some v =>
      have hr := h.right hleft halt
      obtain ⟨hn₄, hev₄, -⟩ :=
        (explore_lock n c ê (e :: d) _ s₃ hr.mode hr.node hr.call hr.calls).of_eq_ok hright
      exact ⟨hn₄, hev₃.trans hev₄.weaken⟩
  obtain ⟨hn₄, hev₄⟩ := hafter
  obtain ⟨r, hr, hK⟩ := hn₄.core
  rw [hev₄.stak] at hr
  obtain rfl : r = corePre := Except.ok.inj (hr.symm.trans hcore)
  exact ⟨hn₄, hed, hK⟩

theorem unfold (he : Chooses c ê alt s e)
    (hdisa : onEvts (setDisa e d) (s.called c ê d alt) = (.ok (), s₁)) :
    UnfoldOk s₁ (if s₁.opts.stateless then pruneConfig c s₁.evts else c) e := by
  have hn := h.node.called c ê alt
  have hen := (chooseEvent_mem he.chosen).1
  obtain ⟨heT, hg₁, hgr, hss, hT₁, -⟩ := (setDisa_lock hn.toGood hn.lock d).of_eq_ok hdisa
  have hc₁ := hn.toGood.confOk h.call.conf (hgr.evolves fun _ => hn.stak_mem) hg₁
  have hdep₁ := hss.lt_of_dep hgr.stak h.call.dep
  have hE : Executes P s₁.evts s₁.stak c.state := by
    rw [hgr.stak]
    exact h.exec.of_stable (hss.stable s.cntr) hg₁.linked fun x hx =>
      ⟨h.node.stak_lt hx, hgr.keeps x (h.node.stak_mem hx)⟩
  split
  · refine ⟨hg₁, (congrArg (·.cutoffs) hgr.opts).trans hn.cutoffs, hT₁, hc₁.pruneConfig,
      fun x hx => hdep₁ x (List.mem_filter.1 hx).1, ?_, hgr.keeps e heT, hE⟩
    exact List.mem_filter.2 ⟨hen, by simpa [filterEvent, AList.lookup_isSome] using hgr.keeps e heT⟩
  · exact ⟨hg₁, (congrArg (·.cutoffs) hgr.opts).trans hn.cutoffs, hT₁, hc₁, hdep₁, hen,
      hgr.keeps e heT, hE⟩

end ExploreOk

/-! ## The calls of `extend` and `ext` -/

/-- The configuration is the same after threads were extended from it. -/
theorem ThreadsDone.extendOk {fuel : Nat} {done : List TId} {r : EventsID}
    (h : ThreadsDone fuel conf maxevs e g s done r s₁) (hs : ExtendOk s.evts s.cntr conf maxevs e g) :
    ExtendOk s₁.evts s₁.cntr conf maxevs e g where
  wf := h.good.wf
  lock := h.steps.lockTable hs.lock
  frontier := h.grows.frontier hs.wf h.good.linked hs.frontier
  last := hs.last
  exec := hs.exec.of_stable (h.steps.stable h.grows.older) h.good.linked fun x hx =>
    have hxT := hs.frontier.stack.closed.mem x hx
    ⟨hs.wf.lt_cntr hxT, h.grows.keeps x hxT⟩

theorem UnfoldOk.extend (h : UnfoldOk s c e) {nstc : LockState P} {s₂ : UnfolderState (LockState P) LockAct}
    {iprede : EventsID} {itrs entrs done rest : List TId} {th : TId} {bs : List EventsID}
    (hexec : execute c.state e s = (.ok nstc, s₁)) (hpred : getPred e s₁.evts = .ok iprede)
    (hentrs : (·.map (·.1)) <$> liftDom (Domain.enabled s₁.syst nstc) = .ok entrs)
    (hsplit : entrs.diff itrs = done ++ th :: rest)
    (hdone : done.mapM' (Poet.extend n e (e :: c.maevs.diff iprede) nstc) s₁ = (.ok bs, s₂)) :
    ∃ conf, ExtendOk s₂.evts s₂.cntr conf (e :: c.maevs.diff iprede) e nstc ∧
      ∃ (t : Nat) (o : LockOp), th = (t : Int) ∧ nstc.next t = some o := by
  have hheb : e ≠ botEID := fun hb => (h.conf.enevs e h.enabled h.present).notMem (hb ▸ h.stack.bot)
  obtain ⟨hg₁, hsame, hcntr, hstak, hopts, t, o, hst, hnext, rfl⟩ :=
    (execute_lock h.toGood h.lock hheb h.present c.state).of_eq_ok hexec
  have hss := SameSteps.of_sameEvents hsame
  have hold : ∀ x ∈ s.evts, x < s.cntr ∧ x ∈ s₁.evts := fun x hx =>
    ⟨h.wf.lt_cntr hx, hss.links.mem_iff.2 hx⟩
  have heT₁ := (hold e h.present).2
  have hev : Evolves s s₁ := ⟨hstak, hopts, Nat.le_of_eq hcntr.symm, hsame.sameLinks.older _,
    fun x hx => (hold x (h.stak_mem hx)).2, fun _ x hx => (hold x hx).2⟩
  have hc₁ := h.toGood.confOk h.conf hev hg₁
  obtain rfl : s₁.evts.predOf e = iprede := Except.ok.inj ((getPred_ok heT₁).symm.trans hpred)
  have hE : Executes P s.evts (e :: s.stak) (c.state.step t) :=
    .push h.exec hst hnext (h.dep e h.enabled h.present)
  have hok : ExtendOk s₁.evts s₁.cntr (e :: s₁.stak) (e :: c.maevs.diff (s₁.evts.predOf e)) e
      (c.state.step t) := by
    refine ⟨hg₁.wf, hsame.lockTable hg₁.wf h.lock,
      frontier_push hg₁.linked hg₁.stack (hc₁.enevs e h.enabled heT₁) heT₁ hc₁.nodup hc₁.maevs,
      List.mem_cons_self, ?_⟩
    rw [hstak]
    refine hE.of_stable (hss.stable s.cntr) hg₁.linked fun x hx => hold x ?_
    rcases List.mem_cons.1 hx with rfl | hx
    · exact h.present
    · exact h.stak_mem hx
  obtain ⟨l, hl, -⟩ := enabled_lock (c.state.step t)
  rw [hg₁.syst_eq, hl] at hentrs
  obtain rfl : l.map (·.1) = entrs := Except.ok.inj hentrs
  have hthreads : ∀ tid ∈ done ++ th :: rest, _ := fun tid htid =>
    enabled_threads (h.conf.reached.step_lock hnext) hl tid (List.diff_subset _ itrs (hsplit ▸ htid))
  have hdone' := (extendThreads_lock n hg₁ (hopts ▸ h.cutoffs) hok.lock hok.frontier hok.last
    fun tid htid => hthreads tid (List.mem_append_left _ htid)).of_eq_ok hdone
  exact ⟨_, hdone'.extendOk hok, (hthreads th (by simp)).1⟩

theorem iUnfState_extendOk (stl : Bool) :
    ExtendOk (iUnfState stl false 10 P.system).evts (iUnfState stl false 10 P.system).cntr [botEID]
      [botEID] botEID (LockState.init P) :=
  have hs := iUnfState_lockGood (P := P) stl
  ⟨hs.wf, hs.lock, botPrefix_frontier, List.mem_cons_self, .bot⟩

theorem InitialOk.exploreOk {fuel : Nat} (h : InitialOk fuel (iUnfState stl false 10 P.system) c s)
    (hq : Quiet (iUnfState stl false 10 P.system) s) : ExploreOk stl s c [] [] := by
  obtain ⟨hn, hc⟩ := h.node
  obtain ⟨trs, -, hd⟩ := h.done
  refine ⟨congrArg (·.stateless) hq.opts, hn, hc, fun _ k hk => ?_, ?_⟩
  · rw [hq.calls] at hk
    cases hk
  · rw [h.state, hq.stak]
    exact (hd.extendOk (iUnfState_extendOk stl)).exec

theorem initialExt_extend {done rest : List TId} {tr : TId} {en : EventsID}
    (htrs : (·.map (·.1)) <$> liftDom (Domain.enabled P.system P.system.gbst) = .ok (done ++ tr :: rest))
    (hdone : (done.foldlM (fun en tr => do
      let es ← extend n botEID [botEID] P.system.gbst tr
      pure (es ++ en)) []) (iUnfState stl false 10 P.system) = (.ok en, s₁)) :
    ∃ conf, ExtendOk s₁.evts s₁.cntr conf [botEID] botEID P.system.gbst ∧
      ∃ (t : Nat) (o : LockOp), tr = (t : Int) ∧ LockState.next P.system.gbst t = some o := by
  obtain ⟨l, hl, -⟩ := enabled_lock (LockState.init P)
  have htrs' : l.map (·.1) = done ++ tr :: rest := by
    rw [show P.system.gbst = LockState.init P from rfl, hl] at htrs
    exact Except.ok.inj htrs
  have hthreads : ∀ tid ∈ done ++ tr :: rest, _ := fun tid htid =>
    enabled_threads .init hl tid (htrs' ▸ htid)
  have hdone' := (initialThreads_lock n (iUnfState_lockGood stl) botPrefix_frontier fun tid htid =>
    hthreads tid (List.mem_append_left _ htid)).of_eq_ok hdone
  exact ⟨_, hdone'.extendOk (iUnfState_extendOk stl), (hthreads tr (by simp)).1⟩

/-! ## All calls -/

theorem Invokes.lockOk {i j : Invocation (LockState P) LockAct} (h : Invokes i j) (hi : i.LockOk stl) :
    j.LockOk stl := by
  cases h with
  | firstExtend htrs hdone =>
    obtain rfl := hi
    exact initialExt_extend htrs hdone
  | unfold he hdisa => exact ExploreOk.unfold hi he hdisa
  | left he hadd => exact ExploreOk.left hi he hadd
  | right hleft halt => exact ExploreOk.right hi hleft halt
  | prune hleft halt hright hmode hcore =>
    exact ⟨hmode, _, ExploreOk.prune hi hleft halt hright hcore⟩
  | extend hexec hpred _ _ hentrs hsplit hdone =>
    exact UnfoldOk.extend hi hexec hpred hentrs hsplit hdone
  | @ext n e maxevs g nst th pos acts s s₁ s₂ warns newEvents done rest bs hrun hwarns hsplit hdone =>
    obtain ⟨conf, hok, t, o, rfl, hnext⟩ := hi
    obtain ⟨rfl, rfl⟩ : [] = warns ∧ lockRun g (t : Int) = newEvents := by
      simpa using Except.ok.inj hrun
    -- a thread has one result, so nothing comes before it
    rw [lockRun_of_next hnext] at hsplit
    obtain ⟨rfl, hr⟩ : done = [] ∧ (nst, pos, acts) = (g.step t, ((g.pc t + 1 : Nat) : Pos), o.act) := by
      cases done with
      | nil => exact ⟨rfl, (List.cons.inj hsplit).1.symm⟩
      | cons a l => simp at hsplit
    simp only [Prod.mk.injEq] at hr
    obtain ⟨rfl, rfl, rfl⟩ := hr
    obtain rfl : s₁ = s₂ := (Prod.mk.inj hdone).2
    obtain rfl := (Prod.mk.inj hwarns).2
    exact ⟨conf, g, hok, t, o, hnext, rfl, rfl, rfl, rfl⟩
  | @historiesLock n e maxevs g' tid pos acts s sym succe h0 hsym _ hh0 he hkind hlock =>
    obtain ⟨conf, g, hok, t, o, hnext, rfl, rfl, rfl, rfl⟩ := hi
    obtain rfl : ⟨(t : Int)⟩ = sym := Except.ok.inj hsym
    obtain ⟨h0', hok', hh⟩ := history_ok (stepName t (g.pc t), o.act) hok.wf.linked.causal
      (fun _ => hok.frontier.mem) hok.frontier.nodup hok.frontier.anti
    obtain rfl : h0' = h0 := Except.ok.inj (hok'.symm.trans hh0)
    cases o with
    | unlock m => cases hkind
    | lock m => exact ⟨g, s.cntr, conf, maxevs, t, m, ⟨hok, hnext, hh, he⟩, rfl⟩

theorem Invoked.lockOk {fuel : Nat} {i : Invocation (LockState P) LockAct}
    (h : Invoked fuel (iUnfState stl false 10 P.system) i) : i.LockOk stl := by
  induction h with
  | initialExt => exact rfl
  | @explore c s hinit =>
    obtain ⟨hi, hq⟩ := ((initialExt_lock fuel (iUnfState_lockGood stl) botPrefix_frontier).always
      (initialExt_quiet fuel)).of_eq_ok hinit
    exact hi.exploreOk hq
  | step _ hij ih => exact hij.lockOk ih

/-! ## Pruning -/

/-- **Pruning keeps the core.** Whenever the stateless exploration calls `prune e core`, the call returns
and every event of `core` is in the prefix afterwards, with the same name, actions, predecessors and
disabled set. -/
theorem prune_keeps_core {fuel : Nat} {core : EventsID}
    (h : Invoked fuel (iUnfState true false 10 P.system) (.prune e core s)) :
    ∃ s', prune e core s = (.ok (), s') ∧ ∀ x ∈ core, SameEvent s.evts s'.evts x := by
  obtain ⟨hm, d, hn, hed, hK⟩ := h.lockOk
  have hsat := prune_lock hn hm hK hed
  rcases hrun : prune e core s with ⟨_ | _, s'⟩
  · exact (hsat.of_eq_error hrun).elim
  · exact ⟨s', rfl, (hsat.of_eq_ok hrun).2.2.1⟩

/-- A call of `explore` that returns in stateless mode has called `prune`, unless its configuration is
maximal. -/
theorem exists_prune {s' : UnfolderState (LockState P) LockAct} (hen : c.enevs ≠ [])
    (hm : s'.opts.stateless = true) (hrun : explore (n + 1) c ê d alt s = (.ok (), s')) :
    ∃ e core s₄, Invokes (.explore (n + 1) c ê d alt s) (.prune e core s₄) := by
  obtain ⟨e, malt, s₃, s₄, hleft, halt, hright, hprune⟩ := exists_pruneBranch hen hrun
  by_cases hm₄ : s₄.opts.stateless = true
  · have hsat : Op.Sat (pruneBranch s.stak d e) s₄
        (fun _ _ => ∃ corePre, core s.stak d s₄.evts = .ok corePre) fun _ _ => True := by
      simp only [pruneBranch, Op.sat_bind, Op.sat_get, hm₄, if_true, Op.sat_monadLift]
      exact ⟨fun corePre hcore => Op.sat_of_ok fun _ _ _ => ⟨corePre, hcore⟩, fun _ _ => trivial⟩
    obtain ⟨corePre, hcore⟩ := hsat.of_eq_ok hprune
    exact ⟨e, corePre, s₄, .prune hleft halt hright hm₄ hcore⟩
  · have hsat : Op.Sat (pruneBranch s.stak d e) s₄ (fun _ t => t = s₄) fun _ _ => True := by
      simp only [pruneBranch, Op.sat_bind, Op.sat_get, hm₄, Bool.false_eq_true, if_false, Op.sat_pure]
    rw [hsat.of_eq_ok hprune] at hm
    exact absurd hm hm₄

/-- A stateless run that returns and has an enabled event at the start prunes the prefix. -/
theorem exists_invoked_prune (hrun : (P.unfold (n + 1) true).1 = .ok ())
    (hm : (P.unfold (n + 1) true).2.opts.stateless = true)
    (hen : (initialExt (n + 1) (iUnfState true false 10 P.system)).1.toOption.any
      (fun c => !c.enevs.isEmpty) = true) :
    ∃ e core s, Invoked (n + 1) (iUnfState true false 10 P.system) (.prune e core s) := by
  have hbot : botExplore (n + 1) (iUnfState true false 10 P.system) =
      (.ok (), (P.unfold (n + 1) true).2) := Prod.ext hrun rfl
  obtain ⟨c, s, hinit, hexplore⟩ := Op.run_bind_eq_ok.1 hbot
  have hc : c.enevs ≠ [] := by simpa [hinit, Except.toOption] using hen
  obtain ⟨e, core, s₄, hprune⟩ := exists_prune hc hm hexplore
  exact ⟨e, core, s₄, (Invoked.explore hinit).step hprune⟩

/-- The run on two critical sections. -/
theorem prune_keeps_core_twoSections : ∃ e core s s',
    Invoked 20 (iUnfState true false 10 twoSections.system) (.prune e core s) ∧
      prune e core s = (.ok (), s') ∧ ∀ x ∈ core, SameEvent s.evts s'.evts x := by
  obtain ⟨e, core, s, h⟩ := exists_invoked_prune (P := twoSections) (n := 19) (by decide +kernel)
    (by decide +kernel) (by decide +kernel)
  obtain ⟨s', hs'⟩ := prune_keeps_core h
  exact ⟨e, core, s, s', h, hs'⟩

end Poet
