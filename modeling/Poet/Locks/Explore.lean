import Poet.Locks.Node

/-!
# The exploration of a lock program

Every call of `explore` in a stateful run is made with a stack that is a configuration of the prefix,
with the maximal events of it, with enabled events that extend it without a conflict, and with
disabled events of which none is chosen (`unfold_callInvariant`). The step lemma is
`exploreStep_lock`; the run lemma `explore_lock` follows by induction on the bound.
-/

namespace Poet

variable {P : LockProgram} {s s' s₁ : UnfolderState (LockState P) LockAct}
  {c nc : Configuration (LockState P)} {d : EventsID} {alt : Alternative} {e ê : EventID} {fuel : Nat}

/-- What is to hold of a call `explore c ê d alt`. -/
structure CallInvariant (k : Call (LockState P) LockAct) : Prop where
  /-- The stack is a configuration of the prefix. -/
  closed : ∀ x ∈ k.stak, x ∈ k.evts ∧ ∀ y, Lt k.evts y x → y ∈ k.stak
  conflictFree : ∀ x ∈ k.stak, ∀ y ∈ k.stak, y ∉ k.evts.icnfOf x
  maximal : ∀ x, x ∈ k.conf.maevs ↔ x ∈ k.stak ∧ ∀ y ∈ k.stak, ¬ Lt k.evts x y
  enabled : ∀ x ∈ k.conf.enevs, x ∈ k.evts ∧ x ∉ k.stak ∧ (∀ p ∈ k.evts.predOf x, p ∈ k.stak) ∧
    ∀ y ∈ k.stak, y ∉ k.evts.icnfOf x
  disabled : ∀ x ∈ k.d, x ∈ k.evts ∧ x ∉ k.stak ∧ ∀ p ∈ k.evts.predOf x, p ∈ k.stak
  chosen : ∀ e, chooseEvent k.last k.conf.enevs k.alt k.stak = .ok e → e ∉ k.d

theorem CallOk.callInvariant (h : CallOk s c d alt) (hn : NodeOk P s d)
    (hm : s.opts.stateless = false) (ê : EventID) : CallInvariant ⟨c, ê, d, alt, s.stak, s.evts⟩ where
  closed x hx := ⟨hn.stak_mem hx, fun _ hlt => hn.stack.closed.of_lt hx hlt⟩
  conflictFree _ hx _ hy := hn.conflictFree hx hy
  maximal := h.conf.maevs
  enabled x hx := by
    have hxT := h.present hm x hx
    have hext := h.canExtend hx hxT
    exact ⟨hxT, hext.notMem, hext.pred, fun _ hy => hext.noConflict hn.lock hn.wf.bot hy⟩
  disabled := hn.disabled
  chosen e he := h.chosen_notMem hn he (h.present hm e (chooseEvent_mem he).1)

/-- In stateful mode, all calls so far satisfy their invariant. -/
def CallsOk (stl : Bool) (s : UnfolderState (LockState P) LockAct) : Prop :=
  stl = false → ∀ k ∈ s.calls, CallInvariant k

theorem CallsOk.of_calls {stl : Bool} (h : CallsOk stl s) (hc : s'.calls = s.calls) :
    CallsOk stl s' := by
  intro hm
  rw [hc]
  exact h hm

theorem NodeOk.called (h : NodeOk P s d) (c : Configuration (LockState P)) (ê : EventID)
    (alt : Alternative) : NodeOk P (s.called c ê d alt) d where
  syst_eq := h.syst_eq
  table := h.table
  seen := h.seen
  stack := h.stack
  cutoffs := h.cutoffs
  lock := h.lock
  ordered := h.ordered
  disabled := h.disabled
  idle := h.idle

theorem CallOk.called (h : CallOk s c d alt) (ê : EventID) : CallOk (s.called c ê d alt) c d alt :=
  ⟨⟨h.conf, h.dep, h.present, h.cfevs⟩, ⟨h.nodup, h.fresh, h.src, h.pred, h.cf, h.just⟩⟩

theorem CallsOk.called {stl : Bool} (h : CallsOk stl s) (hn : NodeOk P s d) (hc : CallOk s c d alt)
    (hm : s.opts.stateless = stl) (ê : EventID) : CallsOk stl (s.called c ê d alt) := by
  intro hstl k hk
  rcases List.mem_cons.1 hk with rfl | hk
  · exact hc.callInvariant hn (hm.trans hstl) ê
  · exact h hstl k hk

theorem NodeOk.evolves_called (h : NodeOk P s d) (c : Configuration (LockState P)) (ê : EventID)
    (alt : Alternative) : NodeEvolves d s (s.called c ê d alt) where
  stak := rfl
  opts := rfl
  cntr := Nat.le_refl _
  older := .refl _ _
  kept _ := h.stak_mem
  stateful _ _ hx := hx
  stable := .refl _ _
  disabled x hx := (h.disabled x hx).1
  altes _ _ _ hv := hv
  disas _ _ := rfl
  calls := List.suffix_cons _ _

/-! ## A maximal configuration -/

theorem AltesAdded.nodeOk {evs : EventsID} {done : EventID → EventID → Prop}
    (h : AltesAdded s evs done s₁) (hn : NodeOk P s d) (hevs : ∀ x ∈ evs, x ∈ s.stak) :
    NodeOk P s₁ d where
  toLockGood := h.lockGood hn.toLockGood
  disabled x hx := by
    rw [h.steps.links.mem_iff, h.grows.stak, h.steps.links.predOf]
    exact hn.disabled x hx
  idle hm x hxs hxd := by
    rw [h.grows.stak] at hxs
    refine List.eq_nil_iff_forall_not_mem.2 fun v hv => ?_
    rcases h.only x v hv with hv | ⟨hxe, -⟩
    · rw [hn.idle (h.grows.opts ▸ hm) x hxs hxd] at hv
      cases hv
    · exact hxs (hevs x hxe)

theorem AltesAdded.evolves {evs : EventsID} {done : EventID → EventID → Prop}
    (h : AltesAdded s evs done s₁) (hn : NodeOk P s d) (hcalls : s₁.calls = s.calls) :
    NodeEvolves d s s₁ where
  toEvolves := h.grows.evolves fun _ => hn.stak_mem
  stable := h.steps.stable s.cntr
  disabled x hx := h.steps.links.mem_iff.2 (hn.disabled x hx).1
  altes x _ v hv := h.more x v hv
  disas x _ := h.disas x
  calls := hcalls ▸ List.suffix_rfl

theorem NodeOk.set_stats (h : NodeOk P s d) (t : UnfolderStats) : NodeOk P { s with stats := t } d where
  syst_eq := h.syst_eq
  table := h.table
  seen := h.seen
  stack := h.stack
  cutoffs := h.cutoffs
  lock := h.lock
  ordered := h.ordered
  disabled := h.disabled
  idle := h.idle

theorem NodeEvolves.set_stats (h : NodeEvolves d s s₁) (t : UnfolderStats) :
    NodeEvolves d s { s₁ with stats := t } where
  stak := h.stak
  opts := h.opts
  cntr := h.cntr
  older := h.older
  kept := h.kept
  stateful := h.stateful
  stable := h.stable
  disabled := h.disabled
  altes := h.altes
  disas := h.disas
  calls := h.calls

/-- After a maximal configuration was found in `s`. -/
structure MaximalDone (cfevs d : EventsID) (s s' : UnfolderState (LockState P) LockAct) : Prop where
  node : NodeOk P s' d
  evolves : NodeEvolves d s s'
  calls : s'.calls = s.calls
  nrMaxConf : s'.stats.nrMaxConf = s.stats.nrMaxConf + 1
  altes : ∃ s₁, AltesAdded s cfevs (fun x y => x ∈ cfevs ∧ CExt s x y) s₁ ∧ s'.evts = s₁.evts ∧
    s'.cntr = s₁.cntr

theorem maximalConf_lock (hn : NodeOk P s d) {cfevs : EventsID} (hcf : ∀ x ∈ cfevs, x ∈ s.stak) :
    Op.Sat (maximalConf cfevs) s (fun _ s' => MaximalDone cfevs d s s') (fun _ _ => False) := by
  simp only [maximalConf, incSumSizeMaxConf, incMaxConf, onStats, Op.sat_bind, Op.sat_modify]
  refine ((possibleAltes_lock hn.toLockGood hcf).always (possibleAltes_quiet cfevs)).mono
    (fun _ s₁ h₁ => ?_) fun _ _ h => h.1
  obtain ⟨h₁, hq⟩ := h₁
  refine ⟨((h₁.nodeOk hn hcf).set_stats _).set_stats _,
    ((h₁.evolves hn hq.calls).set_stats _).set_stats _, hq.calls, ?_, s₁, h₁, rfl, rfl⟩
  exact congrArg (· + 1) hq.nrMaxConf

/-! ## One call -/

theorem exploreStep_lock (fuel : Nat) {stl : Bool}
    {rec : Configuration (LockState P) → EventID → EventsID → Alternative →
      UnfolderOp (LockState P) LockAct Unit}
    (hrec : ∀ c ê d alt s, s.opts.stateless = stl → NodeOk P s d → CallOk s c d alt → CallsOk stl s →
      Op.Sat (rec c ê d alt) s (fun _ s' => NodeOk P s' d ∧ NodeEvolves d s s' ∧ CallsOk stl s')
        (fun _ s' => CallsOk stl s'))
    (ê : EventID) (hm : s.opts.stateless = stl) (hn : NodeOk P s d) (hc : CallOk s c d alt)
    (hcalls : CallsOk stl s) :
    Op.Sat (exploreStep fuel rec c ê d alt) s
      (fun _ s' => NodeOk P s' d ∧ NodeEvolves d s s' ∧ CallsOk stl s')
      (fun _ s' => CallsOk stl s') := by
  have hn₀ := hn.called c ê alt
  have hev₀ := hn.evolves_called c ê alt
  have hc₀ := hc.called ê
  have hcalls₀ := hcalls.called hn hc hm ê
  refine exploreStep_rule (fun _ => ?_) (fun _ _ _ => hcalls₀) fun e _ hchoose => ?_
  · refine (maximalConf_lock hn₀ hc.cfevs).mono (fun _ s₁ h₁ => ?_) fun _ _ h => h.elim
    exact ⟨h₁.node, hev₀.trans h₁.evolves, hcalls₀.of_calls h₁.calls⟩
  have he := (chooseEvent_mem hchoose).1
  refine ((addToConf_lock fuel hn₀.toGood hn₀.cutoffs hn₀.lock hc₀.conf hc₀.dep he d).always
    (addToConf_quiet fuel c d e)).mono (fun nc s₁ h₁ => ?_) fun _ _ h => hcalls₀.of_calls h.2.calls
  obtain ⟨⟨heT, hu⟩, hq⟩ := h₁
  have hed : e ∉ d := hc₀.chosen_notMem hn₀ hchoose heT
  have hext := hc₀.canExtend he heT
  -- the branch with `e`
  refine (hrec nc e d (alt.erase e) (s₁.withStack (e :: s₁.stak))
    ((congrArg (·.stateless) hq.opts).trans hm) (hn₀.push hc₀.toEnabledOk he heT hed hu)
    (hc₀.push hn₀ hchoose heT hu) (hcalls₀.of_calls hq.calls)).mono (fun _ s₂ h₂ => ?_) fun _ _ h => h
  obtain ⟨hn₂, hev₂, hcalls₂⟩ := h₂
  rw [sat_pop hev₂.stak]
  have hn₃ : NodeOk P (s₂.withStack s₁.stak) (e :: d) := hn₀.pop hext hu hn₂ hev₂
  have hev₃ : NodeEvolves d s (s₂.withStack s₁.stak) :=
    hev₀.trans (.pop hu hext.notMem hq.calls hev₂)
  have hcalls₃ : CallsOk stl (s₂.withStack s₁.stak) := hcalls₂
  -- the branch without `e`, then the prefix is pruned
  have hafter : ∀ s₄, NodeOk P s₄ (e :: d) ∧ NodeEvolves d s s₄ ∧ CallsOk stl s₄ →
      Op.Sat (pruneBranch s.stak d e) s₄
        (fun _ s' => NodeOk P s' d ∧ NodeEvolves d s s' ∧ CallsOk stl s')
        (fun _ s' => CallsOk stl s') := by
    rintro s₄ ⟨hn₄, hev₄, hcalls₄⟩
    rw [← hev₄.stak]
    refine ((pruneBranch_lock hn₄ hed).always (pruneBranch_quiet _ d e)).mono (fun _ s₅ h₅ => ?_)
      fun _ _ h => h.1.elim
    exact ⟨h₅.1.1, hev₄.trans h₅.1.2.1, hcalls₄.of_calls h₅.2.calls⟩
  refine ⟨fun malt hmalt => ?_, fun _ _ => hcalls₃⟩
  cases malt with
  | none => exact hafter _ ⟨hn₃, hev₃, hcalls₃⟩
  | some v =>
    obtain ⟨r, hr, hsome, -⟩ := alt2_ok fun d₁ hd₁ =>
      ⟨(hn₃.disabled d₁ hd₁).1, fun v hv => (hn₃.lock.alte d₁ v hv).closed.mem⟩
    obtain rfl : r = some v := Except.ok.inj (hr.symm.trans hmalt)
    obtain ⟨d₁, hd₁, hv, hpass⟩ := hsome v rfl
    have hc₃ := hc.toEnabledOk.of_evolves hn.toGood hev₃ hn₃.toGood
    have hc₃' : CallOk (s₂.withStack s₁.stak) c (e :: d) (v.diff s.stak) := by
      rw [← hev₃.stak]
      exact CallOk.follow hc₃ hn₃ hd₁ hv hpass
    refine (hrec c ê (e :: d) (v.diff s.stak) _ ((congrArg (·.stateless) hev₃.opts).trans hm) hn₃ hc₃'
      hcalls₃).mono (fun _ s₄ h₄ => ?_) fun _ _ h => h
    exact hafter s₄ ⟨h₄.1, hev₃.trans h₄.2.1.weaken, h₄.2.2⟩

theorem explore_lock {stl : Bool} : ∀ (n : Nat) (c : Configuration (LockState P)) (ê : EventID)
    (d : EventsID) (alt : Alternative) (s : UnfolderState (LockState P) LockAct),
    s.opts.stateless = stl → NodeOk P s d → CallOk s c d alt → CallsOk stl s →
    Op.Sat (explore n c ê d alt) s
      (fun _ s' => NodeOk P s' d ∧ NodeEvolves d s s' ∧ CallsOk stl s') (fun _ s' => CallsOk stl s')
  | 0, _, _, _, _, _, _, _, _, hcalls => hcalls
  | n + 1, _, ê, _, _, _, hm, hn, hc, hcalls =>
    exploreStep_lock n (explore_lock n) ê hm hn hc hcalls

/-! ## The run -/

theorem botPrefix_lockTable : LockTable P (botPrefix P.system.gbac) where
  bot := by simp [Events.nameOf, lookup_botPrefix, botEvent]
  step x hx hb := absurd (mem_botPrefix.1 hx) hb
  pred x p hp := by simp [predOf_botPrefix] at hp
  icnf x y hy := by simp [icnfOf_botPrefix] at hy
  alte x v hv := by
    simp only [Events.alteOf, lookup_botPrefix] at hv
    split at hv <;> simp [botEvent] at hv

theorem iUnfState_lockGood (stl : Bool) : LockGood P (iUnfState stl false 10 P.system) where
  toGood := iUnfState_good stl false 10 P.system
  cutoffs := rfl
  lock := botPrefix_lockTable
  ordered x hx y hy _ := by
    rw [List.mem_singleton.1 hx, List.mem_singleton.1 hy]
    exact .inl (.inl rfl)

/-- What `initialExt` leaves: the threads that are enabled at the start were extended from bottom. -/
structure InitialOk (fuel : Nat) (s : UnfolderState (LockState P) LockAct)
    (c : Configuration (LockState P)) (s' : UnfolderState (LockState P) LockAct) : Prop where
  state : c.state = LockState.init P
  maevs : c.maevs = [botEID]
  cfevs : c.cfevs = []
  done : ∃ trs : List TId, (∀ (t : Nat) (o : LockOp), (LockState.init P).next t = some o →
      (t : Int) ∈ trs) ∧
    ThreadsDone fuel [botEID] [botEID] botEID (LockState.init P) s trs c.enevs s'

theorem initialThreads_lock (fuel : Nat) {l : List TId} (hs : LockGood P s)
    (hf : Frontier s.evts [botEID] [botEID])
    (hl : ∀ tid ∈ l, (∃ (t : Nat) (o : LockOp), tid = (t : Int) ∧ (LockState.init P).next t = some o) ∧
      ∀ t₁ t₂, TwoThreads P.system t₁ t₂ → tid = t₁ ∨ tid = t₂) :
    Op.Sat (l.foldlM (fun en tr => do
        let es ← extend fuel botEID [botEID] (LockState.init P) tr
        pure (es ++ en)) []) s
      (fun en s' => ThreadsDone fuel [botEID] [botEID] botEID (LockState.init P) s l en s')
      (fun err s' => Safe P.system s' ∧ ∃ T₀,
        AddSteps P.system [botEID] [botEID] botEID (LockState.init P) s.evts T₀ ∧
        ThreadFails fuel [botEID] [botEID] botEID (LockState.init P) T₀ err) := by
  refine Op.sat_foldlM_done (fun done en s₁ =>
    ThreadsDone fuel [botEID] [botEID] botEID (LockState.init P) s done en s₁)
    (fun done en tr s₁ hpre h₁ => ?_) ⟨hs.toGood, .refl s, .refl, by simp, by simp,
      by simp⟩
  obtain ⟨⟨t, o, rfl, hnext⟩, htwo⟩ := hl tr (hpre.subset (by simp))
  simp only [Op.sat_bind, Op.sat_pure]
  refine (h₁.step hs.wf hs.cutoffs hs.lock hf List.mem_cons_self hnext htwo).mono
    (fun es s₂ h₂ => ?_) fun _ _ h => h
  exact h₂ (es ++ en) (List.subset_append_right _ _) (List.subset_append_left _ _) fun x hx =>
    List.mem_append.2 (List.mem_append.1 hx).symm

theorem initialExt_lock (fuel : Nat) (hs : LockGood P s)
    (hf : Frontier s.evts [botEID] [botEID]) :
    Op.Sat (initialExt fuel) s (fun c s' => InitialOk fuel s c s')
      (fun err s' => Safe P.system s' ∧ ∃ T₀,
        AddSteps P.system [botEID] [botEID] botEID (LockState.init P) s.evts T₀ ∧
        ThreadFails fuel [botEID] [botEID] botEID (LockState.init P) T₀ err) := by
  obtain ⟨l, hl, hlmem⟩ := enabled_lock (LockState.init P)
  have hgbst : P.system.gbst = LockState.init P := rfl
  simp only [initialExt, Op.sat_bind, Op.sat_map, Op.sat_get, Op.sat_monadLift, Op.sat_pure, hs.syst_eq,
    hgbst, hl]
  refine ⟨fun trs htrs => ?_, fun _ h => by cases h⟩
  obtain rfl : l = trs := Except.ok.inj htrs
  refine (initialThreads_lock fuel hs hf (enabled_threads .init hl)).mono (fun en s₁ h₁ => ?_)
    fun _ _ h => h
  refine ⟨rfl, rfl, rfl, l.map (·.1), fun t o hnext => ?_, h₁⟩
  refine (hlmem (t : Int)).2 ⟨t, o, rfl, ?_, hnext⟩
  have := LockProgram.lt_length_of_op (LockState.op_of_next hnext)
  simpa [LockState.init] using this

theorem InitialOk.node {stl : Bool} (h : InitialOk fuel (iUnfState stl false 10 P.system) c s') :
    NodeOk P s' [] ∧ CallOk s' c [] [] := by
  obtain ⟨trs, -, hd⟩ := h.done
  have hs := iUnfState_lockGood (P := P) stl
  have hst := hd.steps.stable hd.grows.older
  have hstak : s'.stak = [botEID] := hd.grows.stak
  have hf : Frontier s'.evts [botEID] [botEID] :=
    hd.grows.frontier hs.wf hd.good.linked botPrefix_frontier
  have hlg : LockGood P s' := hs.of_stable hd.good hd.grows.stak hd.grows.opts hst
    (hd.steps.lockTable hs.lock)
  refine ⟨⟨hlg, by simp, fun _ x _ _ => ?_⟩, ⟨⟨h.state ▸ .init, by simp [h.maevs], ?_, fun x hx =>
    hd.good.wf.lt_cntr (hd.enevs x hx).mem, fun x hx _ => ?_⟩, fun x hx _ y hy => ?_,
    fun _ x hx => (hd.enevs x hx).mem, by simp [h.cfevs]⟩, by simp, by simp, by simp, by simp, by simp,
    by simp⟩
  · rw [(hd.steps.sameAltes x).1]
    refine List.eq_nil_iff_forall_not_mem.2 fun v hv => ?_
    simp only [iUnfState, Events.alteOf, lookup_botPrefix] at hv
    split at hv <;> simp [botEvent] at hv
  · rw [h.maevs, hstak]
    exact hf.maximal
  · exact hstak.symm ▸ (hd.enevs x hx).toExtends
  · exact (hd.enevs x hx).dep y (hstak ▸ hy)

/-- **Every call of `explore` in a stateful run of a lock program meets its invariant**: the stack is a
configuration, `maevs` are its maximal events, enabled and disabled events extend it, and no disabled
event is chosen. -/
theorem unfold_callInvariant (P : LockProgram) (fuel : Nat) :
    ∀ k ∈ (P.unfold fuel false).2.calls, CallInvariant k := by
  have hinit : CallsOk false (iUnfState false false 10 P.system) := by
    intro _ k hk
    cases hk
  suffices hfin : CallsOk false (P.unfold fuel false).2 from hfin rfl
  refine Op.Sat.state (P := CallsOk false) (m := botExplore fuel) ?_
  simp only [botExplore, Op.sat_bind]
  refine ((initialExt_lock fuel (iUnfState_lockGood false) botPrefix_frontier).always
    (initialExt_quiet fuel)).mono (fun c s₁ h₁ => ?_) fun _ _ h => hinit.of_calls h.2.calls
  obtain ⟨hn, hc⟩ := h₁.1.node
  exact (explore_lock fuel c botEID [] [] s₁ (congrArg (·.stateless) h₁.2.opts) hn hc
    (hinit.of_calls h₁.2.calls)).mono (fun _ _ h => h.2.2) fun _ _ h => h

/-- Two threads that lock and unlock one mutex. -/
def twoSections : LockProgram := [[.lock 0, .unlock 0], [.lock 0, .unlock 0]]

/-- The run on two critical sections has a call with a disabled event. -/
theorem twoSections_callInvariant :
    ∃ k ∈ (twoSections.unfold 20 false).2.calls, k.d ≠ [] ∧ CallInvariant k := by
  have hany : (twoSections.unfold 20 false).2.calls.any (fun k => !k.d.isEmpty) = true := by
    decide +kernel
  obtain ⟨k, hk, hd⟩ := List.any_eq_true.1 hany
  exact ⟨k, hk, by simpa using hd, unfold_callInvariant twoSections 20 k hk⟩

end Poet
