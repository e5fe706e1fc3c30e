import Poet.Exploration.Extend

/-!
# The exploration keeps the invariant

`unfold` turns a configuration of the stack into one of the stack with the event on it
(`unfold_good`); `explore` pushes and pops, and what it leaves of the prefix is good for every
configuration that is still on the recursion (`explore_good`). So every prefix of a run is
`PrefixOk`.
-/

namespace Poet

variable {st act : Type}

/-- The stack with an event that extends it, and its maximal events. -/
theorem frontier_push {T : Events act} {stak maevs : EventsID} {e : EventID} (hT : Linked T [])
    (hs : StackOk T stak) (he : Extends T stak e) (heT : e ∈ T) (hnd : maevs.Nodup)
    (hm : ∀ x, x ∈ maevs ↔ x ∈ stak ∧ ∀ y ∈ stak, ¬ Lt T x y) :
    Frontier T (e :: stak) (e :: maevs.diff (T.predOf e)) := by
  -- nothing on the stack is above `e`
  have habove : ∀ y ∈ stak, ¬ Lt T e y := fun y hy hlt => he.notMem (hs.closed.of_lt hy hlt)
  have hchain : ∀ y ∈ stak, T.tidOf y = T.tidOf e → Lt T y e := he.chain
  refine ⟨⟨List.nodup_cons.2 ⟨he.notMem, hs.nodup⟩, ⟨?_, ?_⟩, List.mem_cons_of_mem _ hs.bot, ?_⟩,
    List.nodup_cons.2 ⟨?_, hnd.diff⟩, fun x => ?_⟩
  · intro x hx
    rcases List.mem_cons.1 hx with rfl | hx
    · exact heT
    · exact hs.closed.mem x hx
  · intro x hx p hp
    rcases List.mem_cons.1 hx with rfl | hx
    · exact List.mem_cons_of_mem _ (he.pred p hp)
    · exact List.mem_cons_of_mem _ (hs.closed.pred x hx p hp)
  · intro x hx y hy htid
    rcases List.mem_cons.1 hx with hxe | hxs <;> rcases List.mem_cons.1 hy with hye | hys
    · exact .inl (.inl (hxe.trans hye.symm))
    · exact .inr (hxe ▸ hchain y hys (hxe ▸ htid.symm))
    · exact .inl (.inr (hye ▸ hchain x hxs (hye ▸ htid)))
    · exact hs.chain x hxs y hys htid
  · intro hmem
    exact he.notMem ((hm e).1 (List.diff_subset _ _ hmem)).1
  · rw [List.mem_cons, List.mem_cons, hnd.mem_sdiff_iff, hm]
    constructor
    · rintro (rfl | ⟨⟨hx, hmax⟩, hnp⟩)
      · refine ⟨.inl rfl, fun y hy => ?_⟩
        rcases List.mem_cons.1 hy with rfl | hy
        · exact hT.causal.lt_irrefl
        · exact habove y hy
      · refine ⟨.inr hx, fun y hy hlt => ?_⟩
        rcases List.mem_cons.1 hy with rfl | hy
        · -- a maximal event below `e` is one of its predecessors
          obtain ⟨p, hp, rfl | hxp⟩ := lt_iff_pred.1 hlt
          · exact hnp hp
          · exact hmax p (he.pred p hp) hxp
        · exact hmax y hy hlt
    · rintro ⟨rfl | hx, hmax⟩
      · exact .inl rfl
      · refine .inr ⟨⟨hx, fun y hy => hmax y (List.mem_cons_of_mem _ hy)⟩, fun hp => ?_⟩
        exact hmax e List.mem_cons_self (lt_of_mem_pred hp)

theorem isIndependent_true [Action act] {T : Events act} {e x : EventID}
    (h : isIndependent e x T = .ok true) : x ∈ T ∧ T.tidOf e ≠ T.tidOf x := by
  unfold isIndependent at h
  split at h
  · cases h
  cases h₁ : T.lookup e with
  | none => simp [getEvent, h₁] at h
  | some ev =>
    cases h₂ : T.lookup x with
    | none => simp [getEvent, h₁, h₂] at h
    | some ev' =>
      rw [getEvent_ok _ h₁, ok_bind, getEvent_ok _ h₂, ok_bind, pure_eq_ok] at h
      have hdep : isDependent (ev.name, ev.acts) (ev'.name, ev'.acts) = false := by
        simpa using h
      refine ⟨Events.mem_of_lookup h₂, fun htid => ?_⟩
      rw [Events.tidOf_of_lookup h₁, Events.tidOf_of_lookup h₂, Option.some_inj] at htid
      simp [isDependent, htid] at hdep

/-- An event of another thread still extends the stack with `e`. -/
theorem Extends.push {T : Events act} {stak : EventsID} {e x : EventID} (hx : Extends T stak x)
    (htid : T.tidOf e ≠ T.tidOf x) : Extends T (e :: stak) x where
  notMem hm := by
    rcases List.mem_cons.1 hm with rfl | hm
    · exact htid rfl
    · exact hx.notMem hm
  pred p hp := List.mem_cons_of_mem _ (hx.pred p hp)
  chain y hy hty := by
    rcases List.mem_cons.1 hy with rfl | hy
    · exact absurd hty htid
    · exact hx.chain y hy hty

theorem mem_core {T : Events act} {conf d r : EventsID} (h : core conf d T = .ok r) {x : EventID}
    (hx : x ∈ conf ++ d) : x ∈ r := by
  unfold core at h
  cases hm : (conf ++ d).mapM' (getEvent "compute_core" · T) with
  | error _ => simp [hm] at h
  | ok evs =>
    rw [hm, ok_bind] at h
    obtain rfl := Except.ok.inj h
    exact List.mem_eraseDups.2 (List.mem_append_left _ hx)

theorem ConfOk.pruneConfig [DecidableEq st] [DecidableEq act] [LatticeM st] [Projection st]
    [Lattice act] [Action act] [Domain st act] {syst : System st act} {T T' : Events act} {n : Nat}
    {stak : EventsID} {c : Configuration st} (h : ConfOk syst T n stak c) :
    ConfOk syst T n stak (pruneConfig c T') where
  reached := h.reached
  nodup := h.nodup
  maevs := h.maevs
  enevs_lt x hx := h.enevs_lt x (List.mem_filter.1 hx).1
  enevs x hx := h.enevs x (List.mem_filter.1 hx).1

namespace UnfolderState

/-- The state with a call of `explore` recorded. -/
def called (s : UnfolderState st act) (c : Configuration st) (ê : EventID) (d : EventsID)
    (alt : Alternative) : UnfolderState st act :=
  { s with calls := ⟨c, ê, d, alt, s.stak, s.evts⟩ :: s.calls }

/-- The state with another stack. -/
def withStack (s : UnfolderState st act) (stak : EventsID) : UnfolderState st act :=
  { s with stak := stak, seen := ⟨s.evts, s.cntr, stak⟩ :: s.seen }

end UnfolderState

theorem sat_pop {s : UnfolderState st act} {e : EventID} {stak : EventsID}
    {Q : Unit → UnfolderState st act → Prop} {E : Err → UnfolderState st act → Prop}
    (h : s.stak = e :: stak) : Op.Sat pop s Q E ↔ Q () (s.withStack stak) := by
  simp only [pop, record, Op.sat_bind, Op.sat_get, h, Op.sat_modify, UnfolderState.withStack]

/-! ## What the operations leave alone -/

theorem onStats_quiet {f : UnfolderStats → UnfolderStats} (hf : ∀ t, (f t).nrMaxConf = t.nrMaxConf) :
    Op.Always Quiet (onStats f : UnfolderOp st act Unit) := fun _ => ⟨rfl, rfl, rfl, rfl, hf _⟩

theorem possibleAltes_quiet (evs : EventsID) :
    Op.Always Quiet (possibleAltes evs : UnfolderOp st act Unit) := by
  have hadd : ∀ stack de x y, Op.Always Quiet (addV stack de x y : UnfolderOp st act Unit) := by
    intro stack de x y
    refine .bind .get fun _ => .bind (.lift _) fun v => ?_
    split
    · exact .pure _
    · exact .onEvts _
  refine .bind .get fun s => .bind (Op.always_foldlM Quiet.refl Quiet.trans (fun cext x => ?_) evs [])
    fun _ => .pure _
  exact .bind .get fun _ => .bind (.lift _) fun _ => .bind (.lift _) fun ext => .bind (.lift _) fun de =>
    .bind (.mapM' (hadd s.stak de x) ext) fun _ => .pure _

theorem pruneBranch_quiet (stak d : EventsID) (e : EventID) :
    Op.Always Quiet (pruneBranch stak d e : UnfolderOp st act Unit) := by
  refine .bind .get fun u => ?_
  split
  · refine .bind (.lift _) fun core => .bind .get fun _ => .bind (.lift _) fun ev => ?_
    have hrest : Op.Always Quiet (ev.alte.mapM' fun v => v.mapM' fun x =>
        if x ∈ core then pure () else onEvts (delEvent x) : UnfolderOp st act _) := by
      refine .mapM' (fun v => .mapM' (fun x => ?_) v) ev.alte
      split
      · exact .pure _
      · exact .onEvts _
    split
    · exact .bind (.onEvts _) fun _ => .bind hrest fun _ => .pure _
    · exact .bind (.onEvts _) fun _ => .bind hrest fun _ => .pure _
  · exact .pure _

/-! ## The prefix of bottom -/

section BotPrefix

variable {acts : act} {x y : EventID}

theorem lookup_botPrefix {x : EventID} :
    (botPrefix acts).lookup x = if x = botEID then some (botEvent acts) else none := by
  by_cases h : x = botEID
  · subst h
    rw [botPrefix, AList.lookup_insert, if_pos rfl]
  · rw [botPrefix, AList.lookup_insert_ne h, if_neg h, AList.lookup_empty]

theorem mem_botPrefix : x ∈ botPrefix acts ↔ x = botEID := by
  rw [← AList.lookup_isSome, lookup_botPrefix]
  split <;> simp_all

theorem predOf_botPrefix : (botPrefix acts).predOf x = [] := by
  simp only [Events.predOf, lookup_botPrefix]
  split <;> rfl

theorem succOf_botPrefix : (botPrefix acts).succOf x = [] := by
  simp only [Events.succOf, lookup_botPrefix]
  split <;> rfl

theorem icnfOf_botPrefix : (botPrefix acts).icnfOf x = [] := by
  simp only [Events.icnfOf, lookup_botPrefix]
  split <;> rfl

theorem not_lt_botPrefix : ¬ Lt (botPrefix acts) x y := by
  intro h
  obtain ⟨p, hp, -⟩ := lt_iff_pred.1 h
  simp [predOf_botPrefix] at hp

theorem botPrefix_wf : WF (botPrefix acts) 1 where
  linked := by
    constructor <;> simp [predOf_botPrefix, succOf_botPrefix, icnfOf_botPrefix]
  lt_cntr he := by
    rw [mem_botPrefix.1 he]
    exact Nat.zero_lt_one
  anti e a ha := by simp [predOf_botPrefix] at ha
  bot := mem_botPrefix.2 rfl
  root he hne := absurd (mem_botPrefix.1 he) hne

theorem botPrefix_frontier : Frontier (botPrefix acts) [botEID] [botEID] where
  stack :=
    { nodup := by simp
      closed := ⟨fun x hx => mem_botPrefix.2 (by simpa using hx),
        fun x _ p hp => by simp [predOf_botPrefix] at hp⟩
      bot := by simp
      chain := by simp [Le] }
  nodup := by simp
  maximal x := by simp [not_lt_botPrefix]

end BotPrefix

section Explore

variable [DecidableEq st] [DecidableEq act] [LatticeM st] [Projection st] [Lattice act] [Action act]
  [Domain st act] {syst : System st act} {s : UnfolderState st act} {conf maxevs : EventsID}
  {e : EventID}

theorem Good.set_stats (h : Good syst s) (t : UnfolderStats) : Good syst { s with stats := t } :=
  ⟨⟨h.syst_eq, h.table, h.seen⟩, h.stack⟩

theorem extend_good (fuel : Nat) (hg : Good syst s) (hf : Frontier s.evts conf maxevs)
    (he : e ∈ maxevs) {nst : st} (hreach : Reached syst nst) (tid : TId)
    (htid : ∀ t₁ t₂, TwoThreads syst t₁ t₂ → tid = t₁ ∨ tid = t₂) :
    Op.Sat (extend fuel e maxevs nst tid) s
      (fun r s' => Good syst s' ∧ Grows s s' ∧ ∀ x ∈ r, Extension s'.evts conf e x)
      (fun _ => Safe syst) := by
  simp only [extend, addWarns, onStats, Op.sat_bind, Op.sat_get, Op.sat_monadLift, Op.sat_modify,
    Op.sat_pure]
  refine ⟨fun res hres => ?_, fun _ _ => hg.toSafe⟩
  obtain ⟨warns, newEvents⟩ := res
  have hd : Domain.run false s.opts.widening syst nst tid = .ok (warns, newEvents) := by
    rw [← hg.syst_eq]
    cases hd : Domain.run false s.opts.widening s.syst nst tid with
    | error _ => simp [hd, liftDom] at hres
    | ok p => simpa only [hd, liftDom, Except.ok.injEq] using hres
  have hrun : ∀ r ∈ newEvents, ∀ sym, Projection.toThCFGSym r.1 tid = .ok sym →
      Runs syst nst ⟨tid, r.2.1, sym⟩ r.2.2 := fun r hr sym hsym => ⟨_, _, _, r.1, hd, hr, hsym⟩
  have hconf : ∀ y ∈ conf, y ∈ s.evts := hf.stack.closed.mem
  refine (Op.sat_mapM' (fun _ (bs : List EventsID) s₁ => Good syst s₁ ∧ Grows s s₁ ∧
    ∀ b ∈ bs, ∀ x ∈ b, Extension s₁.evts conf e x) (fun done r bs s₁ hpre hI => ?_) ?_).mono
    (fun bs s' h => ?_) fun _ _ h => h
  · obtain ⟨hg₁, hgr, hbs⟩ := hI
    have hf₁ := hgr.frontier hg.wf hg₁.linked hf
    have hconf₁ : ∀ y ∈ conf, y ∈ s₁.evts := fun y hy => hgr.keeps y (hconf y hy)
    have hr : r ∈ newEvents := hpre.subset (by simp)
    refine (ext_spec fuel hg₁ hf₁ he r.1 tid r.2.1 (hrun r hr)
      (fun hlock => hlock _ _ _ _ _ hreach hd r hr) htid).mono (fun b s' h => ?_) fun _ _ h => h.1
    obtain ⟨⟨hg', hgr', hb, -⟩, -⟩ := h
    refine ⟨hg', hgr.trans hgr', fun b' hb' x hx => ?_⟩
    rcases List.mem_append.1 hb' with hb' | hb'
    · exact hgr'.extension hg₁.wf hg'.linked hconf₁ (hbs b' hb' x hx)
    · obtain rfl : b' = b := by simpa using hb'
      exact hb x hx
  · exact ⟨hg.set_stats _, ⟨rfl, rfl, Nat.le_refl _, .refl _ _, fun _ h => h⟩, by simp⟩
  · obtain ⟨hg', hgr, hbs⟩ := h
    refine ⟨hg', hgr, fun x hx => ?_⟩
    obtain ⟨b, hb, hxb⟩ := List.mem_flatten.1 hx
    exact hbs b hb x hxb

theorem execute_good (hg : Good syst s) {nst : st} (hreach : Reached syst nst) (e : EventID) :
    Op.Sat (execute nst e) s
      (fun nst' s' => Good syst s' ∧ Grows s s' ∧ s'.cntr = s.cntr ∧ Reached syst nst')
      (fun _ => Safe syst) := by
  simp only [execute, Op.sat_bind, Op.sat_get, Op.sat_monadLift, Op.sat_pure]
  refine ⟨fun ev hev => ⟨fun r hr => ?_, fun _ _ => hg.toSafe⟩, fun _ _ => hg.toSafe⟩
  have hl := lookup_of_getEvent hev
  have hreach' : Reached syst r.1 := by
    rw [hg.syst_eq] at hr
    cases hd : Domain.drun s.opts.widening syst nst (ev.name.tid, ev.name.pos, ev.name.sym) with
    | error _ => simp [hd, liftDom] at hr
    | ok p =>
      simp only [hd, liftDom, Except.ok.injEq] at hr
      exact hreach.step (hr ▸ hd)
  refine (hg.onEvts_sameLinks fun T' hT' => ?_).mono
    (fun _ s' h => ⟨h.1, h.2.1, h.2.2.1, hreach'⟩) fun _ _ h => h
  obtain rfl : _ = T' := Except.ok.inj hT'
  exact .setEvent hl rfl rfl rfl rfl

/-- The configuration that `unfold` returns, for the stack with `e` on it. -/
structure Unfolded (syst : System st act) (s : UnfolderState st act) (e : EventID)
    (nc : Configuration st) : Prop where
  reached : Reached syst nc.state
  frontier : Frontier s.evts (e :: s.stak) nc.maevs
  enevs : ∀ x ∈ nc.enevs, x ∈ s.evts ∧ Extends s.evts (e :: s.stak) x

/-- It is the configuration of the next call. -/
theorem Unfolded.confOk {nc : Configuration st} (h : Unfolded syst s e nc) (hg : Good syst s) :
    ConfOk syst s.evts s.cntr (e :: s.stak) nc :=
  ⟨h.reached, h.frontier.nodup, h.frontier.maximal, fun x hx => hg.wf.lt_cntr (h.enevs x hx).1,
    fun x hx _ => (h.enevs x hx).2⟩

theorem unfold_good (fuel : Nat) {c : Configuration st} (hg : Good syst s)
    (hc : ConfOk syst s.evts s.cntr s.stak c) (he : e ∈ c.enevs) (heT : e ∈ s.evts) :
    Op.Sat (unfold fuel c e) s (fun nc s' => Good syst s' ∧ Grows s s' ∧ Unfolded syst s' e nc)
      (fun _ => Safe syst) := by
  simp only [unfold, Op.sat_bind, Op.sat_map, Op.sat_get, Op.sat_monadLift, Op.sat_pure]
  refine (execute_good hg hc.reached e).mono (fun nst s₁ h₁ => ?_) fun _ _ h => h
  obtain ⟨hg₁, hgr₁, -, hreach⟩ := h₁
  refine ⟨fun iprede hpred => ⟨fun senevs hsen => ⟨fun itrs _ => ⟨fun entrs hent => ?_,
    fun _ _ => hg₁.toSafe⟩, fun _ _ => hg₁.toSafe⟩, fun _ _ => hg₁.toSafe⟩, fun _ _ => hg₁.toSafe⟩
  have heT₁ := hgr₁.keeps e heT
  obtain rfl : s₁.evts.predOf e = iprede := Except.ok.inj ((getPred_ok heT₁).symm.trans hpred)
  have hc₁ := hg.confOk hc (hgr₁.evolves fun _ => hg.stak_mem) hg₁
  have hfr := frontier_push hg₁.linked hg₁.stack (hc₁.enevs e he heT₁) heT₁ hc₁.nodup hc₁.maevs
  have hsenevs : ∀ x ∈ senevs, x ∈ s₁.evts ∧ Extends s₁.evts (e :: s₁.stak) x := by
    intro x hx
    obtain ⟨hxT, htid⟩ := isIndependent_true (filterM_true hsen x hx)
    have hxen : x ∈ c.enevs := List.mem_of_mem_erase ((filterM_sublist hsen).subset hx)
    exact ⟨hxT, (hc₁.enevs x hxen hxT).push htid⟩
  have hconf : ∀ y ∈ e :: s₁.stak, y ∈ s₁.evts := hfr.stack.closed.mem
  refine (Op.sat_mapM' (fun _ (bs : List EventsID) s₂ => Good syst s₂ ∧ Grows s₁ s₂ ∧
    ∀ b ∈ bs, ∀ x ∈ b, Extension s₂.evts (e :: s₁.stak) e x) (fun done tr bs s₂ hpre hI => ?_)
    ⟨hg₁, .refl _, by simp⟩).mono (fun bs s₂ h₂ => ?_) fun _ _ h => h
  · obtain ⟨hg₂, hgr₂, hbs⟩ := hI
    have hmem : tr ∈ (entrs.map (·.1)).diff itrs := hpre.subset (by simp)
    have htid : ∀ t₁ t₂, TwoThreads syst t₁ t₂ → tr = t₁ ∨ tr = t₂ := by
      intro t₁ t₂ htwo
      obtain ⟨p, hp, rfl⟩ := List.mem_map.1 (List.diff_subset _ _ hmem)
      cases hd : Domain.enabled s₁.syst nst with
      | error _ => simp [hd, liftDom] at hent
      | ok l =>
        simp only [hd, liftDom, Except.ok.injEq] at hent
        rw [hg₁.syst_eq] at hd
        exact htwo _ _ hreach hd p (hent ▸ hp)
    refine (extend_good fuel hg₂ (hgr₂.frontier hg₁.wf hg₂.linked hfr) List.mem_cons_self hreach tr
      htid).mono (fun b s₃ h₃ => ?_) fun _ _ h => h
    obtain ⟨hg₃, hgr₃, hb⟩ := h₃
    refine ⟨hg₃, hgr₂.trans hgr₃, fun b' hb' x hx => ?_⟩
    rcases List.mem_append.1 hb' with hb' | hb'
    · exact hgr₃.extension hg₂.wf hg₃.linked (fun y hy => hgr₂.keeps y (hconf y hy)) (hbs b' hb' x hx)
    · obtain rfl : b' = b := by simpa using hb'
      exact hb x hx
  · obtain ⟨hg₂, hgr₂, hbs⟩ := h₂
    refine ⟨fun nnevs hnn => ⟨fun ncevs _ => ?_, fun _ _ => hg₂.toSafe⟩, fun _ _ => hg₂.toSafe⟩
    refine ⟨hg₂, hgr₁.trans hgr₂, hreach, ?_, fun x hx => ?_⟩
    · rw [hgr₂.stak]
      exact hgr₂.frontier hg₁.wf hg₂.linked hfr
    · rw [hgr₂.stak]
      rcases List.mem_append.1 hx with hx | hx
      · obtain ⟨b, hb, hxb⟩ := List.mem_flatten.1 ((filterM_sublist hnn).subset hx)
        have := hbs b hb x hxb
        exact ⟨this.mem, this.toExtends⟩
      · obtain ⟨hxT, hxe⟩ := hsenevs x hx
        have hxn := hg₁.wf.lt_cntr hxT
        exact ⟨hgr₂.keeps x hxT, hgr₂.older.extendsStack hg₂.linked hxe hxn (hgr₂.keeps x hxT)
          (fun y hy => hg₁.wf.lt_cntr (hconf y hy)) fun y hy => hgr₂.keeps y (hconf y hy)⟩

theorem extend_quiet (fuel : Nat) (e : EventID) (maxevs : EventsID) (nst : st) (tid : TId) :
    Op.Always Quiet (extend fuel e maxevs nst tid : UnfolderOp st act EventsID) := by
  have hext : ∀ nst' pos acts, Op.Always Quiet
      (ext fuel e maxevs nst' tid pos acts : UnfolderOp st act EventsID) := by
    intro nst' pos acts
    refine .bind (.lift _) fun _ => .bind .get fun _ => .bind (.lift _) fun succe =>
      .bind (.lift _) fun h0 => ?_
    split
    · exact .fail _
    split
    · refine .bind (.lift _) fun his => .bind (.mapM' (fun h => ?_) his) fun _ => ?_
      · exact addEvent_quiet succe _ acts h
      · exact addEvent_quiet succe _ acts h0
    · exact .pure _
  exact .bind .get fun _ => .bind (.lift _) fun (_, rs) => .bind (onStats_quiet fun _ => rfl) fun _ =>
    .bind (.mapM' (fun (nst', pos, acts) => hext nst' pos acts) rs) fun _ => .pure _

theorem addToConf_quiet (fuel : Nat) (c : Configuration st) (d : EventsID) (e : EventID) :
    Op.Always Quiet (addToConf fuel c d e : UnfolderOp st act _) := by
  have hexec : Op.Always Quiet (execute c.state e : UnfolderOp st act st) :=
    .bind .get fun _ => .bind (.lift _) fun _ => .bind (.lift _) fun (_, _) =>
      .bind (.onEvts _) fun _ => .pure _
  have hunf : ∀ c' : Configuration st, c'.state = c.state →
      Op.Always Quiet (unfold fuel c' e : UnfolderOp st act _) := by
    intro c' hc'
    refine .bind (hc' ▸ hexec) fun nst => .bind .get fun u => .bind (.lift _) fun _ =>
      .bind (.lift _) fun senevs => .bind (.lift _) fun itrs => .bind ?_ fun entrs => .bind ?_ fun _ =>
      .bind .get fun _ => .bind (.lift _) fun _ => .bind (.lift _) fun _ => .pure _
    · exact Op.always_map Quiet.refl Quiet.trans (.lift _)
    · exact Op.always_map Quiet.refl Quiet.trans (.mapM' (extend_quiet fuel e _ nst) _)
  refine .bind (.onEvts _) fun _ => .bind .get fun u => ?_
  split
  · exact hunf _ rfl
  · exact hunf c rfl

theorem initialExt_quiet (fuel : Nat) :
    Op.Always Quiet (initialExt fuel : UnfolderOp st act (Configuration st)) := by
  refine .bind .get fun s => .bind ?_ fun trs => .bind ?_ fun _ => .pure _
  · exact Op.always_map Quiet.refl Quiet.trans (.lift _)
  · exact Op.always_foldlM Quiet.refl Quiet.trans
      (fun _ tr => .bind (extend_quiet fuel botEID _ _ tr) fun _ => .pure _) trs []

/-! ## Alternatives and pruning -/

theorem possibleAltes_good (hg : Good syst s) (evs : EventsID) :
    Op.Sat (possibleAltes evs) s (fun _ s' => Good syst s' ∧ Grows s s') (fun _ => Safe syst) := by
  have hadd : ∀ de x y s₁, Good syst s₁ ∧ Grows s s₁ →
      Op.Sat (addV s.stak de x y) s₁ (fun _ s' => Good syst s' ∧ Grows s s') (fun _ => Safe syst) := by
    rintro de x y s₁ ⟨hg₁, hgr₁⟩
    simp only [addV, Op.sat_bind, Op.sat_get, Op.sat_monadLift]
    refine ⟨fun v _ => ?_, fun _ _ => hg₁.toSafe⟩
    split
    · exact ⟨hg₁, hgr₁⟩
    · refine (hg₁.onEvts_sameLinks fun T' hT' => .addAlte hT').mono (fun _ s' h => ?_) fun _ _ h => h
      exact ⟨h.1, hgr₁.trans h.2.1⟩
  simp only [possibleAltes, Op.sat_bind, Op.sat_get, Op.sat_pure]
  refine Op.sat_foldlM (fun _ s₁ => Good syst s₁ ∧ Grows s s₁) _ _ _ (fun cext x _ s₁ h₁ => ?_)
    ⟨hg, .refl s⟩
  simp only [possibleAlte, Op.sat_bind, Op.sat_get, Op.sat_monadLift, Op.sat_pure]
  have hsafe := h₁.1.toSafe
  refine ⟨fun cfle _ => ⟨fun ext _ => ⟨fun de _ => ?_, fun _ _ => hsafe⟩, fun _ _ => hsafe⟩,
    fun _ _ => hsafe⟩
  exact Op.sat_mapM' (fun _ _ s₂ => Good syst s₂ ∧ Grows s s₂)
    (fun _ y _ s₂ _ h₂ => hadd de x y s₂ h₂) h₁

/-- Nothing of the core is deleted, so the stack is kept. -/
theorem prune_good {core : EventsID} (hg : Good syst s) (hm : s.opts.stateless = true)
    (hcore : ∀ x ∈ s.stak, x ∈ core) (e : EventID) :
    Op.Sat (prune e core) s (fun _ s' => Good syst s' ∧ Evolves s s') (fun _ => Safe syst) := by
  have hdel : ∀ x s₁, x ∉ core → Good syst s₁ ∧ Evolves s s₁ →
      Op.Sat (onEvts (delEvent x)) s₁ (fun _ s' => Good syst s' ∧ Evolves s s')
        (fun _ => Safe syst) := by
    rintro x s₁ hx ⟨hg₁, hev₁⟩
    refine (hg₁.onEvts_delEvent (fun hmem => hx (hcore x (hev₁.stak ▸ hmem)))
      (hev₁.opts ▸ hm)).mono (fun _ s' h => ⟨h.1, hev₁.trans h.2⟩) fun _ _ h => h
  simp only [prune, Op.sat_bind, Op.sat_get, Op.sat_monadLift, Op.sat_ite, Op.sat_pure]
  refine ⟨fun ev _ => ?_, fun _ _ => hg.toSafe⟩
  have hfirst : ∀ s₁, Good syst s₁ ∧ Evolves s s₁ →
      Op.Sat (ev.alte.mapM' fun v => v.mapM' fun x =>
        if x ∈ core then pure () else onEvts (delEvent x)) s₁
        (fun _ s' => Good syst s' ∧ Evolves s s') (fun _ => Safe syst) := by
    intro s₁ h₁
    refine Op.sat_mapM' (fun _ _ s₂ => Good syst s₂ ∧ Evolves s s₂) (fun _ v _ s₂ _ h₂ => ?_) h₁
    refine Op.sat_mapM' (fun _ _ s₃ => Good syst s₃ ∧ Evolves s s₃) (fun _ x _ s₃ _ h₃ => ?_) h₂
    rw [Op.sat_ite]
    exact ⟨fun _ => h₃, fun hx => hdel x s₃ hx h₃⟩
  refine ⟨fun _ => ?_, fun hx => (hdel e s hx ⟨hg, hg.evolves_refl⟩).mono (fun _ s₁ => hfirst s₁)
    fun _ _ h => h⟩
  refine (hg.onEvts_sameLinks fun T' hT' => .resetAlte hT').mono (fun _ s₁ h => ?_) fun _ _ h => h
  exact hfirst s₁ ⟨h.1, h.2.1.evolves fun _ => hg.stak_mem⟩

/-! ## The recursion -/

theorem chooseEvent_mem {ê : EventID} {enevs stak : EventsID} {alt : Alternative}
    (h : chooseEvent ê enevs alt stak = .ok e) : e ∈ enevs ∧ (alt ≠ [] → e ∈ alt) := by
  unfold chooseEvent at h
  split at h
  · next halt =>
    split at h
    · cases h
    · obtain rfl := Except.ok.inj h
      exact ⟨List.mem_cons_self, fun hne => absurd (List.isEmpty_iff.1 halt) hne⟩
  · split at h
    · cases h
    · next e' _ hcons =>
      obtain rfl := Except.ok.inj h
      have hmem : e' ∈ enevs ∩ alt := by simp [hcons]
      obtain ⟨h₁, h₂⟩ := List.mem_inter_iff.1 hmem
      exact ⟨h₁, fun _ => h₂⟩

theorem Good.withStack {stak : EventsID} (hg : Good syst s) (hs : StackOk s.evts stak) :
    Good syst (s.withStack stak) where
  syst_eq := hg.syst_eq
  table := hg.table
  seen sn hsn := by
    rcases List.mem_cons.1 hsn with rfl | hsn
    · exact hg.table
    · exact hg.seen sn hsn
  stack := hs

theorem addToConf_good (fuel : Nat) {c : Configuration st} (hg : Good syst s)
    (hc : ConfOk syst s.evts s.cntr s.stak c) (he : e ∈ c.enevs) (d : EventsID) :
    Op.Sat (addToConf fuel c d e) s
      (fun nc s' => Good syst s' ∧ Grows s s' ∧ e ∈ s.evts ∧ Unfolded syst s' e nc)
      (fun _ => Safe syst) := by
  simp only [addToConf, Op.sat_bind, Op.sat_get]
  refine (hg.onEvts_sameLinks fun T' hT' => .setDisa hT').mono (fun _ s₁ h₁ => ?_) fun _ _ h => h
  obtain ⟨hg₁, hgr₁, -, hset⟩ := h₁
  obtain ⟨ev, hl, -⟩ := SameLinks.exists_of_write (f := fun ev => { ev with disa := d }) hset
  have heT := Events.mem_of_lookup hl
  have heT₁ := hgr₁.keeps e heT
  have hc₁ := hg.confOk hc (hgr₁.evolves fun _ => hg.stak_mem) hg₁
  have hunf : ∀ c', ConfOk syst s₁.evts s₁.cntr s₁.stak c' → e ∈ c'.enevs →
      Op.Sat (unfold fuel c' e) s₁
        (fun nc s' => Good syst s' ∧ Grows s s' ∧ e ∈ s.evts ∧ Unfolded syst s' e nc)
        (fun _ => Safe syst) := fun c' hc' he' =>
    (unfold_good fuel hg₁ hc' he' heT₁).mono
      (fun _ _ h => ⟨h.1, hgr₁.trans h.2.1, heT, h.2.2⟩) fun _ _ h => h
  split
  · refine hunf _ hc₁.pruneConfig (List.mem_filter.2 ⟨he, ?_⟩)
    simpa [filterEvent, AList.lookup_isSome] using heT₁
  · exact hunf c hc₁ he

theorem pruneBranch_good {stak : EventsID} (hg : Good syst s) (hstak : s.stak = stak)
    (d : EventsID) (e : EventID) :
    Op.Sat (pruneBranch stak d e) s (fun _ s' => Good syst s' ∧ Evolves s s')
      (fun _ => Safe syst) := by
  simp only [pruneBranch, Op.sat_bind, Op.sat_get]
  split
  · next hm =>
    simp only [Op.sat_bind, Op.sat_monadLift]
    refine ⟨fun corePre hcore => ?_, fun _ _ => hg.toSafe⟩
    exact prune_good hg hm (fun x hx => mem_core hcore (List.mem_append_left _ (hstak ▸ hx))) e
  · exact ⟨hg, hg.evolves_refl⟩

/-- The parts of a call of `explore`. -/
theorem exploreStep_rule {fuel : Nat}
    {rec : Configuration st → EventID → EventsID → Alternative → UnfolderOp st act Unit}
    {c : Configuration st} {ê : EventID} {d : EventsID} {alt : Alternative}
    {Q : Unit → UnfolderState st act → Prop} {E : Err → UnfolderState st act → Prop}
    (hmax : c.enevs = [] → Op.Sat (maximalConf c.cfevs) (s.called c ê d alt) Q E)
    (herr : ∀ err, c.enevs ≠ [] → chooseEvent ê c.enevs alt s.stak = .error err →
      E err (s.called c ê d alt))
    (hstep : ∀ e, c.enevs ≠ [] → chooseEvent ê c.enevs alt s.stak = .ok e →
      Op.Sat (addToConf fuel c d e) (s.called c ê d alt) (fun nc s₁ =>
        Op.Sat (rec nc e d (alt.erase e)) (s₁.withStack (e :: s₁.stak)) (fun _ s₂ =>
          Op.Sat pop s₂ (fun _ s₃ =>
            (∀ malt, alt2 s₃.stak s₃.evts (e :: d) (e :: d) = .ok malt →
              Op.Sat (onSome malt fun alt' => rec c ê (e :: d) (alt'.diff s.stak)) s₃
                (fun _ s₄ => Op.Sat (pruneBranch s.stak d e) s₄ Q E) E) ∧
            ∀ err, alt2 s₃.stak s₃.evts (e :: d) (e :: d) = .error err → E err s₃) E) E) E) :
    Op.Sat (exploreStep fuel rec c ê d alt) s Q E := by
  simp only [exploreStep, recordCall, push, record, Op.sat_bind, Op.sat_modify, Op.sat_get]
  by_cases hen : c.enevs = []
  · rw [if_pos (by simp [hen])]
    exact hmax hen
  · rw [if_neg (by simp [hen])]
    simp only [Op.sat_bind, Op.sat_monadLift, Op.sat_modify, Op.sat_get]
    exact ⟨fun e he => hstep e hen he, fun err => herr err hen⟩

/-- One call of `explore`, when the recursive calls keep the invariant. -/
theorem exploreStep_good (fuel : Nat)
    {rec : Configuration st → EventID → EventsID → Alternative → UnfolderOp st act Unit}
    (hrec : ∀ c ê d alt s, Good syst s → ConfOk syst s.evts s.cntr s.stak c →
      Op.Sat (rec c ê d alt) s (fun _ s' => Good syst s' ∧ Evolves s s') (fun _ => Safe syst))
    {c : Configuration st} (ê : EventID) (d : EventsID) (alt : Alternative) (hg : Good syst s)
    (hc : ConfOk syst s.evts s.cntr s.stak c) :
    Op.Sat (exploreStep fuel rec c ê d alt) s (fun _ s' => Good syst s' ∧ Evolves s s')
      (fun _ => Safe syst) := by
  have hg₀ : Good syst (s.called c ê d alt) := ⟨⟨hg.syst_eq, hg.table, hg.seen⟩, hg.stack⟩
  have hev₀ : Evolves s (s.called c ê d alt) :=
    ⟨rfl, rfl, Nat.le_refl _, .refl _ _, fun _ => hg.stak_mem, fun _ _ h => h⟩
  refine exploreStep_rule (fun _ => ?_) (fun _ _ _ => hg₀.toSafe) fun e _ hchoose => ?_
  · simp only [maximalConf, incSumSizeMaxConf, incMaxConf, onStats, Op.sat_bind, Op.sat_modify]
    refine (possibleAltes_good hg₀ c.cfevs).mono (fun _ s₁ h₁ => ?_) fun _ _ h => h
    have hev := hev₀.trans (h₁.2.evolves fun _ => hg₀.stak_mem)
    exact ⟨(h₁.1.set_stats _).set_stats _, hev.stak, hev.opts, hev.cntr, hev.older, hev.kept,
      hev.stateful⟩
  refine (addToConf_good fuel hg₀ hc (chooseEvent_mem hchoose).1 d).mono (fun nc s₁ h₁ => ?_)
    fun _ _ h => h
  obtain ⟨hg₁, hgr₁, -, hunf⟩ := h₁
  have hev₁ : Evolves s s₁ := hev₀.trans (hgr₁.evolves fun _ => hg₀.stak_mem)
  have hc₁ := hunf.confOk hg₁
  -- the branch with `e`
  refine (hrec nc e d (alt.erase e) (s₁.withStack (e :: s₁.stak))
    (hg₁.withStack hunf.frontier.stack) hc₁).mono (fun _ s₂ h₂ => ?_) fun _ _ h => h
  obtain ⟨hg₂, hev₂⟩ := h₂
  rw [sat_pop hev₂.stak]
  have hkept : ∀ x ∈ s.stak, x ∈ s₂.evts := fun x hx =>
    hev₂.kept x (List.mem_cons_of_mem _ (hev₁.stak ▸ hx))
  have hev₃ : Evolves s (s₂.withStack s₁.stak) :=
    ⟨hev₁.stak, hev₂.opts.trans hev₁.opts, Nat.le_trans hev₁.cntr hev₂.cntr,
      hev₁.older.trans hev₂.older hev₁.cntr, hkept,
      fun hm x hx => hev₂.stateful (hev₁.opts ▸ hm) x (hev₁.stateful hm x hx)⟩
  have hg₃ : Good syst (s₂.withStack s₁.stak) := hg₂.withStack <| hev₁.stak ▸
    hev₃.older.stackOk hg₂.linked hg.stack (fun _ => hg.stak_lt) hkept
  refine ⟨fun malt _ => ?_, fun _ _ => hg₃.toSafe⟩
  -- the branch without `e`, then the prefix is pruned
  have hafter : ∀ s₄, Good syst s₄ ∧ Evolves s s₄ → Op.Sat (pruneBranch s.stak d e) s₄
      (fun _ s' => Good syst s' ∧ Evolves s s') (fun _ => Safe syst) := fun s₄ h₄ =>
    (pruneBranch_good h₄.1 h₄.2.stak d e).mono (fun _ _ h => ⟨h.1, h₄.2.trans h.2⟩) fun _ _ h => h
  cases malt with
  | none => exact hafter _ ⟨hg₃, hev₃⟩
  | some alt' =>
    refine (hrec c ê (e :: d) (alt'.diff s.stak) _ hg₃ (hg.confOk hc hev₃ hg₃)).mono
      (fun _ s₄ h₄ => ?_) fun _ _ h => h
    exact hafter s₄ ⟨h₄.1, hev₃.trans h₄.2⟩

theorem explore_good : ∀ (n : Nat) (c : Configuration st) (ê : EventID) (d : EventsID)
    (alt : Alternative) (s : UnfolderState st act), Good syst s → ConfOk syst s.evts s.cntr s.stak c →
    Op.Sat (explore n c ê d alt) s (fun _ s' => Good syst s' ∧ Evolves s s') (fun _ => Safe syst)
  | 0, _, _, _, _, _, hg, _ => hg.toSafe
  | n + 1, _, ê, d, alt, _, hg, hc => exploreStep_good n (explore_good n) ê d alt hg hc

/-! ## The run -/

theorem iUnfState_good (stl cut : Bool) (wid : Int) (syst : System st act) :
    Good syst (iUnfState stl cut wid syst) := by
  have hT : TableOk syst (botPrefix syst.gbac) 1 := by
    refine ⟨botPrefix_wf, by simp [Events.nameOf, lookup_botPrefix, botEvent],
      fun _ x hx y hy _ _ => ?_, fun _ _ _ x hx hb => ?_⟩
    · rw [mem_botPrefix.1 hx, mem_botPrefix.1 hy]
    · exact absurd (mem_botPrefix.1 hx) hb
  exact ⟨⟨rfl, hT, by simpa [iUnfState] using hT⟩, botPrefix_frontier.stack⟩

theorem initialExt_good (fuel : Nat) (hg : Good syst s) (hf : Frontier s.evts [botEID] [botEID]) :
    Op.Sat (initialExt fuel) s
      (fun c s' => Good syst s' ∧ Grows s s' ∧ ConfOk syst s'.evts s'.cntr [botEID] c)
      (fun _ => Safe syst) := by
  simp only [initialExt, Op.sat_bind, Op.sat_map, Op.sat_get, Op.sat_monadLift, Op.sat_pure]
  refine ⟨fun trs htrs => ?_, fun _ _ => hg.toSafe⟩
  have hinit : Reached syst s.syst.gbst := hg.syst_eq ▸ .init
  have htid : ∀ tr ∈ trs.map (·.1), ∀ t₁ t₂, TwoThreads syst t₁ t₂ → tr = t₁ ∨ tr = t₂ := by
    intro tr htr t₁ t₂ htwo
    obtain ⟨p, hp, rfl⟩ := List.mem_map.1 htr
    cases hd : Domain.enabled s.syst s.syst.gbst with
    | error _ => simp [hd, liftDom] at htrs
    | ok l =>
      simp only [hd, liftDom, Except.ok.injEq] at htrs
      rw [hg.syst_eq] at hd
      exact htwo _ _ .init hd p (htrs ▸ hp)
  refine (Op.sat_foldlM (fun en s₁ => Good syst s₁ ∧ Grows s s₁ ∧
    ∀ x ∈ en, Extension s₁.evts [botEID] botEID x) _ _ _ (fun en tr htr s₁ h₁ => ?_)
    ⟨hg, .refl s, by simp⟩).mono (fun en s₁ h₁ => ?_) fun _ _ h => h
  · obtain ⟨hg₁, hgr₁, hen⟩ := h₁
    have hf₁ := hgr₁.frontier hg.wf hg₁.linked hf
    simp only [Op.sat_bind, Op.sat_pure]
    refine (extend_good fuel hg₁ hf₁ List.mem_cons_self hinit tr (htid tr htr)).mono
      (fun es s₂ h₂ => ?_) fun _ _ h => h
    obtain ⟨hg₂, hgr₂, hes⟩ := h₂
    refine ⟨hg₂, hgr₁.trans hgr₂, fun x hx => ?_⟩
    rcases List.mem_append.1 hx with hx | hx
    · exact hes x hx
    · exact hgr₂.extension hg₁.wf hg₂.linked hf₁.stack.closed.mem (hen x hx)
  · obtain ⟨hg₁, hgr₁, hen⟩ := h₁
    have hf₁ := hgr₁.frontier hg.wf hg₁.linked hf
    exact ⟨hg₁, hgr₁, hinit, hf₁.nodup, hf₁.maximal, fun x hx => hg₁.wf.lt_cntr (hen x hx).mem,
      fun x hx _ => (hen x hx).toExtends⟩

theorem unfolder_safe (fuel : Nat) (stl cut : Bool) (wid : Int) (syst : System st act) :
    Safe syst (unfolder fuel stl cut wid syst).2 := by
  have hg := iUnfState_good stl cut wid syst
  refine Op.Sat.state (P := Safe syst) ?_
  simp only [botExplore, Op.sat_bind]
  refine (initialExt_good fuel hg botPrefix_frontier).mono (fun c s₁ h₁ => ?_) fun _ _ h => h
  obtain ⟨hg₁, hgr₁, hc₁⟩ := h₁
  have hstak : s₁.stak = [botEID] := hgr₁.stak
  exact (explore_good fuel c botEID [] [] s₁ hg₁ (hstak ▸ hc₁)).mono (fun _ _ h => h.1.toSafe)
    fun _ _ h => h

/-- **The prefix of every state of a run is well formed**, for every domain, in stateful and in
stateless mode, with or without cutoffs, however the run ends. -/
theorem unfolder_prefixOk (fuel : Nat) (stl cut : Bool) (wid : Int) (syst : System st act) :
    (∀ sn ∈ (unfolder fuel stl cut wid syst).2.seen, PrefixOk sn.evts sn.cntr) ∧
      PrefixOk (unfolder fuel stl cut wid syst).2.evts (unfolder fuel stl cut wid syst).2.cntr := by
  have hs := unfolder_safe fuel stl cut wid syst
  exact ⟨fun sn hsn => (hs.seen sn hsn).wf.prefixOk, hs.table.wf.prefixOk⟩

end Explore

end Poet
