import Poet.Exploration.Operations
import Poet.Exploration.Statistics

/-!
# The state of a configuration

`explore` never computes the state of a configuration from its events: it carries one along, and
`execute` runs one event from it. `Replays wid syst T stak g` says what that state is worth: the events
of the stack, run one after another from the initial state, lead to `g`, and each has in the prefix the
actions it had in this very run. These are the actions that dependence is decided with. An event that
is on the stack is not executed again, and nothing else writes the actions of an event that is there
(`ActsKept`), so this holds at every call of `explore` (`unfolder_replays`).
-/

namespace Poet

variable {st act : Type}

/-! ## What keeps the actions -/

namespace Events

variable {T T' T'' : Events act} {x e : EventID}

theorem mem_iff_actsOf : x ∈ T ↔ ∃ a, T.actsOf x = some a := by
  rw [← AList.lookup_isSome, Option.isSome_iff_exists]
  simp [actsOf, Option.map_eq_some_iff]

/-- The events of `T'` have the actions they had in `T`. -/
def KeepsActs (T T' : Events act) : Prop := ∀ x ∈ T', T'.actsOf x = T.actsOf x

theorem KeepsActs.refl (T : Events act) : KeepsActs T T := fun _ _ => rfl

theorem KeepsActs.trans (h : KeepsActs T T') (h' : KeepsActs T' T'') : KeepsActs T T'' := by
  intro x hx
  have hacts := h' x hx
  obtain ⟨a, ha⟩ := mem_iff_actsOf.1 hx
  have hx' : x ∈ T' := mem_iff_actsOf.2 ⟨a, hacts.symm.trans ha⟩
  exact hacts.trans (h x hx')

theorem actsOf_setEvent (ev : Event act) :
    (setEvent e ev T).actsOf x = if x = e then some ev.acts else T.actsOf x := by
  by_cases hx : x = e
  · subst hx
    simp [actsOf, setEvent, AList.lookup_insert]
  · simp [actsOf, setEvent, AList.lookup_insert_ne hx, hx]

theorem KeepsActs.setEvent {ev ev' : Event act} (hl : T.lookup e = some ev) (h : ev'.acts = ev.acts) :
    KeepsActs T (setEvent e ev' T) := by
  intro x _
  rw [actsOf_setEvent]
  split
  · next hx => rw [hx, actsOf_of_lookup hl, h]
  · rfl

/-- A change of fields other than the actions of an event that was read. -/
theorem KeepsActs.write {fn : String} {f : Event act → Event act}
    (h : (do
      let ev ← getEvent fn e T
      pure (Poet.setEvent e (f ev) T)) = .ok T') (hf : ∀ ev, (f ev).acts = ev.acts) :
    KeepsActs T T' := by
  obtain ⟨ev, hl, rfl⟩ := SameLinks.exists_of_write h
  exact .setEvent hl (hf ev)

theorem KeepsActs.erase : KeepsActs T (T.erase e) := by
  intro x hx
  have hne : x ≠ e := (AList.mem_erase.1 hx).1
  simp only [actsOf, AList.lookup_erase_ne hne]

theorem KeepsActs.delSucc (e e' : EventID) (T : Events act) : KeepsActs T (delSucc e e' T) := by
  unfold Poet.delSucc
  split
  · exact .refl T
  · next ev hl => exact .setEvent hl rfl

theorem KeepsActs.delEventAux (n : Nat) (h : delEventAux n e T = .ok T') : KeepsActs T T' := by
  induction n generalizing e T T' with
  | zero => cases h
  | succ n ih =>
    rw [Poet.delEventAux] at h
    split at h
    · obtain ⟨ev, -, h⟩ := bind_eq_ok.1 h
      obtain ⟨T₁, hT₁, h⟩ := bind_eq_ok.1 h
      obtain ⟨T₂, hT₂, h⟩ := bind_eq_ok.1 h
      obtain rfl := Except.ok.inj h
      have h₀ : KeepsActs T (ev.pred.foldl (fun t e' => Poet.delSucc e e' t) T) := by
        have hpred : ∀ (l : EventsID) (U : Events act),
            KeepsActs U (l.foldl (fun t e' => Poet.delSucc e e' t) U) := by
          intro l
          induction l with
          | nil => exact .refl
          | cons e' l ihl => exact fun U => (KeepsActs.delSucc e e' U).trans (ihl _)
        exact hpred ev.pred T
      have h₁ : KeepsActs T T₁ := foldlM_inv (I := KeepsActs T)
        (fun U e' _ U' hU (hstep : delIcnf e e' U = .ok U') => hU.trans (.write hstep fun _ => rfl))
        h₀ hT₁
      have h₂ : KeepsActs T T₂ := foldlM_inv (I := KeepsActs T)
        (fun U e' _ U' hU hstep => hU.trans (ih hstep)) h₁ hT₂
      exact h₂.trans .erase
    · obtain rfl := Except.ok.inj h
      exact .refl T

/-- Entering an event leaves the actions of the others. -/
theorem actsOf_addEvTable [Action act] {name : EventName} {acts : act} {h : History} {lh : EventsID}
    (hok : addEvTable e name acts h lh T = .ok T') (hx : x ∈ T') (hne : x ≠ e) :
    T'.actsOf x = T.actsOf x := by
  obtain ⟨lhCnfls, -, hok⟩ := bind_eq_ok.1 hok
  obtain ⟨cnfls, -, hok⟩ := bind_eq_ok.1 hok
  obtain ⟨T₁, hT₁, hok⟩ := bind_eq_ok.1 hok
  have h₁ := foldlM_inv (I := KeepsActs (setEvent e ⟨name, acts, h, [], cnfls, [], []⟩ T))
    (fun U e' _ U' hU (hstep : addSucc e e' U = .ok U') => hU.trans (.write hstep fun _ => rfl))
    (.refl _) hT₁
  have h₂ := foldlM_inv (I := KeepsActs (setEvent e ⟨name, acts, h, [], cnfls, [], []⟩ T))
    (fun U e' _ U' hU (hstep : addIcnf e e' U = .ok U') => hU.trans (.write hstep fun _ => rfl))
    h₁ hok
  rw [h₂ x hx, actsOf_setEvent, if_neg hne]

end Events

/-- The events that were there and still are have the same actions. -/
structure ActsKept (s s' : UnfolderState st act) : Prop where
  cntr : s.cntr ≤ s'.cntr
  acts : ∀ x < s.cntr, x ∈ s'.evts → s'.evts.actsOf x = s.evts.actsOf x

namespace ActsKept

theorem refl (s : UnfolderState st act) : ActsKept s s := ⟨Nat.le_refl _, fun _ _ _ => rfl⟩

theorem trans (s s' s'' : UnfolderState st act) (h : ActsKept s s') (h' : ActsKept s' s'') :
    ActsKept s s'' where
  cntr := Nat.le_trans h.cntr h'.cntr
  acts x hx hm := by
    have hacts := h'.acts x (Nat.lt_of_lt_of_le hx h.cntr) hm
    obtain ⟨a, ha⟩ := Events.mem_iff_actsOf.1 hm
    exact hacts.trans (h.acts x hx (Events.mem_iff_actsOf.2 ⟨a, hacts.symm.trans ha⟩))

theorem closed : Op.Closed (Op.Always ActsKept : ∀ {α : Type}, UnfolderOp st act α → Prop) :=
  Op.always_closed refl trans

/-- A step that leaves the table and the counter alone. -/
theorem of_eq {s s' : UnfolderState st act} (hcntr : s'.cntr = s.cntr) (hevts : s'.evts = s.evts) :
    ActsKept s s' := ⟨hcntr.ge, fun _ _ _ => by rw [hevts]⟩

theorem onStats (f : UnfolderStats → UnfolderStats) :
    Op.Always ActsKept (onStats f : UnfolderOp st act Unit) := fun _ => of_eq rfl rfl

theorem onEvts {f : Events act → Except Err (Events act)}
    (hf : ∀ T T', f T = .ok T' → T.KeepsActs T') :
    Op.Always ActsKept (onEvts f : UnfolderOp st act Unit) := by
  intro s
  refine Op.Sat.state (sat_onEvts.2 ⟨fun T' hT' => ?_, fun _ _ => refl s⟩)
  exact ⟨Nat.le_refl _, fun x _ hx => hf s.evts T' hT' x hx⟩

/-- The new event has an id that was not given out. -/
theorem addEv [Action act] (name : EventName) (acts : act) (h : History) (lh : EventsID) :
    Op.Always ActsKept (addEv name acts h lh : UnfolderOp st act EventsID) := by
  intro s
  refine Op.Sat.state (P := ActsKept s) ?_
  simp only [Poet.addEv, incEvsPrefix, freshCounter, incEvsPerName, Poet.onStats, Op.sat_bind,
    Op.sat_get, Op.sat_modify, Op.sat_pure, sat_onEvts]
  refine ⟨fun T' hT' => ⟨Nat.le_succ _, fun x hx hm => ?_⟩, fun _ _ => ⟨Nat.le_succ _, fun _ _ _ => rfl⟩⟩
  exact Events.actsOf_addEvTable hT' hm (Nat.ne_of_lt hx)

theorem cutoff [LatticeM st] [Projection st] (g : st) (n : Nat) :
    Op.Always ActsKept (cutoff g n : UnfolderOp st act Bool) := by
  intro s
  refine Op.Sat.state ((cutoff_spec g n).mono (fun _ s' h => ?_) fun _ _ h => h ▸ of_eq rfl rfl)
  obtain ⟨stas, rfl⟩ := h
  exact of_eq rfl rfl

theorem possibleAltes (evs : EventsID) :
    Op.Always ActsKept (possibleAltes evs : UnfolderOp st act Unit) :=
  closed.possibleAltes (fun _ _ => onEvts fun _ _ h => .write h fun _ => rfl) evs

theorem pruneBranch (stak d : EventsID) (e : EventID) :
    Op.Always ActsKept (pruneBranch stak d e : UnfolderOp st act Unit) :=
  closed.pruneBranch (fun _ => onEvts fun _ _ h => .write h fun _ => rfl)
    (fun _ => onEvts fun _ _ => .delEventAux _) stak d e

theorem extend [DecidableEq st] [DecidableEq act] [LatticeM st] [Projection st] [Lattice act]
    [Action act] [Domain st act] (fuel : Nat) (e : EventID) (maxevs : EventsID) (g : st) (th : TId) :
    Op.Always ActsKept (extend fuel e maxevs g th : UnfolderOp st act EventsID) :=
  closed.extend cutoff (onStats _) addEv (fun _ => onStats _) fuel e maxevs g th

end ActsKept

section Replay

variable [DecidableEq st] [DecidableEq act] [LatticeM st] [Projection st] [Lattice act] [Action act]
  [Domain st act] {wid : Int} {syst : System st act} {T T' : Events act} {stak : EventsID} {g g' : st}
  {s s' : UnfolderState st act} {e : EventID}

/-! ## The run of a stack -/

/-- The event `e` runs from `g` to `g'`, with the actions it has in the prefix. -/
def RunsTo (wid : Int) (syst : System st act) (T : Events act) (g : st) (e : EventID) (g' : st) :
    Prop :=
  ∃ name acts, T.nameOf e = some name ∧ T.actsOf e = some acts ∧
    Domain.drun wid syst g (name.tid, name.pos, name.sym) = .ok (g', acts)

/-- The events of the stack, the newest one first, lead from the initial state to `g`. -/
inductive Replays (wid : Int) (syst : System st act) (T : Events act) : EventsID → st → Prop where
  | bot : Replays wid syst T [botEID] syst.gbst
  | push {stak : EventsID} {g g' : st} {e : EventID} (below : Replays wid syst T stak g)
      (top : RunsTo wid syst T g e g') :
    Replays wid syst T (e :: stak) g'

theorem RunsTo.congr (h : RunsTo wid syst T g e g') (hname : T'.nameOf e = T.nameOf e)
    (hacts : T'.actsOf e = T.actsOf e) : RunsTo wid syst T' g e g' := by
  obtain ⟨name, acts, hn, ha, hrun⟩ := h
  exact ⟨name, acts, hname.trans hn, hacts.trans ha, hrun⟩

/-- A change of the prefix that keeps the names and the actions of the stack. -/
theorem Replays.congr (h : Replays wid syst T stak g)
    (hkept : ∀ x ∈ stak, T'.nameOf x = T.nameOf x ∧ T'.actsOf x = T.actsOf x) :
    Replays wid syst T' stak g := by
  induction h with
  | bot => exact .bot
  | push _ top ih =>
    obtain ⟨hname, hacts⟩ := hkept _ List.mem_cons_self
    exact .push (ih fun x hx => hkept x (List.mem_cons_of_mem _ hx)) (top.congr hname hacts)

/-! ## One event -/

theorem execute_runs (hwid : s.opts.widening = wid) (hsyst : s.syst = syst) (g : st) (e : EventID) :
    Op.Sat (execute g e) s (fun g' s' => RunsTo wid syst s'.evts g e g' ∧ s'.cntr = s.cntr ∧
      ∀ x, x ≠ e → s'.evts.actsOf x = s.evts.actsOf x) (fun _ _ => True) := by
  simp only [execute, Op.sat_bind, Op.sat_get, Op.sat_monadLift, Op.sat_pure, sat_onEvts]
  refine ⟨fun ev hev => ⟨fun r hr => ⟨fun T' hT' => ?_, fun _ _ => trivial⟩, fun _ _ => trivial⟩,
    fun _ _ => trivial⟩
  obtain rfl := Except.ok.inj hT'
  have hdrun : Domain.drun wid syst g (ev.name.tid, ev.name.pos, ev.name.sym) = .ok r := by
    rw [← hwid, ← hsyst]
    cases hd : Domain.drun s.opts.widening s.syst g (ev.name.tid, ev.name.pos, ev.name.sym) with
    | error _ => simp [hd, liftDom] at hr
    | ok p =>
      simp only [hd, liftDom, Except.ok.injEq] at hr
      rw [hr]
  refine ⟨⟨ev.name, r.2, ?_, ?_, hdrun⟩, trivial, fun x hx => ?_⟩
  · simp [Events.nameOf, setEvent, AList.lookup_insert]
  · rw [Events.actsOf_setEvent, if_pos rfl]
  · rw [Events.actsOf_setEvent, if_neg hx]

/-- The event was run from `g` to `g'` in a state after `s`, and then the prefix was extended to `s'`. -/
def Ran (wid : Int) (syst : System st act) (s : UnfolderState st act) (g : st) (e : EventID) (g' : st)
    (s' : UnfolderState st act) : Prop :=
  ∃ s₁, Grows s s₁ ∧ s₁.cntr = s.cntr ∧ RunsTo wid syst s₁.evts g e g' ∧
    (∀ x ∈ s.evts, x ≠ e → s₁.evts.actsOf x = s.evts.actsOf x) ∧ ActsKept s₁ s'

theorem unfold_runs (fuel : Nat) {c : Configuration st} (hg : Good syst s) (hc : Reached syst c.state)
    (hwid : s.opts.widening = wid) :
    Op.Sat (unfold fuel c e) s (fun nc s' => Ran wid syst s c.state e nc.state s')
      (fun _ _ => True) := by
  simp only [unfold, Op.sat_bind, Op.sat_map, Op.sat_get, Op.sat_monadLift, Op.sat_pure]
  refine ((execute_good hg hc e).and (execute_runs hwid hg.syst_eq c.state e)).mono
    (fun nst s₁ h₁ => ?_) fun _ _ _ => trivial
  obtain ⟨⟨-, hgr₁, -⟩, hrun, hcntr, hother⟩ := h₁
  refine ⟨fun iprede _ => ⟨fun senevs _ => ⟨fun itrs _ => ⟨fun entrs _ => ?_, fun _ _ => trivial⟩,
    fun _ _ => trivial⟩, fun _ _ => trivial⟩, fun _ _ => trivial⟩
  refine (Op.sat_true.always (ActsKept.closed.mapM' (ActsKept.extend fuel e _ nst) _)).mono (fun bs s₂ h₂ => ?_)
    fun _ _ _ => trivial
  exact ⟨fun _ _ => ⟨fun _ _ => ⟨s₁, hgr₁, hcntr, hrun, fun x _ => hother x, h₂.2⟩, fun _ _ => trivial⟩,
    fun _ _ => trivial⟩

/-- The new configuration has the state after `e`, and the stack is as it was. -/
theorem addToConf_runs (fuel : Nat) {c : Configuration st} (hg : Good syst s)
    (hc : ConfOk syst s.evts s.cntr s.stak c) (he : e ∈ c.enevs) (hwid : s.opts.widening = wid)
    (d : EventsID) :
    Op.Sat (addToConf fuel c d e) s (fun nc s' => RunsTo wid syst s'.evts c.state e nc.state ∧
      ∀ x ∈ s.stak, s'.evts.actsOf x = s.evts.actsOf x) (fun _ _ => True) := by
  -- what is known of the states on the way
  have hway : Op.Sat (addToConf fuel c d e) s (fun nc s' => Ran wid syst s c.state e nc.state s')
      (fun _ _ => True) := by
    simp only [addToConf, Op.sat_bind, Op.sat_get]
    refine ((hg.onEvts_sameLinks fun T' hT' => .setDisa hT').always
      (ActsKept.onEvts fun _ _ h => .write h fun _ => rfl)).mono (fun _ s₁ h₁ => ?_) fun _ _ _ => trivial
    obtain ⟨⟨hg₁, hgr₁, hcntr₁, -⟩, hacts₁⟩ := h₁
    have hstate : ∀ c' : Configuration st, c'.state = c.state → Op.Sat (unfold fuel c' e) s₁
        (fun nc s' => Ran wid syst s c.state e nc.state s') (fun _ _ => True) := by
      intro c' hc'
      refine (unfold_runs fuel hg₁ (hc'.symm ▸ hc.reached) (hgr₁.opts ▸ hwid)).mono
        (fun nc s' h => ?_) fun _ _ h => h
      obtain ⟨s₂, hgr₂, hcntr₂, hrun, hother, hkept⟩ := h
      refine ⟨s₂, hgr₁.trans hgr₂, hcntr₂.trans hcntr₁, hc' ▸ hrun, fun x hx hne => ?_, hkept⟩
      exact (hother x (hgr₁.keeps x hx) hne).trans
        (hacts₁.acts x (hg.wf.lt_cntr hx) (hgr₁.keeps x hx))
    split
    · exact hstate _ rfl
    · exact hstate c rfl
  refine ((addToConf_good fuel hg hc he d).and hway).mono (fun nc s' h => ?_) fun _ _ _ => trivial
  obtain ⟨⟨-, hgr, heT, -⟩, s₂, hgr₂, hcntr, hrun, hother, hkept⟩ := h
  have hacts : ∀ x ∈ s.evts, s'.evts.actsOf x = s₂.evts.actsOf x := fun x hx =>
    hkept.acts x (hcntr ▸ hg.wf.lt_cntr hx) (hgr.keeps x hx)
  refine ⟨hrun.congr ?_ (hacts e heT), fun x hx => ?_⟩
  · have hlt := hg.wf.lt_cntr heT
    rw [hgr.older.name hlt (hgr.keeps e heT), hgr₂.older.name hlt (hgr₂.keeps e heT)]
  · have hxT := hg.stak_mem hx
    have hne : x ≠ e := by
      rintro rfl
      exact (hc.enevs x he heT).notMem hx
    exact (hacts x hxT).trans (hother x hxT hne)

/-! ## The exploration -/

/-- At every call so far, the state of the configuration was the one after the stack. -/
def CallsReplay (wid : Int) (syst : System st act) (s : UnfolderState st act) : Prop :=
  ∀ k ∈ s.calls, Replays wid syst k.evts k.stak k.conf.state

/-- What a call of `explore` needs and keeps, besides `Good`. -/
structure ReplayOk (wid : Int) (syst : System st act) (s : UnfolderState st act)
    (c : Configuration st) : Prop where
  widening : s.opts.widening = wid
  calls : CallsReplay wid syst s
  state : Replays wid syst s.evts s.stak c.state

theorem Evolves.replays (hg : Good syst s) (hev : Evolves s s')
    (hacts : ∀ x ∈ s.stak, s'.evts.actsOf x = s.evts.actsOf x)
    (h : Replays wid syst s.evts s.stak g) : Replays wid syst s'.evts s.stak g :=
  h.congr fun x hx => ⟨hev.older.name (hg.stak_lt hx) (hev.kept x hx), hacts x hx⟩

/-- What a call of `explore` leaves. -/
structure ReplayKept (wid : Int) (syst : System st act) (s s' : UnfolderState st act) : Prop where
  good : Good syst s'
  evolves : Evolves s s'
  acts : ∀ x ∈ s.stak, s'.evts.actsOf x = s.evts.actsOf x
  calls : CallsReplay wid syst s'

theorem ReplayKept.trans {s'' : UnfolderState st act} (h : ReplayKept wid syst s s')
    (h' : ReplayKept wid syst s' s'') : ReplayKept wid syst s s'' where
  good := h'.good
  evolves := h.evolves.trans h'.evolves
  acts x hx := (h'.acts x (h.evolves.stak ▸ hx)).trans (h.acts x hx)
  calls := h'.calls

theorem ReplayKept.replayOk {c : Configuration st} (hg : Good syst s) (h : ReplayKept wid syst s s')
    (hc : ReplayOk wid syst s c) : ReplayOk wid syst s' c where
  widening := h.evolves.opts ▸ hc.widening
  calls := h.calls
  state := by
    rw [h.evolves.stak]
    exact h.evolves.replays hg h.acts hc.state

/-- An operation that makes no call and executes no event. -/
theorem ReplayKept.of_actsKept (hg : Good syst s) (hg' : Good syst s') (hev : Evolves s s')
    (hacts : ActsKept s s') (heq : s'.calls = s.calls) (hcalls : CallsReplay wid syst s) :
    ReplayKept wid syst s s' where
  good := hg'
  evolves := hev
  acts x hx := hacts.acts x (hg.stak_lt hx) (hev.kept x hx)
  calls k hk := hcalls k (heq ▸ hk)

theorem maximalConf_replays (hg : Good syst s) (hcalls : CallsReplay wid syst s) (cfevs : EventsID) :
    Op.Sat (maximalConf cfevs) s (fun _ s' => ReplayKept wid syst s s')
      (fun _ => CallsReplay wid syst) := by
  simp only [maximalConf, incSumSizeMaxConf, incMaxConf, onStats, Op.sat_bind, Op.sat_modify]
  refine (((possibleAltes_good hg cfevs).always (possibleAltes_quiet cfevs)).always
    (ActsKept.possibleAltes cfevs)).mono (fun _ s₁ h₁ => ?_) fun _ s₁ h₁ k hk => ?_
  · obtain ⟨⟨⟨hg₁, hgr⟩, hq⟩, hacts⟩ := h₁
    have hev := hgr.evolves fun _ => hg.stak_mem
    exact .of_actsKept hg ((hg₁.set_stats _).set_stats _)
      ⟨hev.stak, hev.opts, hev.cntr, hev.older, hev.kept, hev.stateful⟩ ⟨hacts.cntr, hacts.acts⟩
      hq.calls hcalls
  · exact hcalls k (h₁.1.2.calls ▸ hk)

/-- One call of `explore`, when the recursive calls are as claimed. -/
theorem exploreStep_replays (fuel : Nat)
    {rec : Configuration st → EventID → EventsID → Alternative → UnfolderOp st act Unit}
    (hrec : ∀ c ê d alt s, Good syst s → ConfOk syst s.evts s.cntr s.stak c → ReplayOk wid syst s c →
      Op.Sat (rec c ê d alt) s (fun _ s' => ReplayKept wid syst s s') (fun _ => CallsReplay wid syst))
    {c : Configuration st} (ê : EventID) (d : EventsID) (alt : Alternative) (hg : Good syst s)
    (hc : ConfOk syst s.evts s.cntr s.stak c) (hr : ReplayOk wid syst s c) :
    Op.Sat (exploreStep fuel rec c ê d alt) s (fun _ s' => ReplayKept wid syst s s')
      (fun _ => CallsReplay wid syst) := by
  have hg₀ : Good syst (s.called c ê d alt) := ⟨⟨hg.syst_eq, hg.table, hg.seen⟩, hg.stack⟩
  have h₀ : ReplayKept wid syst s (s.called c ê d alt) := by
    refine ⟨hg₀, ⟨rfl, rfl, Nat.le_refl _, .refl _ _, fun _ => hg.stak_mem, fun _ _ h => h⟩,
      fun _ _ => rfl, fun k hk => ?_⟩
    rcases List.mem_cons.1 hk with rfl | hk
    · exact hr.state
    · exact hr.calls k hk
  refine exploreStep_rule (fun _ => ?_) (fun _ _ _ => h₀.calls) fun e _ hchoose => ?_
  · exact (maximalConf_replays hg₀ h₀.calls c.cfevs).mono (fun _ _ h => h₀.trans h) fun _ _ h => h
  have he := (chooseEvent_mem hchoose).1
  have hr₀ := h₀.replayOk hg hr
  refine (((addToConf_good fuel hg₀ hc he d).and (addToConf_runs fuel hg₀ hc he hr₀.widening d)).always
    (addToConf_quiet fuel c d e)).mono (fun nc s₁ h₁ => ?_) fun _ s₁ h₁ k hk => ?_
  swap
  · exact h₀.calls k (h₁.2.calls ▸ hk)
  obtain ⟨⟨⟨hg₁, hgr₁, -, hunf⟩, hrun, hacts₁⟩, hq₁⟩ := h₁
  have h₁ : ReplayKept wid syst s s₁ := h₀.trans
    ⟨hg₁, hgr₁.evolves fun _ => hg₀.stak_mem, hacts₁, fun k hk => h₀.calls k (hq₁.calls ▸ hk)⟩
  have hr₁ := h₁.replayOk hg hr
  have hc₁ := hunf.confOk hg₁
  -- the branch with `e`
  refine (hrec nc e d (alt.erase e) (s₁.withStack (e :: s₁.stak)) (hg₁.withStack hunf.frontier.stack)
    hc₁ ⟨hr₁.widening, h₁.calls, .push hr₁.state hrun⟩).mono (fun _ s₂ h₂ => ?_) fun _ _ h => h
  rw [sat_pop h₂.evolves.stak]
  have hkept : ∀ x ∈ s.stak, x ∈ s₂.evts := fun x hx =>
    h₂.evolves.kept x (List.mem_cons_of_mem _ (h₁.evolves.stak ▸ hx))
  have hev₃ : Evolves s (s₂.withStack s₁.stak) :=
    ⟨h₁.evolves.stak, h₂.evolves.opts.trans h₁.evolves.opts,
      Nat.le_trans h₁.evolves.cntr h₂.evolves.cntr,
      h₁.evolves.older.trans h₂.evolves.older h₁.evolves.cntr, hkept,
      fun hm x hx => h₂.evolves.stateful (h₁.evolves.opts ▸ hm) x (h₁.evolves.stateful hm x hx)⟩
  have hg₃ : Good syst (s₂.withStack s₁.stak) := h₂.good.withStack <| h₁.evolves.stak ▸
    hev₃.older.stackOk h₂.good.linked hg.stack (fun _ => hg.stak_lt) hkept
  have h₃ : ReplayKept wid syst s (s₂.withStack s₁.stak) := by
    refine ⟨hg₃, hev₃, fun x hx => ?_, h₂.calls⟩
    exact (h₂.acts x (List.mem_cons_of_mem _ (h₁.evolves.stak ▸ hx))).trans (h₁.acts x hx)
  refine ⟨fun malt _ => ?_, fun _ _ => h₃.calls⟩
  -- the branch without `e`, then the prefix is pruned
  have hafter : ∀ s₄, ReplayKept wid syst s s₄ → Op.Sat (pruneBranch s.stak d e) s₄
      (fun _ s' => ReplayKept wid syst s s') (fun _ => CallsReplay wid syst) := by
    intro s₄ h₄
    refine (((pruneBranch_good h₄.good h₄.evolves.stak d e).always
      (pruneBranch_quiet s.stak d e)).always (ActsKept.pruneBranch s.stak d e)).mono
      (fun _ s₅ h => ?_) fun _ s₅ h k hk => h₄.calls k (h.1.2.calls ▸ hk)
    exact h₄.trans (.of_actsKept h₄.good h.1.1.1 h.1.1.2 h.2 h.1.2.calls h₄.calls)
  cases malt with
  | none => exact hafter _ h₃
  | some alt' =>
    refine (hrec c ê (e :: d) (alt'.diff s.stak) _ hg₃ (hg.confOk hc hev₃ hg₃)
      (h₃.replayOk hg hr)).mono (fun _ s₄ h₄ => ?_) fun _ _ h => h
    exact hafter s₄ (h₃.trans h₄)

theorem explore_replays : ∀ (n : Nat) (c : Configuration st) (ê : EventID) (d : EventsID)
    (alt : Alternative) (s : UnfolderState st act), Good syst s → ConfOk syst s.evts s.cntr s.stak c →
    ReplayOk wid syst s c → Op.Sat (explore n c ê d alt) s (fun _ s' => ReplayKept wid syst s s')
      (fun _ => CallsReplay wid syst)
  | 0, _, _, _, _, _, _, _, hr => hr.calls
  | n + 1, _, ê, d, alt, _, hg, hc, hr => exploreStep_replays n (explore_replays n) ê d alt hg hc hr

/-- **The state of every configuration is the one of its events run one by one.** For every domain, in
stateful and stateless mode, with or without cutoffs and however the run ends: at every call of
`explore`, running the events of the stack in the order they were pushed, each by its name from the
state before it, leads from the initial state to the state of the configuration, and the actions that
the prefix has for an event of the stack are the ones of this run. -/
theorem unfolder_replays (fuel : Nat) (stl cut : Bool) (wid : Int) (syst : System st act) :
    CallsReplay wid syst (unfolder fuel stl cut wid syst).2 := by
  have hg := iUnfState_good stl cut wid syst
  refine Op.Sat.state (P := CallsReplay wid syst) ?_
  simp only [botExplore, Op.sat_bind]
  have hstate : Op.Sat (initialExt fuel) (iUnfState stl cut wid syst)
      (fun c _ => c.state = syst.gbst) (fun _ _ => True) := by
    simp only [initialExt, Op.sat_bind, Op.sat_map, Op.sat_get, Op.sat_monadLift, Op.sat_pure]
    exact ⟨fun _ _ => Op.sat_true.mono (fun _ _ _ => rfl) fun _ _ h => h, fun _ _ => trivial⟩
  refine (((initialExt_good fuel hg botPrefix_frontier).and hstate).always (initialExt_quiet fuel)).mono
    (fun c s₁ h₁ => ?_) fun _ s₁ h₁ k hk => ?_
  swap
  · rw [h₁.2.calls] at hk
    exact absurd hk List.not_mem_nil
  obtain ⟨⟨⟨hg₁, hgr₁, hc₁⟩, hst⟩, hq⟩ := h₁
  have hstak : s₁.stak = [botEID] := hgr₁.stak
  have hr : ReplayOk wid syst s₁ c := by
    refine ⟨by rw [hgr₁.opts]; rfl, fun k hk => ?_, ?_⟩
    · rw [hq.calls] at hk
      exact absurd hk List.not_mem_nil
    · rw [hstak, hst]
      exact .bot
  exact (explore_replays fuel c botEID [] [] s₁ hg₁ (hstak ▸ hc₁) hr).mono (fun _ _ h => h.calls)
    fun _ _ h => h

end Replay

end Poet
