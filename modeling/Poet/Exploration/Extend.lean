import Poet.Exploration.Invariant

/-!
# Extending the prefix

`addEvent` returns a duplicate, cuts the event off, or enters a new one (`AddOutcome`), and `ext`,
`extend` and `execute` are built from it. Their results can be added to the configuration they were
called with, the invariant is kept, and every change of the prefix is an `AddStep` (`ext_spec`).
-/

namespace Poet

variable {st act : Type}

/-- What the operations below `explore` leave alone. -/
structure Quiet (s s' : UnfolderState st act) : Prop where
  syst : s'.syst = s.syst
  opts : s'.opts = s.opts
  stak : s'.stak = s.stak
  calls : s'.calls = s.calls
  nrMaxConf : s'.stats.nrMaxConf = s.stats.nrMaxConf

namespace Quiet

theorem refl (s : UnfolderState st act) : Quiet s s := ⟨rfl, rfl, rfl, rfl, rfl⟩

theorem trans (s s' s'' : UnfolderState st act) (h : Quiet s s') (h' : Quiet s' s'') : Quiet s s'' :=
  ⟨h'.syst.trans h.syst, h'.opts.trans h.opts, h'.stak.trans h.stak, h'.calls.trans h.calls,
    h'.nrMaxConf.trans h.nrMaxConf⟩

theorem bind {α β : Type} {m : UnfolderOp st act α} {f : α → UnfolderOp st act β}
    (hm : Op.Always Quiet m) (hf : ∀ a, Op.Always Quiet (f a)) : Op.Always Quiet (m >>= f) :=
  Op.always_bind trans hm hf

theorem pure {α : Type} (a : α) : Op.Always Quiet (pure a : UnfolderOp st act α) :=
  Op.always_pure refl a

theorem get : Op.Always Quiet (Op.get : UnfolderOp st act _) := Op.always_get refl

theorem fail {α : Type} (e : Err) : Op.Always Quiet (Op.fail e : UnfolderOp st act α) :=
  Op.always_fail refl e

theorem lift {α : Type} (x : Except Err α) : Op.Always Quiet (monadLift x : UnfolderOp st act α) :=
  Op.always_monadLift refl x

theorem mapM' {α β : Type} {f : α → UnfolderOp st act β} (hf : ∀ a, Op.Always Quiet (f a))
    (l : List α) : Op.Always Quiet (l.mapM' f) :=
  Op.always_mapM' refl trans hf l

theorem onEvts (f : Events act → Except Err (Events act)) :
    Op.Always Quiet (onEvts f : UnfolderOp st act Unit) :=
  bind get fun _ => bind (lift _) fun _ => bind (fun _ => ⟨rfl, rfl, rfl, rfl, rfl⟩) fun _ _ =>
    ⟨rfl, rfl, rfl, rfl, rfl⟩

end Quiet

/-- The local history that `addEvent` computes. -/
theorem localHistory_ok {T : Events act} {h : History} (hT : Linked T []) (hmem : ∀ x ∈ h, x ∈ T) :
    ∃ prede, h.mapM' (predecessors · T) = .ok prede ∧
      ∀ x, x ∈ (prede.flatten ++ h).eraseDups ↔ Under T h x := by
  have hp : ∀ x ∈ h, ∃ l, predecessors x T = .ok l ∧ ∀ y, y ∈ l ↔ Lt T y x := by
    intro x hx
    obtain ⟨l, hl, -, hmem⟩ := predecessors_ok hT.causal (hmem x hx)
    exact ⟨l, hl, hmem⟩
  choose! g hg hgm using hp
  refine ⟨h.map g, mapM'_ok hg, fun x => ?_⟩
  simp only [List.mem_eraseDups, List.mem_append, List.mem_flatten, List.mem_map, Under, Le]
  constructor
  · rintro (⟨l, ⟨m, hm, rfl⟩, hx⟩ | hx)
    · exact ⟨m, hm, .inr ((hgm m hm x).1 hx)⟩
    · exact ⟨x, hx, .inl rfl⟩
  · rintro ⟨m, hm, rfl | hlt⟩
    · exact .inr hm
    · exact .inl ⟨g m, ⟨m, hm, rfl⟩, (hgm m hm x).2 hlt⟩

theorem cutoff_spec [LatticeM st] [Projection st] {s : UnfolderState st act} (gst : st) (n : Nat) :
    Op.Sat (cutoff gst n) s (fun _ s' => ∃ stas, s' = { s with stas := stas })
      (fun _ s' => s' = s) := by
  unfold cutoff
  simp only [Op.sat_bind, Op.sat_get]
  split
  · exact ⟨_, rfl⟩
  · simp only [Op.sat_bind, Op.sat_monadLift]
    exact ⟨fun _ _ => ⟨_, rfl⟩, fun _ _ => trivial⟩

section AddEv

variable [Action act] {s : UnfolderState st act} {name : EventName} {acts : act} {h : History}
  {dup : List (EventID × Event act)}

/-- How `addEvent` can end. -/
inductive AddOutcome (dup : List (EventID × Event act)) (name : EventName) (acts : act)
    (h : History) (s : UnfolderState st act) : EventsID → UnfolderState st act → Prop
  | dup (p : EventID × Event act) (mem : p ∈ dup) (same : ∀ x, x ∈ p.2.pred ↔ x ∈ h) :
    AddOutcome dup name acts h s [p.1] s
  | cutoff (s' : UnfolderState st act) (on : s.opts.cutoffs = true) (evts : s'.evts = s.evts)
      (cntr : s'.cntr = s.cntr) (seen : s'.seen = s.seen) : AddOutcome dup name acts h s [] s'
  | new (s' : UnfolderState st act) (lh cs : EventsID)
      (fresh : ∀ p ∈ dup, ¬ ∀ x, x ∈ p.2.pred ↔ x ∈ h)
      (lh_iff : ∀ x, x ∈ lh ↔ Under s.evts h x)
      (added : Added s.evts s.cntr name acts h cs s'.evts)
      (cnfls : NewConflicts s.evts (name, acts) lh cs) (cntr : s'.cntr = s.cntr + 1)
      (seen : s'.seen = ⟨s'.evts, s'.cntr, s.stak⟩ :: s.seen) :
    AddOutcome dup name acts h s [s.cntr] s'

theorem addEv_quiet (name : EventName) (acts : act) (h : History) (lh : EventsID) :
    Op.Always Quiet (addEv name acts h lh : UnfolderOp st act EventsID) :=
  .bind (fun _ => ⟨rfl, rfl, rfl, rfl, rfl⟩) fun _ =>
    .bind (.bind .get fun _ => .bind (fun _ => ⟨rfl, rfl, rfl, rfl, rfl⟩) fun _ => .pure _) fun _ =>
      .bind (.onEvts _) fun _ => .bind (fun _ => ⟨rfl, rfl, rfl, rfl, rfl⟩) fun _ => .pure _

/-- `addEv` does not fail; the cutoff table may have changed before it. -/
theorem addEv_spec {lh : EventsID} (stas : States st) (hT : WF s.evts s.cntr) (hnd : h.Nodup)
    (hmem : ∀ x ∈ h, x ∈ s.evts) (hlh : ∀ x, x ∈ lh ↔ Under s.evts h x)
    (fresh : ∀ p ∈ dup, ¬ ∀ x, x ∈ p.2.pred ↔ x ∈ h) :
    Op.Sat (addEv name acts h lh) { s with stas := stas } (AddOutcome dup name acts h s)
      (fun _ _ => False) := by
  have hlhT : ∀ x ∈ lh, x ∈ s.evts := by
    intro x hx
    obtain ⟨m, hm, hxm⟩ := (hlh x).1 hx
    exact hT.linked.causal.mem_of_le hxm (hmem m hm)
  obtain ⟨cs, T', hok, hadd, hcs⟩ : ∃ cs T', addEvTable s.cntr name acts h lh s.evts = .ok T' ∧
      Added s.evts s.cntr name acts h cs T' ∧ NewConflicts s.evts (name, acts) lh cs :=
    addEvTable_ok hT hnd hmem hlhT
  simp only [addEv, incEvsPrefix, onStats, freshCounter, incEvsPerName, Op.sat_bind, Op.sat_modify,
    Op.sat_get, Op.sat_pure, sat_onEvts, hok]
  refine ⟨fun T'' h'' => ?_, fun e he => by cases he⟩
  obtain rfl : T' = T'' := Except.ok.inj h''
  exact .new _ lh cs fresh hlh hadd hcs rfl rfl

namespace AddOutcome

variable {s' : UnfolderState st act} {r : EventsID} (ho : AddOutcome dup name acts h s r s')

include ho

/-- What is new is the event with this name and history. -/
theorem mem_cases {x : EventID} (hx : x ∈ s'.evts) :
    x ∈ s.evts ∨ (s'.evts.nameOf x = some name ∧ s'.evts.predOf x = h) := by
  cases ho with
  | dup => exact .inl hx
  | cutoff _ _ evts => exact .inl (evts ▸ hx)
  | new _ _ _ _ _ added =>
    rcases added.mem_iff.1 hx with rfl | hx
    · exact .inr ⟨by simp [added.nameOf], by simp [added.predOf]⟩
    · exact .inl hx

theorem actsOf (hwf : WF s.evts s.cntr) {x : EventID} (hx : x ∈ s.evts) :
    s'.evts.actsOf x = s.evts.actsOf x := by
  cases ho with
  | dup => rfl
  | cutoff _ _ evts => rw [evts]
  | new _ _ _ _ _ added => rw [added.actsOf, if_neg (Nat.ne_of_lt (hwf.lt_cntr hx))]

end AddOutcome

omit [Action act] in
/-- Two duplicates with one history are one event, if events are unique. -/
theorem not_two_duplicates (hnd : dup.Nodup)
    (hdup : ∀ p ∈ dup, p.1 ∈ s.evts ∧ s.evts.nameOf p.1 = some name ∧
      s.evts.predOf p.1 = p.2.pred)
    (hval : ∀ p ∈ dup, ∀ q ∈ dup, p.1 = q.1 → p.2 = q.2)
    (huniq : ∀ x ∈ s.evts, ∀ y ∈ s.evts, s.evts.nameOf x = s.evts.nameOf y →
      (∀ z, z ∈ s.evts.predOf x ↔ z ∈ s.evts.predOf y) → x = y) :
    ¬ 1 < (dup.filter fun p => sameElems p.2.pred h).length := by
  intro hlen
  obtain ⟨p, hp, q, hq, hpq⟩ := exists_ne_of_nodup (hnd.filter _) hlen
  obtain ⟨hp, hps⟩ := List.mem_filter.1 hp
  obtain ⟨hq, hqs⟩ := List.mem_filter.1 hq
  obtain ⟨hpm, hpn, hpp⟩ := hdup p hp
  obtain ⟨hqm, hqn, hqp⟩ := hdup q hq
  have hid : p.1 = q.1 := by
    refine huniq p.1 hpm q.1 hqm (hpn.trans hqn.symm) fun x => ?_
    rw [hpp, hqp]
    exact (sameElems_iff.1 hps x).trans (sameElems_iff.1 hqs x).symm
  exact hpq (Prod.ext hid (hval p hp q hq hid))

end AddEv

theorem succsNamed_ok {T : Events act} (hT : Linked T []) {e : EventID} (he : e ∈ T)
    (name : EventName) : ∃ succe, succsNamed e name T = .ok succe ∧ succe.Nodup ∧
      ∀ p, p ∈ succe ↔ p.1 ∈ T.succOf e ∧ T.lookup p.1 = some p.2 ∧ p.2.name = name := by
  have hev : ∀ x ∈ T.succOf e, ∃ ev, getEvent "ext" x T = .ok ev := by
    intro x hx
    obtain ⟨ev, hl⟩ := Events.lookup_of_mem (hT.succ_mem hx)
    exact ⟨ev, getEvent_ok _ hl⟩
  obtain ⟨evs, hevs, hfst, hmem⟩ := mapM'_pairs hev
  have hget : ∀ x ev, getEvent "ext" x T = .ok ev ↔ T.lookup x = some ev := by
    intro x ev
    cases hl : T.lookup x <;> simp [getEvent, hl]
  have hnd : evs.Nodup := List.Nodup.of_map (·.1) (hfst ▸ hT.succ_nodup e)
  refine ⟨evs.filter (·.2.name = name), ?_, hnd.filter _, fun p => ?_⟩
  · rw [succsNamed, getSucc_ok he, ok_bind, hevs, ok_bind, pure_eq_ok]
  · rw [List.mem_filter, hmem, hget, decide_eq_true_eq, and_assoc]

/-! ## Configurations and their maximal events -/

/-- `maxevs` are the maximal events of the configuration `conf`. -/
structure Frontier (T : Events act) (conf maxevs : EventsID) : Prop where
  stack : StackOk T conf
  nodup : maxevs.Nodup
  maximal : ∀ x, x ∈ maxevs ↔ x ∈ conf ∧ ∀ y ∈ conf, ¬ Lt T x y

namespace Frontier

variable {T : Events act} {conf maxevs : EventsID} (h : Frontier T conf maxevs)

include h

theorem mem {x : EventID} (hx : x ∈ maxevs) : x ∈ T := h.stack.closed.mem x ((h.maximal x).1 hx).1

theorem anti : Antichain T maxevs :=
  fun a ha b hb => ((h.maximal a).1 ha).2 b ((h.maximal b).1 hb).1

/-- Above every event of a configuration there is a maximal one. -/
theorem under_of_mem (hT : Linked T []) : ∀ (n : Nat) (x : EventID), T.bound ≤ n + x → x ∈ conf →
    Under T maxevs x
  | 0, x, hn, hx => by
    have := Events.lt_bound (h.stack.closed.mem x hx)
    lia
  | n + 1, x, hn, hx => by
    by_cases hmax : ∀ y ∈ conf, ¬ Lt T x y
    · exact Poet.under_of_mem ((h.maximal x).2 ⟨hx, hmax⟩)
    · push Not at hmax
      obtain ⟨y, hy, hlt⟩ := hmax
      have := hT.id_lt hlt
      exact (under_of_mem hT n y (by lia) hy).of_le (.inr hlt)

theorem under_iff (hT : Linked T []) {x : EventID} : Under T maxevs x ↔ x ∈ conf := by
  constructor
  · rintro ⟨m, hm, hle⟩
    exact h.stack.closed.of_le ((h.maximal m).1 hm).1 hle
  · exact h.under_of_mem hT T.bound x (by lia)

end Frontier

theorem Older.frontier {T T' : Events act} {n : Nat} {conf maxevs : EventsID} (h : Older n T T')
    (hwf : WF T n) (hkeeps : ∀ x ∈ T, x ∈ T') (hT' : Linked T' []) (hf : Frontier T conf maxevs) :
    Frontier T' conf maxevs := by
  have hkept : ∀ x ∈ conf, x ∈ T' := fun x hx => hkeeps x (hf.stack.closed.mem x hx)
  have hlt : ∀ x ∈ conf, x < n := fun x hx => hwf.lt_cntr (hf.stack.closed.mem x hx)
  refine ⟨h.stackOk hT' hf.stack hlt hkept, hf.nodup, fun x => ?_⟩
  rw [hf.maximal]
  refine and_congr_right fun _ => forall₂_congr fun y hy => ?_
  rw [h.lt_iff hT' (hlt y hy) (hkept y hy)]

theorem Grows.frontier {s s' : UnfolderState st act} {conf maxevs : EventsID} (h : Grows s s')
    (hwf : WF s.evts s.cntr) (hT' : Linked s'.evts []) (hf : Frontier s.evts conf maxevs) :
    Frontier s'.evts conf maxevs := h.older.frontier hwf h.keeps hT' hf

/-- The event `x` has this name and history. -/
structure IsEvent (T : Events act) (name : EventName) (h : History) (x : EventID) : Prop where
  mem : x ∈ T
  name : T.nameOf x = some name
  pred : ∀ p, p ∈ T.predOf x ↔ p ∈ h

theorem Grows.isEvent {s s' : UnfolderState st act} {name : EventName} {h : History} {x : EventID}
    (hgr : Grows s s') (hwf : WF s.evts s.cntr) (hx : IsEvent s.evts name h x) :
    IsEvent s'.evts name h x where
  mem := hgr.keeps x hx.mem
  name := (hgr.older.name (hwf.lt_cntr hx.mem) (hgr.keeps x hx.mem)).trans hx.name
  pred := by
    rw [hgr.older.pred (hwf.lt_cntr hx.mem) (hgr.keeps x hx.mem)]
    exact hx.pred

/-- What `addEvent` returns has the name and the history, if the duplicates have the name. -/
theorem AddOutcome.isEvent [Action act] {dup : List (EventID × Event act)} {name : EventName}
    {acts : act} {h : History} {s s' : UnfolderState st act} {r : EventsID}
    (ho : AddOutcome dup name acts h s r s')
    (hdup : ∀ p ∈ dup, p.1 ∈ s.evts ∧ s.evts.nameOf p.1 = some name ∧
      s.evts.predOf p.1 = p.2.pred) :
    (∀ x ∈ r, IsEvent s'.evts name h x) ∧ (s.opts.cutoffs = false → r ≠ []) := by
  cases ho with
  | dup p mem same =>
    obtain ⟨hm, hn, hp⟩ := hdup p mem
    refine ⟨fun x hx => ?_, by simp⟩
    obtain rfl : x = p.1 := by simpa using hx
    exact ⟨hm, hn, hp ▸ same⟩
  | cutoff _ on =>
    refine ⟨by simp, fun hoff => ?_⟩
    rw [hoff] at on
    cases on
  | new _ _ _ _ _ added =>
    refine ⟨fun x hx => ?_, by simp⟩
    obtain rfl : x = s.cntr := by simpa using hx
    exact ⟨added.mem_iff.2 (.inl rfl), by simp [added.nameOf], by simp [added.predOf]⟩

/-- `x` was found as an extension of the configuration `conf` by `e`. -/
structure Extension (T : Events act) (conf : EventsID) (e x : EventID) : Prop extends
    Extends T conf x where
  mem : x ∈ T
  pred_e : e ∈ T.predOf x

theorem Grows.extension {s s' : UnfolderState st act} {conf : EventsID} {e x : EventID} (h : Grows s s')
    (hwf : WF s.evts s.cntr) (hT' : Linked s'.evts []) (hconf : ∀ y ∈ conf, y ∈ s.evts)
    (hx : Extension s.evts conf e x) : Extension s'.evts conf e x := by
  have hxn := hwf.lt_cntr hx.mem
  have hxm := h.keeps x hx.mem
  refine ⟨h.older.extendsStack hT' hx.toExtends hxn hxm (fun y hy => hwf.lt_cntr (hconf y hy))
    fun y hy => h.keeps y (hconf y hy), hxm, ?_⟩
  rw [h.older.pred hxn hxm]
  exact hx.pred_e

/-- The event with history `h0` extends the configuration. -/
theorem extension_of_h0 [Action act] {T T' : Events act} {conf maxevs : EventsID} {n : Nat}
    {e x : EventID} {name : EventName} {acts : act} {h0 : History} (hf : Frontier T conf maxevs)
    (hT : Linked T []) (hh : IsHistory (name, acts) T maxevs h0) (he : e ∈ h0) (hem : e ∈ maxevs)
    (ho : Older n T T') (hT' : Linked T' []) (hlt : ∀ x ∈ T, x < n) (hkeeps : ∀ x ∈ T, x ∈ T')
    (hx : x ∈ T') (hname : T'.nameOf x = some name) (hpred : ∀ p, p ∈ T'.predOf x ↔ p ∈ h0) :
    Extension T' conf e x := by
  have hconf : ∀ y ∈ conf, y ∈ T := hf.stack.closed.mem
  -- `e` is maximal in the configuration and below `x`
  have hxc : x ∉ conf := by
    intro hxc
    refine ((hf.maximal e).1 hem).2 x hxc ?_
    rw [← ho.lt_iff hT' (hlt x (hconf x hxc)) hx]
    exact lt_of_mem_pred ((hpred e).2 he)
  refine ⟨⟨hxc, fun p hp => ?_, fun y hy htid => ?_⟩, hx, (hpred e).2 he⟩
  · exact (hf.under_iff hT).1 (hh.under p ((hpred p).1 hp))
  · -- an event of the same thread is dependent, so it is under the history
    obtain ⟨ev, hl⟩ := Events.lookup_of_mem (hconf y hy)
    rw [ho.tid (hlt y (hconf y hy)) (hkeeps y (hconf y hy)), Events.tidOf_of_lookup hl, Events.tidOf,
      hname, Option.map_some, Option.some_inj] at htid
    have hdep : dependsOn (name, acts) T y = true := by
      simp [dependsOn, hl, isDependent, htid]
    obtain ⟨m, hm, hle⟩ := hh.cover y ((hf.under_iff hT).2 hy) hdep
    have hmT := hconf m ((hf.under_iff hT).1 (hh.under m hm))
    have hle' : Le T' y m := by
      rcases hle with rfl | hle
      · exact .inl rfl
      · exact .inr ((ho.lt_iff hT' (hlt m hmT) (hkeeps m hmT)).2 hle)
    exact hle'.trans_lt (lt_of_mem_pred ((hpred m).2 hm))

section Explore

variable [DecidableEq st] [DecidableEq act] [LatticeM st] [Projection st] [Lattice act] [Action act]
  [Domain st act] {s : UnfolderState st act} {name : EventName} {acts : act} {h : History}
  {dup : List (EventID × Event act)}

theorem addEvent_quiet (dup : List (EventID × Event act)) (name : EventName) (acts : act)
    (h : History) : Op.Always Quiet (addEvent dup name acts h : UnfolderOp st act EventsID) := by
  unfold addEvent
  dsimp only
  split
  · split
    · exact .fail _
    · exact .pure _
  · refine .bind .get fun u => .bind (.lift _) fun prede => ?_
    split
    · refine .bind (.lift _) fun gst => ?_
      split
      · exact .fail _
      · refine .bind ?_ fun b => ?_
        · unfold cutoff
          refine .bind .get fun u => ?_
          dsimp only
          split
          · exact .bind (fun _ => ⟨rfl, rfl, rfl, rfl, rfl⟩) fun _ => .pure _
          · exact .bind (.lift _) fun _ => .bind (fun _ => ⟨rfl, rfl, rfl, rfl, rfl⟩) fun _ => .pure _
        · split
          · exact .bind (fun _ => ⟨rfl, rfl, rfl, rfl, rfl⟩) fun _ => .pure _
          · exact addEv_quiet _ _ _ _
    · exact addEv_quiet _ _ _ _

theorem addEvent_spec (hT : WF s.evts s.cntr) (hnd : h.Nodup) (hmem : ∀ x ∈ h, x ∈ s.evts) :
    Op.Sat (addEvent dup name acts h) s (AddOutcome dup name acts h s) (fun _ s' => s' = s ∧
      (s.opts.cutoffs = false → 1 < (dup.filter fun p => sameElems p.2.pred h).length)) := by
  obtain ⟨prede, hprede, hlh⟩ := localHistory_ok hT.linked hmem
  have hsame : ∀ p : EventID × Event act, sameElems p.2.pred h = true ↔ ∀ x, x ∈ p.2.pred ↔ x ∈ h :=
    fun p => sameElems_iff
  simp only [addEvent]
  split
  · next hdup =>
    split
    · next hlen => exact ⟨rfl, fun _ => hlen⟩
    · next hlen =>
      -- exactly one duplicate
      obtain ⟨p, hp⟩ : ∃ p, (dup.filter fun p => sameElems p.2.pred h) = [p] := by
        rw [← List.length_eq_one_iff]
        have : (dup.filter fun p => sameElems p.2.pred h) ≠ [] := by simpa using hdup
        have := List.length_pos_iff.2 this
        omega
      have hmem : p ∈ dup.filter fun p => sameElems p.2.pred h := by simp [hp]
      obtain ⟨hpd, hps⟩ := List.mem_filter.1 hmem
      rw [hp]
      exact .dup p hpd ((hsame p).1 hps)
  · next hdup =>
    have fresh : ∀ p ∈ dup, ¬ ∀ x, x ∈ p.2.pred ↔ x ∈ h := by
      intro p hp hs
      have : p ∈ dup.filter fun p => sameElems p.2.pred h :=
        List.mem_filter.2 ⟨hp, (hsame p).2 hs⟩
      simp only [Bool.not_eq_true, Bool.not_eq_false', List.isEmpty_iff] at hdup
      simp [hdup] at this
    simp only [Op.sat_bind, Op.sat_get, Op.sat_monadLift, hprede]
    refine ⟨fun prede' h' => ?_, fun e he => by cases he⟩
    obtain rfl : prede = prede' := Except.ok.inj h'
    split
    · next hcut =>
      simp only [Op.sat_bind, Op.sat_monadLift]
      have hno : s.opts.cutoffs = false →
          1 < (dup.filter fun p => sameElems p.2.pred h).length := fun hf => by simp [hcut] at hf
      refine ⟨fun gst _ => ?_, fun _ _ => ⟨trivial, hno⟩⟩
      split
      · exact ⟨rfl, hno⟩
      · simp only [Op.sat_bind]
        refine (cutoff_spec gst _).mono (fun b s' hs' => ?_) fun _ _ hs' => ⟨hs', hno⟩
        obtain ⟨stas, rfl⟩ := hs'
        split
        · exact .cutoff _ hcut rfl rfl rfl
        · exact (addEv_spec stas hT hnd hmem hlh fresh).mono (fun _ _ h => h) fun _ _ h => h.elim
    · exact (addEv_spec s.stas hT hnd hmem hlh fresh).mono (fun _ _ h => h) fun _ _ h => h.elim

theorem AddOutcome.good {syst : System st act} {s' : UnfolderState st act} {r : EventsID}
    (ho : AddOutcome dup name acts h s r s') (hq : Quiet s s') (hg : Good syst s) (hne : h ≠ [])
    (hh : h.Nodup ∧ Antichain s.evts h ∧ ∀ x ∈ h, x ∈ s.evts)
    (hnew : Restricted syst → (∀ p ∈ dup, ¬ ∀ x, x ∈ p.2.pred ↔ x ∈ h) → ∀ x ∈ s.evts,
      s.evts.nameOf x = some name → ¬ ∀ p, p ∈ s.evts.predOf x ↔ p ∈ h)
    (htid : ∀ t₁ t₂, TwoThreads syst t₁ t₂ → name.tid = t₁ ∨ name.tid = t₂) :
    Good syst s' ∧ Grows s s' := by
  cases ho with
  | dup => exact ⟨hg, .refl s⟩
  | cutoff _ _ evts cntr seen =>
    have hT : TableOk syst s'.evts s'.cntr := by
      rw [evts, cntr]
      exact hg.table
    refine ⟨⟨⟨hq.syst.trans hg.syst_eq, hT, seen ▸ hg.seen⟩, ?_⟩, hq.stak, hq.opts, ?_, ?_, ?_⟩
    · rw [evts, hq.stak]
      exact hg.stack
    · exact Nat.le_of_eq cntr.symm
    · exact evts ▸ .refl _ _
    · exact fun x hx => evts ▸ hx
  | new _ lh cs fresh _ added cnfls cntr seen =>
    obtain ⟨hnd, hanti, hmem⟩ := hh
    have hn : s.cntr ∉ s.evts := fun hm => Nat.lt_irrefl _ (hg.wf.lt_cntr hm)
    have hcs : ∀ c ∈ cs, c ∈ s.evts := fun c hc => (cnfls.sound c hc).mem
    have hwf : WF s'.evts s'.cntr := cntr ▸ added.wf hg.wf hne hnd hanti hmem cnfls.nodup hcs
    have hold := added.older hn hcs
    have hkeeps : ∀ x ∈ s.evts, x ∈ s'.evts := fun x hx => added.mem_iff.2 (.inr hx)
    -- the new event is not a duplicate of an old one
    have huniq : Restricted syst → ∀ y ∈ s.evts, s.evts.nameOf y = some name →
        ¬ ∀ p, p ∈ s.evts.predOf y ↔ p ∈ h := fun hr => hnew hr fresh
    have hT : TableOk syst s'.evts s'.cntr := by
      refine ⟨hwf, ?_, fun hr x hx y hy hname hpred => ?_, fun t₁ t₂ ht x hx hb => ?_⟩
      · rw [added.nameOf, if_neg (Nat.ne_of_lt (hg.wf.lt_cntr hg.wf.bot))]
        exact hg.table.bot
      · rw [added.nameOf, added.nameOf] at hname
        rw [added.predOf, added.predOf] at hpred
        rcases added.mem_iff.1 hx with rfl | hx <;> rcases added.mem_iff.1 hy with rfl | hy
        · rfl
        · have hyn := Nat.ne_of_lt (hg.wf.lt_cntr hy)
          simp only [if_true, if_neg hyn] at hname hpred
          exact absurd (fun p => (hpred p).symm) (huniq hr y hy hname.symm)
        · have hxn := Nat.ne_of_lt (hg.wf.lt_cntr hx)
          simp only [if_true, if_neg hxn] at hname hpred
          exact absurd hpred (huniq hr x hx hname)
        · have hxn := Nat.ne_of_lt (hg.wf.lt_cntr hx)
          have hyn := Nat.ne_of_lt (hg.wf.lt_cntr hy)
          simp only [if_neg hxn, if_neg hyn] at hname hpred
          exact hg.table.unique hr x hx y hy hname hpred
      · rw [Events.tidOf, added.nameOf]
        rcases added.mem_iff.1 hx with rfl | hx
        · simpa using htid t₁ t₂ ht
        · rw [if_neg (Nat.ne_of_lt (hg.wf.lt_cntr hx))]
          exact hg.table.tids t₁ t₂ ht x hx hb
    refine ⟨⟨⟨hq.syst.trans hg.syst_eq, hT, fun sn hsn => ?_⟩, ?_⟩, hq.stak, hq.opts, ?_, hold, hkeeps⟩
    · rw [seen] at hsn
      rcases List.mem_cons.1 hsn with rfl | hsn
      · exact hT
      · exact hg.seen sn hsn
    · rw [hq.stak]
      exact hold.stackOk hwf.linked hg.stack (fun _ => hg.stak_lt) fun x hx => hkeeps x (hg.stak_mem hx)
    · rw [cntr]
      exact Nat.le_succ _

/-! ## `ext` -/

section Ext

variable {syst : System st act} {T : Events act} {conf maxevs : EventsID} {e : EventID}
  {info : EventInfo act} {h0 : History} {his : Histories} {n fuel : Nat}

omit [DecidableEq st] [LatticeM st] [Projection st] [Domain st act] [DecidableEq act] [Lattice act] in
theorem extHistories_good (hwf : WF T n) (hmem : ∀ x ∈ maxevs, x ∈ T)
    (hh : IsHistory info T maxevs h0) (he : e ∈ h0)
    (hr : extHistories fuel info e h0 T = .ok his) :
    ∀ h ∈ his, GoodHistory T maxevs h ∧ e ∈ h := by
  have hgood := hh.good hwf.linked.causal hmem
  unfold extHistories at hr
  split at hr
  · obtain rfl : [] = his := Except.ok.inj hr
    simp
  · split at hr
    · exact historiesLock_good hwf.linked.causal hgood he hr
    · have hw : ∀ h ∈ [h0], GoodHistory T maxevs h ∧ e ∈ h := by simpa using ⟨hgood, he⟩
      rcases histories_ok hwf.linked.causal hwf.immediatePred (hh.dep e he) fuel [h0] [] hw (by simp) with
        ⟨r, hok, hres⟩ | herr
      · rw [hok] at hr
        obtain rfl : r = his := Except.ok.inj hr
        exact hres
      · rw [herr] at hr
        cases hr

omit [DecidableEq st] [LatticeM st] [Projection st] [Domain st act] [DecidableEq act] [Lattice act] in
/-- With two threads, at most one event of a history with `e` can be replaced. -/
theorem replaceable_unique (hwf : WF T n) (hf : Frontier T conf maxevs) {t₁ t₂ : TId}
    (htids : ∀ x ∈ T, x ≠ botEID → T.tidOf x = some t₁ ∨ T.tidOf x = some t₂)
    (htid : info.1.tid = t₁ ∨ info.1.tid = t₂) {h : History} (hh : GoodHistory T maxevs h)
    (he : e ∈ h) {a b : EventID} (ha : a ∈ h.erase e) (hb : b ∈ h.erase e)
    (hra : replaceable info T a = true) (hrb : replaceable info T b = true) : a = b := by
  -- an event to replace is not bottom, so it is of the other thread
  have hother : ∀ x ∈ h.erase e, replaceable info T x = true →
      T.tidOf x = some (if info.1.tid = t₁ then t₂ else t₁) := by
    intro x hx hr
    obtain ⟨hne, hxh⟩ := hh.nodup.mem_erase_iff.1 hx
    have hb : x ≠ botEID := by
      rintro rfl
      exact hh.anti botEID hxh e he (hwf.bot_lt (hh.mem e he) (Ne.symm hne))
    obtain ⟨ev, hl⟩ := Events.lookup_of_mem (hh.mem x hxh)
    have hne : ev.name.tid ≠ info.1.tid := by
      simp only [replaceable, hl, Bool.and_eq_true, decide_eq_true_eq] at hr
      exact hr.1
    have := htids x (hh.mem x hxh) hb
    rw [Events.tidOf_of_lookup hl, Option.some_inj, Option.some_inj] at this
    rw [Events.tidOf_of_lookup hl, Option.some_inj]
    split
    · next h₁ =>
      rcases this with h | h
      · exact absurd (h.trans h₁.symm) hne
      · exact h
    · next h₁ =>
      rcases this with h | h
      · exact h
      · exact absurd (h.trans (htid.resolve_left h₁).symm) hne
  obtain ⟨-, hah⟩ := hh.nodup.mem_erase_iff.1 ha
  obtain ⟨-, hbh⟩ := hh.nodup.mem_erase_iff.1 hb
  have hconf : ∀ x ∈ h, x ∈ conf := fun x hx => (hf.under_iff hwf.linked).1 (hh.under x hx)
  rcases hf.stack.chain a (hconf a hah) b (hconf b hbh)
    ((hother a ha hra).trans (hother b hb hrb).symm) with (heq | hlt) | hlt
  · exact heq
  · exact absurd hlt (hh.anti a hah b hbh)
  · exact absurd hlt (hh.anti b hbh a hah)

theorem extHistories_distinct (hT : TableOk syst T n) (hf : Frontier T conf maxevs)
    (hh : IsHistory info T maxevs h0) (he : e ∈ h0)
    (hact : LockLike syst →
      (Action.isJoin info.2 || Action.isUnlock info.2 || Action.isLock info.2) = true)
    (htid : ∀ t₁ t₂, TwoThreads syst t₁ t₂ → info.1.tid = t₁ ∨ info.1.tid = t₂)
    (hr : extHistories fuel info e h0 T = .ok his) (hres : Restricted syst) :
    Distinct (his ++ [h0]) := by
  have hwf := hT.wf
  have hgood := hh.good hwf.linked.causal fun _ => hf.mem
  unfold extHistories at hr
  split at hr
  · obtain rfl : [] = his := Except.ok.inj hr
    simp [Distinct]
  · next hju =>
    split at hr
    · exact historiesLock_distinct hwf.linked.causal hgood he hr
    · next hl =>
      rcases hres with hlock | ⟨t₁, t₂, htwo⟩
      · have := hact hlock
        simp [hju, hl] at this
      · refine histories_distinct hwf.linked.causal hwf.immediatePred (hh.dep e he) (fun h hg heh a ha b hb => ?_)
          fuel h0 [] his hgood he (by simp) (by simp [Distinct]) hr
        exact replaceable_unique hwf hf (hT.tids t₁ t₂ htwo) (htid t₁ t₂ htwo) hg heh ha hb

/-- The thread of `name` can run from `nst` to the position of `name`, with these actions. -/
def Runs (syst : System st act) (nst : st) (name : EventName) (acts : act) : Prop :=
  ∃ wid ws rs nst', Domain.run false wid syst nst name.tid = .ok (ws, rs) ∧
    (nst', name.pos, acts) ∈ rs ∧ Projection.toThCFGSym nst' name.tid = .ok name.sym

/-- An event that `ext` enters: `h0` is its history in the configuration and `T₀` the prefix on which
the histories were computed. -/
structure Addition (act : Type) where
  name : EventName
  acts : act
  h0 : History
  h : History
  lh : EventsID
  cs : EventsID
  T₀ : Events act
  n₀ : Nat

/-- One event is entered, while the prefix is extended from the event `e` of a configuration whose
state is `nst`. -/
structure AddStep (syst : System st act) (conf maxevs : EventsID) (e : EventID) (nst : st)
    (a : Addition act) (T : Events act) (n : EventID) (T' : Events act) : Prop where
  wf₀ : WF a.T₀ a.n₀
  frontier : Frontier a.T₀ conf maxevs
  runs : Runs syst nst a.name a.acts
  history : IsHistory (a.name, a.acts) a.T₀ maxevs a.h0
  mem_h0 : e ∈ a.h0
  origin : a.h = a.h0 ∨
    ∃ fuel his, extHistories fuel (a.name, a.acts) e a.h0 a.T₀ = .ok his ∧ a.h ∈ his
  older : Older a.n₀ a.T₀ T
  keeps : ∀ x ∈ a.T₀, x ∈ T
  acts : ∀ x ∈ a.T₀, T.actsOf x = a.T₀.actsOf x
  wf : WF T n
  lh_iff : ∀ x, x ∈ a.lh ↔ Under T a.h x
  cnfls : NewConflicts T (a.name, a.acts) a.lh a.cs
  added : Added T n a.name a.acts a.h a.cs T'
  wf' : WF T' (n + 1)

/-- Events are entered one after the other. -/
def AddSteps (syst : System st act) (conf maxevs : EventsID) (e : EventID) (nst : st) :
    Events act → Events act → Prop :=
  Relation.ReflTransGen fun T T' => ∃ a n, AddStep syst conf maxevs e nst a T n T'

theorem AddSteps.trans {nst : st} {T' T'' : Events act} (h : AddSteps syst conf maxevs e nst T T')
    (h' : AddSteps syst conf maxevs e nst T' T'') : AddSteps syst conf maxevs e nst T T'' :=
  Relation.ReflTransGen.trans h h'

theorem AddSteps.invariant {nst : st} {T' : Events act} (h : AddSteps syst conf maxevs e nst T T')
    {I : Events act → Prop}
    (hstep : ∀ a T n T', AddStep syst conf maxevs e nst a T n T' → I T → I T') (hI : I T) : I T' := by
  induction h with
  | refl => exact hI
  | tail _ hs ih =>
    obtain ⟨a, n, hs⟩ := hs
    exact hstep a _ n _ hs ih

/-- While `ext` adds the histories of an event: what is new since `s` has this name and one of the
histories `done`. -/
structure Batch (syst : System st act) (conf maxevs : EventsID) (e : EventID) (nst : st)
    (s : UnfolderState st act) (name : EventName) (done : Histories) (s₁ : UnfolderState st act) :
    Prop where
  good : Good syst s₁
  grows : Grows s s₁
  acts : ∀ x ∈ s.evts, s₁.evts.actsOf x = s.evts.actsOf x
  steps : AddSteps syst conf maxevs e nst s.evts s₁.evts
  new : ∀ x ∈ s₁.evts, x ∈ s.evts ∨
    (s₁.evts.nameOf x = some name ∧ ∃ h ∈ done, s₁.evts.predOf x = h)
  found : s.opts.cutoffs = false → ∀ h ∈ done, ∃ x, IsEvent s₁.evts name h x

/-- The duplicates as they were at the start: the successors of `e` with the name. -/
def DupsOf (T : Events act) (e : EventID) (name : EventName) (dup : List (EventID × Event act)) :
    Prop :=
  ∀ p, p ∈ dup ↔ p.1 ∈ T.succOf e ∧ T.lookup p.1 = some p.2 ∧ p.2.name = name

section Batch

variable {done : Histories} {s₁ : UnfolderState st act} {nst : st}
  (hb : Batch syst conf maxevs e nst s name done s₁) (hg : Good syst s)
  (hdup : DupsOf s.evts e name dup)

include hb hg hdup

/-- The duplicates are still there. -/
theorem Batch.dup_mem : ∀ p ∈ dup, p.1 ∈ s₁.evts ∧ s₁.evts.nameOf p.1 = some name ∧
    s₁.evts.predOf p.1 = p.2.pred := by
  intro p hp
  obtain ⟨-, hl, hn⟩ := (hdup p).1 hp
  have hp' := Events.mem_of_lookup hl
  have hlt := hg.wf.lt_cntr hp'
  rw [hb.grows.older.name hlt (hb.grows.keeps _ hp'), hb.grows.older.pred hlt (hb.grows.keeps _ hp'),
    Events.nameOf_of_lookup hl, Events.predOf_of_lookup hl, hn]
  exact ⟨hb.grows.keeps _ hp', rfl, rfl⟩

/-- An old event with the history would be a duplicate, a new one would have a history of `done`. -/
theorem Batch.no_event (he : e ∈ h) (hdist : ∀ h' ∈ done, ¬ ∀ x, x ∈ h' ↔ x ∈ h)
    (hfresh : ∀ p ∈ dup, ¬ ∀ x, x ∈ p.2.pred ↔ x ∈ h) : ∀ x ∈ s₁.evts,
      s₁.evts.nameOf x = some name → ¬ ∀ p, p ∈ s₁.evts.predOf x ↔ p ∈ h := by
  intro x hx hname hpred
  rcases hb.new x hx with hxs | ⟨-, h', hh', hp'⟩
  · obtain ⟨ev, hl⟩ := Events.lookup_of_mem hxs
    have hpx := hb.grows.older.pred (hg.wf.lt_cntr hxs) hx
    have hnx := hb.grows.older.name (hg.wf.lt_cntr hxs) hx
    rw [hpx, Events.predOf_of_lookup hl] at hpred
    rw [hnx, Events.nameOf_of_lookup hl, Option.some_inj] at hname
    have hsucc : x ∈ s.evts.succOf e := by
      rw [hg.linked.causal.mem_succ_iff, Events.predOf_of_lookup hl]
      exact (hpred e).2 he
    exact hfresh (x, ev) ((hdup _).2 ⟨hsucc, hl, hname⟩) hpred
  · exact hdist h' hh' (hp' ▸ hpred)

end Batch

/-- Adding one more history; `dup` are the duplicates as they were at the start. -/
theorem Batch.step {done : Histories} {s₁ : UnfolderState st act} {nst : st}
    (hb : Batch syst conf maxevs e nst s name done s₁) (hg : Good syst s)
    (hf : Frontier s.evts conf maxevs) (hruns : Runs syst nst name acts) (hnd : dup.Nodup)
    (hdup : DupsOf s.evts e name dup) (hh0 : IsHistory (name, acts) s.evts maxevs h0) (he0 : e ∈ h0)
    (horig : h = h0 ∨ ∃ fuel his, extHistories fuel (name, acts) e h0 s.evts = .ok his ∧ h ∈ his)
    (hdist : Restricted syst → ∀ h' ∈ done, ¬ ∀ x, x ∈ h' ↔ x ∈ h)
    (htid : ∀ t₁ t₂, TwoThreads syst t₁ t₂ → name.tid = t₁ ∨ name.tid = t₂) :
    Op.Sat (addEvent dup name acts h) s₁
      (fun r s' => Batch syst conf maxevs e nst s name (done ++ [h]) s' ∧
        (∀ x ∈ r, IsEvent s'.evts name h x) ∧ (s.opts.cutoffs = false → r ≠ []))
      (fun _ s' => Safe syst s' ∧ (Restricted syst → s.opts.cutoffs = false → False)) := by
  obtain ⟨hh, he⟩ : GoodHistory s.evts maxevs h ∧ e ∈ h := by
    rcases horig with rfl | ⟨fuel, his, hhis, hmem⟩
    · exact ⟨hh0.good hg.linked.causal fun _ => hf.mem, he0⟩
    · exact extHistories_good hg.wf (fun _ => hf.mem) hh0 he0 hhis h hmem
  have hwf₁ := hb.good.wf
  have hlt : ∀ x ∈ s.evts, x < s.cntr := fun x hx => hg.wf.lt_cntr hx
  have hmem₁ : ∀ x ∈ h, x ∈ s₁.evts := fun x hx => hb.grows.keeps x (hh.mem x hx)
  have hanti₁ : Antichain s₁.evts h := by
    intro a ha b hbh hab
    rw [hb.grows.older.lt_iff hwf₁.linked (hlt b (hh.mem b hbh)) (hmem₁ b hbh)] at hab
    exact hh.anti a ha b hbh hab
  have hdup₁ := hb.dup_mem hg hdup
  have hne : h ≠ [] := List.ne_nil_of_mem he
  have hnew : Restricted syst → (∀ p ∈ dup, ¬ ∀ x, x ∈ p.2.pred ↔ x ∈ h) → ∀ x ∈ s₁.evts,
      s₁.evts.nameOf x = some name → ¬ ∀ p, p ∈ s₁.evts.predOf x ↔ p ∈ h :=
    fun hr => hb.no_event hg hdup he (hdist hr)
  refine ((addEvent_spec hwf₁ hh.nodup hmem₁).always (addEvent_quiet dup name acts h)).mono ?_ ?_
  · rintro r s' ⟨ho, hq⟩
    obtain ⟨hg', hgrow⟩ := ho.good hq hb.good hne ⟨hh.nodup, hanti₁, hmem₁⟩ hnew htid
    have hr : (∀ x ∈ r, IsEvent s'.evts name h x) ∧ (s.opts.cutoffs = false → r ≠ []) :=
      hb.grows.opts ▸ ho.isEvent hdup₁
    have hacts : ∀ x ∈ s₁.evts, s'.evts.actsOf x = s₁.evts.actsOf x := fun _ => ho.actsOf hwf₁
    have hsteps : AddSteps syst conf maxevs e nst s₁.evts s'.evts := by
      cases ho with
      | dup => exact .refl
      | cutoff _ _ evts =>
        rw [evts]
        exact .refl
      | new _ lh cs _ lh_iff added cnfls cntr =>
        exact .single ⟨⟨name, acts, h0, h, lh, cs, s.evts, s.cntr⟩, s₁.cntr,
          { wf₀ := hg.wf, frontier := hf, runs := hruns, history := hh0, mem_h0 := he0,
            origin := horig, older := hb.grows.older, keeps := hb.grows.keeps, acts := hb.acts,
            wf := hwf₁, lh_iff := lh_iff, cnfls := cnfls, added := added,
            wf' := cntr ▸ hg'.wf }⟩
    refine ⟨⟨hg', hb.grows.trans hgrow, fun x hx => ?_, hb.steps.trans hsteps, fun x hx => ?_,
      fun hoff h' hh' => ?_⟩, hr⟩
    · rw [hacts x (hb.grows.keeps x hx), hb.acts x hx]
    · rcases ho.mem_cases hx with hx₁ | ⟨hn, hp⟩
      · rcases hb.new x hx₁ with hxs | ⟨hn, h', hh', hp⟩
        · exact .inl hxs
        · have hxlt := hwf₁.lt_cntr hx₁
          refine .inr ⟨(hgrow.older.name hxlt hx).trans hn, h', List.mem_append_left _ hh', ?_⟩
          rw [hgrow.older.pred hxlt hx, hp]
      · exact .inr ⟨hn, h, by simp, hp⟩
    · rcases List.mem_append.1 hh' with hh' | hh'
      · obtain ⟨x, hx⟩ := hb.found hoff h' hh'
        exact ⟨x, hgrow.isEvent hwf₁ hx⟩
      · obtain rfl : h' = h := by simpa using hh'
        obtain ⟨x, hx⟩ := List.exists_mem_of_ne_nil r (hr.2 hoff)
        exact ⟨x, hr.1 x hx⟩
  · rintro _ _ ⟨⟨rfl, hlen⟩, -⟩
    refine ⟨hb.good.toSafe, fun hr hoff => ?_⟩
    refine not_two_duplicates hnd hdup₁ (fun p hp q hq hid => ?_) (hb.good.table.unique hr)
      (hlen (hb.grows.opts ▸ hoff))
    have hl := ((hdup p).1 hp).2.1
    rw [hid, ((hdup q).1 hq).2.1] at hl
    exact (Option.some_inj.1 hl).symm

/-- What `ext` returns and finds, when the event has history `h0` in the configuration. -/
structure ExtFound (fuel : Nat) (e : EventID) (info : EventInfo act) (h0 : History)
    (s : UnfolderState st act) (r : EventsID) (s' : UnfolderState st act) : Prop where
  none : e ∉ h0 → r = []
  isEvent : ∀ x ∈ r, IsEvent s'.evts info.1 h0 x
  some : e ∈ h0 → s.opts.cutoffs = false → r ≠ []
  others : e ∈ h0 → s.opts.cutoffs = false → ∃ his,
    extHistories fuel info e h0 s.evts = .ok his ∧ ∀ h ∈ his, ∃ x, IsEvent s'.evts info.1 h x

/-- How `ext` can fail when there are no duplicates and no cutoffs. -/
def ExtFails (fuel : Nat) (e : EventID) (maxevs : EventsID) (nst' : st) (tid : TId) (pos : Pos)
    (acts : act) (T : Events act) (err : Err) : Prop :=
  (∃ derr, Projection.toThCFGSym nst' tid = .error derr ∧ err = .domain derr) ∨
    ∃ sym h0, Projection.toThCFGSym nst' tid = .ok sym ∧
      IsHistory (⟨tid, pos, sym⟩, acts) T maxevs h0 ∧ e ∈ h0 ∧
      extHistories fuel (⟨tid, pos, sym⟩, acts) e h0 T = .error err

/-- The result of `ext`. -/
structure ExtOk (syst : System st act) (conf maxevs : EventsID) (e : EventID) (nst : st)
    (s : UnfolderState st act) (r : EventsID) (s' : UnfolderState st act) : Prop where
  good : Good syst s'
  grows : Grows s s'
  extension : ∀ x ∈ r, Extension s'.evts conf e x
  steps : AddSteps syst conf maxevs e nst s.evts s'.evts

variable (fuel) in
theorem ext_spec {nst : st} (hg : Good syst s) (hf : Frontier s.evts conf maxevs) (he : e ∈ maxevs)
    (nst' : st) (tid : TId) (pos : Pos)
    (hruns : ∀ sym, Projection.toThCFGSym nst' tid = .ok sym → Runs syst nst ⟨tid, pos, sym⟩ acts)
    (hact : LockLike syst →
      (Action.isJoin acts || Action.isUnlock acts || Action.isLock acts) = true)
    (htid : ∀ t₁ t₂, TwoThreads syst t₁ t₂ → tid = t₁ ∨ tid = t₂) :
    Op.Sat (ext fuel e maxevs nst' tid pos acts) s
      (fun r s' => ExtOk syst conf maxevs e nst s r s' ∧
        ∃ sym h0, Projection.toThCFGSym nst' tid = .ok sym ∧
          IsHistory (⟨tid, pos, sym⟩, acts) s.evts maxevs h0 ∧
          ExtFound fuel e (⟨tid, pos, sym⟩, acts) h0 s r s')
      (fun err s' => Safe syst s' ∧ (Restricted syst → s.opts.cutoffs = false →
        ExtFails fuel e maxevs nst' tid pos acts s.evts err)) := by
  have hlt : ∀ x ∈ s.evts, x < s.cntr := fun x hx => hg.wf.lt_cntr hx
  have heT := hf.mem he
  simp only [ext, Op.sat_bind, Op.sat_monadLift, Op.sat_get]
  refine ⟨fun sym hsym => ?_, fun err herr => ⟨hg.toSafe, fun _ _ => .inl ?_⟩⟩
  swap
  · cases hs : Projection.toThCFGSym nst' tid with
    | ok _ => simp [hs, liftDom] at herr
    | error derr =>
      simp only [hs, liftDom, Except.error.injEq] at herr
      exact ⟨derr, rfl, herr.symm⟩
  have hsym : Projection.toThCFGSym nst' tid = .ok sym := by
    cases hs : Projection.toThCFGSym nst' tid with
    | ok _ => simpa [hs, liftDom] using hsym
    | error _ => simp [hs, liftDom] at hsym
  obtain ⟨succe', hok, hnd, hdup⟩ := succsNamed_ok hg.linked heT ⟨tid, pos, sym⟩
  obtain ⟨h0', hok', hh⟩ := history_ok (⟨tid, pos, sym⟩, acts) hg.linked.causal (fun _ => hf.mem) hf.nodup
    hf.anti
  rw [hok, hok']
  refine ⟨fun succe hsucce => ⟨fun h0 hh0 => ?_, fun _ h => by cases h⟩, fun _ h => by cases h⟩
  obtain rfl : succe' = succe := Except.ok.inj hsucce
  obtain rfl : h0' = h0 := Except.ok.inj hh0
  -- bottom is dependent with every event, so the history is not empty
  have hne : h0' ≠ [] := by
    rintro rfl
    obtain ⟨ev, hl⟩ := Events.lookup_of_mem hg.wf.bot
    have hbot := hg.table.bot
    rw [Events.nameOf_of_lookup hl, Option.some_inj] at hbot
    have hdep : dependsOn (⟨tid, pos, sym⟩, acts) s.evts botEID = true := by
      simp [dependsOn, hl, hbot, isDependent, botName]
    obtain ⟨m, hm, -⟩ := hh.cover botEID ((hf.under_iff hg.linked).2 hf.stack.bot) hdep
    cases hm
  rw [if_neg (by simpa using hne)]
  split
  swap
  · next heh =>
    exact ⟨⟨hg, .refl s, by simp, .refl⟩, sym, h0', hsym, hh, fun _ => rfl, by simp,
      fun h => absurd h heh, fun h => absurd h heh⟩
  next heh =>
  simp only [Op.sat_bind, Op.sat_monadLift]
  refine ⟨fun his hhis => ?_, fun err herr => ⟨hg.toSafe, fun _ _ => .inr ?_⟩⟩
  swap
  · exact ⟨sym, h0', hsym, hh, heh, herr⟩
  have hdist := extHistories_distinct hg.table hf hh heh hact htid hhis
  -- the conflicting extensions, then the event with history `h0`
  have hstart : Batch syst conf maxevs e nst s ⟨tid, pos, sym⟩ [] s :=
    ⟨hg, .refl s, fun _ _ => rfl, .refl, fun x hx => .inl hx, by simp⟩
  refine (Op.sat_mapM' (fun done _ s₁ => Batch syst conf maxevs e nst s ⟨tid, pos, sym⟩ done s₁)
    (fun done h _ s₁ hpre hb => ?_) hstart).mono (fun _ s₁ hb => ?_) fun _ _ h => h
  · have hmem : h ∈ his := hpre.subset (by simp)
    refine (hb.step hg hf (hruns sym hsym) hnd hdup hh heh (.inr ⟨fuel, his, hhis, hmem⟩)
      (fun hr h' hh' => ?_) htid).mono (fun _ _ h => h.1)
      fun _ _ h => ⟨h.1, fun hr hoff => (h.2 hr hoff).elim⟩
    have hpw := (List.pairwise_append.1 (hdist hr)).1.sublist hpre.sublist
    exact (List.pairwise_append.1 hpw).2.2 h' hh' h (by simp)
  · refine (hb.step hg hf (hruns sym hsym) hnd hdup hh heh (.inl rfl) (fun hr h' hh' => ?_)
      htid).mono (fun r s' h => ?_) fun _ _ h => ⟨h.1, fun hr hoff => (h.2 hr hoff).elim⟩
    · exact (List.pairwise_append.1 (hdist hr)).2.2 h' hh' h0' (by simp)
    · obtain ⟨hb', hr, hr'⟩ := h
      refine ⟨⟨hb'.good, hb'.grows, fun x hx => ?_, hb'.steps⟩, sym, h0', hsym, hh,
        fun h => absurd heh h, hr, fun _ => hr', fun _ hoff => ⟨his, hhis, fun h hm => ?_⟩⟩
      · obtain ⟨hxm, hxn, hxp⟩ := hr x hx
        exact extension_of_h0 hf hg.linked hh heh he hb'.grows.older hb'.good.linked hlt
          hb'.grows.keeps hxm hxn hxp
      · exact hb'.found hoff h (List.mem_append_left _ hm)

end Ext

end Explore

end Poet
