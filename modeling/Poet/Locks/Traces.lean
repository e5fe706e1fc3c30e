import Poet.Exploration.Dependence
import Poet.Lib.Trace
import Poet.Locks.Tree

/-!
# Every trace once

The stack of a call, from bottom up, is a word of steps; its trace is the word up to the exchange of
neighbouring steps that are not dependent (`Call.trace`). No trace is found by two calls at a maximal
configuration (`unfold_optimal`): where `explore` branches, each maximal configuration of the branch with
`e` has `e`, each one of the other branch has a conflict with `e`. If they were of one trace, the second
one would have an event with the name of `e` and the same past, and there are no two such events.
-/

namespace Poet

open scoped List

variable {P : LockProgram} {s s' s₁ sk sk' : UnfolderState (LockState P) LockAct}
  {c nc : Configuration (LockState P)} {T T' : Events LockAct} {d d' stak stak' : EventsID}
  {alt : Alternative} {e ê x y : EventID} {g g' : LockState P} {n t i : Nat} {o : LockOp} {stl : Bool}
  {a b : EventInfo LockAct}

/-! ## Words -/

/-- The step that an event stands for: its name and its action. -/
def Events.infoOf {act : Type} (T : Events act) (x : EventID) : Option (EventInfo act) :=
  (T.lookup x).map fun ev => (ev.name, ev.acts)

/-- The steps of a stack, from bottom up. -/
def wordOf (T : Events LockAct) (stak : EventsID) : List (EventInfo LockAct) :=
  (stak.reverse.filter (· ≠ botEID)).filterMap T.infoOf

abbrev LockTrace := Trace fun a b : EventInfo LockAct => isDependent a b = true

/-- The trace of the stack of a call. -/
def Call.trace (k : Call (LockState P) LockAct) : LockTrace := .mk _ (wordOf k.evts k.stak)

/-- The calls of `explore` that find `enevs` empty. -/
def maximalCalls (l : List (Call (LockState P) LockAct)) : List (Call (LockState P) LockAct) :=
  l.filter (·.conf.enevs.isEmpty)

theorem isDependent_symm (a b : EventInfo LockAct) (h : isDependent a b = true) :
    isDependent b a = true := by
  rwa [isDependent_comm (Act.interferes_comm b.2 a.2)]

theorem mem_wordOf : a ∈ wordOf T stak ↔ ∃ x ∈ stak, x ≠ botEID ∧ T.infoOf x = some a := by
  simp [wordOf, and_assoc]

theorem wordOf_cons (hx : x ≠ botEID) (ha : T.infoOf x = some a) :
    wordOf T (x :: stak) = wordOf T stak ++ [a] := by
  simp [wordOf, hx, ha]

theorem IsStep.infoOf (h : IsStep P T x t i o) : T.infoOf x = some (stepName t i, o.act) := by
  obtain ⟨ev, hl, hn, ha⟩ := Events.lookup_of_names h.name h.acts
  simp [Events.infoOf, hl, hn, ha]

theorem infoOf_dep {n n' : EventInfo LockAct} (hx : T.infoOf x = some n) (hy : T.infoOf y = some n') :
    Dep T x y ↔ isDependent n n' = true := by
  simp only [Events.infoOf, Option.map_eq_some_iff] at hx hy
  obtain ⟨a, hla, rfl⟩ := hx
  obtain ⟨b, hlb, rfl⟩ := hy
  exact dep_of_lookup hla hlb

theorem Stable.infoOf (h : Stable n T T') (hx : x < n) (hm : x ∈ T') : T'.infoOf x = T.infoOf x := by
  have hname := h.name hx hm
  have hacts := h.acts hx hm
  simp only [Events.infoOf, Events.nameOf, Events.actsOf] at hname hacts ⊢
  cases hl : T.lookup x <;> cases hl' : T'.lookup x <;> simp_all

namespace Executes

variable (h : Executes P T stak g) (hT : LockEvents P T)

include h hT

/-- A step is on the stack once. -/
theorem eq_of_infoOf (hx : x ∈ stak) (hy : y ∈ stak) (hxT : x ∈ T) (hxb : x ≠ botEID)
    (hinfo : T.infoOf y = T.infoOf x) : x = y := by
  obtain ⟨t, i, o, hst⟩ := hT.step x hxT hxb
  rw [hst.infoOf] at hinfo
  simp only [Events.infoOf, Option.map_eq_some_iff, Prod.mk.injEq] at hinfo
  obtain ⟨ev, hl, hn, ha⟩ := hinfo
  refine h.eq_of_step hT hx hy hst ⟨?_, ?_, hst.op⟩
  · rw [Events.nameOf_of_lookup hl, hn]
  · rw [Events.actsOf_of_lookup hl, ha]

theorem wordOf_nodup : (wordOf T stak).Nodup := by
  induction h with
  | bot => simp [wordOf]
  | @push stak g x t o hE hx _ _ ih =>
    rw [wordOf_cons (hT.ne_bot hx) hx.infoOf]
    refine List.nodup_append.2 ⟨ih, List.nodup_singleton _, ?_⟩
    rintro a ha _ hb rfl
    obtain rfl := List.mem_singleton.1 hb
    -- the next step of a thread is new
    obtain ⟨y, hy, hyb, hinfo⟩ := mem_wordOf.1 ha
    simp only [Events.infoOf, Option.map_eq_some_iff, Prod.mk.injEq] at hinfo
    obtain ⟨ev, hl, hn, hacts⟩ := hinfo
    have hst : IsStep P T y t (g.pc t) o :=
      ⟨by rw [Events.nameOf_of_lookup hl, hn], by rw [Events.actsOf_of_lookup hl, hacts], hx.op⟩
    exact Nat.lt_irrefl _ ((hE.lt_pc_iff hT).2 ⟨y, hy, o, hst⟩)

/-- Dependent steps are in the word as their events are ordered. -/
theorem before_iff (hc : Causal T) (hd : isDependent a b = true) : [a, b] <+ wordOf T stak ↔
    ∃ x ∈ stak, ∃ y ∈ stak, x ≠ botEID ∧ y ≠ botEID ∧ T.infoOf x = some a ∧ T.infoOf y = some b ∧
      Lt T x y := by
  induction h with
  | bot => simp [wordOf]
  | @push stak g z t o hE hz _ hdep ih =>
    have hzb := hT.ne_bot hz
    rw [wordOf_cons hzb hz.infoOf, pair_sublist_append, ih]
    constructor
    · rintro (⟨x, hx, y, hy, hxy⟩ | ⟨ha, hb⟩ | hnone)
      · exact ⟨x, List.mem_cons_of_mem z hx, y, List.mem_cons_of_mem z hy, hxy⟩
      · obtain ⟨x, hx, hxb, hxa⟩ := mem_wordOf.1 ha
        obtain rfl := List.mem_singleton.1 hb
        exact ⟨x, List.mem_cons_of_mem z hx, z, List.mem_cons_self, hxb, hzb, hxa, hz.infoOf,
          hdep x hx ((infoOf_dep hxa hz.infoOf).2 hd)⟩
      · exact absurd hnone.length_le (by simp)
    · rintro ⟨x, hx, y, hy, hxb, hyb, hxa, hya, hlt⟩
      rcases List.mem_cons.1 hx with rfl | hxs <;> rcases List.mem_cons.1 hy with rfl | hys
      · exact absurd hlt hc.lt_irrefl
      · -- nothing that depends on the last event is above it
        have hback := hdep y hys ((infoOf_dep hya hxa).2 (isDependent_symm _ _ hd))
        exact absurd (hlt.trans hback) hc.lt_irrefl
      · refine .inr (.inl ⟨mem_wordOf.2 ⟨x, hxs, hxb, hxa⟩, ?_⟩)
        rw [List.mem_singleton, ← Option.some_inj, ← hya, hz.infoOf]
      · exact .inl ⟨x, hxs, y, hys, hxb, hyb, hxa, hya, hlt⟩

end Executes

/-! ## Stacks of one trace -/

/-- A stack with the prefix it is in. -/
structure StackRun (P : LockProgram) (T : Events LockAct) (n : Nat) (stak : EventsID)
    (g : LockState P) : Prop where
  wf : WF T n
  table : LockTable P T
  closed : DownClosed T (· ∈ stak)
  exec : Executes P T stak g

/-- What is below an event of the stack is below the event that stands for the same step in another
stack of the same trace. -/
theorem StackRun.exists_lt {n' : Nat} (h : StackRun P T n stak g) (h' : StackRun P T' n' stak' g')
    (heq : (Trace.mk _ (wordOf T stak) : LockTrace) = .mk _ (wordOf T' stak')) : ∀ (y y' : Nat),
    y ∈ stak → y' ∈ stak' → y ≠ botEID → y' ≠ botEID → T'.infoOf y' = T.infoOf y →
    ∀ x, x ≠ botEID → Lt T x y →
      ∃ x' ∈ stak', x' ≠ botEID ∧ T'.infoOf x' = T.infoOf x ∧ Lt T' x' y' := by
  intro y
  induction y using Nat.strong_induction_on with
  | _ y ih =>
    intro y' hy hy' hyb hyb' hinfo x hxb hlt
    obtain ⟨p, hp, hxp⟩ := lt_iff_pred.1 hlt
    have hpy := lt_of_mem_pred hp
    have hps := h.closed.of_lt hy hpy
    have hpb : p ≠ botEID := by
      rintro rfl
      rcases hxp with rfl | hxp
      · exact hxb rfl
      · exact Nat.not_lt_zero x (h.wf.linked.id_lt hxp)
    -- the predecessor and `y` are dependent, so the other word has them in the same order
    obtain ⟨tp, ip, op, hsp⟩ := h.table.step p (h.closed.mem p hps) hpb
    obtain ⟨ty, iy, oy, hsy⟩ := h.table.step y (h.closed.mem y hy) hyb
    have hd := (infoOf_dep hsp.infoOf hsy.infoOf).1 (h.table.pred y p hp)
    have hbefore := (h.exec.before_iff h.table.toLockEvents h.wf.linked.causal hd).2
      ⟨p, hps, y, hy, hpb, hyb, hsp.infoOf, hsy.infoOf, hpy⟩
    rw [(Trace.same_of_mk_eq isDependent_symm heq).2 _ _ hd,
      h'.exec.before_iff h'.table.toLockEvents h'.wf.linked.causal hd] at hbefore
    obtain ⟨q, hq, y₁, hy₁, hqb, hy₁b, hqi, hyi, hqy⟩ := hbefore
    obtain rfl : y₁ = y' := h'.exec.eq_of_infoOf h'.table.toLockEvents hy₁ hy' (h'.closed.mem _ hy₁) hy₁b
      (by rw [hinfo, hyi, hsy.infoOf])
    rcases hxp with rfl | hxp
    · exact ⟨q, hq, hqb, hqi.trans hsp.infoOf.symm, hqy⟩
    · obtain ⟨x', hx', hxb', hxi, hxq⟩ := ih p (h.wf.linked.pred_lt hp) q hps hq hpb hqb
        (hqi.trans hsp.infoOf.symm) x hxb hxp
      exact ⟨x', hx', hxb', hxi, hxq.trans hqy⟩

/-- Predecessors are the last events below an event. -/
theorem WF.mem_pred_iff {p : EventID} (h : WF T n) :
    p ∈ T.predOf x ↔ Lt T p x ∧ ∀ q, Lt T q x → ¬ Lt T p q := by
  constructor
  · refine fun hp => ⟨lt_of_mem_pred hp, fun q hq hpq => ?_⟩
    obtain ⟨r, hr, hqr⟩ := lt_iff_pred.1 hq
    exact h.anti x p hp r hr (hpq.trans_le hqr)
  · rintro ⟨hlt, hlast⟩
    obtain ⟨q, hq, hpq⟩ := lt_iff_pred.1 hlt
    rcases hpq with rfl | hpq
    · exact hq
    · exact absurd hpq (hlast q (lt_of_mem_pred hq))

/-! ## Maximal configurations over a stack -/

/-- The stack of `sk` is over that of `s`, and has a conflict with each disabled event. -/
structure MaximalOver (d : EventsID) (s sk : UnfolderState (LockState P) LockAct) : Prop where
  good : LockGood P sk
  exec : ∃ g, Executes P sk.evts sk.stak g
  stable : Stable s.cntr s.evts sk.evts
  above : ∀ x ∈ s.stak, x ∈ sk.stak
  just : ∀ z ∈ d, z ∈ sk.evts ∧ ∃ x ∈ sk.stak, z ∈ sk.evts.icnfOf x

theorem MaximalOver.below (h : MaximalOver d s₁ sk) (hs : Stable s.cntr s.evts s₁.evts)
    (hn : s.cntr ≤ s₁.cntr) (hstak : ∀ x ∈ s.stak, x ∈ s₁.stak) (hd : ∀ z ∈ d', z ∈ d) :
    MaximalOver d' s sk :=
  ⟨h.good, h.exec, hs.trans h.stable hn, fun x hx => h.above x (hstak x hx), fun z hz =>
    h.just z (hd z hz)⟩

/-- **The two branches of a call find different traces.** -/
theorem MaximalOver.trace_ne (hg : LockGood P s) (he : CanExtend s.evts s.stak e)
    (h : MaximalOver d s sk) (hes : e ∈ sk.stak) (h' : MaximalOver (e :: d') s sk') :
    (Trace.mk _ (wordOf sk.evts sk.stak) : LockTrace) ≠ .mk _ (wordOf sk'.evts sk'.stak) := by
  intro heq
  obtain ⟨g, hE⟩ := h.exec
  obtain ⟨g', hE'⟩ := h'.exec
  have hrun : StackRun P sk.evts sk.cntr sk.stak g := ⟨h.good.wf, h.good.lock, h.good.stack.closed, hE⟩
  have hrun' : StackRun P sk'.evts sk'.cntr sk'.stak g' :=
    ⟨h'.good.wf, h'.good.lock, h'.good.stack.closed, hE'⟩
  have hev' := hrun'.table.toLockEvents
  obtain ⟨heT', x, hx, hxe⟩ := h'.just e List.mem_cons_self
  have hen := hg.wf.lt_cntr he.mem
  have heb : e ≠ botEID := fun hb => he.notMem (hb ▸ hg.stack.bot)
  have hinfo : ∀ z ∈ s.stak, sk'.evts.infoOf z = sk.evts.infoOf z := by
    intro z hz
    rw [h'.stable.infoOf (hg.stak_lt hz) (h'.good.stak_mem (h'.above z hz)),
      h.stable.infoOf (hg.stak_lt hz) (h.good.stak_mem (h.above z hz))]
  have heinfo : sk'.evts.infoOf e = sk.evts.infoOf e := by
    rw [h'.stable.infoOf hen heT', h.stable.infoOf hen (h.good.stak_mem hes)]
  -- the event of the other stack that stands for the same step as `e`
  obtain ⟨t, i, o, hst⟩ := hrun.table.step e (h.good.stak_mem hes) heb
  have hmem := (Trace.same_of_mk_eq isDependent_symm heq).1 (stepName t i, o.act)
  obtain ⟨y, hy, hyb, hyi⟩ := mem_wordOf.1 (hmem.1 (mem_wordOf.2 ⟨e, hes, heb, hst.infoOf⟩))
  have hye : sk'.evts.infoOf y = sk.evts.infoOf e := hyi.trans hst.infoOf.symm
  -- it has the same past
  have hlt : ∀ z, Lt sk.evts z e ↔ Lt sk'.evts z e := fun z => by
    rw [h.stable.lt_iff h.good.linked hen (h.good.stak_mem hes), h'.stable.lt_iff h'.good.linked hen heT']
  have hbelow : ∀ z, Lt sk.evts z e → z ∈ s.stak := by
    intro z hz
    rw [h.stable.lt_iff h.good.linked hen (h.good.stak_mem hes)] at hz
    obtain ⟨p, hp, hzp⟩ := lt_iff_pred.1 hz
    exact hg.stack.closed.of_le (he.pred p hp) hzp
  have hpast : ∀ z, Lt sk'.evts z y ↔ Lt sk'.evts z e := by
    intro z
    by_cases hzb : z = botEID
    · subst hzb
      exact iff_of_true (h'.good.wf.bot_lt (h'.good.stak_mem hy) hyb) (h'.good.wf.bot_lt heT' heb)
    rw [← hlt]
    constructor
    · intro hz
      obtain ⟨w, hw, hwb, hwi, hwe⟩ := hrun'.exists_lt hrun heq.symm y e hy hes hyb heb hye.symm z hzb hz
      have hws := hbelow w hwe
      obtain rfl : w = z := hE'.eq_of_infoOf hev' (h'.above w hws) (h'.good.stack.closed.of_lt hy hz)
        (h'.good.stak_mem (h'.above w hws)) hwb (by rw [hinfo w hws, hwi])
      exact hwe
    · intro hz
      have hzs := hbelow z hz
      obtain ⟨w, hw, hwb, hwi, hwy⟩ := hrun.exists_lt hrun' heq e y hes hy heb hyb hye z hzb hz
      obtain rfl : z = w := hE'.eq_of_infoOf hev' (h'.above z hzs) hw
        (h'.good.stak_mem (h'.above z hzs)) hzb (by rw [hwi, hinfo z hzs])
      exact hwy
  -- so it is `e`, which has a conflict with the stack
  have hey : e = y := by
    refine h'.good.table.unique P.restricted e heT' y (h'.good.stak_mem hy) ?_ fun p => ?_
    · have := heinfo.trans hye.symm
      simp only [Events.infoOf] at this
      simp only [Events.nameOf]
      cases hl : sk'.evts.lookup e <;> cases hl' : sk'.evts.lookup y <;> simp_all
    · simp only [h'.good.wf.mem_pred_iff, hpast]
  exact h'.good.conflictFree hx (hey ▸ hy) hxe

/-! ## The tree of calls -/

/-- The calls `new` are made over the stack of `s`; those at maximal configurations find different
traces. -/
structure LeavesOk (d : EventsID) (s : UnfolderState (LockState P) LockAct)
    (new : List (Call (LockState P) LockAct)) : Prop where
  above : ∀ k ∈ maximalCalls new, ∃ sk, k.stak = sk.stak ∧ k.evts = sk.evts ∧ MaximalOver d s sk
  nodup : ((maximalCalls new).map Call.trace).Nodup

theorem LeavesOk.below {new : List (Call (LockState P) LockAct)} (h : LeavesOk d s₁ new)
    (hs : Stable s.cntr s.evts s₁.evts) (hn : s.cntr ≤ s₁.cntr) (hstak : ∀ x ∈ s.stak, x ∈ s₁.stak)
    (hd : ∀ z ∈ d', z ∈ d) : LeavesOk d' s new := by
  refine ⟨fun k hk => ?_, h.nodup⟩
  obtain ⟨sk, hks, hke, hsk⟩ := h.above k hk
  exact ⟨sk, hks, hke, hsk.below hs hn hstak hd⟩

theorem maximalCalls_append (l l' : List (Call (LockState P) LockAct)) :
    maximalCalls (l ++ l') = maximalCalls l ++ maximalCalls l' := List.filter_append ..

/-- The calls of the two branches. -/
theorem LeavesOk.append {new new' : List (Call (LockState P) LockAct)} (hg : LockGood P s)
    (he : CanExtend s.evts s.stak e) (hl : LeavesOk d s new) (hle : ∀ k ∈ maximalCalls new, e ∈ k.stak)
    (hr : LeavesOk (e :: d) s new') : LeavesOk d s (new' ++ new) := by
  have happ := maximalCalls_append new' new
  refine ⟨fun k hk => ?_, ?_⟩
  · rcases List.mem_append.1 (happ ▸ hk) with hk | hk
    · obtain ⟨sk, hks, hke, hsk⟩ := hr.above k hk
      exact ⟨sk, hks, hke, hsk.below (.refl _ _) (Nat.le_refl _) (fun _ hx => hx) fun z hz =>
        List.mem_cons_of_mem e hz⟩
    · exact hl.above k hk
  · rw [happ, List.map_append]
    refine List.nodup_append.2 ⟨hr.nodup, hl.nodup, ?_⟩
    intro _ hk' _ hk heq
    obtain ⟨k', hkn', rfl⟩ := List.mem_map.1 hk'
    obtain ⟨k, hkn, rfl⟩ := List.mem_map.1 hk
    obtain ⟨sk, hks, hke, hsk⟩ := hl.above k hkn
    obtain ⟨sk', hks', hke', hsk'⟩ := hr.above k' hkn'
    rw [Call.trace, Call.trace, hks, hke, hks', hke'] at heq
    exact hsk.trace_ne hg he (hks ▸ hle k hkn) hsk' heq.symm

/-- A call that is not at a maximal configuration finds no trace itself. -/
theorem LeavesOk.snoc {new : List (Call (LockState P) LockAct)} {k : Call (LockState P) LockAct}
    (h : LeavesOk d s new) (hk : k.conf.enevs ≠ []) :
    LeavesOk d s (new ++ [k]) ∧ maximalCalls (new ++ [k]) = maximalCalls new := by
  have heq : maximalCalls (new ++ [k]) = maximalCalls new := by simp [maximalCalls, hk]
  exact ⟨⟨heq ▸ h.above, heq ▸ h.nodup⟩, heq⟩

/-- The calls that were made between two states, and what was counted. -/
def Finds (d : EventsID) (s s' : UnfolderState (LockState P) LockAct) : Prop :=
  ∃ new, s'.calls = new ++ s.calls ∧ LeavesOk d s new ∧
    s'.stats.nrMaxConf = s.stats.nrMaxConf + (maximalCalls new).length

section Branches

variable {s₂ s₄ : UnfolderState (LockState P) LockAct} (h : Adds stl n s c ê d alt e nc s₁)

include h

theorem Adds.finds_left (hl : Finds d (s₁.withStack (e :: s₁.stak)) s₂) :
    ∃ new, s₂.calls = new ++ s.calls ∧ LeavesOk d s new ∧ (∀ k ∈ maximalCalls new, e ∈ k.stak) ∧
      s₂.stats.nrMaxConf = s.stats.nrMaxConf + (maximalCalls new).length := by
  obtain ⟨new, hcalls, hnew, hnr⟩ := hl
  obtain ⟨hnew', hmax⟩ := hnew.snoc (k := ⟨c, ê, d, alt, s.stak, s.evts⟩) h.chooses.enevs
  have hstak : ∀ x ∈ s.stak, x ∈ e :: s₁.stak := fun x hx =>
    List.mem_cons_of_mem e (h.quiet.stak.symm ▸ hx)
  refine ⟨new ++ [⟨c, ê, d, alt, s.stak, s.evts⟩], ?_, hnew'.below (s := s) h.unfolded.stable
    h.unfolded.grows.cntr hstak fun _ hz => hz, fun k hk => ?_, ?_⟩
  · have : (s₁.withStack (e :: s₁.stak)).calls = _ := h.quiet.calls
    rw [hcalls, this, UnfolderState.called]
    simp
  · obtain ⟨sk, hks, -, hsk⟩ := hnew.above k (hmax ▸ hk)
    exact hks ▸ hsk.above e List.mem_cons_self
  · rw [hnr, hmax]
    exact congrArg (· + _) h.quiet.nrMaxConf

theorem Adds.finds_both (hl : Finds d (s₁.withStack (e :: s₁.stak)) s₂)
    (hs : Searched stl d d (s₁.withStack (e :: s₁.stak)) s₂)
    (hr : Finds (e :: d) (s₂.withStack s₁.stak) s₄) : Finds d s s₄ := by
  obtain ⟨new, hcalls, hnew, hle, hnr⟩ := h.finds_left hl
  obtain ⟨new', hcalls', hnew', hnr'⟩ := hr
  have hp := h.popped hs
  have hnew₂ : LeavesOk (e :: d) s new' := hnew'.below hp.evolves.stable hp.evolves.cntr
    (fun x hx => hp.evolves.stak.symm ▸ hx) fun _ hz => hz
  refine ⟨new' ++ new, ?_, hnew.append h.search.node.toLockGood h.canExtend hle hnew₂, ?_⟩
  · rw [hcalls', List.append_assoc, ← hcalls]
    rfl
  · rw [hnr', maximalCalls_append, List.length_append, Nat.add_comm (maximalCalls new').length,
      ← Nat.add_assoc]
    exact congrArg (· + _) hnr

end Branches

/-- What is pruned is no call. -/
theorem Finds.quiet (h : Finds d s s₁) (hq : Quiet s₁ s') : Finds d s s' := by
  obtain ⟨new, hcalls, hnew, hnr⟩ := h
  exact ⟨new, hq.calls.trans hcalls, hnew, hq.nrMaxConf.trans hnr⟩

theorem SearchOk.maximalOver (h : SearchOk stl s c d alt) (hen : c.enevs = []) : MaximalOver d s s := by
  refine ⟨h.node.toLockGood, ⟨_, h.exec⟩, .refl _ _, fun _ hx => hx, fun z hz =>
    ⟨(h.node.disabled z hz).1, ?_⟩⟩
  -- the alternative has been followed to its end
  obtain ⟨x, hx, hi⟩ := h.call.just z hz
  rw [h.call.alt_eq_nil h.node h.past h.complete hen] at hx
  exact ⟨x, hx.resolve_right List.not_mem_nil, hi⟩

theorem Explored.finds {b : Bool} (h : Explored stl b n s c ê d alt s') : Finds d s s' := by
  induction h with
  | cut => exact ⟨[], rfl, ⟨by simp [maximalCalls], by simp [maximalCalls]⟩, rfl⟩
  | @leaf n s s' c ê d alt h hen hmax =>
    have hone : maximalCalls [(⟨c, ê, d, alt, s.stak, s.evts⟩ : Call (LockState P) LockAct)] =
        [⟨c, ê, d, alt, s.stak, s.evts⟩] := by simp [maximalCalls, hen]
    refine ⟨[⟨c, ê, d, alt, s.stak, s.evts⟩], hmax.calls, ⟨fun k hk => ?_, ?_⟩, ?_⟩
    · rw [hone, List.mem_singleton] at hk
      subst hk
      exact ⟨s, rfl, rfl, h.maximalOver hen⟩
    · simp [hone]
    · rw [hone]
      exact hmax.nrMaxConf
  | inLeft h _ ih =>
    obtain ⟨new, hcalls, hnew, -, hnr⟩ := h.finds_left ih
    exact ⟨new, hcalls, hnew, hnr⟩
  | inRight h hleft _ _ ihl ihr => exact h.finds_both ihl (hleft.searched rfl) ihr
  | alone h _ _ hprune ih =>
    obtain ⟨new, hcalls, hnew, -, hnr⟩ := h.finds_left ih
    refine Finds.quiet ?_ hprune.quiet
    exact ⟨new, hcalls, hnew, hnr⟩
  | both h hleft _ _ hprune ihl ihr =>
    exact (h.finds_both ihl (hleft.searched rfl) ihr).quiet hprune.quiet

/-! ## Every run -/

/-- **Optimality**: without nested critical sections no trace is found by two calls at a maximal
configuration, and these calls are what is counted. -/
theorem unfold_optimal (hw : P.WellLocked) (hnn : P.NonNested) (fuel : Nat) (stl : Bool) :
    ((maximalCalls (P.unfold fuel stl).2.calls).map Call.trace).Nodup ∧
      (P.unfold fuel stl).2.stats.nrMaxConf = (maximalCalls (P.unfold fuel stl).2.calls).length := by
  have hfin : ∀ {b : Bool} {c : Configuration (LockState P)} {s s' : UnfolderState (LockState P) LockAct},
      Quiet (iUnfState stl false 10 P.system) s → Explored stl b fuel s c botEID [] [] s' →
      ((maximalCalls s'.calls).map Call.trace).Nodup ∧
        s'.stats.nrMaxConf = (maximalCalls s'.calls).length := by
    intro b c s s' hq hex
    obtain ⟨new, hcalls, hnew, hnr⟩ := hex.finds
    have hnil : s.calls = [] := hq.calls
    have hzero : s.stats.nrMaxConf = 0 := hq.nrMaxConf
    rw [hnil, List.append_nil] at hcalls
    rw [hcalls]
    exact ⟨hnew.nodup, by rw [hnr, hzero, Nat.zero_add]⟩
  refine Op.Sat.state (m := botExplore fuel) (P := fun s' =>
    ((maximalCalls s'.calls).map Call.trace).Nodup ∧
      s'.stats.nrMaxConf = (maximalCalls s'.calls).length) ?_
  refine (botExplore_explored hw hnn stl fuel).mono ?_ ?_
  · rintro _ s' ⟨c, s, -, hq, hex⟩
    exact hfin hq hex
  · rintro _ s' ⟨-, c, s, -, hq, hex⟩
    exact hfin hq hex

/-- The run on two critical sections finds two traces. -/
theorem unfold_optimal_twoSections :
    ((maximalCalls (twoSections.unfold 20 false).2.calls).map Call.trace).Nodup ∧
      (maximalCalls (twoSections.unfold 20 false).2.calls).length = 2 := by
  obtain ⟨hnodup, hnr⟩ := unfold_optimal (P := twoSections) (by decide) (by decide) 20 false
  exact ⟨hnodup, hnr.symm.trans (by decide +kernel)⟩

end Poet
