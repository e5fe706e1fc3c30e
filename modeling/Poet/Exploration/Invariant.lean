import Poet.Exploration.AddEvent
import Poet.Exploration.Delete

/-!
# The invariant of a run

`PrefixOk` is what the lists of a prefix say about each other: ids below the counter, links kept on
both sides, acyclic, without repetitions. `Good` adds what the exploration knows of its stack, and is
what every operation keeps; `Evolves` says what an operation may do to events that are already there.
The operations change the prefix in three ways only: an event is added (`Added`), events are deleted
(`Deleted`), or fields other than the links are written (`SameLinks`).
-/

namespace Poet

variable {st act : Type}

/-- The representation invariant of the prefix. -/
structure PrefixOk (T : Events act) (cntr : Nat) : Prop where
  key_lt : ∀ e ∈ T, e < cntr
  pred_mem : ∀ e, ∀ p ∈ T.predOf e, p ∈ T
  succ_mem : ∀ e, ∀ s ∈ T.succOf e, s ∈ T
  icnf_mem : ∀ e, ∀ c ∈ T.icnfOf e, c ∈ T
  pred_lt : ∀ e, ∀ p ∈ T.predOf e, p < e
  pred_nodup : ∀ e, (T.predOf e).Nodup
  succ_nodup : ∀ e, (T.succOf e).Nodup
  icnf_nodup : ∀ e, (T.icnfOf e).Nodup
  pred_iff_succ : ∀ p e, p ∈ T.predOf e ↔ e ∈ T.succOf p
  icnf_symm : ∀ e c, c ∈ T.icnfOf e → e ∈ T.icnfOf c
  icnf_irrefl : ∀ e, e ∉ T.icnfOf e

theorem WF.prefixOk {T : Events act} {n : Nat} (h : WF T n) : PrefixOk T n where
  key_lt _ he := h.lt_cntr he
  pred_mem _ _ hp := h.linked.causal.mem_of_pred hp
  succ_mem _ _ hs := h.linked.succ_mem hs
  icnf_mem _ _ hc := h.linked.icnf_mem List.not_mem_nil hc
  pred_lt _ _ hp := h.linked.pred_lt hp
  pred_nodup := h.linked.pred_nodup
  succ_nodup := h.linked.succ_nodup
  icnf_nodup := h.linked.icnf_nodup
  pred_iff_succ _ _ := h.linked.causal.mem_succ_iff.symm
  icnf_symm _ _ hc := (h.linked.icnf_symm List.not_mem_nil hc).1
  icnf_irrefl := h.linked.icnf_irrefl

namespace Events

def nameOf (T : Events act) (e : EventID) : Option EventName := (T.lookup e).map (·.name)

def tidOf (T : Events act) (e : EventID) : Option TId := (T.nameOf e).map (·.tid)

def actsOf (T : Events act) (e : EventID) : Option act := (T.lookup e).map (·.acts)

theorem actsOf_of_lookup {T : Events act} {e : EventID} {ev : Event act} (h : T.lookup e = some ev) :
    T.actsOf e = some ev.acts := by simp [actsOf, h]

theorem nameOf_of_lookup {T : Events act} {e : EventID} {ev : Event act} (h : T.lookup e = some ev) :
    T.nameOf e = some ev.name := by simp [nameOf, h]

theorem tidOf_of_lookup {T : Events act} {e : EventID} {ev : Event act} (h : T.lookup e = some ev) :
    T.tidOf e = some ev.name.tid := by simp [tidOf, nameOf, h]

end Events

/-- No two events have the same name and the same set of immediate predecessors. -/
def NoDuplicates (T : Events act) : Prop :=
  ∀ x ∈ T, ∀ y ∈ T, T.nameOf x = T.nameOf y → (∀ p, p ∈ T.predOf x ↔ p ∈ T.predOf y) → x = y

/-! ## What an operation does to the events that are there -/

/-- The events below `n` that are in `T'` were in `T`, with the same name and predecessors and with no
fewer conflicts. -/
structure Older (n : Nat) (T T' : Events act) : Prop where
  mem : ∀ {x}, x < n → x ∈ T' → x ∈ T
  name : ∀ {x}, x < n → x ∈ T' → T'.nameOf x = T.nameOf x
  pred : ∀ {x}, x < n → x ∈ T' → T'.predOf x = T.predOf x
  icnf : ∀ {x y}, x < n → y < n → y ∈ T'.icnfOf x → y ∈ T.icnfOf x

namespace Older

variable {n m : Nat} {T T' T'' : Events act} {x y : EventID}

theorem refl (n : Nat) (T : Events act) : Older n T T :=
  ⟨fun _ h => h, fun _ _ => rfl, fun _ _ => rfl, fun _ _ h => h⟩

theorem trans (h : Older n T T') (h' : Older m T' T'') (hnm : n ≤ m) : Older n T T'' where
  mem hx hm := h.mem hx (h'.mem (Nat.lt_of_lt_of_le hx hnm) hm)
  name hx hm := by
    have hx' := Nat.lt_of_lt_of_le hx hnm
    exact (h'.name hx' hm).trans (h.name hx (h'.mem hx' hm))
  pred hx hm := by
    have hx' := Nat.lt_of_lt_of_le hx hnm
    exact (h'.pred hx' hm).trans (h.pred hx (h'.mem hx' hm))
  icnf hx hy hm :=
    h.icnf hx hy (h'.icnf (Nat.lt_of_lt_of_le hx hnm) (Nat.lt_of_lt_of_le hy hnm) hm)

theorem tid (h : Older n T T') (hx : x < n) (hm : x ∈ T') : T'.tidOf x = T.tidOf x := by
  rw [Events.tidOf, Events.tidOf, h.name hx hm]

/-- Causality below an old event is as it was. -/
theorem lt_iff (h : Older n T T') (hT' : Linked T' []) (hy : y < n) (hm : y ∈ T') :
    Lt T' x y ↔ Lt T x y := by
  constructor
  · intro hlt
    induction hlt with
    | single hp => exact .single (h.pred hy hm ▸ hp)
    | tail _ hp ih =>
      have hlt := hT'.pred_lt hp
      exact (ih (Nat.lt_trans hlt hy) (hT'.causal.mem_of_pred hp)).tail (h.pred hy hm ▸ hp)
  · intro hlt
    induction hlt with
    | single hp => exact .single ((h.pred hy hm).symm ▸ hp)
    | tail _ hp ih =>
      rw [← h.pred hy hm] at hp
      have hlt := hT'.pred_lt hp
      exact (ih (Nat.lt_trans hlt hy) (hT'.causal.mem_of_pred hp)).tail hp

theorem downClosed {S : EventID → Prop} (h : Older n T T') (hS : DownClosed T S)
    (hlt : ∀ x, S x → x < n) (hmem : ∀ x, S x → x ∈ T') : DownClosed T' S :=
  ⟨hmem, fun x hx p hp => hS.pred x hx p (h.pred (hlt x hx) (hmem x hx) ▸ hp)⟩

end Older

/-- `T'` differs from `T` in actions, disabled sets and alternatives only. -/
def SameLinks (T T' : Events act) : Prop :=
  ∀ x, (T'.lookup x).map (fun ev => (ev.name, ev.pred, ev.succ, ev.icnf)) =
    (T.lookup x).map fun ev => (ev.name, ev.pred, ev.succ, ev.icnf)

namespace SameLinks

variable {T T' : Events act} {e x : EventID} {ev ev' : Event act}

theorem refl (T : Events act) : SameLinks T T := fun _ => rfl

theorem trans {T'' : Events act} (h : SameLinks T T') (h' : SameLinks T' T'') : SameLinks T T'' :=
  fun x => (h' x).trans (h x)

theorem setEvent (hl : T.lookup e = some ev) (hn : ev'.name = ev.name) (hp : ev'.pred = ev.pred)
    (hs : ev'.succ = ev.succ) (hi : ev'.icnf = ev.icnf) : SameLinks T (setEvent e ev' T) := by
  intro x
  by_cases hx : x = e
  · subst hx
    simp [Poet.setEvent, AList.lookup_insert, hl, hn, hp, hs, hi]
  · rw [Poet.setEvent, AList.lookup_insert_ne hx]

/-- Writing back an event that was read, with other fields. -/
theorem exists_of_write {fn : String} {f : Event act → Event act}
    (h : (do
      let ev ← getEvent fn e T
      pure (Poet.setEvent e (f ev) T)) = .ok T') :
    ∃ ev, T.lookup e = some ev ∧ T' = Poet.setEvent e (f ev) T := by
  cases hl : T.lookup e with
  | none => simp [getEvent, hl] at h
  | some ev =>
    rw [getEvent_ok _ hl, ok_bind, pure_eq_ok] at h
    exact ⟨ev, rfl, (Except.ok.inj h).symm⟩

theorem setDisa {de : EventsID} (h : setDisa e de T = .ok T') : SameLinks T T' := by
  obtain ⟨ev, hl, rfl⟩ := exists_of_write (f := fun ev => { ev with disa := de }) h
  exact .setEvent hl rfl rfl rfl rfl

theorem addAlte {v : Alternative} (h : addAlte e v T = .ok T') : SameLinks T T' := by
  obtain ⟨ev, hl, rfl⟩ :=
    exists_of_write (f := fun ev => { ev with alte := (v :: ev.alte).eraseDups }) h
  exact .setEvent hl rfl rfl rfl rfl

theorem resetAlte (h : resetAlte e T = .ok T') : SameLinks T T' := by
  obtain ⟨ev, hl, rfl⟩ := exists_of_write (f := fun ev => { ev with alte := [] }) h
  exact .setEvent hl rfl rfl rfl rfl

theorem mem_iff (h : SameLinks T T') : x ∈ T' ↔ x ∈ T := by
  have := congrArg Option.isSome (h x)
  rw [Option.isSome_map, Option.isSome_map] at this
  rw [← AList.lookup_isSome, ← AList.lookup_isSome, this]

theorem nameOf (h : SameLinks T T') (x : EventID) : T'.nameOf x = T.nameOf x := by
  have := congrArg (Option.map (·.1)) (h x)
  simpa [Events.nameOf, Option.map_map, Function.comp_def] using this

theorem predOf (h : SameLinks T T') (x : EventID) : T'.predOf x = T.predOf x := by
  have := congrArg (fun o => (o.map (·.2.1)).getD []) (h x)
  simpa [Events.predOf, Option.map_map, Function.comp_def] using this

theorem succOf (h : SameLinks T T') (x : EventID) : T'.succOf x = T.succOf x := by
  have := congrArg (fun o => (o.map (·.2.2.1)).getD []) (h x)
  simpa [Events.succOf, Option.map_map, Function.comp_def] using this

theorem icnfOf (h : SameLinks T T') (x : EventID) : T'.icnfOf x = T.icnfOf x := by
  have := congrArg (fun o => (o.map (·.2.2.2)).getD []) (h x)
  simpa [Events.icnfOf, Option.map_map, Function.comp_def] using this

theorem lt_iff (h : SameLinks T T') {a b : EventID} : Lt T' a b ↔ Lt T a b := by
  simp only [Lt, h.predOf]

theorem linked (h : SameLinks T T') (hT : Linked T []) : Linked T' [] := by
  refine ⟨?_, ?_, ?_, ?_, ?_, ?_, ?_, ?_, ?_⟩ <;>
    simp only [h.predOf, h.succOf, h.icnfOf, h.mem_iff]
  · exact hT.pred_lt
  · exact hT.pred_nodup
  · exact hT.pred_mem
  · exact hT.succ_of_pred
  · exact hT.pred_of_succ
  · exact hT.succ_nodup
  · exact hT.icnf_symm
  · exact hT.icnf_irrefl
  · exact hT.icnf_nodup

theorem wf {n : Nat} (h : SameLinks T T') (hT : WF T n) : WF T' n where
  linked := h.linked hT.linked
  lt_cntr he := hT.lt_cntr (h.mem_iff.1 he)
  anti e a ha b hb hlt := by
    rw [h.predOf] at ha hb
    exact hT.anti e a ha b hb (h.lt_iff.1 hlt)
  bot := h.mem_iff.2 hT.bot
  root he hne := by
    rw [h.predOf]
    exact hT.root (h.mem_iff.1 he) hne

theorem older (h : SameLinks T T') (n : Nat) : Older n T T' where
  mem _ hm := h.mem_iff.1 hm
  name _ _ := h.nameOf _
  pred _ _ := h.predOf _
  icnf _ _ hm := h.icnfOf _ ▸ hm

end SameLinks

theorem Added.nameOf {T T' : Events act} {n : EventID} {name : EventName} {acts : act}
    {h cs : EventsID} (ha : Added T n name acts h cs T') (x : EventID) :
    T'.nameOf x = if x = n then some name else T.nameOf x := by
  by_cases hx : x = n
  · subst hx
    simp [Events.nameOf_of_lookup ha.new]
  · rw [if_neg hx]
    simp only [Events.nameOf, ha.old x hx]
    cases T.lookup x <;> simp [linkTo]

theorem Added.actsOf {T T' : Events act} {n : EventID} {name : EventName} {acts : act}
    {h cs : EventsID} (ha : Added T n name acts h cs T') (x : EventID) :
    T'.actsOf x = if x = n then some acts else T.actsOf x := by
  by_cases hx : x = n
  · subst hx
    simp [Events.actsOf_of_lookup ha.new]
  · rw [if_neg hx]
    simp only [Events.actsOf, ha.old x hx]
    cases T.lookup x <;> simp [linkTo]

theorem Added.older {T T' : Events act} {n : EventID} {name : EventName} {acts : act}
    {h cs : EventsID} (ha : Added T n name acts h cs T') (hn : n ∉ T) (hcs : ∀ c ∈ cs, c ∈ T) :
    Older n T T' where
  mem hx hm := (ha.mem_iff.1 hm).resolve_left (Nat.ne_of_lt hx)
  name hx _ := by rw [ha.nameOf, if_neg (Nat.ne_of_lt hx)]
  pred hx _ := by rw [ha.predOf, if_neg (Nat.ne_of_lt hx)]
  icnf hx hy hm := by
    rcases (ha.mem_icnfOf hn hcs).1 hm with hm | ⟨rfl, -⟩ | ⟨rfl, -⟩
    · exact hm
    · exact absurd hy (Nat.lt_irrefl _)
    · exact absurd hx (Nat.lt_irrefl _)

theorem Deleted.older {T T' : Events act} {es : EventsID} (h : Deleted T [] es T') (n : Nat) :
    Older n T T' where
  mem _ hm := h.shrunk.mem hm
  name _ hm := by
    obtain ⟨ev', hl'⟩ := Events.lookup_of_mem hm
    obtain ⟨ev, hl, hr⟩ := h.shrunk _ ev' hl'
    rw [Events.nameOf_of_lookup hl, Events.nameOf_of_lookup hl', hr.name]
  pred _ hm := h.shrunk.predOf hm
  icnf _ _ hm := by
    obtain ⟨ev', hl'⟩ := Events.lookup_of_mem (Events.mem_of_mem_icnfOf hm)
    obtain ⟨ev, hl, hr⟩ := h.shrunk _ ev' hl'
    rw [Events.icnfOf_of_lookup hl'] at hm
    rw [Events.icnfOf_of_lookup hl]
    exact hr.icnf hm

theorem Deleted.wf {T T' : Events act} {es : EventsID} {n : Nat} (h : Deleted T [] es T')
    (hT : WF T n) (hbot : botEID ∈ T') : WF T' n where
  linked := h.linked
  lt_cntr he := hT.lt_cntr (h.shrunk.mem he)
  anti e a ha b hb hlt := by
    have he := Events.mem_of_mem_predOf ha
    have hbm := h.linked.causal.mem_of_pred hb
    rw [h.shrunk.predOf he] at ha hb
    rw [(h.older n).lt_iff h.linked (hT.lt_cntr (h.shrunk.mem hbm)) hbm] at hlt
    exact hT.anti e a ha b hb hlt
  bot := hbot
  root he hne := by
    rw [h.shrunk.predOf he]
    exact hT.root (h.shrunk.mem he) hne

/-! ## States -/

/-- The stack is a configuration in which the events of a thread are ordered. -/
structure StackOk (T : Events act) (stak : EventsID) : Prop where
  nodup : stak.Nodup
  closed : DownClosed T (· ∈ stak)
  bot : botEID ∈ stak
  chain : ∀ x ∈ stak, ∀ y ∈ stak, T.tidOf x = T.tidOf y → Le T x y ∨ Lt T y x

/-- `x` can be added to the configuration `stak`. -/
structure Extends (T : Events act) (stak : EventsID) (x : EventID) : Prop where
  notMem : x ∉ stak
  pred : ∀ p ∈ T.predOf x, p ∈ stak
  chain : ∀ y ∈ stak, T.tidOf y = T.tidOf x → Lt T y x

section Domain

variable [DecidableEq st] [DecidableEq act] [LatticeM st] [Projection st] [Lattice act] [Action act]
  [Domain st act]

/-- The states that `drun` comes to from the initial one. -/
inductive Reached (syst : System st act) : st → Prop where
  | init : Reached syst syst.gbst
  | step {wid s name s' acts} (h : Reached syst s)
      (hrun : Domain.drun wid syst s name = .ok (s', acts)) : Reached syst s'

/-- Every collapse from a state of a run is a lock, an unlock or a join. -/
def LockLike (syst : System st act) : Prop :=
  ∀ wid s t ws rs, Reached syst s → Domain.run false wid syst s t = .ok (ws, rs) → ∀ r ∈ rs,
    (Action.isJoin r.2.2 || Action.isUnlock r.2.2 || Action.isLock r.2.2) = true

/-- No thread but these two is enabled in a state of a run. -/
def TwoThreads (syst : System st act) (t₁ t₂ : TId) : Prop :=
  ∀ s l, Reached syst s → Domain.enabled syst s = .ok l → ∀ p ∈ l, p.1 = t₁ ∨ p.1 = t₂

/-- Systems on which an event has no more than one history of each size. -/
def Restricted (syst : System st act) : Prop := LockLike syst ∨ ∃ t₁ t₂, TwoThreads syst t₁ t₂

/-- What holds of the prefix. -/
structure TableOk (syst : System st act) (T : Events act) (cntr : Nat) : Prop where
  wf : WF T cntr
  bot : T.nameOf botEID = some botName
  unique : Restricted syst → NoDuplicates T
  tids : ∀ t₁ t₂, TwoThreads syst t₁ t₂ → ∀ x ∈ T, x ≠ botEID →
    T.tidOf x = some t₁ ∨ T.tidOf x = some t₂

/-- What holds when the exploration stops, be it with an error. -/
structure Safe (syst : System st act) (s : UnfolderState st act) : Prop where
  syst_eq : s.syst = syst
  table : TableOk syst s.evts s.cntr
  seen : ∀ sn ∈ s.seen, TableOk syst sn.evts sn.cntr

/-- The configuration `c` of a call with this prefix and stack. In stateless mode its enabled events
may have been deleted. -/
structure ConfOk (syst : System st act) (T : Events act) (cntr : Nat) (stak : EventsID)
    (c : Configuration st) : Prop where
  reached : Reached syst c.state
  nodup : c.maevs.Nodup
  maevs : ∀ x, x ∈ c.maevs ↔ x ∈ stak ∧ ∀ y ∈ stak, ¬ Lt T x y
  enevs_lt : ∀ x ∈ c.enevs, x < cntr
  enevs : ∀ x ∈ c.enevs, x ∈ T → Extends T stak x

end Domain

/-- What an operation may do to the prefix below the top of the stack. -/
structure Evolves (s s' : UnfolderState st act) : Prop where
  stak : s'.stak = s.stak
  opts : s'.opts = s.opts
  cntr : s.cntr ≤ s'.cntr
  older : Older s.cntr s.evts s'.evts
  kept : ∀ x ∈ s.stak, x ∈ s'.evts
  stateful : s.opts.stateless = false → ∀ x ∈ s.evts, x ∈ s'.evts

/-- Nothing is deleted. -/
structure Grows (s s' : UnfolderState st act) : Prop where
  stak : s'.stak = s.stak
  opts : s'.opts = s.opts
  cntr : s.cntr ≤ s'.cntr
  older : Older s.cntr s.evts s'.evts
  keeps : ∀ x ∈ s.evts, x ∈ s'.evts

namespace Grows

variable {s s' s'' : UnfolderState st act}

theorem refl (s : UnfolderState st act) : Grows s s :=
  ⟨rfl, rfl, Nat.le_refl _, .refl _ _, fun _ h => h⟩

theorem trans (h : Grows s s') (h' : Grows s' s'') : Grows s s'' :=
  ⟨h'.stak.trans h.stak, h'.opts.trans h.opts, Nat.le_trans h.cntr h'.cntr,
    h.older.trans h'.older h.cntr, fun x hx => h'.keeps x (h.keeps x hx)⟩

theorem evolves (h : Grows s s') (hs : ∀ x ∈ s.stak, x ∈ s.evts) : Evolves s s' :=
  ⟨h.stak, h.opts, h.cntr, h.older, fun x hx => h.keeps x (hs x hx), fun _ => h.keeps⟩

end Grows

/-! ## What the changes of the prefix keep -/

namespace Older

variable {n : Nat} {T T' : Events act} {stak : EventsID} {x : EventID} (h : Older n T T')
  (hT' : Linked T' [])

include h hT'

theorem stackOk (hs : StackOk T stak) (hlt : ∀ x ∈ stak, x < n) (hkept : ∀ x ∈ stak, x ∈ T') :
    StackOk T' stak where
  nodup := hs.nodup
  closed := h.downClosed hs.closed hlt hkept
  bot := hs.bot
  chain x hx y hy htid := by
    rw [h.tid (hlt x hx) (hkept x hx), h.tid (hlt y hy) (hkept y hy)] at htid
    rw [Le, h.lt_iff hT' (hlt y hy) (hkept y hy), h.lt_iff hT' (hlt x hx) (hkept x hx)]
    exact hs.chain x hx y hy htid

theorem extendsStack (hx : Extends T stak x) (hxn : x < n) (hxm : x ∈ T')
    (hlt : ∀ x ∈ stak, x < n) (hkept : ∀ x ∈ stak, x ∈ T') : Extends T' stak x where
  notMem := hx.notMem
  pred p hp := hx.pred p (h.pred hxn hxm ▸ hp)
  chain y hy htid := by
    rw [h.tid hxn hxm, h.tid (hlt y hy) (hkept y hy)] at htid
    exact (h.lt_iff hT' hxn hxm).2 (hx.chain y hy htid)

omit hT'

theorem noDuplicates (hu : NoDuplicates T) (hlt : ∀ x ∈ T', x < n) : NoDuplicates T' := by
  intro x hx y hy hname hpred
  have hxn := hlt x hx
  have hyn := hlt y hy
  rw [h.name hxn hx, h.name hyn hy] at hname
  rw [h.pred hxn hx, h.pred hyn hy] at hpred
  exact hu x (h.mem hxn hx) y (h.mem hyn hy) hname hpred

end Older

theorem Evolves.trans {s s' s'' : UnfolderState st act} (h : Evolves s s') (h' : Evolves s' s'') :
    Evolves s s'' where
  stak := h'.stak.trans h.stak
  opts := h'.opts.trans h.opts
  cntr := Nat.le_trans h.cntr h'.cntr
  older := h.older.trans h'.older h.cntr
  kept x hx := h'.kept x (h.stak ▸ hx)
  stateful hm x hx := h'.stateful (h.opts ▸ hm) x (h.stateful hm x hx)

/-! ## Operations on the prefix as a whole -/

theorem sat_onEvts {f : Events act → Except Err (Events act)} {s : UnfolderState st act}
    {Q : Unit → UnfolderState st act → Prop} {E : Err → UnfolderState st act → Prop} :
    Op.Sat (onEvts f) s Q E ↔
      (∀ T', f s.evts = .ok T' →
        Q () { s with evts := T', seen := ⟨T', s.cntr, s.stak⟩ :: s.seen }) ∧
      ∀ e, f s.evts = .error e → E e s := by
  simp only [onEvts, record, Op.sat_bind, Op.sat_get, Op.sat_monadLift, Op.sat_modify]

section Good

variable [DecidableEq st] [DecidableEq act] [LatticeM st] [Projection st] [Lattice act] [Action act]
  [Domain st act] {syst : System st act} {s s' : UnfolderState st act} {T T' : Events act} {n : Nat}

theorem TableOk.of_older (h : TableOk syst T n) (ho : Older n T T') (hwf : WF T' n) :
    TableOk syst T' n where
  wf := hwf
  bot := (ho.name (hwf.lt_cntr hwf.bot) hwf.bot).trans h.bot
  unique hr := ho.noDuplicates (h.unique hr) fun _ hx => hwf.lt_cntr hx
  tids t₁ t₂ ht x hx hb := by
    have hxn := hwf.lt_cntr hx
    rw [ho.tid hxn hx]
    exact h.tids t₁ t₂ ht x (ho.mem hxn hx) hb

theorem Older.confOk {m : Nat} {stak : EventsID} {c : Configuration st} (h : Older n T T')
    (hT' : Linked T' []) (hc : ConfOk syst T n stak c) (hnm : n ≤ m) (hlt : ∀ x ∈ stak, x < n)
    (hkept : ∀ x ∈ stak, x ∈ T') : ConfOk syst T' m stak c where
  reached := hc.reached
  nodup := hc.nodup
  maevs x := by
    rw [hc.maevs]
    refine and_congr_right fun _ => forall₂_congr fun y hy => ?_
    rw [h.lt_iff hT' (hlt y hy) (hkept y hy)]
  enevs_lt x hx := Nat.lt_of_lt_of_le (hc.enevs_lt x hx) hnm
  enevs x hx hxm :=
    have hxn := hc.enevs_lt x hx
    h.extendsStack hT' (hc.enevs x hx (h.mem hxn hxm)) hxn hxm hlt hkept

/-- The invariant between two operations. -/
structure Good (syst : System st act) (s : UnfolderState st act) : Prop extends Safe syst s where
  stack : StackOk s.evts s.stak

namespace Good

variable (h : Good syst s)

include h

theorem wf : WF s.evts s.cntr := h.table.wf

theorem linked : Linked s.evts [] := h.wf.linked

theorem stak_mem {x : EventID} (hx : x ∈ s.stak) : x ∈ s.evts := h.stack.closed.mem x hx

theorem stak_lt {x : EventID} (hx : x ∈ s.stak) : x < s.cntr := h.wf.lt_cntr (h.stak_mem hx)

theorem evolves_refl : Evolves s s where
  stak := rfl
  opts := rfl
  cntr := Nat.le_refl _
  older := .refl _ _
  kept _ := h.stak_mem
  stateful _ _ hx := hx

theorem confOk {c : Configuration st} (hc : ConfOk syst s.evts s.cntr s.stak c) (hev : Evolves s s')
    (h' : Good syst s') : ConfOk syst s'.evts s'.cntr s'.stak c := by
  rw [hev.stak]
  exact hev.older.confOk h'.linked hc hev.cntr (fun _ => h.stak_lt) hev.kept

/-- A change of the prefix that keeps the stack and the invariant of the table. -/
theorem set_evts (hT' : TableOk syst T' s.cntr) (ho : Older s.cntr s.evts T')
    (hkept : ∀ x ∈ s.stak, x ∈ T') :
    Good syst { s with evts := T', seen := ⟨T', s.cntr, s.stak⟩ :: s.seen } where
  syst_eq := h.syst_eq
  table := hT'
  seen sn hsn := by
    rcases List.mem_cons.1 hsn with rfl | hsn
    · exact hT'
    · exact h.seen sn hsn
  stack := ho.stackOk hT'.wf.linked h.stack (fun _ => h.stak_lt) hkept

theorem onEvts_sameLinks {f : Events act → Except Err (Events act)}
    (hf : ∀ T', f s.evts = .ok T' → SameLinks s.evts T') :
    Op.Sat (onEvts f) s
      (fun _ s' => Good syst s' ∧ Grows s s' ∧ s'.cntr = s.cntr ∧ f s.evts = .ok s'.evts)
      (fun _ => Safe syst) := by
  refine sat_onEvts.2 ⟨fun T' hT' => ?_, fun _ _ => h.toSafe⟩
  have hs := hf T' hT'
  have ho := hs.older s.cntr
  have hkeeps : ∀ x ∈ s.evts, x ∈ T' := fun x hx => hs.mem_iff.2 hx
  exact ⟨h.set_evts (h.table.of_older ho (hs.wf h.wf)) ho fun x hx => hkeeps x (h.stak_mem hx),
    ⟨rfl, rfl, Nat.le_refl _, ho, hkeeps⟩, rfl, hT'⟩

/-- Deleting an event that is not on the stack. -/
theorem onEvts_delEvent {e : EventID} (he : e ∉ s.stak) (hm : s.opts.stateless = true) :
    Op.Sat (onEvts (delEvent e)) s (fun _ s' => Good syst s' ∧ Evolves s s')
      (fun _ => Safe syst) := by
  refine sat_onEvts.2 ⟨fun T' hT' => ?_, fun _ _ => h.toSafe⟩
  obtain ⟨T'', hok, hd⟩ := delEvent_ok h.linked e
  obtain rfl : T'' = T' := Except.ok.inj (hok.symm.trans hT')
  have hkept : ∀ x ∈ s.stak, x ∈ T'' :=
    hd.survive (· ∈ s.stak) h.stack.closed (by simpa using he)
  have ho := hd.older s.cntr
  have hwf : WF T'' s.cntr := hd.wf h.wf (hkept botEID h.stack.bot)
  exact ⟨h.set_evts (h.table.of_older ho hwf) ho hkept, rfl, rfl, Nat.le_refl _, ho, hkept,
    fun hf => by simp [hm] at hf⟩

end Good

end Good

end Poet
