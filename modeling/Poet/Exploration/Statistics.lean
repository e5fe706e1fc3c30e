import Poet.Exploration.Calls
import Poet.Locks.Explore

/-!
# The size of the prefix as the statistics have it (`API.hs:250-267`)

`inc_evs_prefix` is called for every event that is added, and `dec_evs_prefix` is called by nobody:
`del_event` and `prune` leave the statistics alone. So `nr_evs_prefix` is the number of events that
were ever added, `cntr`, and it is the size of the table exactly as long as no event was deleted
(`nrEvsPrefix_exact_iff`): always in stateful mode, and in stateless mode up to the first deletion.

`Tally` is the invariant of the operations that return. Inside `add_ev` the counters are ahead of the
table, and they stay ahead if the event cannot be entered, so nothing is said of a run that fails there.
-/

namespace Poet

variable {st act : Type}

/-! ## The ids of a table -/

namespace Events

variable {T T' : Events act} {x e : EventID}

/-- The number of events. -/
def size (T : Events act) : Nat := T.keys.length

theorem size_eq_iff {n : Nat} (h : ∀ x ∈ T, x < n) : T.size = n ↔ ∀ x < n, x ∈ T := by
  have hcard : T.keys.toFinset.card = T.size := List.toFinset_card_of_nodup T.keys_nodup
  have hsub : T.keys.toFinset ⊆ Finset.range n := fun x hx =>
    Finset.mem_range.2 (h x (List.mem_toFinset.1 hx))
  constructor
  · intro hn x hx
    have heq : T.keys.toFinset = Finset.range n :=
      Finset.eq_of_subset_of_card_le hsub (by rw [hcard, hn, Finset.card_range])
    exact List.mem_toFinset.1 (heq ▸ Finset.mem_range.2 hx)
  · intro hall
    have heq : T.keys.toFinset = Finset.range n := hsub.antisymm fun x hx =>
      List.mem_toFinset.2 (hall x (Finset.mem_range.1 hx))
    rw [← hcard, heq, Finset.card_range]

theorem mem_setEvent {ev : Event act} : x ∈ setEvent e ev T ↔ x = e ∨ x ∈ T := AList.mem_insert T

/-- A change of one event of the table. -/
theorem mem_update {fn : String} {g : Event act → Event act}
    (h : (do
      let ev ← getEvent fn e T
      pure (setEvent e (g ev) T)) = .ok T') (x : EventID) : x ∈ T' ↔ x ∈ T := by
  obtain ⟨ev, hev, h⟩ := bind_eq_ok.1 h
  obtain rfl := Except.ok.inj h
  rw [mem_setEvent]
  refine ⟨fun hx => hx.elim (fun heq => ?_) id, .inr⟩
  exact heq ▸ mem_of_lookup (lookup_of_getEvent hev)

theorem mem_addEvTable [Action act] {name : EventName} {acts : act} {h : History} {lh : EventsID}
    (hok : addEvTable e name acts h lh T = .ok T') (x : EventID) : x ∈ T' ↔ x = e ∨ x ∈ T := by
  obtain ⟨lhCnfls, -, hok⟩ := bind_eq_ok.1 hok
  obtain ⟨cnfls, -, hok⟩ := bind_eq_ok.1 hok
  obtain ⟨T₁, hT₁, hok⟩ := bind_eq_ok.1 hok
  have hsucc : x ∈ T₁ ↔ x = e ∨ x ∈ T := by
    refine foldlM_inv (I := fun U => x ∈ U ↔ x = e ∨ x ∈ T) (fun U e' _ U' hU hstep => ?_)
      mem_setEvent hT₁
    exact (mem_update hstep x).trans hU
  refine foldlM_inv (I := fun U => x ∈ U ↔ x = e ∨ x ∈ T) (fun U e' _ U' hU hstep => ?_) hsucc hok
  exact (mem_update hstep x).trans hU

theorem mem_delSucc (e e' : EventID) (x : EventID) : x ∈ delSucc e e' T ↔ x ∈ T := by
  unfold delSucc
  split
  · rfl
  · next ev hl =>
    rw [mem_setEvent]
    exact ⟨fun hx => hx.elim (fun heq => heq ▸ mem_of_lookup hl) id, .inr⟩

/-- A deletion enters nothing. -/
theorem mem_of_delEventAux (n : Nat) (h : delEventAux n e T = .ok T') (hx : x ∈ T') : x ∈ T := by
  induction n generalizing e T T' with
  | zero => cases h
  | succ n ih =>
    rw [delEventAux] at h
    split at h
    · obtain ⟨ev, -, h⟩ := bind_eq_ok.1 h
      obtain ⟨T₁, hT₁, h⟩ := bind_eq_ok.1 h
      obtain ⟨T₂, hT₂, h⟩ := bind_eq_ok.1 h
      obtain rfl := Except.ok.inj h
      have hx₂ : x ∈ T₂ := (AList.mem_erase.1 hx).2
      have hx₁ : x ∈ T₁ := foldlM_inv (I := fun U => x ∈ U → x ∈ T₁)
        (fun U e' _ U' hU hstep hxU => hU (ih hstep hxU)) id hT₂ hx₂
      have hx₀ := foldlM_inv (I := fun U => x ∈ U → x ∈ ev.pred.foldl (fun t e' => delSucc e e' t) T)
        (fun U e' _ U' hU hstep hxU => hU ((mem_update hstep x).1 hxU)) id hT₁ hx₁
      have hpred : ∀ (l : EventsID) (U : Events act),
          x ∈ l.foldl (fun t e' => delSucc e e' t) U → x ∈ U := by
        intro l
        induction l with
        | nil => exact fun U hU => hU
        | cons e' l ihl => exact fun U hU => (mem_delSucc e e' x).1 (ihl _ hU)
      exact hpred ev.pred T hx₀
    · obtain rfl := Except.ok.inj h
      exact hx

end Events

/-! ## The invariant -/

/-- As many events were counted as ids were given out, the ids of the table are among these, and in
stateful mode they are all of them. -/
structure Tally (stl : Bool) (s : UnfolderState st act) : Prop where
  mode : s.opts.stateless = stl
  count : s.stats.nrEvsPrefix = s.cntr
  lt_cntr : ∀ x ∈ s.evts, x < s.cntr
  all : stl = false → ∀ x < s.cntr, x ∈ s.evts

variable {stl : Bool} {s s' : UnfolderState st act}

theorem Tally.exact_iff (h : Tally stl s) :
    s.stats.nrEvsPrefix = s.evts.size ↔ ∀ x < s.cntr, x ∈ s.evts := by
  rw [h.count, eq_comm, Events.size_eq_iff h.lt_cntr]

/-- What the invariant reads is unchanged. -/
theorem Tally.congr (h : Tally stl s) (hopts : s'.opts = s.opts)
    (hcount : s'.stats.nrEvsPrefix = s.stats.nrEvsPrefix) (hcntr : s'.cntr = s.cntr)
    (hevts : ∀ x, x ∈ s'.evts ↔ x ∈ s.evts) : Tally stl s' where
  mode := hopts ▸ h.mode
  count := by rw [hcount, hcntr, h.count]
  lt_cntr x hx := hcntr ▸ h.lt_cntr x ((hevts x).1 hx)
  all hstl x hx := (hevts x).2 (h.all hstl x (hcntr ▸ hx))

theorem tally_iUnfState [Projection st] (stl cut : Bool) (wid : Int) (syst : System st act) :
    Tally stl (iUnfState stl cut wid syst) where
  mode := rfl
  count := rfl
  lt_cntr x hx := by
    rw [mem_botPrefix.1 hx]
    exact Nat.zero_lt_one
  all _ x hx := mem_botPrefix.2 (Nat.lt_one_iff.1 hx)

namespace Tally

theorem onEvts {f : Events act → Except Err (Events act)}
    (hf : ∀ T T', f T = .ok T' → ∀ x, x ∈ T' ↔ x ∈ T) :
    Op.Keeps (Tally stl) (onEvts f : UnfolderOp st act Unit) := by
  refine .get_bind fun s hs => ?_
  simp only [Op.sat_bind, Op.sat_monadLift, Op.sat_modify, record]
  exact ⟨fun T' hT' => hs.congr rfl rfl rfl (hf s.evts T' hT'), fun _ _ => trivial⟩

/-- In stateless mode events may go. -/
theorem onEvts_of_subset {f : Events act → Except Err (Events act)}
    (hf : ∀ T T', f T = .ok T' → ∀ x ∈ T', x ∈ T) :
    Op.Keeps (Tally true) (Poet.onEvts f : UnfolderOp st act Unit) := by
  refine .get_bind fun s hs => ?_
  simp only [Op.sat_bind, Op.sat_monadLift, Op.sat_modify, record]
  refine ⟨fun T' hT' => ⟨hs.mode, hs.count, fun x hx => ?_, by simp⟩, fun _ _ => trivial⟩
  exact hs.lt_cntr x (hf s.evts T' hT' x hx)

theorem onStats {f : UnfolderStats → UnfolderStats} (hf : ∀ t, (f t).nrEvsPrefix = t.nrEvsPrefix) :
    Op.Keeps (Tally stl) (onStats f : UnfolderOp st act Unit) :=
  .modify fun s hs => hs.congr rfl (hf s.stats) rfl fun _ => Iff.rfl

theorem addWarns (warns : List Int) :
    Op.Keeps (Tally stl) (addWarns warns : UnfolderOp st act Unit) := onStats fun _ => rfl

theorem onSome {α : Type} {f : α → UnfolderOp st act Unit} (hf : ∀ a, Op.Keeps (Tally stl) (f a)) :
    ∀ o : Option α, Op.Keeps (Tally stl) (onSome o f)
  | none => .pure ()
  | some a => hf a

theorem pop : Op.Keeps (Tally stl) (pop : UnfolderOp st act Unit) := by
  refine .get_bind fun s hs => ?_
  split
  · trivial
  · simp only [Op.sat_bind, Op.sat_modify, record]
    exact hs.congr rfl rfl rfl fun _ => Iff.rfl

/-- The counters are ahead of the table until the event is entered. -/
theorem addEv [Action act] (name : EventName) (acts : act) (h : History) (lh : EventsID) :
    Op.Keeps (Tally stl) (addEv name acts h lh : UnfolderOp st act EventsID) := by
  intro s hs
  simp only [Poet.addEv, incEvsPrefix, freshCounter, Poet.onEvts, incEvsPerName, Poet.onStats, record,
    Op.sat_bind, Op.sat_get, Op.sat_modify, Op.sat_monadLift, Op.sat_pure]
  refine ⟨fun T' hT' => ?_, fun _ _ => trivial⟩
  have hmem := Events.mem_addEvTable hT'
  refine ⟨hs.mode, congrArg (· + 1) hs.count, fun x hx => ?_, fun hstl x hx => ?_⟩
  · rcases (hmem x).1 hx with rfl | hx
    · exact Nat.lt_succ_self _
    · exact Nat.lt_succ_of_lt (hs.lt_cntr x hx)
  · rcases Nat.lt_succ_iff_lt_or_eq.1 hx with hx | rfl
    · exact (hmem x).2 (.inr (hs.all hstl x hx))
    · exact (hmem _).2 (.inl rfl)

theorem cutoff [LatticeM st] [Projection st] (g : st) (n : Nat) :
    Op.Keeps (Tally stl) (cutoff g n : UnfolderOp st act Bool) := by
  intro s hs
  refine (cutoff_spec g n).mono (fun _ s' hs' => ?_) fun _ _ _ => trivial
  obtain ⟨stas, rfl⟩ := hs'
  exact hs.congr rfl rfl rfl fun _ => Iff.rfl

theorem possibleAltes (evs : EventsID) :
    Op.Keeps (Tally stl) (possibleAltes evs : UnfolderOp st act Unit) := by
  have hadd : ∀ stack de x y, Op.Keeps (Tally stl) (addV stack de x y : UnfolderOp st act Unit) := by
    intro stack de x y
    refine .bind .get fun _ => .bind (.lift _) fun v => ?_
    split
    · exact .pure _
    · exact onEvts fun _ _ => Events.mem_update
  refine .bind .get fun s => .bind (.foldlM (fun cext x => ?_) evs []) fun _ => .pure _
  exact .bind .get fun _ => .bind (.lift _) fun _ => .bind (.lift _) fun ext => .bind (.lift _) fun de =>
    .bind (.mapM' (hadd s.stak de x) ext) fun _ => .pure _

theorem prune (e : EventID) (core : EventsID) :
    Op.Keeps (Tally true) (prune e core : UnfolderOp st act Unit) := by
  have hdel : ∀ x, Op.Keeps (Tally true) (Poet.onEvts (delEvent x) : UnfolderOp st act Unit) :=
    fun x => onEvts_of_subset fun _ _ h _ => Events.mem_of_delEventAux _ h
  refine .bind .get fun _ => .bind (.lift _) fun ev => ?_
  have hrest : Op.Keeps (Tally true) (ev.alte.mapM' fun v => v.mapM' fun x =>
      if x ∈ core then pure () else Poet.onEvts (delEvent x) : UnfolderOp st act _) := by
    refine .mapM' (fun v => .mapM' (fun x => ?_) v) ev.alte
    split
    · exact .pure _
    · exact hdel x
  split
  · exact .bind (onEvts fun _ _ => Events.mem_update) fun _ => .bind hrest fun _ => .pure _
  · exact .bind (hdel e) fun _ => .bind hrest fun _ => .pure _

theorem pruneBranch (stak d : EventsID) (e : EventID) :
    Op.Keeps (Tally stl) (pruneBranch stak d e : UnfolderOp st act Unit) := by
  refine .get_bind fun s hs => ?_
  split
  · next hmode =>
    obtain rfl : stl = true := hs.mode.symm.trans hmode
    have hkeeps : Op.Keeps (Tally true) (do
        let corePre ← core stak d s.evts
        Poet.prune e corePre : UnfolderOp st act Unit) := .bind (.lift _) fun corePre => prune e corePre
    exact hkeeps s hs
  · exact hs

theorem called {c : Configuration st} {ê : EventID} {d : EventsID} {alt : Alternative}
    (h : Tally stl s) : Tally stl (s.called c ê d alt) := h.congr rfl rfl rfl fun _ => Iff.rfl

theorem withStack {stak : EventsID} (h : Tally stl s) : Tally stl (s.withStack stak) :=
  h.congr rfl rfl rfl fun _ => Iff.rfl

theorem setDisa (e : EventID) (d : EventsID) :
    Op.Keeps (Tally stl) (Poet.onEvts (setDisa e d) : UnfolderOp st act Unit) :=
  onEvts fun _ _ => Events.mem_update

section Explore

variable [DecidableEq st] [DecidableEq act] [LatticeM st] [Projection st] [Lattice act] [Action act]
  [Domain st act]

theorem addEvent (dup : List (EventID × Event act)) (name : EventName) (acts : act) (h : History) :
    Op.Keeps (Tally stl) (addEvent dup name acts h : UnfolderOp st act EventsID) := by
  simp only [Poet.addEvent]
  split
  · split
    · exact .fail _
    · exact .pure _
  · refine .bind .get fun s => .bind (.lift _) fun prede => ?_
    split
    · refine .bind (.lift _) fun gstlc => ?_
      split
      · exact .fail _
      · refine .bind (cutoff _ _) fun isCutoff => ?_
        split
        · exact .bind (onStats fun _ => rfl) fun _ => .pure _
        · exact addEv _ _ _ _
    · exact addEv _ _ _ _

theorem ext (fuel : Nat) (e : EventID) (maxevs : EventsID) (g : st) (tid : TId) (pos : Pos)
    (acts : act) : Op.Keeps (Tally stl) (ext fuel e maxevs g tid pos acts) := by
  refine .bind (.lift _) fun sym => .bind .get fun u => .bind (.lift _) fun succe =>
    .bind (.lift _) fun h0 => ?_
  split
  · exact .fail _
  · split
    · exact .bind (.lift _) fun his => .bind (.mapM' (addEvent _ _ _) his) fun _ => addEvent _ _ _ _
    · exact .pure _

theorem extend (fuel : Nat) (e : EventID) (maxevs : EventsID) (g : st) (th : TId) :
    Op.Keeps (Tally stl) (extend fuel e maxevs g th : UnfolderOp st act EventsID) :=
  .bind .get fun _ => .bind (.lift _) fun r => .bind (onStats fun _ => rfl) fun _ =>
    .bind (.mapM' (fun x => ext fuel e maxevs x.1 th x.2.1 x.2.2) r.2) fun _ => .pure _

theorem execute (g : st) (e : EventID) :
    Op.Keeps (Tally stl) (execute g e : UnfolderOp st act st) := by
  refine .get_bind fun s hs => Op.sat_bind.2 (Op.sat_monadLift.2 ⟨fun ev hev => ?_, fun _ _ => trivial⟩)
  refine Op.sat_bind.2 (Op.sat_monadLift.2 ⟨fun r _ => ?_, fun _ _ => trivial⟩)
  simp only [Poet.onEvts, record, Op.sat_bind, Op.sat_get, Op.sat_monadLift, Op.sat_modify, Op.sat_pure]
  refine ⟨fun T' hT' => hs.congr rfl rfl rfl fun x => ?_, fun _ _ => trivial⟩
  obtain rfl := Except.ok.inj hT'
  rw [Events.mem_setEvent]
  exact ⟨fun hx => hx.elim (fun heq => heq ▸ Events.mem_of_lookup (lookup_of_getEvent hev)) id, .inr⟩

theorem unfold (fuel : Nat) (c : Configuration st) (e : EventID) :
    Op.Keeps (Tally stl) (unfold fuel c e : UnfolderOp st act (Configuration st)) :=
  .bind (execute _ _) fun _ => .bind .get fun _ => .bind (.lift _) fun _ => .bind (.lift _) fun _ =>
    .bind (.lift _) fun _ => .bind (.map (.lift _)) fun _ =>
      .bind (.map (.mapM' (extend fuel e _ _) _)) fun _ =>
        .bind .get fun _ => .bind (.lift _) fun _ => .bind (.lift _) fun _ => .pure _

theorem addToConf (fuel : Nat) (c : Configuration st) (d : EventsID) (e : EventID) :
    Op.Keeps (Tally stl) (addToConf fuel c d e : UnfolderOp st act (Configuration st)) :=
  .bind (setDisa e d) fun _ => .bind .get fun _ => unfold fuel _ e

theorem initialExt (fuel : Nat) :
    Op.Keeps (Tally stl) (initialExt fuel : UnfolderOp st act (Configuration st)) :=
  .bind .get fun _ => .bind (.map (.lift _)) fun _ =>
    .bind (.foldlM (fun _ _ => .bind (extend _ _ _ _ _) fun _ => .pure _) _ _) fun _ => .pure _

theorem explore (fuel : Nat) (c : Configuration st) (ê : EventID) (d : EventsID) (alt : Alternative) :
    Op.Keeps (Tally stl) (explore fuel c ê d alt : UnfolderOp st act Unit) := by
  induction fuel generalizing c ê d alt with
  | zero => exact .fail _
  | succ n ih =>
    intro s hs
    refine exploreStep_rule (fun _ => ?_) (fun _ _ _ => trivial) fun e _ _ => ?_
    · have hmax : Op.Keeps (Tally stl) (maximalConf c.cfevs : UnfolderOp st act Unit) :=
        .bind (possibleAltes _) fun _ => .bind (onStats fun _ => rfl) fun _ => onStats fun _ => rfl
      exact hmax _ hs.called
    · refine (addToConf n c d e _ hs.called).mono (fun nc s₁ h₁ => ?_) fun _ _ h => h
      refine (ih nc e d (alt.erase e) _ h₁.withStack).mono (fun _ s₂ h₂ => ?_) fun _ _ h => h
      refine (pop s₂ h₂).mono (fun _ s₃ h₃ => ⟨fun malt _ => ?_, fun _ _ => trivial⟩) fun _ _ h => h
      refine (onSome (fun v => ih _ _ _ _) malt s₃ h₃).mono (fun _ s₄ h₄ => ?_) fun _ _ h => h
      exact pruneBranch _ _ _ s₄ h₄

end Explore

end Tally

/-! ## The states of a run -/

namespace Invocation

/-- The state in which the call is made; `histories_lock` only reads the table. -/
def state : Invocation st act → Option (UnfolderState st act)
  | .initialExt _ s | .explore _ _ _ _ _ s | .unfold _ _ _ s | .extend _ _ _ _ _ s
  | .ext _ _ _ _ _ _ _ s | .prune _ _ s => some s
  | .historiesLock _ _ _ _ => none

end Invocation

/-- The invariant in the state of a call; only stateless runs prune. -/
def TallyAt (stl : Bool) : Invocation st act → Prop
  | .initialExt _ s | .explore _ _ _ _ _ s | .unfold _ _ _ s | .extend _ _ _ _ _ s
  | .ext _ _ _ _ _ _ _ s => Tally stl s
  | .prune _ _ s => stl = true ∧ Tally stl s
  | .historiesLock _ _ _ _ => True

theorem TallyAt.of_state {i : Invocation st act} (h : TallyAt stl i) (hs : i.state = some s) :
    Tally stl s := by
  cases i <;> cases hs
  case prune => exact h.2
  all_goals exact h

variable [DecidableEq st] [DecidableEq act] [LatticeM st] [Projection st] [Lattice act] [Action act]
  [Domain st act]

/-- The call returns, and leaves this state. -/
def Invocation.Returns : Invocation st act → UnfolderState st act → Prop
  | .initialExt n s, s' => ∃ c, Poet.initialExt n s = (.ok c, s')
  | .explore n c ê d alt s, s' => Poet.explore n c ê d alt s = (.ok (), s')
  | .unfold n c e s, s' => ∃ c', Poet.unfold n c e s = (.ok c', s')
  | .extend n e maxevs g th s, s' => ∃ es, Poet.extend n e maxevs g th s = (.ok es, s')
  | .ext n e maxevs g tid pos acts s, s' => ∃ es, Poet.ext n e maxevs g tid pos acts s = (.ok es, s')
  | .prune e core s, s' => Poet.prune e core s = (.ok (), s')
  | .historiesLock _ _ _ _, _ => False

/-- The run of `botExplore fuel` from `s₀` makes a call in `s`, or one of its calls returns with `s`. -/
def StateOfRun (fuel : Nat) (s₀ s : UnfolderState st act) : Prop :=
  ∃ i, Invoked fuel s₀ i ∧ (i.state = some s ∨ i.Returns s)

namespace TallyAt

variable {i j : Invocation st act}

theorem branchDone {n : Nat} {c : Configuration st} {ê : EventID} {d : EventsID} {alt : Alternative}
    {s₃ : UnfolderState st act} {e : EventID} (h : BranchDone n c ê d alt s e s₃) (hs : Tally stl s) :
    Tally stl s₃ := by
  obtain ⟨-, nc, s₁, s₂, hadd, hleft, hpop⟩ := h
  have hs₁ := (Tally.addToConf n c d e).of_eq_ok hadd hs.called
  have hs₂ := (Tally.explore n nc e d (alt.erase e)).of_eq_ok hleft hs₁.withStack
  exact Tally.pop.of_eq_ok hpop hs₂

theorem invokes (hij : Invokes i j) (hi : TallyAt stl i) : TallyAt stl j := by
  cases hij with
  | firstExtend htrs hdone =>
    refine Op.Keeps.of_eq_ok (I := Tally stl) ?_ hdone hi
    exact .foldlM (fun en tr => .bind (Tally.extend _ _ _ _ tr) fun es => .pure (es ++ en)) _ []
  | unfold he hdisa => exact (Tally.setDisa _ _).of_eq_ok hdisa (Tally.called hi)
  | left he hadd => exact ((Tally.addToConf _ _ _ _).of_eq_ok hadd (Tally.called hi)).withStack
  | right hleft halt => exact branchDone hleft hi
  | prune hleft halt hright hmode hcore =>
    have hs₄ := (Tally.onSome (fun _ => Tally.explore _ _ _ _ _) _).of_eq_ok hright (branchDone hleft hi)
    exact ⟨hs₄.mode.symm.trans hmode, hs₄⟩
  | extend hexec hpred hsen hitrs hentrs hsplit hdone =>
    have hs₁ := (Tally.execute _ _).of_eq_ok hexec hi
    exact (Op.Keeps.mapM' (Tally.extend _ _ _ _) _).of_eq_ok hdone hs₁
  | ext hrun hwarns hsplit hdone =>
    have hs₁ := (Tally.addWarns _).of_eq_ok hwarns hi
    exact (Op.Keeps.mapM' (fun r => Tally.ext _ _ _ _ _ _ _) _).of_eq_ok hdone hs₁
  | historiesLock => trivial

theorem invoked {fuel : Nat} {cut : Bool} {wid : Int} {syst : System st act}
    (h : Invoked fuel (iUnfState stl cut wid syst) i) : TallyAt stl i := by
  induction h with
  | initialExt => exact tally_iUnfState stl cut wid syst
  | explore hinit => exact (Tally.initialExt fuel).of_eq_ok hinit (tally_iUnfState stl cut wid syst)
  | step _ hij ih => exact invokes hij ih

theorem of_returns (h : TallyAt stl i) (hr : i.Returns s) : Tally stl s := by
  cases i with
  | initialExt n s₁ => exact (Tally.initialExt n).of_eq_ok hr.choose_spec h
  | explore n c ê d alt s₁ => exact (Tally.explore n c ê d alt).of_eq_ok hr h
  | unfold n c e s₁ => exact (Tally.unfold n c e).of_eq_ok hr.choose_spec h
  | extend n e maxevs g th s₁ => exact (Tally.extend n e maxevs g th).of_eq_ok hr.choose_spec h
  | ext n e maxevs g tid pos acts s₁ =>
    exact (Tally.ext n e maxevs g tid pos acts).of_eq_ok hr.choose_spec h
  | prune e core s₁ =>
    obtain ⟨rfl, hs⟩ := h
    exact (Tally.prune e core).of_eq_ok hr hs
  | historiesLock => exact hr.elim

end TallyAt

/-- The state a run ends with is the one its first call of `explore` returns with. -/
theorem stateOfRun_of_botExplore {fuel : Nat} {s₀ : UnfolderState st act}
    (h : botExplore fuel s₀ = (.ok (), s)) : StateOfRun fuel s₀ s := by
  obtain ⟨c, s₁, hinit, hrun⟩ := Op.run_bind_eq_ok.1 h
  exact ⟨_, .explore hinit, .inr hrun⟩

/-- `nr_evs_prefix` is the number of ids given out. It is the size of the table exactly if all of these
are still there, as they are throughout in stateful mode. -/
theorem nrEvsPrefix_exact_iff (fuel : Nat) (stl cut : Bool) (wid : Int) (syst : System st act)
    (h : StateOfRun fuel (iUnfState stl cut wid syst) s) :
    s.stats.nrEvsPrefix = s.cntr ∧
      (s.stats.nrEvsPrefix = s.evts.size ↔ ∀ x < s.cntr, x ∈ s.evts) ∧
      (stl = false → s.stats.nrEvsPrefix = s.evts.size) := by
  obtain ⟨i, hi, hs⟩ := h
  have ht : Tally stl s := hs.elim (TallyAt.invoked hi).of_state (TallyAt.invoked hi).of_returns
  exact ⟨ht.count, ht.exact_iff, fun hstl => ht.exact_iff.2 (ht.all hstl)⟩

/-! ### Two critical sections -/

theorem stateOfRun_twoSections (stl : Bool) :
    StateOfRun 20 (iUnfState stl false 10 twoSections.system) (twoSections.unfold 20 stl).2 := by
  have hok : (twoSections.unfold 20 stl).1 = .ok () := by
    cases stl <;> decide +kernel
  exact stateOfRun_of_botExplore (Prod.ext hok rfl)

/-- Nine events, and none of them is deleted. -/
theorem nrEvsPrefix_exact_twoSections :
    (twoSections.unfold 20 false).2.stats.nrEvsPrefix = (twoSections.unfold 20 false).2.evts.size :=
  (nrEvsPrefix_exact_iff 20 false false 10 _ (stateOfRun_twoSections false)).2.2 rfl

/-- In stateless mode only bottom is left at the end, and the nine events are still counted. -/
theorem nrEvsPrefix_keeps_deleted :
    StateOfRun 20 (iUnfState true false 10 twoSections.system) (twoSections.unfold 20 true).2 ∧
      (twoSections.unfold 20 true).2.stats.nrEvsPrefix = 9 ∧
      (twoSections.unfold 20 true).2.evts.size = 1 :=
  ⟨stateOfRun_twoSections true, by decide +kernel, by decide +kernel⟩

end Poet
