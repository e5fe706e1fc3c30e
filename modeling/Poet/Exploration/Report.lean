import Mathlib.Algebra.Order.Ring.Nat
import Poet.Exploration.Operations
import Poet.Exploration.Statistics

/-!
# The numbers that are printed (`Main.hs:84-113`)

At the end of a run `explore` of `Main.hs` prints the counters of the unfolder, and for intervals the
average size of the prefix at the maximal configurations, a quotient of two counters.
`MaximalCounted` ties the counters to each other and to the calls of `explore`; it is kept by every
operation that returns. What an invariant of the counters has to be checked for is collected in
`CounterInv`: the tables do not matter, and only `add_ev`, `inc_cutoffs` and `add_warns` write
counters below `explore`.
-/

namespace Poet

variable {st act : Type}

/-! ## What is printed -/

/-- The lines of the report for intervals. -/
structure Report where
  events : Nat
  maxConfs : Nat
  cutoffs : Nat
  average : Nat
  warnings : Nat
deriving DecidableEq, Repr

/-- `div` stops with an error if the divisor is zero. -/
def divOrError (n d : Nat) : Option Nat := if d = 0 then none else some (n / d)

/-- The report on the state that `unfolder` returns. -/
def UnfolderState.report (s : UnfolderState st act) : Option Report := do
  let average ← divOrError s.stats.sumSizeMaxConf s.stats.nrMaxConf
  return ⟨s.cntr, s.stats.nrMaxConf, s.stats.nrCutoffs, average, s.stats.nrWarns.length⟩

/-! ## Invariants of the counters -/

/-- Counters, counter of ids and calls are the same. -/
structure SameCounters (s s' : UnfolderState st act) : Prop where
  stats : s'.stats = s.stats
  cntr : s'.cntr = s.cntr
  calls : s'.calls = s.calls

theorem SameCounters.trans {s s' s'' : UnfolderState st act} (h : SameCounters s s')
    (h' : SameCounters s' s'') : SameCounters s s'' :=
  ⟨h'.stats.trans h.stats, h'.cntr.trans h.cntr, h'.calls.trans h.calls⟩

/-- The invariant reads nothing else. -/
def OfCounters (I : UnfolderState st act → Prop) : Prop := ∀ s s', I s → SameCounters s s' → I s'

/-- What an invariant of the counters has to be kept by, below `explore`. -/
structure CounterInv [Action act] (I : UnfolderState st act → Prop) : Prop where
  ofCounters : OfCounters I
  addEv : ∀ name (acts : act) h lh, Op.Keeps I (addEv name acts h lh : UnfolderOp st act EventsID)
  incCutoffs : Op.Keeps I (incCutoffs : UnfolderOp st act Unit)
  addWarns : ∀ warns, Op.Keeps I (addWarns warns : UnfolderOp st act Unit)

namespace OfCounters

variable {I : UnfolderState st act → Prop} (h : OfCounters I)

include h

theorem onEvts (f : Events act → Except Err (Events act)) :
    Op.Keeps I (onEvts f : UnfolderOp st act Unit) := fun _ hs =>
  sat_onEvts.2 ⟨fun _ _ => h _ _ hs ⟨rfl, rfl, rfl⟩, fun _ _ => trivial⟩

theorem pop : Op.Keeps I (pop : UnfolderOp st act Unit) := by
  refine .get_bind fun s hs => ?_
  split
  · trivial
  · simp only [Op.sat_bind, Op.sat_modify, record]
    exact h _ _ hs ⟨rfl, rfl, rfl⟩

theorem cutoff [LatticeM st] [Projection st] (g : st) (n : Nat) :
    Op.Keeps I (cutoff g n : UnfolderOp st act Bool) := by
  intro s hs
  refine (cutoff_spec g n).mono (fun _ s' hs' => ?_) fun _ _ _ => trivial
  obtain ⟨stas, rfl⟩ := hs'
  exact h _ _ hs ⟨rfl, rfl, rfl⟩

end OfCounters

namespace CounterInv

variable [Action act] {I : UnfolderState st act → Prop} (h : CounterInv I)

include h

section Extend

variable [DecidableEq st] [DecidableEq act] [LatticeM st] [Projection st] [Lattice act] [Domain st act]

theorem extend (fuel : Nat) (e : EventID) (maxevs : EventsID) (g : st) (th : TId) :
    Op.Keeps I (extend fuel e maxevs g th : UnfolderOp st act EventsID) :=
  (Op.keeps_closed I).extend h.ofCounters.cutoff h.incCutoffs h.addEv h.addWarns fuel e maxevs g th

theorem addToConf (fuel : Nat) (c : Configuration st) (d : EventsID) (e : EventID) :
    Op.Keeps I (addToConf fuel c d e : UnfolderOp st act (Configuration st)) := by
  have hexec : ∀ g, Op.Keeps I (execute g e : UnfolderOp st act st) := fun g =>
    .bind .get fun _ => .bind (.lift _) fun _ => .bind (.lift _) fun _ =>
      .bind (h.ofCounters.onEvts _) fun _ => .pure _
  have hunf : ∀ c', Op.Keeps I (unfold fuel c' e : UnfolderOp st act (Configuration st)) := fun c' =>
    .bind (hexec _) fun _ => .bind .get fun _ => .bind (.lift _) fun _ => .bind (.lift _) fun _ =>
      .bind (.lift _) fun _ => .bind (.map (.lift _)) fun _ =>
        .bind (.map (.mapM' (h.extend fuel e _ _) _)) fun _ =>
          .bind .get fun _ => .bind (.lift _) fun _ => .bind (.lift _) fun _ => .pure _
  exact .bind (h.ofCounters.onEvts _) fun _ => .bind .get fun _ => hunf _

theorem initialExt (fuel : Nat) :
    Op.Keeps I (initialExt fuel : UnfolderOp st act (Configuration st)) :=
  .bind .get fun _ => .bind (.map (.lift _)) fun _ =>
    .bind (.foldlM (fun _ _ => .bind (h.extend _ _ _ _ _) fun _ => .pure _) _ _) fun _ => .pure _

/-- The rule for `explore`: `J` is kept up to a maximal configuration, and `I` from there on. -/
theorem explore {J : UnfolderState st act → Prop} (hJ : CounterInv J) (hIJ : ∀ s, I s → J s)
    (hcalled : ∀ {s c ê d alt}, c.enevs ≠ [] → J s → J (s.called c ê d alt))
    (hmax : ∀ {s : UnfolderState st act} {c : Configuration st} {ê d alt}, c.enevs = [] → J s →
      Op.Sat (maximalConf c.cfevs) (s.called c ê d alt) (fun _ => I) fun _ _ => True)
    (fuel : Nat) (c : Configuration st) (ê : EventID) (d : EventsID) (alt : Alternative)
    {s : UnfolderState st act} (hs : J s) :
    Op.Sat (explore fuel c ê d alt) s (fun _ => I) fun _ _ => True := by
  induction fuel generalizing c ê d alt s with
  | zero => trivial
  | succ n ih =>
    refine exploreStep_rule (fun hen => hmax hen hs) (fun _ _ _ => trivial) fun e hen _ => ?_
    refine (hJ.addToConf n c d e _ (hcalled hen hs)).mono (fun nc s₁ h₁ => ?_) fun _ _ h => h
    have hpush : J (s₁.withStack (e :: s₁.stak)) := hJ.ofCounters _ _ h₁ ⟨rfl, rfl, rfl⟩
    refine (ih nc e d (alt.erase e) hpush).mono (fun _ s₂ h₂ => ?_) fun _ _ h => h
    refine (h.ofCounters.pop s₂ h₂).mono (fun _ s₃ h₃ => ⟨fun malt _ => ?_, fun _ _ => trivial⟩) fun _ _ h => h
    have hright : Op.Sat (onSome malt fun v => Poet.explore n c ê (e :: d) (v.diff s.stak)) s₃
        (fun _ => I) fun _ _ => True := by
      cases malt with
      | none => exact h₃
      | some v => exact ih c ê (e :: d) (v.diff s.stak) (hIJ s₃ h₃)
    have hprune : Op.Keeps I (pruneBranch s.stak d e : UnfolderOp st act Unit) :=
      (Op.keeps_closed I).pruneBranch (fun _ => h.ofCounters.onEvts _) (fun _ => h.ofCounters.onEvts _) _ _ _
    exact hright.mono (fun _ s₄ h₄ => hprune s₄ h₄) fun _ _ h => h

end Extend

end CounterInv

/-! ## The counters of a run -/

/-- The number of events added under each name, summed up. -/
def UnfolderStats.namesSum (t : UnfolderStats) : Nat := (t.nrEvsPerName.map (·.2)).sum

/-- The calls of `explore` with a maximal configuration. -/
def UnfolderState.maximalCalls (s : UnfolderState st act) : List (Call st act) :=
  s.calls.filter fun k => k.conf.enevs.isEmpty

/-- What the counters say about each other. -/
structure MaximalCounted (s : UnfolderState st act) : Prop where
  prefixSize : s.stats.nrEvsPrefix = s.cntr
  pos : 0 < s.cntr
  maximal : s.stats.nrMaxConf = s.maximalCalls.length
  sum_ge : s.stats.nrMaxConf ≤ s.stats.sumSizeMaxConf
  sum_le : s.stats.sumSizeMaxConf ≤ s.stats.nrMaxConf * s.cntr
  names : s.stats.namesSum = s.cntr
  names_nodup : (s.stats.nrEvsPerName.map (·.1)).Nodup

theorem maximalCounted_iUnfState [Projection st] (stl cut : Bool) (wid : Int) (syst : System st act) :
    MaximalCounted (iUnfState stl cut wid syst) := by
  constructor <;>
    simp [iUnfState, defaultUnfStats, UnfolderState.maximalCalls, UnfolderStats.namesSum]

/-- The entries of the other names. -/
theorem sum_filter_ne {l : List (EventName × Nat)} {name : EventName} {n : Nat}
    (hnd : (l.map (·.1)).Nodup) (h : l.lookup name = some n) :
    n + ((l.filter (·.1 ≠ name)).map (·.2)).sum = (l.map (·.2)).sum := by
  induction l with
  | nil => simp at h
  | cons p l ih =>
    obtain ⟨k, m⟩ := p
    obtain ⟨hk, hnd⟩ := List.nodup_cons.1 hnd
    by_cases hkn : name = k
    · subst hkn
      obtain rfl : m = n := by simpa using h
      have hall : l.filter (·.1 ≠ name) = l := List.filter_eq_self.2 fun q hq => by
        have hne : q.1 ≠ name := fun heq => hk (List.mem_map.2 ⟨q, hq, heq⟩)
        simpa using hne
      rw [List.filter_cons_of_neg (by simp), hall, List.map_cons, List.sum_cons]
    · have h' : l.lookup name = some n := by
        rwa [List.lookup_cons, beq_false_of_ne hkn] at h
      have hih := ih hnd h'
      simp only [List.filter_cons, ne_eq, Ne.symm hkn, not_false_eq_true, decide_true, if_true,
        List.map_cons, List.sum_cons]
      simp only [ne_eq] at hih
      omega

theorem maximalCounted_addEv [Action act] (name : EventName) (acts : act) (h : History)
    (lh : EventsID) :
    Op.Keeps MaximalCounted (addEv name acts h lh : UnfolderOp st act EventsID) := by
  intro s hs
  simp only [addEv, incEvsPrefix, freshCounter, incEvsPerName, onStats, Op.sat_bind, Op.sat_get,
    Op.sat_modify, Op.sat_pure, sat_onEvts]
  refine ⟨fun T' _ => ⟨congrArg (· + 1) hs.prefixSize, Nat.succ_pos _, hs.maximal, hs.sum_ge, ?_, ?_, ?_⟩,
    fun _ _ => trivial⟩
  · exact hs.sum_le.trans (Nat.mul_le_mul_left _ (Nat.le_succ _))
  · have hsum := hs.names
    simp only [UnfolderStats.namesSum] at hsum ⊢
    split
    · simp [hsum, Nat.add_comm]
    · next n hl =>
      have := sum_filter_ne hs.names_nodup hl
      simp only [List.map_cons, List.sum_cons]
      omega
  · split
    · next hl =>
      refine List.nodup_cons.2 ⟨fun hmem => ?_, hs.names_nodup⟩
      obtain ⟨p, hp, heq⟩ := List.mem_map.1 hmem
      have := List.lookup_eq_none_iff.1 hl p hp
      simp [heq] at this
    · refine List.nodup_cons.2 ⟨?_, hs.names_nodup.sublist (List.filter_sublist.map _)⟩
      simp

theorem maximalCounted_counterInv [Action act] :
    CounterInv (MaximalCounted : UnfolderState st act → Prop) where
  ofCounters s s' hs hsame := by
    have hcalls : s'.maximalCalls = s.maximalCalls := congrArg (List.filter _) hsame.calls
    constructor <;> simp only [hsame.stats, hsame.cntr, hcalls]
    exacts [hs.prefixSize, hs.pos, hs.maximal, hs.sum_ge, hs.sum_le, hs.names, hs.names_nodup]
  addEv := maximalCounted_addEv
  incCutoffs := .modify fun _ hs =>
    ⟨hs.prefixSize, hs.pos, hs.maximal, hs.sum_ge, hs.sum_le, hs.names, hs.names_nodup⟩
  addWarns _ := .modify fun _ hs =>
    ⟨hs.prefixSize, hs.pos, hs.maximal, hs.sum_ge, hs.sum_le, hs.names, hs.names_nodup⟩

/-- A maximal configuration is counted with the size of the prefix. -/
theorem maximalCounted_maximalConf {c : Configuration st} {ê : EventID} {d : EventsID}
    {alt : Alternative} {s : UnfolderState st act} (hen : c.enevs = []) (hs : MaximalCounted s) :
    Op.Sat (maximalConf c.cfevs) (s.called c ê d alt) (fun _ => MaximalCounted) fun _ _ => True := by
  -- the alternatives leave the counters alone
  have hkeeps : Op.Keeps (SameCounters (s.called c ê d alt))
      (possibleAltes c.cfevs : UnfolderOp st act Unit) :=
    (Op.keeps_closed _).possibleAltes
      (fun _ _ => OfCounters.onEvts (fun _ _ => SameCounters.trans) _) c.cfevs
  simp only [maximalConf, incSumSizeMaxConf, incMaxConf, onStats, Op.sat_bind, Op.sat_modify]
  refine (hkeeps _ ⟨rfl, rfl, rfl⟩).mono (fun _ s₁ h₁ => ?_) fun _ _ h => h
  have hstats : s₁.stats = s.stats := h₁.stats
  have hcntr : s₁.cntr = s.cntr := h₁.cntr
  have hcalls : s₁.maximalCalls.length = s.maximalCalls.length + 1 := by
    simp [UnfolderState.maximalCalls, h₁.calls, UnfolderState.called, hen]
  have hsize := hs.prefixSize
  have hpos := hs.pos
  have hge := hs.sum_ge
  have hle := hs.sum_le
  constructor
  · simp only [hstats, hcntr, hsize]
  · exact hcntr ▸ hpos
  · exact (congrArg (· + 1) (hstats ▸ hs.maximal)).trans hcalls.symm
  · simp only [hstats]
    omega
  · simp only [hstats, hcntr, Nat.succ_mul, hsize]
    omega
  · simp only [hcntr]
    exact hstats ▸ hs.names
  · exact hstats ▸ hs.names_nodup

theorem nrMaxConf_counterInv [Action act] (p : Nat → Prop) :
    CounterInv fun s : UnfolderState st act => p s.stats.nrMaxConf where
  ofCounters _ _ hs hsame := (congrArg (p ·.nrMaxConf) hsame.stats).mpr hs
  addEv name acts h lh s hs := by
    simp only [addEv, incEvsPrefix, freshCounter, incEvsPerName, onStats, Op.sat_bind, Op.sat_get,
      Op.sat_modify, Op.sat_pure, sat_onEvts]
    exact ⟨fun _ _ => hs, fun _ _ => trivial⟩
  incCutoffs := .modify fun _ hs => hs
  addWarns _ := .modify fun _ hs => hs

section Run

variable [DecidableEq st] [DecidableEq act] [LatticeM st] [Projection st] [Lattice act] [Action act]
  [Domain st act]

theorem maximalCounted_explore (fuel : Nat) (c : Configuration st) (ê : EventID) (d : EventsID)
    (alt : Alternative) :
    Op.Keeps MaximalCounted (explore fuel c ê d alt : UnfolderOp st act Unit) := by
  refine fun _ => maximalCounted_counterInv.explore maximalCounted_counterInv (fun _ h => h)
    (fun {s c ê d alt} hen hs => ?_) (fun hen hs => maximalCounted_maximalConf hen hs) fuel c ê d alt
  have hcalls : (s.called c ê d alt).maximalCalls = s.maximalCalls := by
    simp [UnfolderState.maximalCalls, UnfolderState.called, hen]
  exact ⟨hs.prefixSize, hs.pos, hcalls ▸ hs.maximal, hs.sum_ge, hs.sum_le, hs.names, hs.names_nodup⟩

/-- A call that returns has counted a maximal configuration. -/
theorem nrMaxConf_lt_explore (fuel : Nat) (c : Configuration st) (ê : EventID) (d : EventsID)
    (alt : Alternative) (s : UnfolderState st act) :
    Op.Sat (explore fuel c ê d alt) s (fun _ s' => s.stats.nrMaxConf < s'.stats.nrMaxConf)
      fun _ _ => True := by
  refine (nrMaxConf_counterInv (s.stats.nrMaxConf < ·)).explore
    (nrMaxConf_counterInv (s.stats.nrMaxConf ≤ ·)) (fun _ => Nat.le_of_lt) (fun _ h => h)
    (fun {_ c _ _ _} _ h => ?_) fuel c ê d alt (Nat.le_refl _)
  simp only [maximalConf, incSumSizeMaxConf, incMaxConf, onStats, Op.sat_bind, Op.sat_modify]
  refine (Op.sat_true.always (possibleAltes_quiet c.cfevs)).mono (fun _ s₁ h₁ => ?_) fun _ _ _ => trivial
  exact Nat.lt_succ_of_le (h₁.2.nrMaxConf ▸ h)

/-- **The report of a run that ends is well defined and consistent**, for every domain, in both modes,
with or without cutoffs. The number of maximal configurations is the number of calls of `explore` that
found nothing enabled, and it is not zero, so that the average is no division by zero; the average is at
least 1 and at most the number of events, and the events counted by name are all events. -/
theorem unfolder_report (fuel : Nat) (stl cut : Bool) (wid : Int) (syst : System st act)
    (h : (unfolder fuel stl cut wid syst).1 = .ok ()) :
    ∃ r, (unfolder fuel stl cut wid syst).2.report = some r ∧
      r.maxConfs = (unfolder fuel stl cut wid syst).2.maximalCalls.length ∧ 0 < r.maxConfs ∧
      1 ≤ r.average ∧ r.average ≤ r.events ∧
      (unfolder fuel stl cut wid syst).2.stats.namesSum = r.events := by
  have hrun : unfolder fuel stl cut wid syst = (.ok (), (unfolder fuel stl cut wid syst).2) :=
    Prod.ext h rfl
  obtain ⟨c, s₁, hinit, hexp⟩ := Op.run_bind_eq_ok.1 hrun
  have h₁ : MaximalCounted s₁ := (maximalCounted_counterInv.initialExt fuel).of_eq_ok hinit
    (maximalCounted_iUnfState stl cut wid syst)
  have hc := (maximalCounted_explore fuel c botEID [] []).of_eq_ok hexp h₁
  have hlt := (nrMaxConf_lt_explore fuel c botEID [] [] s₁).of_eq_ok hexp
  generalize (unfolder fuel stl cut wid syst).2 = s at hc hlt ⊢
  have hpos : 0 < s.stats.nrMaxConf := Nat.zero_lt_of_lt hlt
  refine ⟨⟨s.cntr, s.stats.nrMaxConf, s.stats.nrCutoffs, s.stats.sumSizeMaxConf / s.stats.nrMaxConf,
    s.stats.nrWarns.length⟩, ?_, hc.maximal, hpos, ?_, ?_, hc.names⟩
  · simp only [UnfolderState.report, divOrError, if_neg hpos.ne']
    rfl
  · exact (Nat.one_le_div_iff hpos).2 hc.sum_ge
  · exact Nat.div_le_of_le_mul hc.sum_le

end Run

/-! ### Two critical sections -/

theorem unfolder_report_twoSections :
    ∃ r, (unfolder 20 false false 10 twoSections.system).2.report = some r ∧
      r.maxConfs = (unfolder 20 false false 10 twoSections.system).2.maximalCalls.length ∧
      0 < r.maxConfs ∧ 1 ≤ r.average ∧ r.average ≤ r.events ∧
      (unfolder 20 false false 10 twoSections.system).2.stats.namesSum = r.events := by
  have hok : (unfolder 20 false false 10 twoSections.system).1 = .ok () := by decide +kernel
  exact unfolder_report 20 false false 10 twoSections.system hok

end Poet
