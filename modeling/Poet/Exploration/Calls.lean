import Poet.Exploration.Explore
import Poet.Lib.Simulation

/-!
# The calls that a run makes

`Invoked fuel s₀ i`: the run of `botExplore fuel` from `s₀` makes the call `i`, whether or not the run
returns in the end. A call is reached from another one when what the caller does before it has
returned (`Invokes`), so an invariant of all calls is one lemma for each constructor.
-/

namespace Poet

variable {st act : Type}

/-- A call, with its arguments and the state it is made in. -/
inductive Invocation (st act : Type) where
  | initialExt (fuel : Nat) (s : UnfolderState st act)
  | explore (fuel : Nat) (c : Configuration st) (ê : EventID) (d : EventsID) (alt : Alternative)
      (s : UnfolderState st act)
  | unfold (fuel : Nat) (c : Configuration st) (e : EventID) (s : UnfolderState st act)
  | extend (fuel : Nat) (e : EventID) (maxevs : EventsID) (g : st) (th : TId)
      (s : UnfolderState st act)
  | ext (fuel : Nat) (e : EventID) (maxevs : EventsID) (g : st) (tid : TId) (pos : Pos) (acts : act)
      (s : UnfolderState st act)
  | historiesLock (info : EventInfo act) (e : EventID) (h0 : History) (evts : Events act)
  | prune (e : EventID) (core : EventsID) (s : UnfolderState st act)

variable [DecidableEq st] [DecidableEq act] [LatticeM st] [Projection st] [Lattice act] [Action act]
  [Domain st act]

/-- The call `explore (n + 1) c ê d alt` in `s` chooses `e`. -/
structure Chooses (c : Configuration st) (ê : EventID) (alt : Alternative)
    (s : UnfolderState st act) (e : EventID) : Prop where
  enevs : c.enevs ≠ []
  chosen : chooseEvent ê c.enevs alt s.stak = .ok e

/-- The call `explore (n + 1) c ê d alt` in `s` has explored the branch with `e`; `s₃` is the state
after `e` was popped. -/
def BranchDone (n : Nat) (c : Configuration st) (ê : EventID) (d : EventsID) (alt : Alternative)
    (s : UnfolderState st act) (e : EventID) (s₃ : UnfolderState st act) : Prop :=
  Chooses c ê alt s e ∧ ∃ nc s₁ s₂, addToConf n c d e (s.called c ê d alt) = (.ok nc, s₁) ∧
    explore n nc e d (alt.erase e) (s₁.withStack (e :: s₁.stak)) = (.ok (), s₂) ∧
    pop s₂ = (.ok (), s₃)

/-- The first call makes the second one, after what comes before it has returned. -/
inductive Invokes : Invocation st act → Invocation st act → Prop where
  | firstExtend {fuel : Nat} {s s₁ : UnfolderState st act} {done rest : List TId} {tr : TId}
      {en : EventsID}
      (htrs : (·.map (·.1)) <$> liftDom (Domain.enabled s.syst s.syst.gbst) = .ok (done ++ tr :: rest))
      (hdone : (done.foldlM (fun en tr => do
        let es ← extend fuel botEID [botEID] s.syst.gbst tr
        pure (es ++ en)) []) s = (.ok en, s₁)) :
      Invokes (.initialExt fuel s) (.extend fuel botEID [botEID] s.syst.gbst tr s₁)
  | unfold {n : Nat} {c : Configuration st} {ê : EventID} {d : EventsID} {alt : Alternative}
      {s s₁ : UnfolderState st act} {e : EventID} (he : Chooses c ê alt s e)
      (hdisa : onEvts (setDisa e d) (s.called c ê d alt) = (.ok (), s₁)) :
      Invokes (.explore (n + 1) c ê d alt s)
        (.unfold n (if s₁.opts.stateless then pruneConfig c s₁.evts else c) e s₁)
  | left {n : Nat} {c nc : Configuration st} {ê : EventID} {d : EventsID} {alt : Alternative}
      {s s₁ : UnfolderState st act} {e : EventID} (he : Chooses c ê alt s e)
      (hadd : addToConf n c d e (s.called c ê d alt) = (.ok nc, s₁)) :
      Invokes (.explore (n + 1) c ê d alt s)
        (.explore n nc e d (alt.erase e) (s₁.withStack (e :: s₁.stak)))
  | right {n : Nat} {c : Configuration st} {ê : EventID} {d : EventsID} {alt v : Alternative}
      {s s₃ : UnfolderState st act} {e : EventID} (hleft : BranchDone n c ê d alt s e s₃)
      (halt : alt2 s₃.stak s₃.evts (e :: d) (e :: d) = .ok (some v)) :
      Invokes (.explore (n + 1) c ê d alt s) (.explore n c ê (e :: d) (v.diff s.stak) s₃)
  | prune {n : Nat} {c : Configuration st} {ê : EventID} {d : EventsID} {alt : Alternative}
      {s s₃ s₄ : UnfolderState st act} {e : EventID} {malt : Option Alternative} {corePre : EventsID}
      (hleft : BranchDone n c ê d alt s e s₃)
      (halt : alt2 s₃.stak s₃.evts (e :: d) (e :: d) = .ok malt)
      (hright : onSome malt (fun v => explore n c ê (e :: d) (v.diff s.stak)) s₃ = (.ok (), s₄))
      (hmode : s₄.opts.stateless = true) (hcore : core s.stak d s₄.evts = .ok corePre) :
      Invokes (.explore (n + 1) c ê d alt s) (.prune e corePre s₄)
  | extend {n : Nat} {c : Configuration st} {e : EventID} {s s₁ s₂ : UnfolderState st act} {nstc : st}
      {iprede senevs : EventsID} {itrs entrs done rest : List TId} {th : TId} {bs : List EventsID}
      (hexec : execute c.state e s = (.ok nstc, s₁))
      (hpred : getPred e s₁.evts = .ok iprede)
      (hsen : filterM (isIndependent e · s₁.evts) (c.enevs.erase e) = .ok senevs)
      (hitrs : senevs.mapM' (getTid · s₁.evts) = .ok itrs)
      (hentrs : (·.map (·.1)) <$> liftDom (Domain.enabled s₁.syst nstc) = .ok entrs)
      (hsplit : entrs.diff itrs = done ++ th :: rest)
      (hdone : done.mapM' (Poet.extend n e (e :: c.maevs.diff iprede) nstc) s₁ = (.ok bs, s₂)) :
      Invokes (.unfold n c e s) (.extend n e (e :: c.maevs.diff iprede) nstc th s₂)
  | ext {n : Nat} {e : EventID} {maxevs : EventsID} {g nst : st} {th : TId} {pos : Pos} {acts : act}
      {s s₁ s₂ : UnfolderState st act} {warns : List Int}
      {newEvents done rest : ResultList st act} {bs : List EventsID}
      (hrun : liftDom (Domain.run false s.opts.widening s.syst g th) = .ok (warns, newEvents))
      (hwarns : addWarns warns s = (.ok (), s₁))
      (hsplit : newEvents = done ++ (nst, pos, acts) :: rest)
      (hdone : (done.mapM' fun r : st × Pos × act => Poet.ext n e maxevs r.1 th r.2.1 r.2.2) s₁ =
        (.ok bs, s₂)) :
      Invokes (.extend n e maxevs g th s) (.ext n e maxevs nst th pos acts s₂)
  | historiesLock {n : Nat} {e : EventID} {maxevs : EventsID} {g : st} {tid : TId} {pos : Pos}
      {acts : act} {s : UnfolderState st act} {sym : SymId} {succe : List (EventID × Event act)}
      {h0 : History} (hsym : liftDom (Projection.toThCFGSym g tid) = .ok sym)
      (hsucc : succsNamed e ⟨tid, pos, sym⟩ s.evts = .ok succe)
      (hh0 : history (⟨tid, pos, sym⟩, acts) maxevs s.evts = .ok h0) (he : e ∈ h0)
      (hkind : (Action.isJoin acts || Action.isUnlock acts) = false) (hlock : Action.isLock acts = true) :
      Invokes (.ext n e maxevs g tid pos acts s) (.historiesLock (⟨tid, pos, sym⟩, acts) e h0 s.evts)

/-- The calls of the run of `botExplore fuel` from `s₀`. -/
inductive Invoked (fuel : Nat) (s₀ : UnfolderState st act) : Invocation st act → Prop where
  | initialExt : Invoked fuel s₀ (.initialExt fuel s₀)
  | explore {c : Configuration st} {s : UnfolderState st act}
      (h : Poet.initialExt fuel s₀ = (.ok c, s)) : Invoked fuel s₀ (.explore fuel c botEID [] [] s)
  | step {i j : Invocation st act} (hi : Invoked fuel s₀ i) (hij : Invokes i j) : Invoked fuel s₀ j

/-- A call that `i` makes, computed: `explore` the one for the branch of the event it chooses or, with
`deep`, the `unfold` before it, the others the first one. -/
def Invocation.next (deep : Bool) : Invocation st act → Option (Invocation st act)
  | .explore (n + 1) c ê d alt s =>
    match chooseEvent ê c.enevs alt s.stak with
    | .error _ => none
    | .ok e =>
      if deep then
        match onEvts (setDisa e d) (s.called c ê d alt) with
        | (.error _, _) => none
        | (.ok _, s₁) =>
          some (.unfold n (if s₁.opts.stateless then pruneConfig c s₁.evts else c) e s₁)
      else
        match addToConf n c d e (s.called c ê d alt) with
        | (.error _, _) => none
        | (.ok nc, s₁) => some (.explore n nc e d (alt.erase e) (s₁.withStack (e :: s₁.stak)))
  | .unfold n c e s =>
    match execute c.state e s with
    | (.error _, _) => none
    | (.ok nstc, s₁) =>
      match getPred e s₁.evts, filterM (isIndependent e · s₁.evts) (c.enevs.erase e),
        (·.map (·.1)) <$> liftDom (Domain.enabled s₁.syst nstc) with
      | .ok iprede, .ok senevs, .ok entrs =>
        match senevs.mapM' (getTid · s₁.evts) with
        | .error _ => none
        | .ok itrs => (entrs.diff itrs).head?.map fun th =>
          .extend n e (e :: c.maevs.diff iprede) nstc th s₁
      | _, _, _ => none
  | .extend n e maxevs g th s =>
    match liftDom (Domain.run false s.opts.widening s.syst g th) with
    | .error _ => none
    | .ok (warns, newEvents) => newEvents.head?.map fun r =>
      .ext n e maxevs r.1 th r.2.1 r.2.2 (addWarns warns s).2
  | .ext _ e maxevs g tid pos acts s =>
    match liftDom (Projection.toThCFGSym g tid) with
    | .error _ => none
    | .ok sym =>
      match succsNamed e ⟨tid, pos, sym⟩ s.evts, history (⟨tid, pos, sym⟩, acts) maxevs s.evts with
      | .ok _, .ok h0 =>
        if e ∈ h0 ∧ (Action.isJoin acts || Action.isUnlock acts) = false ∧ Action.isLock acts = true then
          some (.historiesLock (⟨tid, pos, sym⟩, acts) e h0 s.evts)
        else none
      | _, _ => none
  | _ => none

theorem Invocation.invokes_of_next {deep : Bool} {i j : Invocation st act}
    (h : i.next deep = some j) : Invokes i j := by
  unfold Invocation.next at h
  split at h
  · next n c ê d alt s =>
    split at h
    · cases h
    · next e he =>
      have hch : Chooses c ê alt s e := ⟨List.ne_nil_of_mem (chooseEvent_mem he).1, he⟩
      split at h
      · split at h
        · cases h
        · next s₁ hdisa =>
          obtain rfl := Option.some_inj.1 h
          exact .unfold hch hdisa
      · split at h
        · cases h
        · next nc s₁ hadd =>
          obtain rfl := Option.some_inj.1 h
          exact .left hch hadd
  · next n c e s =>
    split at h
    · cases h
    · next nstc s₁ hexec =>
      split at h
      · next iprede senevs entrs hpred hsen hentrs =>
        split at h
        · cases h
        · next itrs hitrs =>
          obtain ⟨th, hth, rfl⟩ := Option.map_eq_some_iff.1 h
          obtain ⟨rest, hrest⟩ := List.head?_eq_some_iff.1 hth
          exact .extend hexec hpred hsen hitrs hentrs (show _ = [] ++ th :: rest from hrest) rfl
      · cases h
  · next n e maxevs g th s =>
    split at h
    · cases h
    · next warns newEvents hrun =>
      obtain ⟨r, hr, rfl⟩ := Option.map_eq_some_iff.1 h
      obtain ⟨rest, hrest⟩ := List.head?_eq_some_iff.1 hr
      exact .ext hrun rfl (show _ = [] ++ r :: rest from hrest) rfl
  · next n e maxevs g tid pos acts s =>
    split at h
    · cases h
    · next sym hsym =>
      split at h
      · next succe h0 hsucc hh0 =>
        split at h
        · next hcond =>
          obtain rfl := Option.some_inj.1 h
          exact .historiesLock hsym hsucc hh0 hcond.1 hcond.2.1 hcond.2.2
        · cases h
      · cases h
  · cases h

/-- The call that the first call of `explore` leads to, along `path`. -/
def invocationAt (fuel : Nat) (s₀ : UnfolderState st act) (path : List Bool) :
    Option (Invocation st act) :=
  match initialExt fuel s₀ with
  | (.error _, _) => none
  | (.ok c, s) => path.foldlM (fun i deep => i.next deep) (.explore fuel c botEID [] [] s)

theorem invoked_of_invocationAt {fuel : Nat} {s₀ : UnfolderState st act} {path : List Bool}
    {i : Invocation st act} (h : invocationAt fuel s₀ path = some i) : Invoked fuel s₀ i := by
  unfold invocationAt at h
  split at h
  · cases h
  · next c s hinit =>
    have hpath : ∀ (path : List Bool) (i₀ : Invocation st act), Invoked fuel s₀ i₀ →
        path.foldlM (fun i deep => i.next deep) i₀ = some i → Invoked fuel s₀ i := by
      intro path
      induction path with
      | nil =>
        intro i₀ hi₀ heq
        obtain rfl := Option.some_inj.1 heq
        exact hi₀
      | cons deep path ih =>
        intro i₀ hi₀ heq
        rw [List.foldlM_cons] at heq
        obtain ⟨i₁, hi₁, hrest⟩ := Option.bind_eq_some_iff.1 heq
        exact ih i₁ (hi₀.step (Invocation.invokes_of_next hi₁)) hrest
    exact hpath path _ (.explore hinit) h

/-- A call that returns has explored both branches of the event it chose, and what it returns with is
what `pruneBranch` does then. -/
theorem exists_pruneBranch {n : Nat} {c : Configuration st} {ê : EventID} {d : EventsID}
    {alt : Alternative} {s s' : UnfolderState st act} (hen : c.enevs ≠ [])
    (hrun : explore (n + 1) c ê d alt s = (.ok (), s')) :
    ∃ e malt s₃ s₄, BranchDone n c ê d alt s e s₃ ∧
      alt2 s₃.stak s₃.evts (e :: d) (e :: d) = .ok malt ∧
      onSome malt (fun v => explore n c ê (e :: d) (v.diff s.stak)) s₃ = (.ok (), s₄) ∧
      pruneBranch s.stak d e s₄ = (.ok (), s') := by
  have hsat : Op.Sat (explore (n + 1) c ê d alt) s (fun _ t => ∃ e malt s₃ s₄,
      BranchDone n c ê d alt s e s₃ ∧ alt2 s₃.stak s₃.evts (e :: d) (e :: d) = .ok malt ∧
      onSome malt (fun v => explore n c ê (e :: d) (v.diff s.stak)) s₃ = (.ok (), s₄) ∧
      pruneBranch s.stak d e s₄ = (.ok (), t)) fun _ _ => True := by
    refine exploreStep_rule (fun h => absurd h hen) (fun _ _ _ => trivial) fun e _ hchoose => ?_
    refine Op.sat_of_ok fun nc s₁ hadd => Op.sat_of_ok fun _ s₂ hleft => ?_
    refine Op.sat_of_ok fun _ s₃ hpop => ⟨fun malt halt => ?_, fun _ _ => trivial⟩
    refine Op.sat_of_ok fun _ s₄ hright => Op.sat_of_ok fun _ t hprune => ?_
    exact ⟨e, malt, s₃, s₄, ⟨⟨hen, hchoose⟩, nc, s₁, s₂, hadd, hleft, hpop⟩, halt, hright, hprune⟩
  exact hsat.of_eq_ok hrun

end Poet
