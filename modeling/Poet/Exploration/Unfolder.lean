import Poet.Exploration.API

/-!
# The exploration (`Exploration/UNF/Unfolder.hs`, `Exploration/UNF/Cutoff/McMillan.hs`)

Functions that only read the prefix (`history`, `histories`, `historiesLock`, `computeConflicts`,
`computeV`, `alt2`, `core`) are functions of the table; the others run in `UnfolderOp`. `histories`
and `explore` take a recursion bound and stop with `Err.outOfFuel` when it is used up.

| here | there |
| --- | --- |
| `unfolder`, `botExplore`, `initialExt` | `Unfolder.hs:28-63` |
| `explore`, `exploreStep`      | `Unfolder.hs:73` |
| `unfold`, `execute`           | `Unfolder.hs:137`, `184` |
| `extend`, `ext`               | `Unfolder.hs:198`, `220` |
| `history`, `pruneConfiguration` | `Unfolder.hs:273`, `294` |
| `histories`, `historiesLock`  | `Unfolder.hs:321`, `369` |
| `addEvent`, `addEv`, `stLocalConf`, `stHistory` | `Unfolder.hs:420-516` |
| `computeConflicts`            | `Unfolder.hs:524` |
| `possibleAltes`, `computeV`, `alt2` | `Unfolder.hs:563-643` |
| `pruneConfig`, `core`, `prune` | `Unfolder.hs:651-676` |
| `cutoff`, `cutoffCheck`       | `McMillan.hs:12-26` |
-/

namespace Poet

variable {st act : Type}

/-- Errors of the domain among those of the unfolder. -/
def liftDom {α : Type} : Except DomErr α → Except Err α
  | .ok a => .ok a
  | .error e => .error (.domain e)

/-! ## Histories -/

section Histories

variable [Action act]

/-- Goes up the causality of `es`, events independent of `info`, to the maximal dependent ones. -/
def pruneConfiguration (info : EventInfo act) (evts : Events act) :
    Nat → EventsID → EventsID → Except Err EventsID
  | 0, _, _ => .error .outOfFuel
  | n + 1, preHis, es => do
    let prdes ← (fun l => l.flatten.eraseDups) <$> es.mapM' (getPred · evts)
    -- predecessors that are not maximal are dropped
    let mpredes ← filterM (fun e => do
      let succe ← successors e evts
      pure (succe ∩ (preHis ++ prdes)).isEmpty) prdes
    let (preHis', es') ← partitionDependent info evts (preHis, []) mpredes
    if es'.isEmpty then pure preHis' else pruneConfiguration info evts n preHis' es'

/-- The largest history of an event: the events of `maxevs` that are dependent with it, and the
maximal dependent predecessors of the others. -/
def history (info : EventInfo act) (maxevs : EventsID) (evts : Events act) :
    Except Err History := do
  let (maxevsH0, maxevs') ← partitionDependent info evts ([], []) maxevs
  if maxevs'.isEmpty then pure maxevsH0
  else pruneConfiguration info evts (evts.bound + 1) maxevsH0 maxevs'

/-- Replaces the maximal event `e'` of `h` by its predecessors. -/
def nextHistory (info : EventInfo act) (evts : Events act) (h : History) (e' : EventID) :
    Except Err History := do
  let h' := h.erase e'
  let prede ← getPred e' evts
  let prede' ← filterM (fun e => do
    let succe ← successors e evts
    pure (succe ∩ h').isEmpty) prede
  history info (h' ++ prede') evts

/-- The other histories that contain `e`, by a worklist. -/
def histories (info : EventInfo act) (e : EventID) (evts : Events act) :
    Nat → Histories → Histories → Except Err Histories
  | _, [], hists => pure hists.eraseDups
  | 0, _ :: _, _ => .error .outOfFuel
  | n + 1, h :: hs, hists => do
    -- `e`, the events of the thread and the one that creates it stay
    let hc ← filterM (fun e' => do
      let ev ← getEvent "computeHistories" e' evts
      pure (ev.name.tid ≠ info.1.tid && !Action.isCreateOf ⟨info.1.tid⟩ ev.acts)) (h.erase e)
    let hs' ← hc.mapM' (nextHistory info evts h)
    let chs := hs'.eraseDups
    let wlist' := chs.filter fun h => !decide (h ∈ hs)
    histories info e evts n (wlist' ++ hs) (chs ++ hists)

/-- Which of the two events of a lock's history is the unlock: `(e_unlk, e_en)`. -/
def unlockOfPair (acts : act) (e e' : EventID) (evts : Events act) :
    Except Err (EventID × EventID) := do
  let ev ← getEvent "histories_lock" e evts
  let ev' ← getEvent "histories_lock" e' evts
  if Action.isUnlockOf acts ev.acts then
    if Action.isUnlockOf acts ev'.acts then .error .bothUnlocks else pure (e, e')
  else if Action.isUnlockOf acts ev'.acts then pure (e', e)
  else .error .noneUnlock

/-- The other histories of a lock event whose largest history is `hs`. -/
def historiesLock (info : EventInfo act) (sE : EventID) (hs : History) (evts : Events act) :
    Except Err Histories :=
  match hs with
  | [_] => pure []
  | [e, e'] => do
    let (eUnlk, eEn) ← unlockOfPair info.2 e e' evts
    if eUnlk = sE then pure []
    else do
      let predEn ← predecessors eEn evts
      let predUnlk ← predecessors eUnlk evts
      let eUnlks ← filterM (fun c => do
        let ev ← getEvent "histories_lock" c evts
        pure (Action.isUnlockOf info.2 ev.acts)) (predUnlk.diff (eEn :: predEn))
      if eUnlks.isEmpty then pure [[eEn]] else pure (eUnlks.map fun e => [e, eEn])
  | hs => .error (.tooManyInHistory hs)

/-- One frontier step after another; `seen` are the events done, `cfls` the conflicts found. -/
def computeConflict (info : EventInfo act) (lh lhCnfls : EventsID) (evts : Events act) :
    Nat → EventsID → EventsID → EventsID → Except Err EventsID
  | _, _, [], cfls => pure cfls
  | 0, _, _ :: _, _ => .error .outOfFuel
  | n + 1, seen, e :: rest, cfls =>
    if e ∈ seen then computeConflict info lh lhCnfls evts n seen rest cfls
    else if e ∈ lhCnfls then computeConflict info lh lhCnfls evts n (e :: seen) rest cfls
    else do
      let ev ← getEvent "computeConflict" e evts
      if e ∉ lh ∧ isDependent info (ev.name, ev.acts) then do
        -- a predecessor of `e` may be in conflict with the new event already
        let lhe ← predecessors e evts
        if (lhCnfls ++ cfls).any (· ∈ lhe) then
          computeConflict info lh lhCnfls evts n (e :: seen) rest cfls
        else computeConflict info lh lhCnfls evts n (e :: seen) rest (e :: cfls)
      else computeConflict info lh lhCnfls evts n (e :: seen) (rest ++ ev.succ).eraseDups cfls

/-- Immediate conflicts of a new event with local history `lh`, searched from bottom. -/
def computeConflicts (info : EventInfo act) (lh lhCnfls : EventsID) (evts : Events act) :
    Except Err EventsID := do
  let ev ← getEvent "compute_conflicts" botEID evts
  computeConflict info lh lhCnfls evts ((evts.bound + 1) * (evts.bound + 1)) [] ev.succ []

/-- The prefix with the new event `neID`: its conflicts are computed, and it is entered as a
successor and as a conflict. -/
def addEvTable (neID : EventID) (name : EventName) (acts : act) (history : History)
    (localHistory : EventsID) (evts : Events act) : Except Err (Events act) := do
  let lhCnfls ← List.eraseDups <$> localHistory.foldlM (fun a e => do
    let es ← getIcnf e evts
    pure (es ++ a)) []
  let cnfls ← List.eraseDups <$> computeConflicts (name, acts) localHistory lhCnfls evts
  let evts := setEvent neID ⟨name, acts, history, [], cnfls, [], []⟩ evts
  let evts ← history.foldlM (fun t e => addSucc neID e t) evts
  cnfls.foldlM (fun t e => addIcnf neID e t) evts

end Histories

/-! ## Alternatives -/

/-- The alternative of `e` that the conflicting extension `e'` gives, if it is valid: the stack without
the conflicts of `e'` and their successors, with `e'`. -/
def computeV (stack de : EventsID) (e e' : EventID) (evts : Events act) :
    Except Err (Option Alternative) := do
  let clfe' ← getIcnf e' evts
  let clfec' := clfe'.filter (· ∈ stack)
  match stack.dropWhile (· ≠ e) with
  | [] => .error (.emptyList "computeV")
  | _ :: stackE =>
    if clfec'.any (· ∈ stackE) then pure none
    else do
      let succes' ← clfec'.mapM' fun ce => do
        let s ← successors ce evts
        pure (ce :: s)
      let v := stack.diff succes'.flatten ++ [e']
      if stackE.all (· ∈ v) then do
        let vcfs ← v.mapM' (getIcnf · evts)
        pure (if de.all fun x => vcfs.any (x ∈ ·) then some v else none)
      else pure none

/-- `#^(e)` restricted to the conflicting extensions of the stack; `cext` are known ones. -/
def isCExtension (stack cext : EventsID) (evts : Events act) (e : EventID) : Except Err Bool :=
  if e ∈ cext then pure true
  else do
    let eipred ← getPred e evts
    pure (eipred.all (· ∈ stack))

def addV (stack de : EventsID) (e e' : EventID) : UnfolderOp st act Unit := do
  let s ← Op.get
  let v ← computeV stack de e e' s.evts
  match v with
  | none => pure ()
  | some v => onEvts (addAlte e v)

def possibleAlte (stack cext : EventsID) (e : EventID) : UnfolderOp st act EventsID := do
  let s ← Op.get
  let cfle ← getIcnf e s.evts
  let ext ← (filterM (isCExtension stack cext s.evts) cfle : Except Err EventsID)
  let de ← getDisa e s.evts
  let _ ← ext.mapM' (addV stack de e)
  pure (cext ++ ext)

/-- Adds the valid alternatives of the events `evs` of a maximal configuration. -/
def possibleAltes (evs : EventsID) : UnfolderOp st act Unit := do
  let s ← Op.get
  let _ ← evs.foldlM (possibleAlte s.stak) []
  pure ()

/-- An alternative must justify `d` and be free of conflicts with the stack. -/
def filterAlte (stak d : EventsID) (evts : Events act) (v : Alternative) : Except Err Bool := do
  let cnfs ← (fun l => l.flatten.eraseDups) <$> v.mapM' (getIcnf · evts)
  pure (d.all (· ∈ cnfs) && !cnfs.any (· ∈ stak))

def alt2 (stak : EventsID) (evts : Events act) (ods : EventsID) :
    EventsID → Except Err (Option Alternative)
  | [] => pure none
  | d :: ds => do
    let vs ← getAlte d evts
    let mv ← filterM (filterAlte stak ods evts) vs
    match mv with
    | [] => alt2 stak evts ods ds
    | v :: _ => pure (some v)

/-! ## Stateless mode -/

/-- Drops the enabled events that are no longer in the prefix. -/
def pruneConfig (c : Configuration st) (evts : Events act) : Configuration st :=
  { c with enevs := filterEvents c.enevs evts }

/-- The part of the prefix needed to continue. -/
def core (conf d : EventsID) (evts : Events act) : Except Err EventsID := do
  let evs ← (conf ++ d).mapM' (getEvent "compute_core" · evts)
  let altes := (evs.flatMap (·.alte)).flatten
  pure ((conf ++ d) ++ altes).eraseDups

/-- Removes `e` and its alternatives from the prefix, but for the core. -/
def prune (e : EventID) (core : EventsID) : UnfolderOp st act Unit := do
  let s ← Op.get
  let ev ← getEvent "prune" e s.evts
  if e ∈ core then onEvts (resetAlte e) else onEvts (delEvent e)
  let _ ← ev.alte.mapM' fun v =>
    v.mapM' fun e => if e ∈ core then pure () else onEvts (delEvent e)
  pure ()

/-! ## Cutoffs -/

def cutoffCheck [LatticeM st] (s : st) (si : Nat) : List (st × Nat) → Except DomErr Bool
  | [] => .ok false
  | (s', si') :: r => do
    if (← LatticeM.leq s' s) && si' < si then return true
    else cutoffCheck s si r

def cutoff [LatticeM st] [Projection st] (s : st) (si : Nat) : UnfolderOp st act Bool := do
  let u ← Op.get
  let locs := Projection.controlPart s
  match u.stas.lookup locs with
  | none =>
    setCutoffTable ((locs, [(s, si)]) :: u.stas)
    pure false
  | some l =>
    -- an `error` loses the table, so the check can come before the table is set
    let isCutoff ← liftDom (cutoffCheck s si l)
    setCutoffTable ((locs, (s, si) :: l) :: u.stas.filter (·.1 ≠ locs))
    pure isCutoff

/-! ## Extensions -/

section Explore

variable [DecidableEq st] [DecidableEq act] [LatticeM st] [Projection st] [Lattice act] [Action act]
  [Domain st act]

/-- Runs the events of `hist` from `s`, in a topological order of the prefix. -/
def stHistory (wid : Int) (syst : System st act) (evts : Events act) (hist : EventsID) :
    Nat → st → EventsID → EventsID → Except Err st
  | _, s, [], _ => pure s
  | 0, _, _ :: _, _ => .error .outOfFuel
  | n + 1, s, e :: es, seen => do
    let esucc ← getSucc e evts
    let seen' := e :: seen
    let chosen ← filterM (fun x => do
      let prede ← getPred x evts
      pure (prede.diff seen').isEmpty) (esucc.filter (· ∈ hist))
    let ename ← getName e evts
    let nst ← if e = 0 then pure s
      else (·.1) <$> liftDom (Domain.drun wid syst s (ename.tid, ename.pos, ename.sym))
    stHistory wid syst evts hist n nst (es ++ chosen) seen'

/-- The state after the local configuration of an event. -/
def stLocalConf (wid : Int) (syst : System st act) (evts : Events act) (name : EventName)
    (econf : EventsID) : Except Err st := do
  let s' ← stHistory wid syst evts econf (evts.bound + 1) syst.gbst [0] []
  (·.1) <$> liftDom (Domain.drun wid syst s' (name.tid, name.pos, name.sym))

def addEv (name : EventName) (acts : act) (history : History) (localHistory : EventsID) :
    UnfolderOp st act EventsID := do
  incEvsPrefix
  let neID ← freshCounter
  onEvts (addEvTable neID name acts history localHistory)
  incEvsPerName name
  pure [neID]

/-- Adds the event with this history, unless it is among the duplicates `dup` or a cutoff. The
arguments `is_in_conf` and `stack` of the source are not used there. -/
def addEvent (dup : List (EventID × Event act)) (name : EventName) (acts : act)
    (history : History) : UnfolderOp st act EventsID := do
  let hasDup := dup.filter fun p => sameElems p.2.pred history
  if !hasDup.isEmpty then
    if hasDup.length > 1 then Op.fail .duplicates else pure (hasDup.map (·.1))
  else do
    let s ← Op.get
    let prede ← (history.mapM' (predecessors · s.evts) : Except Err (List EventsID))
    let localHistory := (prede.flatten ++ history).eraseDups
    if s.opts.cutoffs then do
      let gstlc ← stLocalConf s.opts.widening s.syst s.evts name localHistory
      if LatticeM.isBot gstlc then Op.fail .localBottom
      else do
        let isCutoff ← cutoff gstlc (localHistory.length + 1)
        if isCutoff then do
          incCutoffs
          pure []
        else addEv name acts history localHistory
    else addEv name acts history localHistory

/-- The histories of the conflicting extensions that `ext` adds next to the one of `h0`. -/
def extHistories (fuel : Nat) (info : EventInfo act) (e : EventID) (h0 : History)
    (evts : Events act) : Except Err Histories :=
  if Action.isJoin info.2 || Action.isUnlock info.2 then pure []
  else if Action.isLock info.2 then historiesLock info e h0 evts
  else histories info e evts fuel [h0] []

/-- The immediate successors of `e` with this name, to avoid duplicates. -/
def succsNamed (e : EventID) (name : EventName) (evts : Events act) :
    Except Err (List (EventID × Event act)) := do
  let es ← getSucc e evts
  let evs ← es.mapM' fun e' => do
    let ev ← getEvent "ext" e' evts
    pure (e', ev)
  pure (evs.filter (·.2.name = name))

/-- Extends the prefix by the events with this name that have `e` as an immediate predecessor;
returns the one with history `h0`. -/
def ext (fuel : Nat) (e : EventID) (maxevs : EventsID) (s : st) (tid : TId) (pos : Pos)
    (acts : act) : UnfolderOp st act EventsID := do
  let sym ← liftDom (Projection.toThCFGSym s tid)
  let name : EventName := ⟨tid, pos, sym⟩
  let u ← Op.get
  -- not recomputed between the additions below
  let succe ← succsNamed e name u.evts
  let h0 ← history (name, acts) maxevs u.evts
  if h0.isEmpty then Op.fail (.nullH0 e name maxevs)
  else if e ∈ h0 then do
    let his ← extHistories fuel (name, acts) e h0 u.evts
    let _ ← his.mapM' (addEvent succe name acts)
    addEvent succe name acts h0
  else pure []

/-- Extends the prefix by the events of thread `th` that have `e` as an immediate predecessor. -/
def extend (fuel : Nat) (e : EventID) (maxevs : EventsID) (s : st) (th : TId) :
    UnfolderOp st act EventsID := do
  let u ← Op.get
  let (warns, newEvents) ← liftDom (Domain.run false u.opts.widening u.syst s th)
  addWarns warns
  let nevs ← newEvents.mapM' fun (nst, pos, acts) => ext fuel e maxevs nst th pos acts
  pure nevs.flatten

/-! ## The exploration -/

/-- Runs the event `e` from `s` and records its actions. -/
def execute (s : st) (e : EventID) : UnfolderOp st act st := do
  let u ← Op.get
  let ev ← getEvent "execute" e u.evts
  let (nst, nacts) ←
    liftDom (Domain.drun u.opts.widening u.syst s (ev.name.tid, ev.name.pos, ev.name.sym))
  onEvts fun evts => pure (setEvent e { ev with acts := nacts } evts)
  pure nst

/-- The configuration with `e` added. -/
def unfold (fuel : Nat) (c : Configuration st) (e : EventID) :
    UnfolderOp st act (Configuration st) := do
  let nstc ← execute c.state e
  let u ← Op.get
  let iprede ← getPred e u.evts
  let nmaxevs := e :: c.maevs.diff iprede
  let senevs ← (filterM (isIndependent e · u.evts) (c.enevs.erase e) : Except Err EventsID)
  let itrs ← (senevs.mapM' (getTid · u.evts) : Except Err (List TId))
  let entrs ← (·.map (·.1)) <$> liftDom (Domain.enabled u.syst nstc)
  let nnevs ← List.flatten <$> (entrs.diff itrs).mapM' (extend fuel e nmaxevs nstc)
  let confEvs := e :: u.stak
  let u ← Op.get
  let nnevs' ← (filterM (fun x => do
    let ev ← getEvent "unfold" x u.evts
    pure (ev.icnf ∩ confEvs).isEmpty) nnevs : Except Err EventsID)
  let ncevs ← (filterM (fun x => do
    let ev ← getEvent "unfold" x u.evts
    pure !ev.icnf.isEmpty) confEvs : Except Err EventsID)
  pure ⟨nstc, nmaxevs, nnevs' ++ senevs, ncevs⟩

/-- The event that `explore` adds: the first enabled one, or the first of the alternative. -/
def chooseEvent (ê : EventID) (enevs : EventsID) (alt : Alternative) (stak : EventsID) :
    Except Err EventID :=
  if alt.isEmpty then
    match enevs with
    | [] => .error (.emptyList "explore")
    | e :: _ => pure e
  else
    match enevs ∩ alt with
    | [] => .error (.altDisjoint ê enevs alt stak)
    | e :: _ => pure e

/-- Records a call of `explore`. -/
def recordCall (c : Configuration st) (ê : EventID) (d : EventsID) (alt : Alternative) :
    UnfolderOp st act Unit :=
  Op.modify fun s => { s with calls := ⟨c, ê, d, alt, s.stak, s.evts⟩ :: s.calls }

/-- At a maximal configuration: the alternatives of its events with conflicts, and the counters. -/
def maximalConf (cfevs : EventsID) : UnfolderOp st act Unit := do
  possibleAltes cfevs
  incSumSizeMaxConf
  incMaxConf

/-- Initializes the disabled set of `e` and adds `e` to the configuration. -/
def addToConf (fuel : Nat) (c : Configuration st) (d : EventsID) (e : EventID) :
    UnfolderOp st act (Configuration st) := do
  onEvts (setDisa e d)
  let u ← Op.get
  unfold fuel (if u.opts.stateless then pruneConfig c u.evts else c) e

/-- Removes irrelevant parts of the prefix, in stateless mode. -/
def pruneBranch (stak d : EventsID) (e : EventID) : UnfolderOp st act Unit := do
  let u ← Op.get
  if u.opts.stateless then do
    let corePre ← core stak d u.evts
    prune e corePre
  else pure ()

def onSome {α : Type} (o : Option α) (f : α → UnfolderOp st act Unit) : UnfolderOp st act Unit :=
  match o with
  | none => pure ()
  | some a => f a

/-- The body of `explore`, with its recursive calls `rec`. -/
def exploreStep (fuel : Nat)
    (rec : Configuration st → EventID → EventsID → Alternative → UnfolderOp st act Unit)
    (c : Configuration st) (ê : EventID) (d : EventsID) (alt : Alternative) :
    UnfolderOp st act Unit := do
  recordCall c ê d alt
  let s ← Op.get
  if c.enevs.isEmpty then maximalConf c.cfevs
  else do
    let e ← chooseEvent ê c.enevs alt s.stak
    let nc ← addToConf fuel c d e
    push e
    rec nc e d (alt.erase e)
    pop
    let u ← Op.get
    let malt ← alt2 u.stak u.evts (e :: d) (e :: d)
    onSome malt fun alt' => rec c ê (e :: d) (alt'.diff s.stak)
    pruneBranch s.stak d e

/-- Main exploration: `ê` is the latest event of the configuration `c`, `d` the disabled events and
`alt` the alternative that is being followed. -/
def explore : Nat → Configuration st → EventID → EventsID → Alternative → UnfolderOp st act Unit
  | 0, _, _, _, _ => Op.fail .outOfFuel
  | n + 1, c, ê, d, alt => exploreStep n (explore n) c ê d alt

/-- The extensions from the bottom event. -/
def initialExt (fuel : Nat) : UnfolderOp st act (Configuration st) := do
  let s ← Op.get
  let trs ← (·.map (·.1)) <$> liftDom (Domain.enabled s.syst s.syst.gbst)
  let enevs ← trs.foldlM (fun en tr => do
    let es ← extend fuel botEID [botEID] s.syst.gbst tr
    pure (es ++ en)) []
  pure ⟨s.syst.gbst, [botEID], enevs, []⟩

def botExplore (fuel : Nat) : UnfolderOp st act Unit := do
  let iConf ← initialExt fuel
  explore fuel iConf botEID [] []

/-- The whole run: whether it returned, and the state it ended in. -/
def unfolder (fuel : Nat) (stl cut : Bool) (wid : Int) (syst : System st act) :
    Except Err Unit × UnfolderState st act :=
  botExplore fuel (iUnfState stl cut wid syst)

end Explore

end Poet
