import Mathlib.Data.List.AList
import Mathlib.Data.List.Sort
import Poet.Domain.Class
import Poet.Lib.Op

/-!
# The fixpoint engine (`Domain/Class.hs:35-279`)

The collapse of a thread runs its control-flow graph from a position to the next global actions. A
node carries a state and the actions done since the start; a worklist of edges recomputes them until
nothing changes. Edges with a global action, exit edges and edges to a node without successors are
not entered in the table but marked, and handled at the end.

| here | there |
| --- | --- |
| `FixEnv`, `FixState`          | `FixState`: the fields no function writes, and the others |
| `Collapse`                    | `code_transformer` and the three updates of the class `Domain` |
| `weakUpdate`, `strongUpdate`, `loopHeadUpdate` | the defaults (`Class.hs:74-117`) |
| `worklist`, `loop`, `processItem` | `worklist` (`Class.hs:186`), with a bound on the number of items taken |
| `fixptResult`, `handleMark`   | `Class.hs:231-279` |
| `fixpt`                       | `Class.hs:172` |

A transformer is a function of the constant part of the state and of the state of the node, and
returns the warnings it adds; this is all the two instances of the repository use.
-/

namespace Poet

/-- Source node, edge, target node. -/
abbrev WItem := NodeId × EdgeId × NodeId

abbrev NodeTable (st act : Type) := AList fun _ : NodeId => List (st × act)

structure FixEnv where
  /-- Return the annotated graph as well. -/
  mode : Bool
  tid : TId
  cfgs : List (SymId × Graph)
  symt : List (SymId × String)
  cfg : Graph
  /-- Widening level. -/
  wid : Int

structure FixState (st act : Type) where
  table : NodeTable st act
  /-- The marked edges, ascending. -/
  marks : List WItem
  /-- How often a loop head was updated. -/
  wide : List (NodeId × Int)
  warns : List Int

inductive FixErr where
  /-- An `error` of the domain. -/
  | domain (e : DomErr)
  /-- `worklist invalid pre states`, `handle_mark invalid pre states`. -/
  | invalidPre (fn : String) (n : NodeId)
  /-- More than one state in the list of a node. -/
  | manyStates (fn : String)
  /-- `loop_head_update: widening between a state and empty?` -/
  | widenEmpty
  /-- `handle_mark: unexpected value in the final node_table`. -/
  | noFinalValue
  /-- Not an error of the source: the bound on the worklist was used up. -/
  | outOfFuel
deriving DecidableEq, Repr

def liftFix {α : Type} : Except DomErr α → Except FixErr α
  | .ok a => .ok a
  | .error e => .error (.domain e)

theorem liftFix_eq_ok {α : Type} {x : Except DomErr α} {a : α} :
    liftFix x = .ok a ↔ x = .ok a := by
  cases x <;> simp [liftFix]

theorem liftFix_eq_error {α : Type} {x : Except DomErr α} {e : FixErr}
    (h : liftFix x = .error e) : ∃ d, e = .domain d ∧ x = .error d := by
  cases x with
  | ok a => cases h
  | error d => exact ⟨d, (Except.error.inj h).symm, rfl⟩

abbrev FixOp (st act α : Type) := Op (FixState st act) FixErr α

abbrev Update (st act : Type) :=
  FixEnv → NodeTable st act → NodeId → st × act → FixOp st act (Bool × NodeTable st act)

section Updates

variable {st act : Type} [DecidableEq st] [LatticeM st] [Lattice act]

/-- Join of the incoming state with the one of the node. The flag says that a fixpoint is reached;
the table, and with it the actions of the node, is then left as it is. -/
def weakUpdate : Update st act := fun _ table node (s, a) =>
  match table.lookup node with
  | none => pure (false, table.insert node [(s, a)])
  | some [] => pure (false, table.insert node [(s, a)])
  | some [(s', a')] => do
    let s₁ ← liftFix (LatticeM.join s s')
    if s₁ = s' then pure (true, table)
    else pure (false, table.insert node [(s₁, Lattice.join a a')])
  | some _ => Op.fail (.manyStates "join_update")

/-- The incoming state replaces the one of the node. -/
def strongUpdate : Update st act := fun _ table node (s, a) =>
  match table.lookup node with
  | none => pure (false, table.insert node [(s, a)])
  | some [] => pure (false, table.insert node [(s, a)])
  | some [(s', a')] =>
    if s = s' then pure (true, table)
    else pure (false, table.insert node [(s, Lattice.join a a')])
  | some _ => Op.fail (.manyStates "strong_update")

def getWideNode (node : NodeId) : FixOp st act Int := do
  let fs ← Op.get
  pure ((fs.wide.lookup node).getD 0)

def incWideNode (node : NodeId) : FixOp st act Unit :=
  Op.modify fun fs => { fs with
    wide := (node, (fs.wide.lookup node).getD 0 + 1) :: fs.wide.filter (·.1 ≠ node) }

/-- At a loop head the states are joined until the widening level is reached, then widened. -/
def loopHeadUpdate : Update st act := fun env table node (s, a) => do
  let c ← getWideNode node
  incWideNode node
  if env.wid ≤ c then
    match table.lookup node with
    | none => pure (false, table.insert node [(s, a)])
    | some [] => Op.fail .widenEmpty
    | some [(s', a')] => do
      let s₁ ← liftFix (LatticeM.widen s' s)
      if s₁ = s' then pure (true, table)
      else pure (false, table.insert node [(s₁, Lattice.join a a')])
    | some _ => Op.fail (.manyStates "loop_head_update")
  else weakUpdate env table node (s, a)

end Updates

/-- The part of a domain that the engine uses. -/
class Collapse (st act : Type) [DecidableEq st] [LatticeM st] [Lattice act] where
  /-- Source, target and edge, and the state before: actions, state after and warnings. -/
  codeTransformer :
    FixEnv → NodeId → NodeId → EdgeInfo → st → Except DomErr (act × st × List Int)
  weak : Update st act := weakUpdate
  strong : Update st act := strongUpdate
  loopHead : Update st act := loopHeadUpdate

section Engine

variable {st act : Type} [DecidableEq st] [LatticeM st] [Lattice act] [Action act] [Collapse st act]

def addFixWarns (warns : List Int) : FixOp st act Unit :=
  Op.modify fun fs => { fs with warns := fs.warns ∪ warns }

/-- The order of `(NodeId, EdgeId, NodeId)`, in which a set of items is listed. -/
def WItem.le (a b : WItem) : Bool :=
  a.1 < b.1 || (a.1 = b.1 && (a.2.1 < b.2.1 || (a.2.1 = b.2.1 && a.2.2 ≤ b.2.2)))

def insertMark (it : WItem) (marks : List WItem) : List WItem :=
  if it ∈ marks then marks else marks.orderedInsert (fun a b => WItem.le a b) it

def addMark (it : WItem) : FixOp st act Unit :=
  Op.modify fun fs => { fs with marks := insertMark it fs.marks }

def updateNodeTable (table : NodeTable st act) : FixOp st act Unit :=
  Op.modify fun fs => { fs with table := table }

/-- The edges out of a node as items. -/
def outItems (cfg : Graph) (n : NodeId) : List WItem := (cfg.succs n).map fun p => (n, p.1, p.2)

/-- The state and actions at the source of an item. -/
def getNodeInfo (fn : String) (table : NodeTable st act) (pre : NodeId) :
    Except FixErr (st × act) :=
  match table.lookup pre with
  | some [p] => .ok p
  | _ => .error (.invalidPre fn pre)

/-- The update that the tags of an edge ask for. -/
def updateFor (tags : List EdgeTag) : Update st act :=
  match tags with
  | [.loopHead] => Collapse.loopHead
  | [.ifJoin] => Collapse.weak
  | _ => Collapse.strong

/-- An edge that ends the collapse: its actions are global, it is an exit, or nothing follows. -/
def isFinal (env : FixEnv) (info : EdgeInfo) (post : NodeId) (acts : act) : Bool :=
  Action.isGlobal acts || decide (.exit ∈ info.tags) || (outItems env.cfg post).isEmpty

/-- Handles a marked edge once the worklist is empty. -/
def handleMark (env : FixEnv) (it : WItem) : FixOp st act (List Int × (st × Pos × act)) := do
  let (pre, eId, post) := it
  let fs ← Op.get
  let (nodeSt, preActs) ← getNodeInfo "handle_mark" fs.table pre
  let info := env.cfg.edgeInfo eId
  let (postActs, s, warns) ← liftFix (Collapse.codeTransformer env pre post info nodeSt)
  let (_, table) ← updateFor info.tags env fs.table post (s, Lattice.join preActs postActs)
  updateNodeTable table
  match table.lookup post with
  | some [(resSt, resAct)] =>
    if decide (.exit ∈ info.tags) || (outItems env.cfg post).isEmpty then
      pure (warns, (resSt, post, Lattice.join resAct (Action.exitAct ⟨env.tid⟩)))
    else pure (warns, (resSt, post, resAct))
  | _ => Op.fail .noFinalValue

/-- The results: one for each mark and, in mode `mode`, one for each other node of the table. -/
def fixptResult (env : FixEnv) : FixOp st act (List Int × ResultList st act) := do
  let fs ← Op.get
  let rs ← fs.marks.mapM' (handleMark env)
  let res := rs.map (·.2)
  let warns := rs.foldl (fun w r => w ∪ r.1) fs.warns
  if env.mode then do
    let fs ← Op.get
    let nodes := (fs.table.keys.insertionSort (· ≤ ·)).filter fun k => !res.any (·.2.1 = k)
    pure (warns, res ++ nodes.flatMap fun k =>
      ((fs.table.lookup k).getD []).map fun p => (p.1, k, p.2))
  else pure (warns, res)

/-- One item of the worklist: the body of `worklist`, up to the worklist it goes on with. -/
def processItem (env : FixEnv) (it : WItem) (wlist : List WItem) : FixOp st act (List WItem) := do
  let (pre, eId, post) := it
  let fs ← Op.get
  let (nodeSt, preActs) ← getNodeInfo "worklist" fs.table pre
  let info := env.cfg.edgeInfo eId
  let (postActs, ns, warns) ← liftFix (Collapse.codeTransformer env pre post info nodeSt)
  addFixWarns warns
  let acts := Lattice.join preActs postActs
  if LatticeM.isBot ns then pure wlist
  else if isFinal env info post acts then do
    addMark it
    pure wlist
  else do
    let (isFix, table) ← updateFor info.tags env fs.table post (ns, acts)
    updateNodeTable table
    pure (if isFix then wlist else (wlist ++ outItems env.cfg post).eraseDups)

/-- Takes items until none is left. -/
def loop (env : FixEnv) : Nat → List WItem → FixOp st act Unit
  | _, [] => pure ()
  | 0, _ :: _ => Op.fail .outOfFuel
  | n + 1, it :: wlist => do
    let nwlist ← processItem env it wlist
    loop env n nwlist

/-- The worklist algorithm: a fixpoint is reached when the worklist is empty. -/
def worklist (env : FixEnv) (fuel : Nat) (wlist : List WItem) :
    FixOp st act (List Int × ResultList st act) := do
  loop env fuel wlist
  fixptResult env

/-- The table at the start: the given state at `pos`, nothing elsewhere. -/
def initTable (cfg : Graph) (pos : Pos) (s : st) : NodeTable st act :=
  (cfg.nodes.foldr (fun n (t : NodeTable st act) => t.insert n []) ∅).insert pos
    [(s, Lattice.bot)]

def initFixState (cfg : Graph) (pos : Pos) (s : st) : FixState st act :=
  ⟨initTable cfg pos s, [], [], []⟩

/-- Main fixpoint function. -/
def fixpt (fuel : Nat) (env : FixEnv) (pos : Pos) (s : st) :
    Except FixErr (List Int × ResultList st act) × FixState st act :=
  worklist env fuel (outItems env.cfg pos) (initFixState env.cfg pos s)

end Engine

end Poet
