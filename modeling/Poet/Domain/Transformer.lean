import Poet.Domain.Fixpoint
import Poet.Domain.ProgState
import Poet.Language.Value

/-!
# The transformers (`Domain/{Concrete,Interval}/Transformers/`)

The two domains have the same transformer for expressions and for declarations, but for the values
and a few cases. It is written once, over the operations `TransValue` in which the two differ.

| here | there |
| --- | --- |
| `TState`, `TOp`                | `ConTState`, `IntTState`; the field `exit` is not used there |
| `transformer`, `getAddrsExpr`  | `Statement.hs` |
| `transformerNeg e`             | `transformer (negExp e)`: `transformerNeg_eq` |
| `transformerDecl`, `transformerInit`, `defaultValue` | `Declaration.hs` |
| `convert`                      | `System.hs` |
| `getEntry`, `negExp`, `negOp`  | `Domain/Util.hs` |
| `getSymbolName`, `getExprId`   | parameters: the front end is outside the repository |

The value of an expression is not forced before it is used: the left side of an assignment is read,
but `=` does not look at the value, and a cell that can not be read is then no error. The value that
is stored, every address and every test are forced at once, and an error there ends the run; the
source may go on until something looks at the result. Missing arguments are errors.
-/

namespace Poet

structure TState (v : Type) where
  scope : Scope
  st : ProgState v
  /-- The symbol table and the graphs; in the state that `getAddrsExpr` builds both are errors. -/
  sym : Option (List (SymId × String))
  cfgs : Option (List (SymId × Graph))
  /-- Is the edge a condition? -/
  cond : Bool
  nodeId : Int
  warns : List Int

abbrev TOp (v α : Type) := Op (TState v) DomErr α

/-- A value that has not been looked at. -/
abbrev LazyVal (v : Type) := Except DomErr v

/-- Where the transformers of the two domains differ. -/
class TransValue (v : Type) where
  /-- The value of a cast, of the empty expression and of a call without result. -/
  void : v
  /-- The value of an expression from the values at its addresses, in the function named. -/
  pick : String → List v → Except DomErr v
  constVal : Value → Except DomErr v
  /-- The operation of a compound assignment. -/
  assignOp : AssignOp → v → v → Except DomErr v
  binOp : BinaryOp → v → v → Except DomErr v
  minus : v → Except DomErr v
  /-- Is `++e` supported? -/
  preInc : Bool
  /-- The value stored for a thread, and the thread of a value. -/
  tidVal : TId → v
  tidOf : v → Option TId
  /-- Does a new thread get its argument? -/
  threadArg : Bool
  /-- The value between two bounds. -/
  nondet : Option (v → v → Except DomErr v)
  /-- The size of an array. -/
  arraySize : v → Except DomErr Int

/-! ## The front end and `Util.hs` -/

/-- The functions that `call_transformer_name` knows. -/
inductive CallName where
  | create | join | exit | lock | unlock | init | nondet | error | other
deriving DecidableEq, Repr

def callName (name : String) : CallName :=
  if name = "pthread_create" then .create
  else if name = "pthread_join" then .join
  else if name = "pthread_exit" then .exit
  else if name = "pthread_mutex_lock" then .lock
  else if name = "pthread_mutex_unlock" then .unlock
  else if name = "pthread_mutex_init" then .init
  else if name = "__VERIFIER_nondet_int" then .nondet
  else if name = "__VERIFIER_error" then .error
  else .other

/-- `l !! n`. -/
def nthArg {α : Type} (l : List α) (n : Nat) : Except DomErr α :=
  match l[n]? with
  | none => .error (.error "Prelude.!!: index too large")
  | some a => .ok a

/-- The entry node of the graph of a function: the last graph with this name. -/
def getEntry (fnname : String) (graphs : List (SymId × Graph)) (symt : List (SymId × String)) :
    Except DomErr (Pos × SymId) :=
  let found := graphs.foldr (fun p r =>
    match r with
    | some res => some res
    | none => match symt.lookup p.1 with
      | none => none
      | some name => if name = fnname then some (p.2.entryNode, p.1) else none) none
  match found with
  | none => .error (.error "get_entry: cant get entry for ")
  | some p => .ok p

def negOp : BinaryOp → Except DomErr BinaryOp
  | .le => .ok .geq
  | .gr => .ok .leq
  | .leq => .ok .gr
  | .geq => .ok .le
  | .eq => .ok .neq
  | .neq => .ok .eq
  | _ => .error (.error "negOp: unsupported ")

/-- Negates a logical expression with the laws of De Morgan. -/
def negExp : SExpression → Except DomErr SExpression
  | .binary .lnd l r => do return .binary .lor (← negExp l) (← negExp r)
  | .binary .lor l r => do return .binary .lnd (← negExp l) (← negExp r)
  | .binary op l r => do return .binary (← negOp op) l r
  | .unary .neg e => .ok e
  | _ => .error (.error "negExp: unsupported ")

section Transformer

variable {v : Type} [DecidableEq v] [ToValue v] [OrdKey v] [Region v] [TransValue v]

/-- The addresses of an expression, given the state and the scope. -/
abbrev AddrsOf (v : Type) := ProgState v → Scope → Except DomErr (MemAddrs v)

/-- The value and the actions of an expression. -/
abbrev ValAct (v : Type) := LazyVal v × Act v

def setState (st : ProgState v) : TOp v Unit := Op.modify fun t => { t with st := st }

def addWarn (n : Int) : TOp v Unit := Op.modify fun t => { t with warns := t.warns ∪ [n] }

/-- The symbol table and the graphs, if the transformer has them. -/
def tables (t : TState v) : Except DomErr (List (SymId × String) × List (SymId × Graph)) :=
  match t.sym, t.cfgs with
  | some sym, some cfgs => .ok (sym, cfgs)
  | _, _ => .error (.error "get_addrs: called the transformer with missing information")

/-! ## Expressions (`Statement.hs`)

Each transformer takes what the transformer makes of the subexpressions. -/

def varTransformer (id : SymId) : TOp v (ValAct v) := do
  let t ← Op.get
  let idAddrs ← t.st.getAddrs ⟨id, t.scope⟩
  let val : LazyVal v := do TransValue.pick "var_transformer" (← t.st.readMemory idAddrs)
  return (val, Act.readActAddr idAddrs)

def constTransformer (k : Value) : TOp v (ValAct v) := return (TransValue.constVal k, Act.bot)

/-- The memory is read in the state before the index was evaluated. -/
def indexTransformer (arr : AddrsOf v) (idx : TOp v (ValAct v)) : TOp v (ValAct v) := do
  let t ← Op.get
  match ← arr t.st t.scope with
  | .top => Op.fail (.error "index_transformer: lhs of index operation points to MemAddrTop")
  | .addrs l =>
    let (rhsVals, rhsActs) ← idx
    let off ← rhsVals
    let addrs := .addrs (l.map (setOffset · off)).eraseDups
    let val : LazyVal v := do TransValue.pick "index_transformer" (← t.st.readMemory addrs)
    return (val, (Act.readActAddr addrs).join rhsActs)

def assignTransformer (op : AssignOp) (lhs rhs : TOp v (ValAct v)) (lhsAddrs : AddrsOf v) : TOp v (ValAct v) := do
  let (lhsVals, lhsActs) ← lhs
  let (rhsVals, rhsActs) ← rhs
  let resVals : LazyVal v :=
    match op with
    | .assign => rhsVals
    | _ => do TransValue.assignOp op (← lhsVals) (← rhsVals)
  let t ← Op.get
  let addrs ← lhsAddrs t.st t.scope
  let val ← resVals
  let resSt ← t.st.writeMemory addrs val
  setState resSt
  return (.ok val, (rhsActs.join lhsActs).addWrites addrs)

def binopTransformer (op : BinaryOp) (lhs rhs : TOp v (ValAct v)) : TOp v (ValAct v) := do
  let (lhsVals, lhsActs) ← lhs
  let (rhsVals, rhsActs) ← rhs
  let resVals : LazyVal v := do TransValue.binOp op (← lhsVals) (← rhsVals)
  return (resVals, lhsActs.join rhsActs)

def minusTransformer (e : TOp v (ValAct v)) : TOp v (ValAct v) := do
  let (vals, acts) ← e
  let resVals : LazyVal v := do TransValue.minus (← vals)
  return (resVals, acts)

/-- The thread that an expression refers to. -/
def getTidExpr (addrs : AddrsOf v) (st : ProgState v) (scope : Scope) : Except DomErr TId := do
  match ← st.readMemory (← addrs st scope) with
  | [] => throw (.error "get_tid: couldnt find thread for expr ")
  | [val] =>
    match TransValue.tidOf val with
    | some tid => return tid
    | none => throw (.error "get_tid: unexpected intvalue ")
  | _ => throw (.error "get_tid: found too many threads for expr ")

/-- A thread has exited when its node has no successor. -/
def hasExited (cfgs : List (SymId × Graph)) (st : ProgState v) (tid : TId) : Except DomErr Bool :=
  match st.thStates.lookup tid with
  | none => .ok false
  | some th =>
    match cfgs.lookup th.thCfgId with
    | none => .error (.error "has_exited fatal: tid not found in cfgs")
    | some cfg => .ok (cfg.succs th.thPos).isEmpty

def isLocked (addrs : AddrsOf v) (st : ProgState v) (scope : Scope) : Except DomErr Bool := do
  match ← st.readMemory (← addrs st scope) with
  | [] => throw (.error "is_locked fatal: cant find info for lock ")
  | [val] => return val = ToValue.one
  | _ => throw (.error "is_locked fatal: lock has unsupported values ")

/-- The locals of a new thread: its parameter. -/
def paramLocals (tid : TId) (params : List SDeclaration) (val : v) : Except DomErr (Memory v) :=
  match params with
  | [.decl (some ⟨some paramId, _⟩) _] =>
    ProgState.writeRegionAddr .empty ⟨paramId, .loc tid⟩ ToValue.zero val
  | [.typeDecl] => .error (.error "empty_th_state: TypeDecl")
  | [.decl none _] => .error (.error "empty_th_state: Nothing Declaration")
  | [.decl (some ⟨none, _⟩) _] => .error (.error "empty_ty_state: no identifier")
  | _ => .error (.error "call_transformer_name: wrong parameter size ")

/-- The locals of a new thread, whose code is the graph of `cfgSym`. -/
def threadLocals (tid : TId) (cfgs : List (SymId × Graph)) (cfgSym : SymId) (argVal : LazyVal v) :
    Except DomErr (Memory v) :=
  if TransValue.threadArg v then
    match cfgs.lookup cfgSym with
    | none => .error (.error "call_transformer_name: cant find cfg")
    | some cfg => do paramLocals tid cfg.parameters (← argVal)
  else .ok .empty

/-- The argument of a new thread is only evaluated if it is used. -/
def threadArgOp (arg : TOp v (ValAct v)) : TOp v (ValAct v) :=
  if TransValue.threadArg v then arg else return (.ok TransValue.void, Act.bot)

variable [SimpleC]

def createTransformer (thread : AddrsOf v) (fn : Except DomErr SExpression) (arg : TOp v (ValAct v)) :
    TOp v (ValAct v) := do
  let (argVal, argActs) ← threadArgOp arg
  let t ← Op.get
  let (tid, s') := t.st.incNumTh
  let s'' ← s'.writeMemory (← thread s' t.scope) (TransValue.tidVal tid)
  let thSym ← getExprId (← fn)
  let (sym, cfgs) ← tables t
  let (thPos, cfgSym) ← getEntry (← getSymbolName thSym sym) cfgs sym
  let locals ← threadLocals tid cfgs cfgSym argVal
  setState (s''.insertThread tid ⟨thPos, thSym, locals⟩)
  return (.ok TransValue.void, argActs.join (Act.createThreadAct ⟨tid⟩ ToValue.zero))

/-- A join that is not enabled gives the bottom state. -/
def joinTransformer (thread : AddrsOf v) : TOp v (ValAct v) := do
  let t ← Op.get
  let tid ← getTidExpr thread t.st t.scope
  let (_, cfgs) ← tables t
  if ← hasExited cfgs t.st tid then
    return (.ok TransValue.void, Act.joinThreadAct ⟨tid⟩ ToValue.zero)
  else do
    setState ProgState.bot
    return (.ok TransValue.void, Act.bot)

def exitTransformer : TOp v (ValAct v) := do
  let t ← Op.get
  match t.scope with
  | .glob => Op.fail (.error "pthread_exit: scope = Global")
  | .loc tid => return (.ok TransValue.void, Act.exitThreadAct ⟨tid⟩)

/-- A lock that is not enabled gives the bottom state. -/
def lockTransformer (mutex : AddrsOf v) : TOp v (ValAct v) := do
  let t ← Op.get
  if ← isLocked mutex t.st t.scope then do
    setState ProgState.bot
    return (.ok TransValue.void, Act.bot)
  else do
    let addrs ← mutex t.st t.scope
    let resSt ← t.st.writeMemory addrs ToValue.one
    setState resSt
    return (.ok ToValue.one, Act.lockActAddr addrs)

/-- `pthread_mutex_unlock` and `pthread_mutex_init`, which differ in the action. -/
def resetTransformer (mutex : AddrsOf v) (actOf : MemAddrs v → Act v) : TOp v (ValAct v) := do
  let t ← Op.get
  let addrs ← mutex t.st t.scope
  let resSt ← t.st.writeMemory addrs ToValue.zero
  setState resSt
  return (.ok ToValue.zero, actOf addrs)

def nondetTransformer (lower upper : TOp v (ValAct v)) : TOp v (ValAct v) :=
  match (TransValue.nondet : Option (v → v → Except DomErr v)) with
  | none => Op.fail (.error "NONDET not supporte in concrete sem")
  | some f => do
    let (lVal, lacts) ← lower
    let (uVal, uacts) ← upper
    let resVals : LazyVal v := do f (← lVal) (← uVal)
    return (resVals, lacts.join uacts)

def errorTransformer : TOp v (ValAct v) := do
  let t ← Op.get
  addWarn t.nodeId
  return (.ok ToValue.zero, Act.bot)

/-- The argument `n` as a computation, which fails if there is none. -/
def argOp (ops : List (TOp v (ValAct v))) (n : Nat) : TOp v (ValAct v) := do
  let op ← nthArg ops n
  op

def argAddrs (addrs : List (AddrsOf v)) (n : Nat) : AddrsOf v := fun st scope => do
  (← nthArg addrs n) st scope

def callTransformerName (name : CallName) (args : List SExpression) (ops : List (TOp v (ValAct v)))
    (addrs : List (AddrsOf v)) : TOp v (ValAct v) :=
  match name with
  | .create => createTransformer (argAddrs addrs 0) (nthArg args 2) (argOp ops 3)
  | .join => joinTransformer (argAddrs addrs 0)
  | .exit => exitTransformer
  | .lock => lockTransformer (argAddrs addrs 0)
  | .unlock => resetTransformer (argAddrs addrs 0) Act.unlockActAddr
  | .init => resetTransformer (argAddrs addrs 0) Act.writeActAddr
  | .nondet => nondetTransformer (argOp ops 0) (argOp ops 1)
  | .error => errorTransformer
  | .other => return (.ok ToValue.zero, Act.bot)

def callTransformer (fn : SExpression) (args : List SExpression) (ops : List (TOp v (ValAct v)))
    (addrs : List (AddrsOf v)) : TOp v (ValAct v) :=
  match fn with
  | .var ident => do
    let t ← Op.get
    let (sym, _) ← tables t
    let name ← getSymbolName ident sym
    callTransformerName (callName name) args ops addrs
  | _ => Op.fail (.error "call_transformer: not supported")

/-- The state in which `getAddrsExpr` evaluates an index. -/
def indexState (st : ProgState v) (scope : Scope) : TState v := ⟨scope, st, none, none, false, 0, []⟩

mutual

def transformer : SExpression → TOp v (ValAct v)
  | .assign op lhs rhs =>
    assignTransformer op (transformer lhs) (transformer rhs) (getAddrsExpr lhs)
  | .binary op lhs rhs => binopTransformer op (transformer lhs) (transformer rhs)
  | .call fn args => callTransformer fn args (transformerList args) (addrsList args)
  | .cast _ => return (.ok TransValue.void, Act.bot)
  | .cond _ _ _ => Op.fail (.error "cond_transformer not supported")
  | .const k => constTransformer k.toValue
  | .index arr idx => indexTransformer (getAddrsExpr arr) (transformer idx)
  | .skip => return (.ok TransValue.void, Act.bot)
  | .unary op e =>
    match op with
    | .preInc =>
      if TransValue.preInc v then
        assignTransformer .add (transformer e) (constTransformer (.int 1)) (getAddrsExpr e)
      else Op.fail (.error "unop_transformer: CPreIncOp  not supported")
    | .postInc => assignTransformer .add (transformer e) (constTransformer (.int 1)) (getAddrsExpr e)
    | .postDec => assignTransformer .sub (transformer e) (constTransformer (.int 1)) (getAddrsExpr e)
    | .plus => transformer e
    | .min => minusTransformer (transformer e)
    | .neg => transformerNeg e
    | .preDec => Op.fail (.error "unop_transformer: CPreDecOp  not supported")
    | .adr => Op.fail (.error "unop_transformer: CAdrOp     not supported")
    | .ind => Op.fail (.error "unop_transformer: CIndOp     not supported")
    | .comp => Op.fail (.error "unop_transformer: CCompOp not supported")
  | .var id => varTransformer id
  | .unsupported what => Op.fail (.error what)

def transformerNeg : SExpression → TOp v (ValAct v)
  | .binary op l r =>
    match op with
    | .lnd => binopTransformer .lor (transformerNeg l) (transformerNeg r)
    | .lor => binopTransformer .lnd (transformerNeg l) (transformerNeg r)
    | op =>
      match negOp op with
      | .ok op' => binopTransformer op' (transformer l) (transformer r)
      | .error e => Op.fail e
  | .unary op e =>
    match op with
    | .neg => transformer e
    | _ => Op.fail (.error "negExp: unsupported ")
  | _ => Op.fail (.error "negExp: unsupported ")

def getAddrsExpr : SExpression → AddrsOf v
  | .var id => fun st scope => st.getAddrs ⟨id, scope⟩
  | .unary op e =>
    match op with
    | .adr => getAddrsExpr e
    | _ => fun _ _ => .error (.error "get_addrs_expr: expr not supported")
  | .index lhs rhs => fun st scope => do
    match ← getAddrsExpr lhs st scope with
    | .top => return .top
    | .addrs l =>
      let (val, _) ← (transformer rhs (indexState st scope)).1
      let off ← val
      return .addrs (l.map (setOffset · off)).eraseDups
  | _ => fun _ _ => .error (.error "get_addrs_expr: expr not supported")

def transformerList : List SExpression → List (TOp v (ValAct v))
  | [] => []
  | e :: es => transformer e :: transformerList es

def addrsList : List SExpression → List (AddrsOf v)
  | [] => []
  | e :: es => getAddrsExpr e :: addrsList es

end

/-- `CNegOp` is the transformer of the negated expression. -/
theorem transformerNeg_eq : ∀ e e' : SExpression, negExp e = .ok e' →
    (transformerNeg e : TOp v (ValAct v)) = transformer e'
  | .binary .lnd l r, _, h => by
    obtain ⟨l', hl, h⟩ := bind_eq_ok.1 h
    obtain ⟨r', hr, h⟩ := bind_eq_ok.1 h
    obtain rfl := Except.ok.inj h
    simp only [transformerNeg, transformer, transformerNeg_eq l l' hl, transformerNeg_eq r r' hr]
  | .binary .lor l r, _, h => by
    obtain ⟨l', hl, h⟩ := bind_eq_ok.1 h
    obtain ⟨r', hr, h⟩ := bind_eq_ok.1 h
    obtain rfl := Except.ok.inj h
    simp only [transformerNeg, transformer, transformerNeg_eq l l' hl, transformerNeg_eq r r' hr]
  | .binary .le _ _, _, rfl => rfl
  | .binary .gr _ _, _, rfl => rfl
  | .binary .leq _ _, _, rfl => rfl
  | .binary .geq _ _, _, rfl => rfl
  | .binary .eq _ _, _, rfl => rfl
  | .binary .neq _ _, _, rfl => rfl
  | .unary .neg _, _, rfl => rfl

/-! ## Declarations (`Declaration.hs`) -/

def defaultValue (ty : List DerivedDeclr) : TOp v (List v × Act v) :=
  match ty with
  | [.arr sizeExpr] => do
    let (val, _) ← transformer sizeExpr
    let n ← TransValue.arraySize (← val)
    return (List.replicate n.toNat ToValue.zero, Act.bot)
  | _ => return ([ToValue.zero], Act.bot)

def writeCells (st : ProgState v) (cells : List (MemAddr v × v)) : Except DomErr (ProgState v) :=
  cells.foldr (fun p s => do (← s).writeMemoryAddr p.1 p.2) (.ok st)

/-- The state is written as it was before the initialiser was evaluated. -/
def transformerInit (id : SymId) (ty : List DerivedDeclr) (minit : Option Initializer) :
    TOp v (Act v) :=
  match minit with
  | none => do
    let t ← Op.get
    let (vals, iActs) ← defaultValue ty
    let cells := vals.zipIdx.map fun p => ((⟨id, ToValue.kVal p.2, t.scope⟩ : MemAddr v), p.1)
    let st' ← writeCells t.st cells
    setState st'
    return (Act.writeActAddr (.addrs (cells.map (·.1)))).join iActs
  | some (.initExpr expr) => do
    let t ← Op.get
    let (val, acts) ← transformer expr
    let idAddr : MemAddr v := ⟨id, ToValue.zero, t.scope⟩
    let st' ← t.st.writeMemoryAddr idAddr (← val)
    setState st'
    return acts.addWrites (.addrs [idAddr])
  | some .initList => Op.fail (.error "transformer_init: initializer list is not supported")

def transformerDecl : SDeclaration → TOp v (Act v)
  | .typeDecl => return Act.bot
  | .decl none none => return Act.bot
  | .decl none (some _) => Op.fail (.error "initializer w/ declarator")
  | .decl (some d) init =>
    match d.declrIdent with
    | none => Op.fail (.error "no identifier")
    | some id => transformerInit id d.declrType init

def transformerDecls (decls : List SDeclaration) : TOp v (Act v) :=
  decls.foldlM (fun a d => do
    let a' ← transformerDecl d
    return a.join a') Act.bot

/-! ## Systems (`System.hs`) and edges (`code_transformer`) -/

/-- What the front end hands over. -/
structure FrontEnd where
  decls : List SDeclaration
  cfgs : List (SymId × Graph)
  symt : List (SymId × String)

/-- Converts the front end into a system. -/
def convert (fe : FrontEnd) : Except DomErr (System (ProgState v) (Act v)) := do
  let (posMain, symMain) ← getEntry "main" fe.cfgs fe.symt
  let initTState : TState v :=
    ⟨.glob, ProgState.emptyState, some fe.symt, some fe.cfgs, false, 0, []⟩
  match transformerDecls fe.decls initTState with
  | (.error e, _) => throw e
  | (.ok acts, t) =>
    return ⟨t.st.setPos symMain.symId symMain posMain, acts, fe.cfgs, fe.symt⟩

/-- The transformer of an edge, with the one of the domain for expressions. -/
def edgeTransformer (transformerExpr : SExpression → TOp v (Act v)) (env : FixEnv)
    (pre post : NodeId) (info : EdgeInfo) (nodeSt : ProgState v) :
    Except DomErr (Act v × ProgState v × List Int) :=
  let trSt : TState v :=
    ⟨.loc env.tid, nodeSt, some env.symt, some env.cfgs, decide (.cond ∈ info.tags), pre, []⟩
  let op := match info.code with
    | .D decl => transformerDecl decl
    | .E expr => transformerExpr expr
  match op trSt with
  | (.error e, _) => .error e
  | (.ok acts, t) => .ok (acts, t.st.updatePc env.tid post, t.warns)

end Transformer

/-! ## Runs of a thread (`run_con`, `run_int` and the enabledness of both domains)

`fn` is the text that differs in their errors. The fuel bounds the worklist. -/

section Run

variable {v : Type} [DecidableEq v] [ToValue v] [LatticeM (ProgState v)]
  [Collapse (ProgState v) (Act v)]

def runProg (fn : String) (fuel : Nat) (mode : Bool) (wid : Int)
    (syst : System (ProgState v) (Act v)) (st : ProgState v) (tid : TId) :
    Except FixErr (List Int × ResultList (ProgState v) (Act v)) :=
  match st.thStates.lookup tid with
  | none => .error (.domain (.error (fn ++ ": tid not control")))
  | some th =>
    match syst.cfgs.lookup th.thCfgId with
    | none => .error (.domain (.error (fn ++ ": cant find thread ")))
    | some cfg => (fixpt fuel ⟨mode, tid, syst.cfgs, syst.symt, cfg, wid⟩ th.thPos st).1

def isEnabledProg (fn : String) (fuel : Nat) (syst : System (ProgState v) (Act v))
    (st : ProgState v) (tid : TId) : Except FixErr (Option (ProgState v)) := do
  let (_, res) ← runProg fn fuel false 10000 syst st tid
  match res with
  | [] => return none
  | [(s, _, _)] => return some s
  | _ => throw (.domain (.error "more than one state returned"))

end Run

end Poet
