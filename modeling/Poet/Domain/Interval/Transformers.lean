import Poet.Domain.Interval.State
import Poet.Domain.Transformer

/-!
# Transformers of the interval semantics (`Domain/Interval/Transformers/`)

What the interval transformers of expressions and declarations do in their own way, and the filter
for conditions (`Expression.hs`). A condition narrows the variables it compares: the state is changed
by each comparison in turn, also under `||` and in the two halves of `!=`.

`CNegOp` negates the condition first. Here the condition is walked with its sign instead
(`boolTransformerNeg_eq`).
-/

namespace Poet

variable [SimpleC] [HostInt]

namespace IntValue

/-- The compound assignments of `assign_transformer`. -/
def assignOp : AssignOp → IntValue → IntValue → Except DomErr IntValue
  | .mul => mul
  | .div => iDivide
  | .rmd => fun _ _ => .error (.error "mod not supported")
  | .add => add
  | .sub => sub
  | _ => fun _ _ => .error (.error "assign_transformer: not supported")

/-- The operations of `binop_transformer`. -/
def binOp : BinaryOp → IntValue → IntValue → Except DomErr IntValue
  | .mul => mul
  | .div => iDivide
  | .rmd => fun _ _ => .error (.error "mod not supported for intervals")
  | .add => add
  | .sub => sub
  | .shl => fun _ _ => .error (.error "binop_transformer: CShlOp not supported")
  | .shr => fun _ _ => .error (.error "binop_transformer: CShrOp not supported")
  | .xor => fun _ _ => .error (.error "binop_transformer: CXorOp not supported")
  | .lnd => fun _ _ => .error (.error "binop_transformer: CLndOp not supported")
  | .lor => fun _ _ => .error (.error "binop_transformer: CLorOp not supported")
  | _ => fun _ _ => .error (.error "binop_transtranformer: not completed")

/-- The value of `__VERIFIER_nondet_int`. -/
def nondet : IntValue → IntValue → Except DomErr IntValue
  | .val [.int l], .val [.int u] => .ok (.interVal (.i l) (.i u))
  | l, u => l.join u

end IntValue

instance : TransValue IntValue where
  void := .val []
  pick _ := IntValue.joinL
  constVal
    | .int n => .ok (.interVal (.i n) (.i n))
    | _ => .error (.error "const_transformer: not supported non-int constants")
  assignOp := IntValue.assignOp
  binOp := IntValue.binOp
  minus e := (IntValue.interVal (.i 0) (.i 0)).sub e
  preInc := false
  tidVal tid := .val [.int tid]
  tidOf
    | .val [.int tid] => some tid
    | _ => none
  threadArg := false
  nondet := some IntValue.nondet
  arraySize
    | .interVal (.i n) (.i m) =>
      if n = m then .ok n
      else .error (.error "default_value: unsupported interval for size expression")
    | _ => .error (.error "default_value: unsupported value for size expression")

/-! ## Conditions -/

def canGetAddrsExpr : SExpression → Bool
  | .var _ => true
  | .unary .adr _ => true
  | .index _ _ => true
  | _ => false

/-- The value and the actions of a condition; the value has been looked at. -/
abbrev CondAct := IntValue × IntAct

/-- Writes the part of a value that a comparison leaves, if the expression has an address in `st`. -/
def narrow (st : IntState) (scope : Scope) (expr : SExpression) (nval : IntValue) (into : IntState) :
    Except DomErr (IntState × IntAct) :=
  if canGetAddrsExpr expr then do
    let addrs ← getAddrsExpr expr st scope
    return (← into.writeMemory addrs nval, Act.writeActAddr addrs)
  else return (into, Act.bot)

def intervalLeq (lhs rhs : SExpression) : TOp IntValue CondAct := do
  let (lhsVal, lhsAct) ← transformer lhs
  let (rhsVal, rhsAct) ← transformer rhs
  let lhsVal ← lhsVal
  let rhsVal ← rhsVal
  let acts := lhsAct.join rhsAct
  if lhsVal = .bot ∨ rhsVal = .bot then return (.bot, acts)
  else do
    let a ← lhsVal.lowerBound
    let d ← rhsVal.upperBound
    if d < a then return (.bot, acts)
    else do
      let t ← Op.get
      let b ← lhsVal.upperBound
      let c ← rhsVal.lowerBound
      let lhsNval := .interVal a (min b d)
      let rhsNval := .interVal (max a c) d
      let (lhsSt, lhsNact) ← narrow t.st t.scope lhs lhsNval t.st
      let (rhsSt, rhsNact) ← narrow t.st t.scope rhs rhsNval lhsSt
      setState rhsSt
      return (lhsNval, (acts.join lhsNact).join rhsNact)

/-- `CLndOp` in `apply_logic`. -/
def applyAnd (lhs rhs : TOp IntValue CondAct) : TOp IntValue CondAct := do
  let (lhsVal, lhsAct) ← lhs
  let (rhsVal, rhsAct) ← rhs
  let acts := lhsAct.join rhsAct
  if lhsVal ≠ .bot ∧ rhsVal ≠ .bot then do
    let val ← lhsVal.join rhsVal
    return (val, acts)
  else return (.bot, acts)

/-- `CLorOp` in `apply_logic`. -/
def applyOr (lhs rhs : TOp IntValue CondAct) : TOp IntValue CondAct := do
  let (lhsVal, lhsAct) ← lhs
  let (rhsVal, rhsAct) ← rhs
  return (if lhsVal ≠ .bot then lhsVal else rhsVal, lhsAct.join rhsAct)

/-- The constant 1 of `apply_logic`. -/
def constOne : SExpression := .const ⟨.int 1⟩

/-- `apply_logic` on a comparison; other operators fall through its case. -/
def applyCompare (op : BinaryOp) (lhs rhs : SExpression) : TOp IntValue CondAct :=
  match op with
  -- e1 < e2 ~> e1 <= (e2 - 1)
  | .le => intervalLeq lhs (.binary .sub rhs constOne)
  -- e1 > e2 ~> e2 + 1 <= e1
  | .gr => intervalLeq (.binary .add rhs constOne) lhs
  | .leq => intervalLeq lhs rhs
  | .geq => intervalLeq rhs lhs
  | .eq => applyAnd (intervalLeq lhs rhs) (intervalLeq rhs lhs)
  | .neq =>
    applyOr (intervalLeq lhs (.binary .sub rhs constOne)) (intervalLeq rhs (.binary .sub lhs constOne))
  | _ => Op.fail (.error "Expression.hs: Non-exhaustive patterns in case")

mutual

def boolTransformerInt : SExpression → TOp IntValue CondAct
  | .binary op lhs rhs =>
    match op with
    | .lnd => applyAnd (boolTransformerInt lhs) (boolTransformerInt rhs)
    | .lor => applyOr (boolTransformerInt lhs) (boolTransformerInt rhs)
    | op => applyCompare op lhs rhs
  | .unary op rhs =>
    match op with
    | .neg => boolTransformerNeg rhs
    | _ => Op.fail (.error "bool_transformer_expr: not supported ")
  | _ => Op.fail (.error "bool_transformer_expr: not supported ")

/-- The transformer of the negated condition. -/
def boolTransformerNeg : SExpression → TOp IntValue CondAct
  | .binary op lhs rhs =>
    match op with
    | .lnd => applyOr (boolTransformerNeg lhs) (boolTransformerNeg rhs)
    | .lor => applyAnd (boolTransformerNeg lhs) (boolTransformerNeg rhs)
    | op =>
      match negOp op with
      | .ok op' => applyCompare op' lhs rhs
      | .error e => Op.fail e
  | .unary op rhs =>
    match op with
    | .neg => boolTransformerInt rhs
    | _ => Op.fail (.error "negExp: unsupported ")
  | _ => Op.fail (.error "negExp: unsupported ")

end

/-- `CNegOp` is the transformer of the negated condition. -/
theorem boolTransformerNeg_eq : ∀ e e' : SExpression, negExp e = .ok e' →
    boolTransformerNeg e = boolTransformerInt e'
  | .binary .lnd l r, _, h => by
    obtain ⟨l', hl, h⟩ := bind_eq_ok.1 h
    obtain ⟨r', hr, h⟩ := bind_eq_ok.1 h
    obtain rfl := Except.ok.inj h
    simp only [boolTransformerNeg, boolTransformerInt, boolTransformerNeg_eq l l' hl,
      boolTransformerNeg_eq r r' hr]
  | .binary .lor l r, _, h => by
    obtain ⟨l', hl, h⟩ := bind_eq_ok.1 h
    obtain ⟨r', hr, h⟩ := bind_eq_ok.1 h
    obtain rfl := Except.ok.inj h
    simp only [boolTransformerNeg, boolTransformerInt, boolTransformerNeg_eq l l' hl,
      boolTransformerNeg_eq r r' hr]
  | .binary .le _ _, _, rfl => rfl
  | .binary .gr _ _, _, rfl => rfl
  | .binary .leq _ _, _, rfl => rfl
  | .binary .geq _ _, _, rfl => rfl
  | .binary .eq _ _, _, rfl => rfl
  | .binary .neq _ _, _, rfl => rfl
  | .unary .neg _, _, rfl => rfl

def transformerExprInt (expr : SExpression) : TOp IntValue IntAct := do
  let t ← Op.get
  if t.cond then do
    let (val, act) ← boolTransformerInt expr
    let t ← Op.get
    setState (if val = .bot then ProgState.bot else t.st)
    return act
  else do
    let (_, act) ← transformer expr
    return act

end Poet
