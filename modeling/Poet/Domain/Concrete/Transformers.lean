import Poet.Domain.Concrete.Value

/-!
# The concrete semantics (`Domain/Concrete.hs`, `Concrete/Transformers/Expression.hs`)

Conditions are evaluated to a boolean, and an edge whose condition is not true gives the bottom
state. The node updates are all `strong_update`.
-/

namespace Poet

/-- `apply_logic`; other operators fall through its case. -/
def applyLogic [SimpleC] (op : BinaryOp) (lhs rhs : SExpression) : TOp ConValue (ValAct ConValue) := do
  let (lhsVals, lhsActs) ← transformer lhs
  let (rhsVals, rhsActs) ← transformer rhs
  let resVal : LazyVal ConValue := do
    let l ← lhsVals
    let r ← rhsVals
    match op with
    | .le => l.le r
    | .gr => l.gr r
    | .leq => l.leq r
    | .geq => l.geq r
    | .eq => l.eq r
    | .neq => l.neq r
    | .lnd => l.land r
    | .lor => l.lor r
    | _ => .error (.error "Expression.hs: Non-exhaustive patterns in case")
  return (resVal, lhsActs.join rhsActs)

/-- Evaluates logical expressions. -/
def boolTransformerExpr [SimpleC] : SExpression → TOp ConValue (ValAct ConValue)
  | .binary op lhs rhs => applyLogic op lhs rhs
  | .unary .neg rhs => do
    let (val, acts) ← boolTransformerExpr rhs
    let resVal : LazyVal ConValue := do (← val).neg
    return (resVal, acts)
  | .const k =>
    let resVal : LazyVal ConValue := do return .val (← SimpleC.toBoolVal k.toValue)
    return (resVal, Act.bot)
  | _ => Op.fail (.error "bool_transformer_expr: not supported ")

def transformerExprCon [SimpleC] (expr : SExpression) : TOp ConValue ConAct := do
  let t ← Op.get
  if t.cond then do
    let (val, act) ← boolTransformerExpr expr
    let t ← Op.get
    let val ← val
    setState (if val = .val (.bool true) then t.st else ProgState.bot)
    return act
  else do
    let (_, act) ← transformer expr
    return act

instance [SimpleC] : Collapse ConState ConAct where
  codeTransformer := edgeTransformer transformerExprCon
  weak := strongUpdate
  loopHead := strongUpdate

def runCon [SimpleC] : Nat → Bool → Int → System ConState ConAct → ConState → TId →
    Except FixErr (List Int × ResultList ConState ConAct) := runProg "run_con"

def isEnabledCon [SimpleC] : Nat → System ConState ConAct → ConState → TId → Except FixErr (Option ConState) :=
  isEnabledProg "run_con"

end Poet
