import Poet.Model.GCS

/-!
# The functions of the front end (`Language.SimpleC.Util`, outside the repository)

The transformers of the two domains call these functions of the front end. Their code is not part of
the repository, so they are parameters of the model: an instance of `SimpleC` gives each of them, and
a result that depends on what they do says so (`IntegerOps`). `SimpleC.integers` is an instance on
which programs can be run.
-/

namespace Poet

/-- What the repository calls and does not have. A call may end in an `error`. -/
class SimpleC where
  addValue : Value → Value → Except DomErr Value
  subValue : Value → Value → Except DomErr Value
  multValue : Value → Value → Except DomErr Value
  divValue : Value → Value → Except DomErr Value
  rmdValue : Value → Value → Except DomErr Value
  minusValue : Value → Except DomErr Value
  leValue : Value → Value → Except DomErr Value
  grValue : Value → Value → Except DomErr Value
  eqValue : Value → Value → Except DomErr Value
  negValue : Value → Except DomErr Value
  landValue : Value → Value → Except DomErr Value
  lorValue : Value → Value → Except DomErr Value
  toBoolVal : Value → Except DomErr Value
  /-- The name of a symbol in the symbol table. -/
  getSymbolName : SymId → List (SymId × String) → Except DomErr String
  /-- The symbol that a function argument names. -/
  getExprId : SExpression → Except DomErr SymId

export SimpleC (getSymbolName getExprId)

/-- Addition, subtraction, multiplication and negation of `VInt`s are those of the integers. -/
structure IntegerOps [SimpleC] : Prop where
  add : ∀ a b, SimpleC.addValue (.int a) (.int b) = .ok (.int (a + b))
  sub : ∀ a b, SimpleC.subValue (.int a) (.int b) = .ok (.int (a - b))
  mult : ∀ a b, SimpleC.multValue (.int a) (.int b) = .ok (.int (a * b))
  minus : ∀ a, SimpleC.minusValue (.int a) = .ok (.int (-a))

namespace Value

/-- The integer of a value, for `maximum` and `minimum` over values. -/
def int? : Value → Option Int
  | .int n => some n
  | _ => none

/-- An operation that is only defined on two integers. -/
def onInts (name : String) (f : Int → Int → Value) : Value → Value → Except DomErr Value
  | .int a, .int b => .ok (f a b)
  | _, _ => .error (.error name)

/-- An operation on two integers of which the second is not zero. -/
def onNonZero (name : String) (f : Int → Int → Int) : Value → Value → Except DomErr Value
  | .int a, .int b => if b = 0 then .error (.error "divide by zero") else .ok (.int (f a b))
  | _, _ => .error (.error name)

/-- An operation that is only defined on two booleans. -/
def onBools (name : String) (f : Bool → Bool → Bool) : Value → Value → Except DomErr Value
  | .bool a, .bool b => .ok (.bool (f a b))
  | _, _ => .error (.error name)

end Value

/-- The symbol of a variable or of its address. -/
def SExpression.symbol? : SExpression → Except DomErr SymId
  | .var id => .ok id
  | .unary .adr e => e.symbol?
  | _ => .error (.error "get_expr_id")

/-- Integer arithmetic and comparison on `VInt`, boolean connectives on `VBool`, an `error` on every
other pair of values, and the symbol table read by its keys. -/
@[reducible] def SimpleC.integers : SimpleC where
  addValue := Value.onInts "add_value" fun a b => .int (a + b)
  subValue := Value.onInts "sub_value" fun a b => .int (a - b)
  multValue := Value.onInts "mult_value" fun a b => .int (a * b)
  divValue := Value.onNonZero "div_value" Int.fdiv
  rmdValue := Value.onNonZero "rmd_value" Int.fmod
  minusValue
    | .int a => .ok (.int (-a))
    | _ => .error (.error "minus_value")
  leValue := Value.onInts "le_value" fun a b => .bool (a < b)
  grValue := Value.onInts "gr_value" fun a b => .bool (b < a)
  eqValue a b := .ok (.bool (a = b))
  negValue
    | .bool b => .ok (.bool (!b))
    | _ => .error (.error "neg_value")
  landValue := Value.onBools "land_value" (· && ·)
  lorValue := Value.onBools "lor_value" (· || ·)
  toBoolVal
    | .int n => .ok (.bool (n ≠ 0))
    | .bool b => .ok (.bool b)
    | .other _ => .error (.error "toBoolVal")
  getSymbolName ident sym :=
    match sym.lookup ident with
    | some name => .ok name
    | none => .error (.error "get_symbol_name")
  getExprId := SExpression.symbol?

theorem integerOps_integers : @IntegerOps SimpleC.integers :=
  @IntegerOps.mk SimpleC.integers (fun _ _ => rfl) (fun _ _ => rfl) (fun _ _ => rfl) fun _ => rfl

end Poet
