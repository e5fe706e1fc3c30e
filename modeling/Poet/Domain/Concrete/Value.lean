import Poet.Domain.Layout
import Poet.Language.Value

/-!
# Concrete values and states (`Domain/Concrete/{Value,State,API}.hs`)

A concrete value is a value of the front end or `ConBot`; no function of the repository builds a
`ConMemAddr` or a `ConArr`. States are those of `ProgState`; a region maps plain offsets to values.
-/

namespace Poet

inductive ConValue where
  | val (v : Value)
  | bot
deriving DecidableEq, Repr

/-- The derived order of `Value`: by constructor, then by content. -/
def Value.before : Value → Value → Bool
  | .int a, .int b => a < b
  | .int _, _ => true
  | .bool a, .bool b => !a && b
  | .bool _, .other _ => true
  | .other a, .other b => a < b
  | _, _ => false

namespace ConValue

def before : ConValue → ConValue → Bool
  | .val a, .val b => a.before b
  | .val _, .bot => true
  | .bot, _ => false

/-- An operation on two values that are not bottom. -/
def lift₂ (text : String) (f : Value → Value → Except DomErr Value) :
    ConValue → ConValue → Except DomErr ConValue
  | .val a, .val b => do return .val (← f a b)
  | _, _ => .error (.error text)

section FrontEnd

variable [SimpleC]

def add : ConValue → ConValue → Except DomErr ConValue := lift₂ "add_conval: not ConVal" SimpleC.addValue
def mul : ConValue → ConValue → Except DomErr ConValue := lift₂ "mult_ConVal: not ConVal" SimpleC.multValue
def sub : ConValue → ConValue → Except DomErr ConValue := lift₂ "sub_ConVal: not ConVal" SimpleC.subValue
def divs : ConValue → ConValue → Except DomErr ConValue := lift₂ "div_ConVal: not ConVal" SimpleC.divValue
def rmdr : ConValue → ConValue → Except DomErr ConValue := lift₂ "rmdr_ConVal: not ConVal" SimpleC.rmdValue
def le : ConValue → ConValue → Except DomErr ConValue := lift₂ "le_conval: not conVal" SimpleC.leValue
def gr : ConValue → ConValue → Except DomErr ConValue := lift₂ "gr_conval: not conVal" SimpleC.grValue

def leq : ConValue → ConValue → Except DomErr ConValue :=
  lift₂ "leq_conval: not conVal" fun a b => do
    SimpleC.lorValue (← SimpleC.leValue a b) (← SimpleC.eqValue a b)

def geq : ConValue → ConValue → Except DomErr ConValue :=
  lift₂ "geq_conval: not conVal" fun a b => do
    SimpleC.lorValue (← SimpleC.grValue a b) (← SimpleC.eqValue a b)

def eq : ConValue → ConValue → Except DomErr ConValue :=
  lift₂ "eq_conval: not conVal" SimpleC.eqValue

def neq : ConValue → ConValue → Except DomErr ConValue :=
  lift₂ "neq_conval: not conVal" fun a b => do SimpleC.negValue (← SimpleC.eqValue a b)

def land : ConValue → ConValue → Except DomErr ConValue := lift₂ "neq_conval: not conVal" SimpleC.landValue
def lor : ConValue → ConValue → Except DomErr ConValue := lift₂ "neq_conval: not conVal" SimpleC.lorValue

def minus : ConValue → Except DomErr ConValue
  | .val a => do return .val (← SimpleC.minusValue a)
  | .bot => .error (.error "minus_conval: not ConVal")

/-- `negate`. -/
def neg : ConValue → Except DomErr ConValue
  | .val a => do return .val (← SimpleC.negValue a)
  | .bot => .error (.error "Value.hs: Non-exhaustive patterns in case")

/-- The compound assignments of `assign_transformer`. -/
def assignOp : AssignOp → ConValue → ConValue → Except DomErr ConValue
  | .mul => mul
  | .div => divs
  | .rmd => rmdr
  | .add => add
  | .sub => sub
  | _ => fun _ _ => .error (.error "assign_transformer: not supported")

/-- The operations of `binop_transformer`. -/
def binOp : BinaryOp → ConValue → ConValue → Except DomErr ConValue
  | .mul => mul
  | .div => divs
  | .rmd => rmdr
  | .add => add
  | .sub => sub
  | .shl => fun _ _ => .error (.error "binop_transformer: CShlOp not supported")
  | .shr => fun _ _ => .error (.error "binop_transformer: CShrOp not supported")
  | .xor => fun _ _ => .error (.error "binop_transformer: CXorOp not supported")
  | .le => le
  | .gr => gr
  | .leq => leq
  | .geq => geq
  | .eq => eq
  | .neq => neq
  | .lnd => land
  | .lor => lor
  | .and => fun _ _ => .error (.error "binop_tranformer: not completed ")
  | .or => fun _ _ => .error (.error "binop_tranformer: not completed ")

variable (hops : IntegerOps) (n m : Int)
include hops

theorem add_int : (val (.int n)).add (.val (.int m)) = .ok (.val (.int (n + m))) := by
  simp [add, lift₂, hops.add]

theorem sub_int : (val (.int n)).sub (.val (.int m)) = .ok (.val (.int (n - m))) := by
  simp [sub, lift₂, hops.sub]

theorem mul_int : (val (.int n)).mul (.val (.int m)) = .ok (.val (.int (n * m))) := by
  simp [mul, lift₂, hops.mult]

theorem minus_int : (val (.int n)).minus = .ok (.val (.int (-n))) := by
  simp [minus, hops.minus]

end FrontEnd

/-- A place in memory has one value. -/
def single (fn : String) : List ConValue → Except DomErr ConValue
  | [v] => .ok v
  | _ => .error (.error (fn ++ ": error"))

end ConValue

abbrev ConAct := Act ConValue
abbrev ConOffs := Offs ConValue
abbrev ConHeap := Memory ConValue
abbrev ConState := ProgState ConValue

instance : ToValue ConValue := ⟨fun n => .val (.int n)⟩

instance : OrdKey ConValue := ⟨ConValue.before⟩

/-- A region is read at an offset that it has, and written at any. -/
instance : Region ConValue where
  read offs off :=
    match offs.lookup off with
    | some val => .ok (some val)
    | none => .error (.error "read_addr_from_region: ")
  write offs off val := .ok (offs.insert off val)

theorem writeOffs_con {oc oc' : ConOffs} {ks : List ConValue} {w : ConValue}
    (h : ProgState.writeOffs oc ks w = .ok oc') (off : ConValue) :
    oc'.lookup off = if off ∈ ks then some w else oc.lookup off := by
  induction ks generalizing oc' with
  | nil =>
    obtain rfl := Except.ok.inj h
    simp
  | cons k ks ih =>
    obtain ⟨o, ho, h⟩ := bind_eq_ok.1 h
    obtain rfl := Except.ok.inj h
    rw [OrdMap.lookup_insert, ih ho]
    by_cases hk : off = k <;> simp [hk]

instance [SimpleC] : TransValue ConValue where
  void := ToValue.zero
  pick := ConValue.single
  constVal k := .ok (.val k)
  assignOp := ConValue.assignOp
  binOp := ConValue.binOp
  minus := ConValue.minus
  preInc := true
  tidVal tid := .val (.int tid)
  tidOf
    | .val (.int tid) => some tid
    | _ => none
  threadArg := true
  nondet := none
  arraySize
    | .val (.int n) => .ok n
    | _ => .error (.error "default_value: unsupported value for size expression")

instance : LatticeM ConState where
  join _ _ := .error (.error "join  for ConState")
  leq a b := .ok (a = b)
  isBot s := s.isBot
  widen _ _ := .error (.error "widen for ConState")

end Poet
