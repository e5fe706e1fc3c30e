import Poet.Domain.Action
import Poet.Domain.Interval.Type
import Poet.Language.Value

/-!
# Interval values (`Domain/Interval/Value.hs`)

`(<=)` is the only method of `Ord` the source gives; `compare`, `(<)` and `(>)` are the defaults of
the class, in terms of `(==)` and `(<=)`. On intervals `(<=)` is inclusion, so two disjoint keys
compare as `GT` both ways.

`IntMemAddr` is left out: no function of the repository builds one. `top`, `abs`, `signum` and the
`interval_diff` family are not used by anything either.
-/

namespace Poet

inductive IntValue where
  | top
  | bot
  /-- A list of plain values. -/
  | val (l : List Value)
  | interVal (a b : InterVal)
deriving DecidableEq, Repr

abbrev IntAct := Act IntValue
abbrev IntMAddr := MemAddr IntValue
abbrev IntMAddrs := MemAddrs IntValue

instance : ToValue IntValue := ⟨fun n => .interVal (.i n) (.i n)⟩

namespace IntValue

/-- `(<=)` (`Value.hs:52`). -/
def le : IntValue → IntValue → Bool
  | .val l, .val m => l.all (· ∈ m)
  | .interVal a b, .interVal c d => c ≤ a && b ≤ d
  | .bot, _ => true
  | .top, .interVal a b => a = .minusInf && b = .plusInf
  | _, .top => true
  | _, _ => false

/-- The default `compare` of `Ord`. -/
def cmp (a b : IntValue) : Ordering :=
  if a = b then .eq else if a.le b then .lt else .gt

def lt (a b : IntValue) : Bool := a.cmp b = .lt

def gt (a b : IntValue) : Bool := a.cmp b = .gt

theorem lt_iff {k l : IntValue} : k.lt l = true ↔ k ≠ l ∧ k.le l = true := by
  by_cases h : k = l <;> by_cases h' : k.le l = true <;> simp [lt, cmp, h, h']

theorem gt_iff {k l : IntValue} : k.gt l = true ↔ k ≠ l ∧ ¬ k.le l = true := by
  by_cases h : k = l <;> by_cases h' : k.le l = true <;> simp [gt, cmp, h, h']

theorem interVal_le {a b c d : InterVal} :
    (interVal a b).le (interVal c d) = true ↔ c ≤ a ∧ b ≤ d := by
  simp [le]

def join : IntValue → IntValue → Except DomErr IntValue
  | .bot, b => .ok b
  | a, .bot => .ok a
  | .top, _ => .ok .top
  | _, .top => .ok .top
  | .val l, .val m => .ok (.val (l ++ m).eraseDups)
  | .interVal a b, .interVal c d => .ok (.interVal (min a c) (max b d))
  | _, _ => .error (.error "join unsupported: ")

def meet : IntValue → IntValue → Except DomErr IntValue
  | .bot, _ => .ok .bot
  | _, .bot => .ok .bot
  | .top, b => .ok b
  | a, .top => .ok a
  | .val l, .val m => .ok (.val (l ∩ m))
  | .interVal a b, .interVal c d =>
    if min b d < max a c then .ok .bot else .ok (.interVal (max a c) (min b d))
  | _, _ => .error (.error "meet unsupported: ")

def widen (v1 v2 : IntValue) : Except DomErr IntValue :=
  if v1 = v2 then .ok v1 else
    match v1, v2 with
    | .interVal a b, .interVal c d =>
      .ok (.interVal (if c < a then .minusInf else a) (if b < d then .plusInf else b))
    | _, _ => .error (.error "widen: not supported IntVals = ")

/-- `joinL` (`Lattice.hs`). -/
def joinL : List IntValue → Except DomErr IntValue
  | [] => .error (.error "joinL: empty list")
  | [v] => .ok v
  | v :: vs => do v.join (← joinL vs)

/-- A binary operation of `Num`: it is strict in `IntBot` and then in `IntTop`, works bound by bound
on intervals and pair by pair on lists of values. -/
def arith (text : String)
    (onBounds : InterVal → InterVal → InterVal → InterVal → Except DomErr IntValue)
    (onValues : Value → Value → Except DomErr Value) : IntValue → IntValue → Except DomErr IntValue
  | .bot, _ => .ok .bot
  | _, .bot => .ok .bot
  | .top, _ => .ok .top
  | _, .top => .ok .top
  | .interVal a b, .interVal c d => onBounds a b c d
  | .val l, .val m => do
    let vs ← (l.flatMap fun x => m.map fun y => (x, y)).mapM' fun p => onValues p.1 p.2
    return .val vs
  | _, _ => .error (.error text)

section Arithmetic

variable [HostInt] [SimpleC]

def add : IntValue → IntValue → Except DomErr IntValue :=
  arith "plusValue: non interval"
    (fun a b c d => do return .interVal (← a.plusIVal c) (← b.plusIVal d))
    SimpleC.addValue

/-- `[a,b] * [c,d]` is bounded by the least and the greatest of the four products. -/
def mul : IntValue → IntValue → Except DomErr IntValue :=
  arith "multValue: non interval"
    (fun a b c d => do
      let ac ← a.mulIVal c
      let ad ← a.mulIVal d
      let bc ← b.mulIVal c
      let bd ← b.mulIVal d
      return .interVal (min (min (min ac ad) bc) bd) (max (max (max ac ad) bc) bd))
    SimpleC.multValue

def sub : IntValue → IntValue → Except DomErr IntValue :=
  arith "subValue: non interval"
    (fun a b c d => do return .interVal (← a.subIVal d) (← b.subIVal c))
    SimpleC.subValue

/-- `negate` (`Value.hs:130`): each bound is negated and stays in its place. -/
def negate : IntValue → Except DomErr IntValue
  | .bot => .ok .bot
  | .top => .ok .top
  | .interVal a b => do return .interVal (← a.negateIVal) (← b.negateIVal)
  | .val l => do return .val (← l.mapM' SimpleC.minusValue)

/-- `interval_div`: the divisor is on one side of zero. -/
def intervalDiv : IntValue → IntValue → Except DomErr IntValue
  | .bot, _ => .ok .bot
  | _, .bot => .ok .bot
  | .top, _ => .ok .top
  | _, .top => .ok .top
  | .interVal a b, .interVal c d => do
    let ac ← a.divide c
    let ad ← a.divide d
    let bc ← b.divide c
    let bd ← b.divide d
    if InterVal.i 1 ≤ c then return .interVal (min ac ad) (max bc bd)
    else if d ≤ InterVal.i (-1) then return .interVal (min bc bd) (max ac ad)
    else throw (.error "interval_div: ?")
  | _, _ => .error (.error "interval_div: not supported")

def iDivide : IntValue → IntValue → Except DomErr IntValue
  | .bot, _ => .ok .bot
  | _, .bot => .ok .bot
  | .top, _ => .ok .top
  | _, .top => .ok .top
  | .val l, .val m => do
    let vs ← (l.flatMap fun x => m.map fun y => (x, y)).mapM' fun p => SimpleC.divValue p.1 p.2
    return .val vs
  | v1, v2 => do
    let pos ← v1.intervalDiv (← v2.meet (.interVal (.i 1) .plusInf))
    let neg ← v1.intervalDiv (← v2.meet (.interVal .minusInf (.i (-1))))
    pos.join neg

end Arithmetic

def upperBound : IntValue → Except DomErr InterVal
  | .bot => .error (.error "upperBound: IntBot")
  | .interVal _ b => .ok b
  | .top => .ok .plusInf
  | .val l =>
    -- `VInt` is the least constructor: the maximum is one only if there is nothing else
    match (l.mapM' Value.int?).bind List.max? with
    | some n => .ok (.i n)
    | none => .error (.error "upperBound: unsupported IntVal ")

def lowerBound : IntValue → Except DomErr InterVal
  | .bot => .error (.error "lowerBound")
  | .top => .ok .minusInf
  | .interVal a _ => .ok a
  | .val l =>
    match (l.filterMap Value.int?).min? with
    | some n => .ok (.i n)
    | none => .error (.error "lowerBound: unsupported IntVal ")

/-- `diff_intval`: the part of the first interval above the second. -/
def diffIntval [HostInt] : IntValue → IntValue → Except DomErr IntValue
  | .interVal _ u, .interVal _ l => do return .interVal (← l.plusIVal (.i 1)) u
  | _, _ => .error (.error "Value.hs: Non-exhaustive patterns in function diff_intval")

end IntValue

end Poet
