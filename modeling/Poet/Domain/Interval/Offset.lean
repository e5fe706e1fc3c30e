import Poet.Domain.Interval.Value

/-!
# Lists of interval offsets (`Domain/Interval/Offset.hs`)

The cells of a memory region, as pairs of an interval of offsets and a value, in increasing order.
`genIntvalList` walks two such lists at once and cuts their keys against each other; join, widening
and the write of one cell are all instances of it.

## The shape of the recursion

Both functions of the source shorten one of the two lists in every call, but may give the other the
remainder of its head back, so neither list is a structural argument. They are written here as two
nested loops: the outer one runs over the first list, and for its head, whose key and value may
change, an inner one runs over the second list. `rest` is the outer loop on the tail of the first
list, and the inner loop calls itself where the source keeps the head of the first list: with this
`rest`, the inner loop is the function itself on the list with that head (`subsumesHead_eq`,
`genHead_eq`).

The values are a type variable: `genIntvalList` only hands them to `fn`. Where `fn` can call `error`
(join and widening of values do) the values are computations, forced at the end (`forceOffs`).
-/

namespace Poet

/-- `IntOffsList` (`Offset.hs:27`), with any type of values. -/
abbrev OffsList (ν : Type) := List (IntValue × ν)

variable [HostInt]

/-- The loop of `subsumesIntvalList` for a head `(a1, v1)` of the first list. -/
def subsumesHead (rest : OffsList IntValue → Except DomErr Bool) :
    IntValue → IntValue → OffsList IntValue → Except DomErr Bool
  | _, _, [] => .ok true
  | a1, v1, (b1, u1) :: x2 =>
    if v1.lt u1 then .ok false
    else if a1 = b1 then rest x2
    else if a1.lt b1 then do
      let b' ← b1.diffIntval a1
      rest ((b', u1) :: x2)
    else if a1.gt b1 then do
      let a' ← a1.diffIntval b1
      subsumesHead rest a' v1 x2
    else .ok false

/-- `x1 >= x2` (`Offset.hs:39`). -/
def subsumesIntvalList : OffsList IntValue → OffsList IntValue → Except DomErr Bool
  | [], [] => .ok true
  | [], _ :: _ => .ok false
  | (a1, v1) :: x1, x2 => subsumesHead (subsumesIntvalList x1) a1 v1 x2

theorem subsumesHead_eq (a1 v1 : IntValue) (x1 x2 : OffsList IntValue) :
    subsumesHead (subsumesIntvalList x1) a1 v1 x2 = subsumesIntvalList ((a1, v1) :: x1) x2 := rfl

variable {ν : Type}

/-- The loop of `genIntvalList` for a head `(a, v)` of the first list, with tail `x1`. The numbers
are those of the source's comments. -/
def genHead (fn : ν → ν → ν) (x1 : OffsList ν) (rest : OffsList ν → Except DomErr (OffsList ν)) :
    IntValue → ν → OffsList ν → Except DomErr (OffsList ν)
  | a, v, [] => .ok ((a, v) :: x1)
  | a, v, (b, u) :: x2 =>
    match a, b with
    | .interVal a1 a2, .interVal b1 b2 =>
      match compare a1 b1 with
      -- 1. a1 == b1
      | .eq => match compare a2 b2 with
        -- i. a2 == b2
        | .eq => do
          return (a, fn v u) :: (← rest x2)
        -- ii. a2 < b2
        | .lt => do
          let b' := .interVal (← a2.plusIVal (.i 1)) b2
          return (a, fn v u) :: (← rest ((b', u) :: x2))
        -- iii. a2 > b2
        | .gt => do
          let a' := .interVal (← b2.plusIVal (.i 1)) a2
          return (b, fn v u) :: (← genHead fn x1 rest a' v x2)
      -- 2. a1 < b1
      | .lt => match compare a2 b2 with
        -- i. a2 == b2
        | .eq => do
          let a' := .interVal a1 (← b1.subIVal (.i 1))
          return (a', v) :: (b, fn v u) :: (← rest x2)
        -- ii. a2 < b2
        | .lt => match compare a2 b1 with
          -- a. a2 < b1
          | .lt => do
            return (a, v) :: (← rest ((b, u) :: x2))
          -- b. a2 >= b1
          | _ => do
            let a' := .interVal a1 (← b1.subIVal (.i 1))
            let ab := .interVal b1 a2
            let b' := .interVal (← a2.plusIVal (.i 1)) b2
            return (a', v) :: (ab, fn v u) :: (← rest ((b', v) :: x2))
        -- iii. a2 > b2
        | .gt => do
          let ab := .interVal a1 (← b1.subIVal (.i 1))
          let a' := .interVal (← b2.plusIVal (.i 1)) a2
          return (ab, v) :: (b, fn v u) :: (← genHead fn x1 rest a' u x2)
      -- 3. b1 < a1
      | .gt => match compare b2 a2 with
        -- i. b2 == a2
        | .eq => do
          let b' := .interVal b1 (← a1.subIVal (.i 1))
          return (b', u) :: (a, fn v u) :: (← rest x2)
        -- ii. b2 < a2
        | .lt => match compare b2 a1 with
          -- a. b2 < a1
          | .lt => do
            return (b, u) :: (← genHead fn x1 rest a v x2)
          -- b. b2 >= a1
          | _ => do
            let b' := .interVal b1 (← a1.subIVal (.i 1))
            let ba := .interVal a1 b2
            let a' := .interVal (← b2.plusIVal (.i 1)) a2
            return (b', u) :: (ba, fn v u) :: (← genHead fn x1 rest a' u x2)
        -- iii. b2 > a2
        | .gt => do
          let ba := .interVal b1 (← a1.subIVal (.i 1))
          let b' := .interVal (← a2.plusIVal (.i 1)) b2
          return (ba, u) :: (a, fn v u) :: (← rest ((b', v) :: x2))
    | _, _ => .error (.error "Offset.hs: Non-exhaustive patterns in case")

/-- `gen_intval_list` (`Offset.hs:57`). -/
def genIntvalList (fn : ν → ν → ν) : OffsList ν → OffsList ν → Except DomErr (OffsList ν)
  | [], x2 => .ok x2
  | (a, v) :: x1, x2 => genHead fn x1 (genIntvalList fn x1) a v x2

theorem genHead_eq (fn : ν → ν → ν) (a : IntValue) (v : ν) (x1 x2 : OffsList ν) :
    genHead fn x1 (genIntvalList fn x1) a v x2 = genIntvalList fn ((a, v) :: x1) x2 := rfl

@[simp] theorem genIntvalList_nil_left (fn : ν → ν → ν) (x2 : OffsList ν) :
    genIntvalList fn [] x2 = .ok x2 := rfl

@[simp] theorem genIntvalList_nil_right (fn : ν → ν → ν) (x1 : OffsList ν) :
    genIntvalList fn x1 [] = .ok x1 := by
  cases x1 <;> rfl

/-- Forces the values of a list. -/
def forceOffs (x : OffsList (Except DomErr IntValue)) : Except DomErr (OffsList IntValue) :=
  x.mapM' fun p => do return (p.1, ← p.2)

/-- `gen_intval_list` with a function that can call `error`. -/
def genIntvalListM (fn : IntValue → IntValue → Except DomErr IntValue) (x1 x2 : OffsList IntValue) :
    Except DomErr (OffsList IntValue) := do
  let x ← genIntvalList (fun v u => do fn (← v) (← u))
    (x1.map fun p => (p.1, .ok p.2)) (x2.map fun p => (p.1, .ok p.2))
  forceOffs x

/-! `Lattice IntOffsList` (`Offset.hs:120`). -/

def joinOffsList : OffsList IntValue → OffsList IntValue → Except DomErr (OffsList IntValue) :=
  genIntvalListM IntValue.join

def widenOffsList : OffsList IntValue → OffsList IntValue → Except DomErr (OffsList IntValue) :=
  genIntvalListM IntValue.widen

end Poet
