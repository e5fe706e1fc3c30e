import Poet.Domain.Transformer

/-!
# Negated conditions (`negExp` of `Domain/Util.hs`)

The filter of a false branch is the filter of the negated condition. `negExp` moves the negation down
to the comparisons and turns each of them round. Here expressions are evaluated as C does it: a
condition is an integer, `&&` and `||` look at their right side only if the left one does not decide,
and an expression may have no value. A negated condition then has a value where the condition has
one, and the other truth value (`evalBool_negExp`).
-/

namespace Poet

/-- What comparisons and connectives leave open: the operators of integer arithmetic, which may wrap
around or be undefined (a division by zero), and the forms whose value is not given by variables, such
as calls and array elements. -/
structure Arith where
  binary : BinaryOp → Int → Int → Option Int
  unary : UnaryOp → Int → Option Int
  other : SExpression → Option Int

def evalCompare (op : BinaryOp) (n m : Int) : Bool :=
  match op with
  | .le => n < m
  | .gr => m < n
  | .leq => n ≤ m
  | .geq => m ≤ n
  | .eq => n = m
  | .neq => n ≠ m
  | _ => false

/-- The value of an expression, for the values `ρ` of the variables. -/
def evalExpr (A : Arith) (ρ : SymId → Int) : SExpression → Option Int
  | .const ⟨.int n⟩ => some n
  | .const ⟨.bool b⟩ => some b.toInt
  | .var x => some (ρ x)
  | .cast e => evalExpr A ρ e
  | .unary op e =>
    match op with
    | .neg => do
      let n ← evalExpr A ρ e
      some (decide (n = 0)).toInt
    | .plus | .min | .comp => do
      let n ← evalExpr A ρ e
      A.unary op n
    -- increments, addresses and indirections
    | _ => A.other (.unary op e)
  | .binary op l r =>
    match op with
    | .lnd => do
      let n ← evalExpr A ρ l
      if n = 0 then some 0
      else do
        let m ← evalExpr A ρ r
        some (decide (m ≠ 0)).toInt
    | .lor => do
      let n ← evalExpr A ρ l
      if n ≠ 0 then some 1
      else do
        let m ← evalExpr A ρ r
        some (decide (m ≠ 0)).toInt
    | .le | .gr | .leq | .geq | .eq | .neq => do
      let n ← evalExpr A ρ l
      let m ← evalExpr A ρ r
      some (evalCompare op n m).toInt
    | op => do
      let n ← evalExpr A ρ l
      let m ← evalExpr A ρ r
      A.binary op n m
  | e => A.other e

/-- The truth value of a condition. -/
def evalBool (A : Arith) (ρ : SymId → Int) (e : SExpression) : Option Bool :=
  (evalExpr A ρ e).map fun n => decide (n ≠ 0)

variable {A : Arith} {ρ : SymId → Int} {e e' l r : SExpression}

@[simp] theorem toInt_eq_zero {b : Bool} : b.toInt = 0 ↔ b = false := by
  cases b <;> decide

theorem evalBool_neg : evalBool A ρ (.unary .neg e) = (evalBool A ρ e).map (!·) := by
  cases h : evalExpr A ρ e <;> simp [evalBool, evalExpr, h]

theorem evalBool_lnd : evalBool A ρ (.binary .lnd l r) =
    (evalBool A ρ l).bind fun b => if b then evalBool A ρ r else some false := by
  cases h : evalExpr A ρ l with
  | none => simp [evalBool, evalExpr, h]
  | some n =>
    by_cases hn : n = 0
    · simp [evalBool, evalExpr, h, hn]
    · cases h' : evalExpr A ρ r <;> simp [evalBool, evalExpr, h, h', hn]

theorem evalBool_lor : evalBool A ρ (.binary .lor l r) =
    (evalBool A ρ l).bind fun b => if b then some true else evalBool A ρ r := by
  cases h : evalExpr A ρ l with
  | none => simp [evalBool, evalExpr, h]
  | some n =>
    by_cases hn : n = 0
    · cases h' : evalExpr A ρ r <;> simp [evalBool, evalExpr, h, h', hn]
    · simp [evalBool, evalExpr, h, hn]

/-- The negated operator is the negated comparison. -/
theorem evalCompare_negOp {op op' : BinaryOp} (h : negOp op = .ok op') (n m : Int) :
    evalCompare op' n m = !evalCompare op n m := by
  rw [Bool.eq_iff_iff]
  cases op <;> cases h <;> simp [evalCompare]

/-- What `negOp` takes and what it returns are comparisons. -/
theorem evalBool_negOp {op op' : BinaryOp} (h : negOp op = .ok op') :
    evalBool A ρ (.binary op' l r) = (evalBool A ρ (.binary op l r)).map (!·) := by
  have hcmp : ∀ n m, evalCompare op' n m = !evalCompare op n m := evalCompare_negOp h
  cases hl : evalExpr A ρ l with
  | none => cases op <;> cases h <;> simp [evalBool, evalExpr, hl]
  | some n =>
    cases hr : evalExpr A ρ r with
    | none => cases op <;> cases h <;> simp [evalBool, evalExpr, hl, hr]
    | some m => cases op <;> cases h <;> simp [evalBool, evalExpr, hl, hr, hcmp]

/-- De Morgan, with the order of evaluation: the left side decides for a connective exactly when its
negation decides for the other one. -/
theorem evalBool_negExp (h : negExp e = .ok e') :
    evalBool A ρ e' = (evalBool A ρ e).map (!·) := by
  induction e using negExp.induct generalizing e' with
  | case1 l r ihl ihr =>
    obtain ⟨l', hl, h⟩ := bind_eq_ok.1 h
    obtain ⟨r', hr, h⟩ := bind_eq_ok.1 h
    obtain rfl := Except.ok.inj h
    rw [evalBool_lor, evalBool_lnd, ihl hl, ihr hr]
    rcases evalBool A ρ l with _ | _ | _ <;> simp
  | case2 l r ihl ihr =>
    obtain ⟨l', hl, h⟩ := bind_eq_ok.1 h
    obtain ⟨r', hr, h⟩ := bind_eq_ok.1 h
    obtain rfl := Except.ok.inj h
    rw [evalBool_lor, evalBool_lnd, ihl hl, ihr hr]
    rcases evalBool A ρ l with _ | _ | _ <;> simp
  | case3 op l r hlnd hlor =>
    rw [negExp.eq_3 op l r hlnd hlor] at h
    obtain ⟨op', hop, h⟩ := bind_eq_ok.1 h
    obtain rfl := Except.ok.inj h
    exact evalBool_negOp hop
  | case4 e =>
    obtain rfl := Except.ok.inj h
    rw [evalBool_neg]
    cases evalBool A ρ e <;> simp
  | case5 e hlnd hlor hbin hneg =>
    -- every other form is refused
    rw [negExp.eq_5 e hlnd hlor hbin hneg] at h
    cases h

/-- `negExp` is logical negation: the negated condition is true where the condition is false, and false
where it is true, whatever the arithmetic of the machine is. -/
theorem negExp_negates (h : negExp e = .ok e') (A : Arith) (ρ : SymId → Int) :
    (evalBool A ρ e' = some true ↔ evalBool A ρ e = some false) ∧
      (evalBool A ρ e' = some false ↔ evalBool A ρ e = some true) := by
  rw [evalBool_negExp h]
  rcases evalBool A ρ e with _ | _ | _ <;> simp

/-! ### A guarded division -/

/-- Integers without bounds. -/
def exactArith : Arith where
  binary op n m :=
    match op with
    | .add => some (n + m)
    | .sub => some (n - m)
    | .mul => some (n * m)
    | .div => if m = 0 then none else some (n.tdiv m)
    | .rmd => if m = 0 then none else some (n.tmod m)
    | _ => none
  unary op n :=
    match op with
    | .plus => some n
    | .min => some (-n)
    | _ => none
  other _ := none

/-- `x != 0 && !(10 / x > 2)`, for the variable `x` with id 1. -/
def guardedDivision : SExpression :=
  .binary .lnd (.binary .neq (.var ⟨1⟩) (.const ⟨.int 0⟩))
    (.unary .neg (.binary .gr (.binary .div (.const ⟨.int 10⟩) (.var ⟨1⟩)) (.const ⟨.int 2⟩)))

/-- `x == 0 || 10 / x > 2`. -/
def guardedDivisionNegated : SExpression :=
  .binary .lor (.binary .eq (.var ⟨1⟩) (.const ⟨.int 0⟩))
    (.binary .gr (.binary .div (.const ⟨.int 10⟩) (.var ⟨1⟩)) (.const ⟨.int 2⟩))

theorem negExp_negates_guardedDivision :
    (evalBool exactArith (fun _ => 0) guardedDivisionNegated = some true ↔
      evalBool exactArith (fun _ => 0) guardedDivision = some false) ∧
    (evalBool exactArith (fun _ => 0) guardedDivisionNegated = some false ↔
      evalBool exactArith (fun _ => 0) guardedDivision = some true) :=
  have h : negExp guardedDivision = .ok guardedDivisionNegated := rfl
  negExp_negates h exactArith fun _ => 0

-- the guard decides for `x = 0`, the division for `x = 3`
example : evalBool exactArith (fun _ => 0) guardedDivision = some false ∧
    evalBool exactArith (fun _ => 3) guardedDivisionNegated = some true := by decide

end Poet
