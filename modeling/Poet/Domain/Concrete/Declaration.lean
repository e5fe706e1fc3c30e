import Poet.Domain.Concrete.Value
import Poet.Domain.Unmentioned

/-!
# A declaration with an initialiser (`Domain/Concrete/Transformers/Declaration.hs:54-82`)

`T x = e;` evaluates `e` and writes its value into the state from before the evaluation, `T x; x = e;`
writes it into the state after it, and to every cell that `x` has. The two agree exactly if the
evaluation leaves the state as it is and the other cells of `x` have the value already.
-/

namespace Poet

/-! ## The order of concrete values -/

theorem Value.before_asymm : ∀ {a b : Value}, a.before b = true → b.before a = false
  | .int a, .int b, h => by
    simp only [Value.before, decide_eq_true_eq, decide_eq_false_iff_not] at *
    omega
  | .bool a, .bool b, h => by cases a <;> cases b <;> simp_all [Value.before]
  | .other a, .other b, h => decide_eq_false fun h' => String.lt_asymm (of_decide_eq_true h) h'
  | .int _, .bool _, _ | .int _, .other _, _ | .bool _, .other _, _ => rfl

theorem Value.before_trans {a b c : Value} (h : a.before b = true) (h' : b.before c = true) :
    a.before c = true := by
  cases a with
  | int a =>
    cases c with
    | int c =>
      cases b with
      | int b =>
        simp only [Value.before, decide_eq_true_eq] at *
        omega
      | bool | other => simp [Value.before] at h'
    | bool | other => rfl
  | bool a =>
    cases b with
    | int => simp [Value.before] at h
    | bool b => cases c <;> simp_all [Value.before]
    | other b => cases c <;> simp_all [Value.before]
  | other a =>
    cases b with
    | int | bool => simp [Value.before] at h
    | other b =>
      cases c with
      | int | bool => simp [Value.before] at h'
      | other c =>
        exact decide_eq_true (String.lt_trans (of_decide_eq_true h) (of_decide_eq_true h'))

theorem Value.before_total : ∀ {a b : Value}, a ≠ b → a.before b = true ∨ b.before a = true
  | .int a, .int b, h => by
    have hne : a ≠ b := fun heq => h (heq ▸ rfl)
    simp only [Value.before, decide_eq_true_eq]
    omega
  | .bool a, .bool b, h => by cases a <;> cases b <;> simp_all [Value.before]
  | .other a, .other b, h => by
    by_contra hno
    have hab : ¬ a < b := fun hlt => hno (.inl (decide_eq_true hlt))
    have hba : ¬ b < a := fun hlt => hno (.inr (decide_eq_true hlt))
    exact h (congrArg Value.other (String.le_antisymm hba hab))
  | .int _, .bool _, _ | .int _, .other _, _ | .bool _, .other _, _ => .inl rfl
  | .bool _, .int _, _ | .other _, .int _, _ | .other _, .bool _, _ => .inr rfl

instance : TotalKey ConValue where
  asymm {a b} h := by
    cases a <;> cases b <;> simp_all [OrdKey.before, ConValue.before]
    exact Value.before_asymm h
  trans {a b c} h h' := by
    cases a <;> cases b <;> cases c <;> simp_all [OrdKey.before, ConValue.before]
    exact Value.before_trans h h'
  total {a b} h := by
    cases a <;> cases b <;> simp_all [OrdKey.before, ConValue.before]
    exact Value.before_total h

/-! ## The cells of a variable -/

theorem writeOffs_ordered {offs offs' : ConOffs} (h : offs.Ordered) {ks : List ConValue}
    {w : ConValue} (hw : ProgState.writeOffs offs ks w = .ok offs') : offs'.Ordered := by
  induction ks generalizing offs' with
  | nil =>
    obtain rfl := Except.ok.inj hw
    exact h
  | cons k ks ih =>
    obtain ⟨o, ho, hw⟩ := bind_eq_ok.1 hw
    obtain rfl := Except.ok.inj hw
    exact (ih ho).insert k w

theorem writeCell_con (o : Option ConOffs) (off w : ConValue) :
    ProgState.writeCell o off w = .ok ((o.getD .empty).insert off w) := by
  cases o <;> rfl

/-- `T x;` zeroes the first cell of `x` and `x = e;` writes every cell, an initialiser writes the
first cell only. -/
theorem cells_eq_iff {o : Option ConOffs} (ho : ∀ offs, o = some offs → offs.Ordered)
    {zeroed init assigned : ConOffs} {w : ConValue}
    (hz : ProgState.writeCell o ToValue.zero ToValue.zero = .ok zeroed)
    (hi : ProgState.writeCell o ToValue.zero w = .ok init)
    (ha : ProgState.writeOffs zeroed zeroed.keys w = .ok assigned) :
    init = assigned ↔ ∀ offs, o = some offs → ∀ off u, offs.lookup off = some u →
      off ≠ ToValue.zero → u = w := by
  rw [writeCell_con] at hz hi
  obtain rfl := Except.ok.inj hz
  obtain rfl := Except.ok.inj hi
  have hord : (o.getD .empty).Ordered := by
    cases o with
    | none => exact OrdMap.ordered_empty
    | some offs => exact ho offs rfl
  have hassigned := writeOffs_con ha
  constructor
  · rintro heq offs rfl off u hu hoff
    have hkey : off ∈ ((some offs).getD OrdMap.empty |>.insert ToValue.zero ToValue.zero).keys :=
      OrdMap.mem_keys.2 ⟨u, by simp [hoff, hu]⟩
    have hlook := hassigned off
    rw [← heq, if_pos hkey] at hlook
    simpa [hoff, hu] using hlook
  · intro hcells
    refine (hord.insert _ _).ext (writeOffs_ordered (hord.insert _ _) ha) fun k => ?_
    rw [hassigned]
    by_cases hk : k = ToValue.zero
    · rw [if_pos (OrdMap.mem_keys.2 ⟨ToValue.zero, by simp [hk]⟩)]
      simp [hk]
    cases hu : (o.getD .empty).lookup k with
    | none =>
      have hnone : ((o.getD .empty).insert ToValue.zero ToValue.zero).lookup k = none := by
        simp [hk, hu]
      rw [if_neg fun hmem => ?_, hnone]
      · simp [hk, hu]
      · obtain ⟨u, hu⟩ := OrdMap.mem_keys.1 hmem
        simp [hnone] at hu
    | some u =>
      obtain rfl : u = w := by
        cases o with
        | none => cases hu
        | some offs => exact hcells offs rfl k u hu hk
      rw [if_pos (OrdMap.mem_keys.2 ⟨u, by simp [hk, hu]⟩)]
      simp [hk, hu]

/-! ## The two programs -/

/-- `T x = e;` -/
def declInit [SimpleC] (x : SymId) (ty : List DerivedDeclr) (e : SExpression) : TOp ConValue ConAct :=
  transformerDecl (.decl (some ⟨some x, ty⟩) (some (.initExpr e)))

/-- `T x; x = e;` -/
def declAssign [SimpleC] (x : SymId) (ty : List DerivedDeclr) (e : SExpression) : TOp ConValue ConAct := do
  let a ← transformerDecl (.decl (some ⟨some x, ty⟩) none)
  let (_, a') ← transformer (.assign .assign (.var x) e)
  return a.join a'

/-- The type of a variable that is not an array. -/
def ScalarType (ty : List DerivedDeclr) : Prop := ∀ size, ty ≠ [.arr size]

theorem scalarType_nil : ScalarType [] := fun _ h => by simp at h

section Programs

variable {x : SymId} {ty : List DerivedDeclr} {e : SExpression} {t t' : TState ConValue} {a : ConAct}

theorem declInit_eq_ok [SimpleC] (h : declInit x ty e t = (.ok a, t')) :
    ∃ w acts t₁, transformer e t = (.ok (.ok w, acts), t₁) ∧
      t.st.writeMemoryAddr ⟨x, ToValue.zero, t.scope⟩ w = .ok t'.st := by
  have hsat : Op.Sat (declInit x ty e) t (fun _ t' => ∃ w acts t₁,
      transformer e t = (.ok (.ok w, acts), t₁) ∧
        t.st.writeMemoryAddr ⟨x, ToValue.zero, t.scope⟩ w = .ok t'.st) fun _ _ => True := by
    simp only [declInit, transformerDecl, transformerInit, Op.sat_bind, Op.sat_get]
    refine Op.sat_of_ok fun r t₁ he => ?_
    obtain ⟨val, acts⟩ := r
    simp only [setState, Op.sat_monadLift, Op.sat_modify, Op.sat_pure, implies_true,
      and_true]
    rintro w rfl st hst
    exact ⟨w, acts, t₁, he, hst⟩
  exact hsat.of_eq_ok h

theorem defaultValue_scalar [SimpleC] (hty : ScalarType ty) :
    (defaultValue ty : TOp ConValue _) = pure ([ToValue.zero], Act.bot) := by
  unfold defaultValue
  split
  · next size => exact absurd rfl (hty size)
  · rfl

theorem declAssign_eq_ok [SimpleC] (hty : ScalarType ty) (h : declAssign x ty e t = (.ok a, t')) :
    ∃ st₀ w acts t₁ addrs, t.st.writeMemoryAddr ⟨x, ToValue.zero, t.scope⟩ ToValue.zero = .ok st₀ ∧
      transformer e { t with st := st₀ } = (.ok (.ok w, acts), t₁) ∧
      t₁.st.getAddrs ⟨x, t₁.scope⟩ = .ok addrs ∧ t₁.st.writeMemory addrs w = .ok t'.st := by
  have hsat : Op.Sat (declAssign x ty e) t (fun _ t' => ∃ st₀ w acts t₁ addrs,
      t.st.writeMemoryAddr ⟨x, ToValue.zero, t.scope⟩ ToValue.zero = .ok st₀ ∧
      transformer e { t with st := st₀ } = (.ok (.ok w, acts), t₁) ∧
      t₁.st.getAddrs ⟨x, t₁.scope⟩ = .ok addrs ∧ t₁.st.writeMemory addrs w = .ok t'.st)
      fun _ _ => True := by
    simp only [declAssign, transformerDecl, transformerInit, defaultValue_scalar hty, transformer,
      assignTransformer, varTransformer, getAddrsExpr, setState, Op.sat_bind, Op.sat_get,
      Op.sat_monadLift, Op.sat_modify, Op.sat_pure, implies_true, and_true]
    intro st₀ hst₀ _ _
    refine Op.sat_of_ok fun r t₁ he => ?_
    obtain ⟨val, acts⟩ := r
    rintro addrs haddrs w rfl st hst
    exact ⟨st₀, w, acts, t₁, addrs, hst₀, he, haddrs, hst⟩
  exact hsat.of_eq_ok h

/-- The evaluation of `e` leaves the state as it is, and what `x` has but for the first cell, from an
earlier declaration, has its value. -/
def PureInit [SimpleC] (x : SymId) (e : SExpression) (t : TState ConValue) : Prop :=
  ∃ w acts t₁, transformer e t = (.ok (.ok w, acts), t₁) ∧ t₁.st = t.st ∧
    ∀ offs, t.st.slot t.scope ⟨x, t.scope⟩ = some offs → ∀ off u, offs.lookup off = some u →
      off ≠ ToValue.zero → u = w

/-- All maps of the state are ordered, as those of `Data.Map` are. -/
structure AllOrdered (st : ConState) : Prop extends st.MapsOrdered where
  regions : ∀ scope k offs, st.slot scope k = some offs → offs.Ordered

/-- The assignment of `T x; x = e;`, if `e` has neither created a thread nor blocked. -/
theorem assign_setSlot {st st' : ConState} {scope : Scope} {offs : ConOffs} {addrs : MemAddrs ConValue}
    {w : ConValue} (hb : st.slot scope ⟨x, scope⟩ = some offs)
    (haddrs : st.getAddrs ⟨x, scope⟩ = .ok addrs) (hw : st.writeMemory addrs w = .ok st') :
    ∃ offs', ProgState.writeOffs offs offs.keys w = .ok offs' ∧
      st.SetSlot ⟨x, scope⟩ offs' st' := by
  have hr : st.region ⟨x, scope⟩ = some offs := hb
  have hbase : st.baseOf x scope = ⟨x, scope⟩ := by simp [ProgState.baseOf, hr]
  obtain ⟨offs₁, hoffs₁, rfl⟩ := ProgState.getAddrs_eq_ok haddrs
  rw [hbase, hr] at hoffs₁
  obtain rfl := Option.some.inj hoffs₁
  rw [hbase, ProgState.toMemAddrs_eq] at hw
  exact ProgState.writeMemory_setSlot hb hw

/-- `T x = e;` and `T x; x = e;` lead to the same state exactly if the initialiser is pure. -/
theorem declInit_eq_declAssign_iff [SimpleC] {tA tB : TState ConValue} {a b : ConAct} (hty : ScalarType ty)
    (hx : ¬ Mentions x e) (hord : AllOrdered t.st) (hA : declInit x ty e t = (.ok a, tA))
    (hB : declAssign x ty e t = (.ok b, tB)) : tA.st = tB.st ↔ PureInit x e t := by
  obtain ⟨w, acts, t₁, he, hwA⟩ := declInit_eq_ok hA
  obtain ⟨st₀, w', acts', t₁', addrs, hw₀, he', haddrs, hwB⟩ := declAssign_eq_ok hty hB
  obtain ⟨init, hinit, hsetA⟩ := ProgState.writeMemoryAddr_setSlot hwA
  obtain ⟨zeroed, hzeroed, hset₀⟩ := ProgState.writeMemoryAddr_setSlot hw₀
  have hordA := hord.toMapsOrdered.writeMemoryAddr hwA
  have hshadow₀ := hset₀.shadowed hord.toMapsOrdered (hord.toMapsOrdered.writeMemoryAddr hw₀)
  have hshadowA := hsetA.shadowed hord.toMapsOrdered hordA
  -- the two evaluations of `e`, the second of which starts with a zeroed `x`
  obtain ⟨hval, hlink⟩ := follows_transformer e hx t { t with st := st₀ }
    ⟨rfl, rfl, rfl, rfl, hshadow₀, .inl (.inl ⟨rfl, hset₀.self, rfl⟩)⟩ _ _ _ _ he he'
  obtain rfl : w = w' := hval w w' rfl rfl
  rw [hlink.scope'] at haddrs
  rcases hlink.st.kept with (⟨ho, hz, -⟩ | hnum) | ⟨-, hbot⟩
  · obtain ⟨assigned, hassigned, hsetB⟩ := assign_setSlot hz haddrs hwB
    have hshadow₁ := hlink.st.shadowed
    have hshadowB := hsetB.shadowed hshadow₁.ordered.2
      (hshadow₁.ordered.2.writes (writes_of_writeMemory hwB))
    have hcells := cells_eq_iff (hord.regions _ _) hzeroed hinit hassigned
    constructor
    · intro heq
      have hst : t₁.st = t.st := by
        refine (hshadow₁.trans (hshadowB.trans ?_)).eq ho
        exact heq ▸ hshadowA.symm
      have hinit' : some init = some assigned := by rw [← hsetA.self, ← hsetB.self, heq]
      exact ⟨w, acts, t₁, he, hst, hcells.1 (Option.some.inj hinit')⟩
    · rintro ⟨w', acts', t₁', he', hst, hoffs⟩
      obtain ⟨⟨rfl, rfl⟩, rfl⟩ : (w = w' ∧ acts = acts') ∧ t₁ = t₁' := by simpa [he] using he'
      refine (hshadowA.symm.trans (hst ▸ hshadow₁.trans hshadowB)).eq ?_
      rw [hsetA.self, hsetB.self, hcells.2 hoffs]
  · have hnumB : tB.st.numTh = t₁.st.numTh :=
      (writes_of_writeMemory hwB).frame.numTh.trans hlink.st.shadowed.numTh.symm
    constructor
    · intro heq
      rw [← heq, hsetA.numTh] at hnumB
      exact absurd hnumB (Int.ne_of_lt hnum)
    · rintro ⟨w', acts', t₁', he', hst, -⟩
      obtain ⟨-, rfl⟩ : (w = w' ∧ acts = acts') ∧ t₁ = t₁' := by simpa [he] using he'
      exact absurd (congrArg ProgState.numTh hst) (Int.ne_of_gt hnum)
  · exact absurd haddrs (getAddrsExpr_empty (e := .var x) (hbot ▸ rfl) (hbot ▸ rfl))

end Programs

/-! ## An initialiser that assigns -/

/-- The thread 0 has no variables, and the global variable `y` is 0. -/
def declState : ConState where
  heap := OrdMap.empty.insert ⟨⟨1⟩, .glob⟩ (OrdMap.empty.insert ToValue.zero ToValue.zero)
  thStates := OrdMap.empty.insert 0 ⟨0, ⟨0⟩, .empty⟩
  numTh := 1
  isBot := false

def declTState : TState ConValue := ⟨.loc 0, declState, none, none, false, 0, []⟩

theorem allOrdered_declState : AllOrdered declState := by
  refine ⟨⟨OrdMap.ordered_empty.insert _ _, OrdMap.ordered_empty.insert _ _, ?_⟩, ?_⟩
  · intro i th hth
    simp only [declState, OrdMap.lookup_insert] at hth
    split at hth
    · obtain rfl := Option.some.inj hth
      exact OrdMap.ordered_empty
    · cases hth
  · intro scope k offs hslot
    cases scope with
    | glob =>
      simp only [ProgState.slot, declState, OrdMap.lookup_insert] at hslot
      split at hslot
      · obtain rfl := Option.some.inj hslot
        exact OrdMap.ordered_empty.insert _ _
      · cases hslot
    | loc i =>
      simp only [ProgState.slot, declState, OrdMap.lookup_insert] at hslot
      split at hslot <;> cases hslot

section Integers

attribute [local instance] SimpleC.integers

/-- `int x = y;`, whose initialiser is pure. -/
theorem declInit_eq_declAssign_var : ∃ a tA b tB,
    declInit ⟨2⟩ [] (.var ⟨1⟩) declTState = (.ok a, tA) ∧
    declAssign ⟨2⟩ [] (.var ⟨1⟩) declTState = (.ok b, tB) ∧
    tA.st = tB.st ∧ PureInit ⟨2⟩ (.var ⟨1⟩) declTState := by
  refine ⟨_, _, _, _, rfl, rfl, rfl, ?_⟩
  exact (declInit_eq_declAssign_iff scalarType_nil (by simp [Mentions]) allOrdered_declState
    rfl rfl).1 rfl

/-- `int x = (y = 1);` leaves `y` at 0, and `int x; x = (y = 1);` sets it to 1. -/
theorem declInit_ne_declAssign : ∃ x ty e t a tA b tB, ScalarType ty ∧ ¬ Mentions x e ∧
    AllOrdered t.st ∧ declInit x ty e t = (.ok a, tA) ∧ declAssign x ty e t = (.ok b, tB) ∧
    tA.st.slot .glob ⟨⟨1⟩, .glob⟩ = some (.fromList [(ToValue.zero, ToValue.zero)]) ∧
    tB.st.slot .glob ⟨⟨1⟩, .glob⟩ = some (.fromList [(ToValue.zero, ToValue.one)]) ∧
    tA.st ≠ tB.st := by
  refine ⟨⟨2⟩, [], .assign .assign (.var ⟨1⟩) (.const ⟨.int 1⟩), declTState, _, _, _, _,
    scalarType_nil, by simp [Mentions], allOrdered_declState, rfl, rfl, rfl, rfl, ?_⟩
  decide

end Integers

end Poet
