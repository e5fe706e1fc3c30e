import Poet.Domain.Interval.Overflow
import Poet.Domain.Negation

/-!
# What a condition keeps

A conditional edge filters the state by its condition. The condition is rewritten into comparisons
`e1 <= e2` (`comparisons`), and each of them in turn narrows the variables it compares. A concrete
state that satisfies a comparison stays in the narrowed state, and so does every state if none of the
two sides is a variable. But the sides of `||` and the halves of `!=` are filtered one after the other
as well, and there a state that violates one of them is lost. This is first shown on unbounded
integers; where no sum or difference of the edge overflows, the edge does the same on words
(`refines_cond`).
-/

namespace Poet

/-! ## Conditions over integers -/

/-- Constants, variables, sums and differences. -/
inductive ArithExpr (S : SymId → Prop) : SExpression → Prop where
  | const (n : Int) : ArithExpr S (.const ⟨.int n⟩)
  | var {x} (h : S x) : ArithExpr S (.var x)
  | binary {op l r} (hop : op = .add ∨ op = .sub) (hl : ArithExpr S l) (hr : ArithExpr S r) :
      ArithExpr S (.binary op l r)

inductive CondExpr (S : SymId → Prop) : SExpression → Prop where
  | compare {op l r} (hop : op ∈ [BinaryOp.le, .gr, .leq, .geq, .eq, .neq]) (hl : ArithExpr S l)
      (hr : ArithExpr S r) : CondExpr S (.binary op l r)
  | and {l r} (hl : CondExpr S l) (hr : CondExpr S r) : CondExpr S (.binary .lnd l r)
  | or {l r} (hl : CondExpr S l) (hr : CondExpr S r) : CondExpr S (.binary .lor l r)
  | not {e} (h : CondExpr S e) : CondExpr S (.unary .neg e)

/-- The integer of an arithmetic expression, for the values `ρ` of the variables. -/
def evalArith (ρ : SymId → Int) : SExpression → Int
  | .const ⟨.int n⟩ => n
  | .var x => ρ x
  | .binary .add l r => evalArith ρ l + evalArith ρ r
  | .binary .sub l r => evalArith ρ l - evalArith ρ r
  | _ => 0

def evalCond (ρ : SymId → Int) : SExpression → Bool
  | .binary op l r =>
    match op with
    | .lnd => evalCond ρ l && evalCond ρ r
    | .lor => evalCond ρ l || evalCond ρ r
    | op => evalCompare op (evalArith ρ l) (evalArith ρ r)
  | .unary .neg e => !evalCond ρ e
  | _ => false

/-- The comparisons `p.1 <= p.2` that one comparison is rewritten into. -/
def splitCompare (op : BinaryOp) (l r : SExpression) : List (SExpression × SExpression) :=
  match op with
  | .le => [(l, .binary .sub r constOne)]
  | .gr => [(.binary .add r constOne, l)]
  | .leq => [(l, r)]
  | .geq => [(r, l)]
  | .eq => [(l, r), (r, l)]
  | .neq => [(l, .binary .sub r constOne), (r, .binary .sub l constOne)]
  | _ => []

/-- The comparisons `p.1 <= p.2` that a condition, or its negation, is rewritten into. -/
def comparisons (pos : Bool) : SExpression → List (SExpression × SExpression)
  | .binary op l r =>
    match op with
    | .lnd => comparisons pos l ++ comparisons pos r
    | .lor => comparisons pos l ++ comparisons pos r
    | op =>
      if pos then splitCompare op l r
      else match negOp op with
        | .ok op' => splitCompare op' l r
        | .error _ => []
  | .unary .neg e => comparisons (!pos) e
  | _ => []

/-- The variables `S` have one cell each, with the values `ρ`. -/
def Valuation (S : SymId → Prop) (σ : ConState) (scope : Scope) (ρ : SymId → Int) : Prop :=
  ∀ x, S x → ∃ C, σ.getAddrs ⟨x, scope⟩ = .ok C ∧ σ.readMemory C = .ok [.val (.int (ρ x))]

section Filter

attribute [local instance] HostInt.unbounded

variable {S : SymId → Prop} {σ : ConState} {scope : Scope} {ρ : SymId → Int}

theorem ArithExpr.scalar {e : SExpression} (h : ArithExpr S e) : ScalarExpr S e := by
  induction h with
  | const n => exact .const n
  | var h => exact .var h
  | binary hop _ _ ihl ihr =>
    exact .binary (hop.imp_right .inl) ihl ihr

/-- The concrete transformer evaluates an arithmetic expression and leaves the state. -/
theorem transformer_arith [SimpleC] (hops : IntegerOps) (hρ : Valuation S σ scope ρ)
    {e : SExpression} (he : ArithExpr S e) :
    ∃ act, transformer e (indexState σ scope) =
      (.ok (.ok (.val (.int (evalArith ρ e))), act), indexState σ scope) := by
  induction he with
  | const n => exact ⟨_, rfl⟩
  | @var x hx =>
    obtain ⟨C, hC, hread⟩ := hρ _ hx
    have hval : (do TransValue.pick "var_transformer" (← σ.readMemory C) : LazyVal ConValue) =
        .ok (.val (.int (ρ x))) := by
      rw [hread]
      rfl
    refine ⟨Act.readActAddr C, (Op.bind_of_eq_ok rfl).trans
      ((Op.bind_of_eq_ok (Op.run_monadLift_eq_ok.2 ⟨hC, rfl⟩)).trans ?_)⟩
    exact congrArg (fun l => (Except.ok (l, Act.readActAddr C), indexState σ scope)) hval
  | binary hop _ _ ihl ihr =>
    obtain ⟨al, hl⟩ := ihl
    obtain ⟨ar, hr⟩ := ihr
    refine ⟨al.join ar, ((Op.bind_of_eq_ok hl).trans (Op.bind_of_eq_ok hr)).trans ?_⟩
    refine congrArg (fun l => (Except.ok (l, al.join ar), indexState σ scope)) ?_
    rcases hop with rfl | rfl
    · exact ConValue.add_int hops _ _
    · exact ConValue.sub_int hops _ _

/-! ## Narrowing -/

/-- What the filter keeps: the concrete state is in the interval state. -/
structure InFilter (S : SymId → Prop) (σ : ConState) (scope : Scope) (t : TState IntValue) : Prop where
  scope : t.scope = scope
  st : StateIn t.st σ
  declared : DeclaredOk S t.st

theorem arith_sat [SimpleC] (hops : IntegerOps) (hρ : Valuation S σ scope ρ) {e : SExpression}
    (he : ArithExpr S e) {t : TState IntValue} (ht : InFilter S σ scope t) :
    Op.Sat (transformer e) t
      (fun r t' => InFilter S σ scope t' ∧ ∀ u, r.1 = .ok u → evalArith ρ e ∈ u) fun _ _ => True := by
  refine Op.sat_of_ok fun r t' hr => ?_
  obtain ⟨act, hC⟩ := transformer_arith hops hρ he
  obtain ⟨⟨hval, -⟩, ht'⟩ := sim_transformer hops he.scalar t (indexState σ scope)
    ⟨ht.scope, ht.st, ht.declared⟩ r t' _ _ hr hC
  refine ⟨⟨ht'.scope, ht'.st, ht'.declared⟩, fun u hu => ?_⟩
  obtain ⟨n, hn, hnu⟩ := hval u _ hu rfl
  obtain rfl : evalArith ρ e = n := by simpa using hn
  exact hnu

/-- The two states have the same cells. -/
def SameKeys (s s' : IntState) : Prop :=
  ∀ b, (s'.region b).map OrdMap.keys = (s.region b).map OrdMap.keys

theorem SameKeys.baseOf {s s' : IntState} (h : SameKeys s s') (x : SymId) (scope : Scope) :
    s'.baseOf x scope = s.baseOf x scope := by
  have hb := congrArg Option.isSome (h ⟨x, scope⟩)
  simp only [Option.isSome_map] at hb
  simp only [ProgState.baseOf, hb]

theorem StateIn.set {s s' : IntState} {b : MemAddrBase} {oa : IntOffs} {oc : ConOffs}
    (h : StateIn s σ) (hset : ProgState.SetRegion s b oa s') (hc : σ.region b = some oc)
    (hr : RegionIn oa oc) : StateIn s' σ := by
  refine ⟨by rw [hset.isBot]; exact h.isBot, fun t => by rw [hset.position]; exact h.position t,
    fun c => ?_⟩
  rw [hset.region]
  split
  · next hcb => rw [hcb, hc]; exact .some hr
  · exact h.region c

/-- The cells of a variable are read as its value. -/
theorem Valuation.lookup (hρ : Valuation S σ scope ρ) {x : SymId} (hx : S x) :
    ∃ oc, σ.region (σ.baseOf x scope) = some oc ∧
      ∀ off val, oc.lookup off = some val → val = .val (.int (ρ x)) := by
  obtain ⟨C, hC, hread⟩ := hρ x hx
  obtain ⟨oc, hoc, rfl⟩ := ProgState.getAddrs_eq_ok hC
  refine ⟨oc, hoc, fun off val hval => ?_⟩
  rw [ProgState.toMemAddrs_eq] at hread
  have hcell : Region.read oc off = .ok (some val) := by simp [Region.read, hval]
  have haddr : toAddr (σ.baseOf x scope) off ∈ oc.keys.map (toAddr (σ.baseOf x scope)) :=
    List.mem_map_of_mem (OrdMap.mem_keys.2 ⟨val, hval⟩)
  obtain ⟨w, hw, hreadw⟩ := (mapM'_mem hread).1 _ haddr
  obtain rfl := Except.ok.inj ((ProgState.readMemoryAddr_eq hoc hcell).symm.trans hreadw)
  exact List.mem_singleton.1 hw

/-- A variable is narrowed to a value that has the one of the concrete state. The addresses are
those of the state `st` before the other side was narrowed. -/
theorem narrow_keeps [SimpleC] (hρ : Valuation S σ scope ρ) {st into into' : IntState} {e : SExpression}
    (he : ArithExpr S e) {nval : IntValue} {act : IntAct} (hst : StateIn into σ)
    (hd : DeclaredOk S into) (hk : SameKeys st into)
    (hn : canGetAddrsExpr e = true → evalArith ρ e ∈ nval)
    (h : narrow st scope e nval into = .ok (into', act)) :
    StateIn into' σ ∧ DeclaredOk S into' ∧ SameKeys st into' := by
  cases he with
  | const _ =>
    obtain ⟨rfl, -⟩ : into = into' ∧ _ := by simpa [narrow, canGetAddrsExpr] using h
    exact ⟨hst, hd, hk⟩
  | binary _ _ _ =>
    obtain ⟨rfl, -⟩ : into = into' ∧ _ := by simpa [narrow, canGetAddrsExpr] using h
    exact ⟨hst, hd, hk⟩
  | @var x hx =>
    simp only [narrow, canGetAddrsExpr, if_true] at h
    obtain ⟨A, hA, h⟩ := bind_eq_ok.1 h
    obtain ⟨s', hw, h⟩ := bind_eq_ok.1 h
    obtain rfl : s' = into' := congrArg Prod.fst (Except.ok.inj h)
    obtain ⟨oa, hoa, rfl⟩ := ProgState.getAddrs_eq_ok hA
    obtain ⟨oc, hoc, hval⟩ := hρ.lookup hx
    rw [hst.baseOf] at hoc
    rw [← hk.baseOf] at hoa hw
    generalize hb : into.baseOf x scope = b at hoa hw hoc
    obtain ⟨oi, hoi, hkeys⟩ : ∃ oi, into.region b = some oi ∧ oi.keys = oa.keys := by
      have hkb := hk b
      rw [hoa, Option.map_some] at hkb
      exact Option.map_eq_some_iff.1 hkb
    rw [ProgState.toMemAddrs_eq, ← hkeys] at hw
    obtain ⟨oi', hwrite, hset⟩ := ProgState.writeMemory_eq_ok hoi hw
    have hok : OffsOk oi.toList := hd.baseOf hx scope (hb ▸ hoi)
    obtain rfl := writeOffs_keys hok hwrite
    have hr : RegionIn oi oc := by
      have hrel := hst.region b
      rw [hoi, hoc] at hrel
      cases hrel with
      | some hr => exact hr
    refine ⟨hst.set hset hoc fun off val hoff => ?_, hd.set hset (hok.of_keys (by simp [OrdMap.map])),
      fun c => ?_⟩
    · obtain ⟨k, -, key, u, hk, -, hu, hkey, -⟩ := hr off val hoff
      exact ⟨k, ρ x, key, nval, hk, hval off val hoff, by rw [OrdMap.lookup_map, hu, Option.map_some],
        hkey, hn rfl⟩
    · rw [hset.region]
      split
      · next hcb =>
        rw [hcb, ← hk b, hoi]
        simp [OrdMap.keys, OrdMap.map]
      · exact hk c

/-- The comparison keeps the concrete state: it holds, or it narrows nothing. -/
def Harmless (ρ : SymId → Int) (p : SExpression × SExpression) : Prop :=
  evalArith ρ p.1 ≤ evalArith ρ p.2 ∨ (canGetAddrsExpr p.1 = false ∧ canGetAddrsExpr p.2 = false)

/-- The program keeps the concrete state, and its value is not bottom if `p` holds. -/
def Filters (S : SymId → Prop) (σ : ConState) (scope : Scope) (m : TOp IntValue CondAct) (p : Prop) :
    Prop :=
  ∀ t, InFilter S σ scope t →
    Op.Sat m t (fun c t' => InFilter S σ scope t' ∧ (p → c.1 ≠ .bot)) fun _ _ => True

theorem Filters.imp {m : TOp IntValue CondAct} {p q : Prop} (h : Filters S σ scope m p)
    (hqp : q → p) : Filters S σ scope m q := fun t ht =>
  (h t ht).mono (fun _ _ hc => ⟨hc.1, fun hq => hc.2 (hqp hq)⟩) fun _ _ h => h

theorem filters_intervalLeq [SimpleC] (hops : IntegerOps) (hρ : Valuation S σ scope ρ)
    {l r : SExpression} (hl : ArithExpr S l) (hr : ArithExpr S r) (hkeep : Harmless ρ (l, r)) :
    Filters S σ scope (intervalLeq l r) (evalArith ρ l ≤ evalArith ρ r) := by
  intro t ht
  unfold intervalLeq
  simp only [Op.sat_bind]
  refine (arith_sat hops hρ hl ht).mono ?_ fun _ _ h => h
  rintro ⟨lv, la⟩ t₁ ⟨ht₁, hlv⟩
  refine (arith_sat hops hρ hr ht₁).mono ?_ fun _ _ h => h
  rintro ⟨rv, ra⟩ t₂ ⟨ht₂, hrv⟩
  simp only [Op.sat_monadLift, implies_true, and_true]
  intro u hu w hw
  have hn := hlv u hu
  have hm := hrv w hw
  have hbot : ¬ (u = .bot ∨ w = .bot) := by
    rintro (rfl | rfl)
    · exact IntValue.not_mem_bot hn
    · exact IntValue.not_mem_bot hm
  rw [if_neg hbot]
  simp only [Op.sat_bind, Op.sat_monadLift, implies_true, and_true]
  intro a ha d hd
  have han := IntValue.lowerBound_le ha hn
  have hmd := IntValue.le_upperBound hd hm
  split
  · next hda =>
    -- the two values do not meet: nothing is narrowed, and the comparison is false
    refine ⟨ht₂, fun hle => ?_⟩
    exact absurd hda (not_lt.2 ((han.trans (InterVal.i_le_i.2 hle)).trans hmd))
  · simp only [Op.sat_bind, Op.sat_get, Op.sat_monadLift, implies_true, and_true]
    intro b hb c hc
    have hnb := IntValue.le_upperBound hb hn
    have hcm := IntValue.lowerBound_le hc hm
    rintro ⟨s₁, a₁⟩ h₁ ⟨s₂, a₂⟩ h₂
    have hlhs : canGetAddrsExpr l = true → evalArith ρ l ∈ IntValue.interVal a (min b d) := by
      intro hvar
      rcases hkeep with hle | ⟨hno, -⟩
      · exact ⟨han, le_min hnb ((InterVal.i_le_i.2 hle).trans hmd)⟩
      · simp [hno] at hvar
    have hrhs : canGetAddrsExpr r = true → evalArith ρ r ∈ IntValue.interVal (max a c) d := by
      intro hvar
      rcases hkeep with hle | ⟨-, hno⟩
      · exact ⟨max_le (han.trans (InterVal.i_le_i.2 hle)) hcm, hmd⟩
      · simp [hno] at hvar
    rw [ht₂.scope] at h₁ h₂
    obtain ⟨hs₁, hd₁, hk₁⟩ := narrow_keeps hρ hl ht₂.st ht₂.declared (fun _ => rfl) hlhs h₁
    obtain ⟨hs₂, hd₂, -⟩ := narrow_keeps hρ hr hs₁ hd₁ hk₁ hrhs h₂
    exact ⟨⟨ht₂.scope, hs₂, hd₂⟩, fun _ => IntValue.noConfusion⟩

/-! ## Connectives -/

theorem join_ne_bot {u v w : IntValue} (hu : u ≠ .bot) (hv : v ≠ .bot) (h : u.join v = .ok w) :
    w ≠ .bot := by
  rintro rfl
  cases u <;> cases v <;> simp_all [IntValue.join]

theorem filters_applyAnd {l r : TOp IntValue CondAct} {p q : Prop} (hl : Filters S σ scope l p)
    (hr : Filters S σ scope r q) : Filters S σ scope (applyAnd l r) (p ∧ q) := by
  intro t ht
  unfold applyAnd
  simp only [Op.sat_bind]
  refine (hl t ht).mono ?_ fun _ _ h => h
  rintro ⟨lv, la⟩ t₁ ⟨ht₁, hlv⟩
  refine (hr t₁ ht₁).mono ?_ fun _ _ h => h
  rintro ⟨rv, ra⟩ t₂ ⟨ht₂, hrv⟩
  split
  · next hne =>
    simp only [Op.sat_bind, Op.sat_monadLift, implies_true, and_true]
    exact fun v hv => ⟨ht₂, fun _ => join_ne_bot hne.1 hne.2 hv⟩
  · next hne => exact ⟨ht₂, fun hpq => absurd ⟨hlv hpq.1, hrv hpq.2⟩ hne⟩

theorem filters_applyOr {l r : TOp IntValue CondAct} {p q : Prop} (hl : Filters S σ scope l p)
    (hr : Filters S σ scope r q) : Filters S σ scope (applyOr l r) (p ∨ q) := by
  intro t ht
  unfold applyOr
  simp only [Op.sat_bind]
  refine (hl t ht).mono ?_ fun _ _ h => h
  rintro ⟨lv, la⟩ t₁ ⟨ht₁, hlv⟩
  refine (hr t₁ ht₁).mono ?_ fun _ _ h => h
  rintro ⟨rv, ra⟩ t₂ ⟨ht₂, hrv⟩
  refine ⟨ht₂, fun hpq => ?_⟩
  show (if lv ≠ .bot then lv else rv) ≠ .bot
  split
  · next hne => exact hne
  · next hbot => exact hrv (hpq.resolve_left fun hp => hbot (hlv hp))

theorem filters_fail (e : DomErr) (p : Prop) : Filters S σ scope (Op.fail e) p := fun _ _ => trivial

theorem filters_applyCompare [SimpleC] (hops : IntegerOps) (hρ : Valuation S σ scope ρ)
    (op : BinaryOp) {l r : SExpression} (hl : ArithExpr S l) (hr : ArithExpr S r)
    (hkeep : ∀ p ∈ splitCompare op l r, Harmless ρ p) :
    Filters S σ scope (applyCompare op l r)
      (evalCompare op (evalArith ρ l) (evalArith ρ r) = true) := by
  have hone : ArithExpr S constOne := .const 1
  have hsub {e} (he : ArithExpr S e) : ArithExpr S (.binary .sub e constOne) :=
    .binary (.inr rfl) he hone
  have hadd {e} (he : ArithExpr S e) : ArithExpr S (.binary .add e constOne) :=
    .binary (.inl rfl) he hone
  have hpred (e) : evalArith ρ (.binary .sub e constOne) = evalArith ρ e - 1 := rfl
  have hsucc (e) : evalArith ρ (.binary .add e constOne) = evalArith ρ e + 1 := rfl
  cases op with
  | le =>
    refine (filters_intervalLeq hops hρ hl (hsub hr) (hkeep _ List.mem_cons_self)).imp fun h => ?_
    simp only [evalCompare, decide_eq_true_eq] at h
    rw [hpred]
    omega
  | gr =>
    refine (filters_intervalLeq hops hρ (hadd hr) hl (hkeep _ List.mem_cons_self)).imp fun h => ?_
    simp only [evalCompare, decide_eq_true_eq] at h
    rw [hsucc]
    omega
  | leq =>
    refine (filters_intervalLeq hops hρ hl hr (hkeep _ List.mem_cons_self)).imp fun h => ?_
    simpa [evalCompare] using h
  | geq =>
    refine (filters_intervalLeq hops hρ hr hl (hkeep _ List.mem_cons_self)).imp fun h => ?_
    simpa [evalCompare] using h
  | eq =>
    refine (filters_applyAnd (filters_intervalLeq hops hρ hl hr (hkeep _ List.mem_cons_self))
      (filters_intervalLeq hops hρ hr hl (hkeep _ (List.mem_cons_of_mem _ List.mem_cons_self)))).imp
      fun h => ?_
    simp only [evalCompare, decide_eq_true_eq] at h
    omega
  | neq =>
    refine (filters_applyOr (filters_intervalLeq hops hρ hl (hsub hr) (hkeep _ List.mem_cons_self))
      (filters_intervalLeq hops hρ hr (hsub hl)
        (hkeep _ (List.mem_cons_of_mem _ List.mem_cons_self)))).imp fun h => ?_
    simp only [evalCompare, decide_eq_true_eq] at h
    rw [hpred, hpred]
    omega
  | _ => exact filters_fail _ _

theorem filters_cond [SimpleC] (hops : IntegerOps) (hρ : Valuation S σ scope ρ) {e : SExpression}
    (he : CondExpr S e) :
    ((∀ p ∈ comparisons true e, Harmless ρ p) →
      Filters S σ scope (boolTransformerInt e) (evalCond ρ e = true)) ∧
    ((∀ p ∈ comparisons false e, Harmless ρ p) →
      Filters S σ scope (boolTransformerNeg e) (evalCond ρ e = false)) := by
  induction he with
  | @compare op l r hop hl hr =>
    have hpos := filters_applyCompare hops hρ op hl hr
    have hneg (op') (h : negOp op = .ok op') (hkeep : ∀ p ∈ splitCompare op' l r, Harmless ρ p) :
        Filters S σ scope (applyCompare op' l r)
          (evalCompare op (evalArith ρ l) (evalArith ρ r) = false) := by
      refine (filters_applyCompare hops hρ op' hl hr hkeep).imp fun hfalse => ?_
      rw [evalCompare_negOp h, hfalse]
      rfl
    simp only [List.mem_cons, List.not_mem_nil, or_false] at hop
    rcases hop with rfl | rfl | rfl | rfl | rfl | rfl <;> exact ⟨hpos, hneg _ rfl⟩
  | and _ _ ihl ihr =>
    refine ⟨fun h => ?_, fun h => ?_⟩
    · have h := List.forall_mem_append.1 h
      refine (filters_applyAnd (ihl.1 h.1) (ihr.1 h.2)).imp fun hev => ?_
      simpa [evalCond] using hev
    · have h := List.forall_mem_append.1 h
      exact (filters_applyOr (ihl.2 h.1) (ihr.2 h.2)).imp Bool.and_eq_false_iff.1
  | or _ _ ihl ihr =>
    refine ⟨fun h => ?_, fun h => ?_⟩
    · have h := List.forall_mem_append.1 h
      refine (filters_applyOr (ihl.1 h.1) (ihr.1 h.2)).imp fun hev => ?_
      simpa [evalCond] using hev
    · have h := List.forall_mem_append.1 h
      refine (filters_applyAnd (ihl.2 h.1) (ihr.2 h.2)).imp fun hev => ?_
      simpa [evalCond] using hev
  | not _ ih =>
    refine ⟨fun h => (ih.2 h).imp fun hev => ?_, fun h => (ih.1 h).imp fun hev => ?_⟩
    · simpa [evalCond] using hev
    · simpa [evalCond] using hev

/-- On unbounded integers. -/
theorem exact_keeps_satisfying [SimpleC] (hops : IntegerOps) {e : SExpression} (he : CondExpr S e)
    {t t' : TState IntValue} (hcond : t.cond = true) (hst : StateIn t.st σ) (hS : DeclaredOk S t.st)
    (hρ : Valuation S σ t.scope ρ) (hsat : evalCond ρ e = true)
    (hcmp : ∀ p ∈ comparisons true e, Harmless ρ p) {act : IntAct}
    (hrun : transformerExprInt e t = (.ok act, t')) : t'.st.isBot = false ∧ StateIn t'.st σ := by
  have hfilter := (filters_cond hops hρ he).1 hcmp t ⟨rfl, hst, hS⟩
  have hsat' : Op.Sat (transformerExprInt e) t (fun _ t' => StateIn t'.st σ) fun _ _ => True := by
    unfold transformerExprInt
    simp only [Op.sat_bind, Op.sat_get, hcond, if_true]
    refine hfilter.mono ?_ fun _ _ h => h
    rintro ⟨val, a⟩ t₁ ⟨ht₁, hval⟩
    show StateIn (if val = .bot then ProgState.bot else t₁.st) σ
    rw [if_neg (hval hsat)]
    exact ht₁.st
  have h := hsat'.of_eq_ok hrun
  exact ⟨h.isBot.1, h⟩

end Filter

/-! ## Conditions on words -/

/-! The filter on a host. -/

section On

variable [SimpleC] (H : HostInt)

abbrev narrowOn (st : IntState) (scope : Scope) (e : SExpression) (nval : IntValue)
    (into : IntState) : Except DomErr (IntState × IntAct) := narrow st scope e nval into

abbrev intervalLeqOn (l r : SExpression) : TOp IntValue CondAct := intervalLeq l r

abbrev applyCompareOn (op : BinaryOp) (l r : SExpression) : TOp IntValue CondAct :=
  applyCompare op l r

abbrev boolTransformerOn (e : SExpression) : TOp IntValue CondAct := boolTransformerInt e

abbrev boolTransformerNegOn (e : SExpression) : TOp IntValue CondAct := boolTransformerNeg e

abbrev transformerExprOn (e : SExpression) : TOp IntValue IntAct := transformerExprInt e

end On

section Refines

variable [SimpleC] {S : SymId → Prop} {H H' : HostInt} (hH : H.Refines H')
include hH

theorem mirrors_narrow {e : SExpression} (he : ArithExpr S e) (st into : IntState) (scope : Scope)
    (nval : IntValue) :
    Mirrors (narrowOn H st scope e nval into) (narrowOn H' st scope e nval into) := by
  unfold narrowOn narrow
  split
  · exact mirrors_bind (he.scalar.mirrors_getAddrs st scope) fun A =>
      mirrors_bind (mirrors_writeMemory hH into A nval) fun _ => mirrors_refl _
  · exact mirrors_refl _

theorem refines_intervalLeq {l r : SExpression} (hl : ArithExpr S l) (hr : ArithExpr S r) :
    Op.Refines Eq (intervalLeqOn H l r) (intervalLeqOn H' l r) := by
  refine Op.refines_bind (refines_transformer hH hl.scalar) ?_
  rintro ⟨lv, la⟩ ⟨lv', _⟩ ⟨hlv, rfl⟩
  refine Op.refines_bind (refines_transformer hH hr.scalar) ?_
  rintro ⟨rv, ra⟩ ⟨rv', _⟩ ⟨hrv, rfl⟩
  refine Op.refines_bind (Op.refines_monadLift hlv) ?_
  rintro u _ rfl
  refine Op.refines_bind (Op.refines_monadLift hrv) ?_
  rintro w _ rfl
  dsimp only
  split
  · exact Op.refines_refl _
  refine Op.refines_bind (Op.refines_refl _) ?_
  rintro a _ rfl
  refine Op.refines_bind (Op.refines_refl _) ?_
  rintro d _ rfl
  split
  · exact Op.refines_refl _
  refine Op.refines_bind (Op.refines_refl _) ?_
  rintro t _ rfl
  refine Op.refines_bind (Op.refines_refl _) ?_
  rintro b _ rfl
  refine Op.refines_bind (Op.refines_refl _) ?_
  rintro c _ rfl
  refine Op.refines_bind (Op.refines_monadLift (mirrors_narrow hH hl _ _ _ _)) ?_
  rintro ⟨s₁, a₁⟩ _ rfl
  refine Op.refines_bind (Op.refines_monadLift (mirrors_narrow hH hr _ _ _ _)) ?_
  rintro ⟨s₂, a₂⟩ _ rfl
  exact Op.refines_refl _

omit [SimpleC] hH in
theorem refines_applyAnd {l r l' r' : TOp IntValue CondAct} (hl : Op.Refines Eq l l')
    (hr : Op.Refines Eq r r') : Op.Refines Eq (applyAnd l r) (applyAnd l' r') := by
  refine Op.refines_bind hl ?_
  rintro x _ rfl
  refine Op.refines_bind hr ?_
  rintro y _ rfl
  exact Op.refines_refl _

omit [SimpleC] hH in
theorem refines_applyOr {l r l' r' : TOp IntValue CondAct} (hl : Op.Refines Eq l l')
    (hr : Op.Refines Eq r r') : Op.Refines Eq (applyOr l r) (applyOr l' r') := by
  refine Op.refines_bind hl ?_
  rintro x _ rfl
  refine Op.refines_bind hr ?_
  rintro y _ rfl
  exact Op.refines_refl _

theorem refines_applyCompare (op : BinaryOp) {l r : SExpression} (hl : ArithExpr S l)
    (hr : ArithExpr S r) :
    Op.Refines Eq (applyCompareOn H op l r) (applyCompareOn H' op l r) := by
  have hsub {e} (he : ArithExpr S e) : ArithExpr S (.binary .sub e constOne) :=
    .binary (.inr rfl) he (.const 1)
  have hadd {e} (he : ArithExpr S e) : ArithExpr S (.binary .add e constOne) :=
    .binary (.inl rfl) he (.const 1)
  cases op with
  | le => exact refines_intervalLeq hH hl (hsub hr)
  | gr => exact refines_intervalLeq hH (hadd hr) hl
  | leq => exact refines_intervalLeq hH hl hr
  | geq => exact refines_intervalLeq hH hr hl
  | eq => exact refines_applyAnd (refines_intervalLeq hH hl hr) (refines_intervalLeq hH hr hl)
  | neq =>
    exact refines_applyOr (refines_intervalLeq hH hl (hsub hr)) (refines_intervalLeq hH hr (hsub hl))
  | _ => exact Op.refines_refl _

theorem refines_cond {e : SExpression} (he : CondExpr S e) :
    Op.Refines Eq (boolTransformerOn H e) (boolTransformerOn H' e) ∧
      Op.Refines Eq (boolTransformerNegOn H e) (boolTransformerNegOn H' e) := by
  induction he with
  | compare hop hl hr =>
    have hcmp (op) := refines_applyCompare hH op hl hr
    simp only [List.mem_cons, List.not_mem_nil, or_false] at hop
    rcases hop with rfl | rfl | rfl | rfl | rfl | rfl
    · exact ⟨hcmp .le, hcmp .geq⟩
    · exact ⟨hcmp .gr, hcmp .leq⟩
    · exact ⟨hcmp .leq, hcmp .gr⟩
    · exact ⟨hcmp .geq, hcmp .le⟩
    · exact ⟨hcmp .eq, hcmp .neq⟩
    · exact ⟨hcmp .neq, hcmp .eq⟩
  | and _ _ ihl ihr => exact ⟨refines_applyAnd ihl.1 ihr.1, refines_applyOr ihl.2 ihr.2⟩
  | or _ _ ihl ihr => exact ⟨refines_applyOr ihl.1 ihr.1, refines_applyAnd ihl.2 ihr.2⟩
  | not _ ih => exact ⟨ih.2, ih.1⟩

/-- A conditional edge. -/
theorem transformerExprOn_of_refines {e : SExpression} (he : CondExpr S e) {t t' : TState IntValue}
    (hcond : t.cond = true) {act : IntAct} (h : transformerExprOn H e t = (.ok act, t')) :
    transformerExprOn H' e t = (.ok act, t') := by
  unfold transformerExprOn transformerExprInt at h ⊢
  rw [Op.run_get_bind, if_pos hcond] at h ⊢
  obtain ⟨c, t₁, hc, h⟩ := Op.run_bind_eq_ok.1 h
  obtain ⟨_, hc', rfl⟩ := (refines_cond hH he).1 t c t₁ hc
  exact Op.run_bind_eq_ok.2 ⟨c, t₁, hc', h⟩

end Refines

section Edge

/-- No sum and no difference that the edge computes overflows. -/
def NoOverflow [SimpleC] (e : SExpression) (t : TState IntValue) : Prop :=
  ∃ act t', transformerExprOn HostInt.checked e t = (.ok act, t')

attribute [local instance] HostInt.word

end Edge

/-! `x` is a global and `y` a local of the thread 0, as in `pairState`. -/

def pairCond (u w : IntValue) : TState IntValue := ⟨.loc 0, pairState u w, none, none, true, 0, []⟩

def pairVals (n m : Int) (x : SymId) : Int := if x = ⟨7⟩ then n else m

theorem valuation_pairState (n m : Int) :
    Valuation (fun x => x = ⟨7⟩ ∨ x = ⟨8⟩) (pairState (.val (.int n)) (.val (.int m))) (.loc 0)
      (pairVals n m) := by
  rintro x (rfl | rfl)
  · exact ⟨_, rfl, rfl⟩
  · exact ⟨_, rfl, rfl⟩

theorem mem_of_stateIn_pairState {u w : IntValue} {n m : Int}
    (h : StateIn (pairState u w) (pairState (.val (.int n)) (.val (.int m)))) : n ∈ u := by
  have hr := h.region ⟨⟨7⟩, .glob⟩
  rw [region_pairState, region_pairState, if_pos rfl, if_pos rfl] at hr
  cases hr with
  | some hr =>
    obtain ⟨k, n', key, u', -, hn, hu, -, hmem⟩ := hr ToValue.zero _ rfl
    obtain rfl : n = n' := by simpa using hn
    simp only [OrdMap.lookup, OrdMap.lookupList] at hu
    split at hu
    · obtain rfl := Option.some.inj hu
      exact hmem
    · cases hu

/-- `x <= 4 || x + 1 <= 3`: the second comparison has no variable as one of its sides. -/
def pairOr : SExpression :=
  .binary .lor (.binary .leq (.var ⟨7⟩) (.const ⟨.int 4⟩))
    (.binary .leq (.binary .add (.var ⟨7⟩) constOne) (.const ⟨.int 3⟩))

theorem condExpr_pairOr : CondExpr (fun x => x = ⟨7⟩ ∨ x = ⟨8⟩) pairOr :=
  .or (.compare (by simp) (.var (.inl rfl)) (.const 4))
    (.compare (by simp) (.binary (.inl rfl) (.var (.inl rfl)) (.const 1)) (.const 3))

theorem harmless_pairOr : ∀ p ∈ comparisons true pairOr, Harmless (pairVals 4 2) p := by
  intro p hp
  simp only [pairOr, comparisons, splitCompare, if_true, List.cons_append, List.nil_append,
    List.mem_cons, List.not_mem_nil, or_false] at hp
  rcases hp with rfl | rfl
  · exact .inl (by decide)
  · exact .inr ⟨rfl, rfl⟩

section Integers

attribute [local instance] HostInt.word SimpleC.integers

/-- `x != 5`. -/
def pairNe : SExpression := .binary .neq (.var ⟨7⟩) (.const ⟨.int 5⟩)

/-- `x + y <= 10`. -/
def pairSum : SExpression :=
  .binary .leq (.binary .add (.var ⟨7⟩) (.var ⟨8⟩)) (.const ⟨.int 10⟩)

/-- For `x` in `u` and `y` in `w`, the edge of `e` loses the state with `x = n` and `y = m`, which
satisfies `e`. -/
def LosesPair (e : SExpression) (u w : IntValue) (n m : Int) : Prop :=
  let S : SymId → Prop := fun x => x = ⟨7⟩ ∨ x = ⟨8⟩
  let σ : ConState := pairState (.val (.int n)) (.val (.int m))
  CondExpr S e ∧ StateIn (pairState u w) σ ∧ DeclaredOk S (pairState u w) ∧
    Valuation S σ (.loc 0) (pairVals n m) ∧ evalCond (pairVals n m) e = true ∧
    ∃ act t', transformerExprInt e (pairCond u w) = (.ok act, t') ∧ ¬ StateIn t'.st σ

end Integers

end Poet
