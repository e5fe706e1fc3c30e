import Poet.Domain.Concrete.Transformers
import Poet.Domain.Interval.Arithmetic
import Poet.Domain.Interval.Regions
import Poet.Domain.Interval.Transformers
import Poet.Domain.Layout
import Poet.Lib.Simulation

/-!
# The interval transformer simulates the concrete one

A concrete state is in the concretisation of an interval state (`StateIn`) if both have the same
threads at the same positions and the same regions, and every concrete cell is an integer in a cell
of the interval region whose key has its offset. On expressions without arrays, calls and division
the two transformers keep this relation, the concrete value is in the abstract one and the addresses
read and written are in the abstract ones. Both are instances of one text, so the proof goes through
that text with the rules of `Op.Sim`.

Nothing is assumed on how the interval region of a variable is split, as long as its keys are disjoint
intervals in order (`OffsOk`); a scalar has one cell at `[0,0]`.
-/

namespace Poet

/-! ## Concretisation -/

def RegionIn (a : IntOffs) (c : ConOffs) : Prop :=
  ∀ off val, c.lookup off = some val → ∃ k n key u,
    off = .val (.int k) ∧ val = .val (.int n) ∧ a.lookup key = some u ∧ k ∈ key ∧ n ∈ u

structure StateIn (s : IntState) (σ : ConState) : Prop where
  isBot : s.isBot = false ∧ σ.isBot = false
  position : ∀ t, σ.position t = s.position t
  region : ∀ b, Option.Rel RegionIn (s.region b) (σ.region b)

/-- The concrete address is one of those that the other stands for. -/
def AddrIn (a : IntMAddr) (c : MemAddr ConValue) : Prop :=
  a.base = c.base ∧ a.level = c.level ∧ ∃ k, c.offset = .val (.int k) ∧ k ∈ a.offset

def AddrsIn (A : IntMAddrs) (C : MemAddrs ConValue) : Prop := ∀ c ∈ C, ∃ a ∈ A, AddrIn a c

/-- The addresses read and written. -/
structure ActIn (A : IntAct) (C : ConAct) : Prop where
  rds : AddrsIn A.rds C.rds
  wrs : AddrsIn A.wrs C.wrs

/-- If both values can be looked at, the concrete one is in the other. -/
def ValIn (l : LazyVal IntValue) (c : LazyVal ConValue) : Prop :=
  ∀ u w, l = .ok u → c = .ok w → ∃ n, w = .val (.int n) ∧ n ∈ u

/-- The interval regions of the variables are well formed. -/
def DeclaredOk (S : SymId → Prop) (s : IntState) : Prop :=
  ∀ x, S x → ∀ level offs, s.region ⟨x, level⟩ = some offs → OffsOk offs.toList

theorem DeclaredOk.baseOf {S : SymId → Prop} {s : IntState} (h : DeclaredOk S s) {x : SymId} (hx : S x)
    (scope : Scope) {offs : IntOffs} (ho : s.region (s.baseOf x scope) = some offs) :
    OffsOk offs.toList := by
  rw [← s.baseOf_base x scope] at hx
  exact h _ hx _ offs ho

theorem DeclaredOk.set {S : SymId → Prop} {s s' : IntState} {b : MemAddrBase} {offs : IntOffs}
    (h : DeclaredOk S s) (hset : ProgState.SetRegion s b offs s') (hok : OffsOk offs.toList) :
    DeclaredOk S s' := by
  intro x hx level o ho
  rw [hset.region] at ho
  split at ho
  · obtain rfl := Option.some.inj ho
    exact hok
  · exact h x hx level o ho

structure TStateIn (S : SymId → Prop) (ta : TState IntValue) (tc : TState ConValue) : Prop where
  scope : ta.scope = tc.scope
  st : StateIn ta.st tc.st
  declared : DeclaredOk S ta.st

def ResultIn (r : ValAct IntValue) (c : ValAct ConValue) : Prop := ValIn r.1 c.1 ∧ ActIn r.2 c.2

theorem AddrsIn.join {A A' : IntMAddrs} {C C' : MemAddrs ConValue} (h : AddrsIn A C)
    (h' : AddrsIn A' C') : AddrsIn (A.join A') (C.join C') := by
  intro c hc
  rcases MemAddrs.mem_join.1 hc with hc | hc
  · obtain ⟨a, ha, hac⟩ := h c hc
    exact ⟨a, MemAddrs.mem_join.2 (.inl ha), hac⟩
  · obtain ⟨a, ha, hac⟩ := h' c hc
    exact ⟨a, MemAddrs.mem_join.2 (.inr ha), hac⟩

theorem addrsIn_nil : AddrsIn (.addrs []) (.addrs []) := by
  intro c hc
  cases hc

theorem actIn_bot : ActIn Act.bot Act.bot := ⟨addrsIn_nil, addrsIn_nil⟩

theorem ActIn.join {A A' : IntAct} {C C' : ConAct} (h : ActIn A C) (h' : ActIn A' C') :
    ActIn (A.join A') (C.join C') := ⟨h.rds.join h'.rds, h.wrs.join h'.wrs⟩

theorem ActIn.addWrites {A : IntAct} {C : ConAct} {B : IntMAddrs} {D : MemAddrs ConValue}
    (h : ActIn A C) (h' : AddrsIn B D) : ActIn (A.addWrites B) (C.addWrites D) :=
  ⟨h.rds, h'.join h.wrs⟩

/-- An operation that is sound on values is sound on values that have not been looked at. -/
theorem ValIn.map₂ {l l' : LazyVal IntValue} {c c' : LazyVal ConValue} (h : ValIn l c)
    (h' : ValIn l' c') {f : IntValue → IntValue → Except DomErr IntValue}
    {g : ConValue → ConValue → Except DomErr ConValue} (op : Int → Int → Int)
    (hf : ∀ {u u' w n m}, f u u' = .ok w → n ∈ u → m ∈ u' → op n m ∈ w)
    (hg : ∀ n m, g (.val (.int n)) (.val (.int m)) = .ok (.val (.int (op n m)))) :
    ValIn (do f (← l) (← l')) (do g (← c) (← c')) := by
  intro u w hu hw
  obtain ⟨x, hx, hu⟩ := bind_eq_ok.1 hu
  obtain ⟨x', hx', hu⟩ := bind_eq_ok.1 hu
  obtain ⟨y, hy, hw⟩ := bind_eq_ok.1 hw
  obtain ⟨y', hy', hw⟩ := bind_eq_ok.1 hw
  obtain ⟨n, rfl, hn⟩ := h x y hx hy
  obtain ⟨m, rfl, hm⟩ := h' x' y' hx' hy'
  exact ⟨op n m, (Except.ok.inj ((hg n m).symm.trans hw)).symm, hf hu hn hm⟩

/-! ## Variables -/

section Variables

variable {s s' : IntState} {σ σ' : ConState} {b : MemAddrBase} {A : IntMAddrs} {C : MemAddrs ConValue}

/-- The addresses of a variable, whose region is at `b`. -/
def VarAt (s : IntState) (σ : ConState) (b : MemAddrBase) (A : IntMAddrs) (C : MemAddrs ConValue) :
    Prop :=
  ∃ oa oc, s.region b = some oa ∧ σ.region b = some oc ∧ RegionIn oa oc ∧
    A = ProgState.toMemAddrs oa b ∧ C = ProgState.toMemAddrs oc b

theorem StateIn.baseOf (h : StateIn s σ) (x : SymId) (scope : Scope) :
    σ.baseOf x scope = s.baseOf x scope := by
  have hr := h.region ⟨x, scope⟩
  unfold ProgState.baseOf
  cases hs : s.region ⟨x, scope⟩ <;> cases hσ : σ.region ⟨x, scope⟩ <;> simp_all

theorem StateIn.varAt (h : StateIn s σ) {x : SymId} {scope : Scope}
    (hA : s.getAddrs ⟨x, scope⟩ = .ok A) (hC : σ.getAddrs ⟨x, scope⟩ = .ok C) :
    VarAt s σ (s.baseOf x scope) A C := by
  obtain ⟨oa, hoa, rfl⟩ := ProgState.getAddrs_eq_ok hA
  obtain ⟨oc, hoc, rfl⟩ := ProgState.getAddrs_eq_ok hC
  rw [h.baseOf] at hoc ⊢
  have hr := h.region (s.baseOf x scope)
  rw [hoa, hoc] at hr
  cases hr with
  | some hr => exact ⟨oa, oc, hoa, hoc, hr, rfl, rfl⟩

theorem VarAt.addrsIn (h : VarAt s σ b A C) : AddrsIn A C := by
  obtain ⟨oa, oc, -, -, hr, rfl, rfl⟩ := h
  simp only [ProgState.toMemAddrs_eq]
  intro c hc
  obtain ⟨off, hoff, rfl⟩ := List.mem_map.1 hc
  obtain ⟨val, hval⟩ := OrdMap.mem_keys.1 hoff
  obtain ⟨k, n, key, u, hk, -, hu, hkey, -⟩ := hr off val hval
  refine ⟨toAddr b key, List.mem_map_of_mem (OrdMap.mem_keys.2 ⟨u, hu⟩), rfl, rfl, k, hk, hkey⟩

theorem VarAt.valIn [SimpleC] [HostInt] (h : VarAt s σ b A C) (fn : String) :
    ValIn (do TransValue.pick fn (← s.readMemory A)) (do TransValue.pick fn (← σ.readMemory C)) := by
  obtain ⟨oa, oc, ha, hc, hr, rfl, rfl⟩ := h
  simp only [ProgState.toMemAddrs_eq]
  intro v w hv hw
  obtain ⟨us, hus, hv⟩ := bind_eq_ok.1 hv
  obtain ⟨ws, hws, hw⟩ := bind_eq_ok.1 hw
  obtain rfl : ws = [w] := by
    cases ws with
    | nil => cases hw
    | cons w' ws =>
      cases ws with
      | nil => rw [Except.ok.inj hw]
      | cons _ _ => cases hw
  -- the concrete value is the one of some cell
  obtain ⟨a, ha', haw⟩ := (mapM'_mem hws).2 w List.mem_cons_self
  obtain ⟨off, hoff, rfl⟩ := List.mem_map.1 ha'
  obtain ⟨val, hval⟩ := OrdMap.mem_keys.1 hoff
  have hread : Region.read oc off = .ok (some val) := by simp [Region.read, hval]
  obtain rfl := Except.ok.inj ((ProgState.readMemoryAddr_eq hc hread).symm.trans haw)
  obtain ⟨k, n, key, u, -, hn, hu, -, hnu⟩ := hr off val hval
  -- and the interval cell that has it is among those that are joined
  have hread' : Region.read oa key = .ok (some u) := by simp [Region.read, hu]
  have hkey : toAddr b key ∈ oa.keys.map (toAddr b) :=
    List.mem_map_of_mem (OrdMap.mem_keys.2 ⟨u, hu⟩)
  obtain ⟨u', hu', hread''⟩ := (mapM'_mem hus).1 _ hkey
  obtain rfl := Except.ok.inj ((ProgState.readMemoryAddr_eq ha hread').symm.trans hread'')
  exact ⟨n, hn, IntValue.mem_joinL hv hu' hnu⟩

theorem writeOffs_int [HostInt] {oa oa' : IntOffs} {ks : List IntValue} {u : IntValue}
    (hok : OffsOk oa.toList) (hks : ∀ k ∈ ks, k ∈ oa.keys)
    (h : ProgState.writeOffs oa ks u = .ok oa') :
    oa'.toList = oa.toList.map fun p => if p.1 ∈ ks then (p.1, u) else p := by
  induction ks generalizing oa' with
  | nil =>
    obtain rfl := Except.ok.inj h
    simp
  | cons k ks ih =>
    obtain ⟨o, ho, h⟩ := bind_eq_ok.1 h
    have ho' := ih (fun k hk => hks k (List.mem_cons_of_mem _ hk)) ho
    have hkeys : o.toList.map (·.1) = oa.toList.map (·.1) := by
      rw [ho', List.map_map]
      refine List.map_congr_left fun p _ => ?_
      show (if p.1 ∈ ks then (p.1, u) else p).1 = p.1
      split <;> rfl
    obtain ⟨o', hw, hlist⟩ := write_key (hok.of_keys hkeys) u
      (show k ∈ o.toList.map (·.1) from hkeys ▸ hks k List.mem_cons_self)
    obtain rfl := Except.ok.inj (hw.symm.trans h)
    rw [hlist, ho', List.map_map]
    refine List.map_congr_left fun ⟨l, _⟩ _ => ?_
    by_cases hlk : l = k
    · subst hlk
      by_cases hl : l ∈ ks <;> simp [hl]
    · by_cases hl : l ∈ ks <;> simp [hl, hlk]

/-- A write to all cells of a region. -/
theorem writeOffs_keys [HostInt] {oa oa' : IntOffs} {u : IntValue} (hok : OffsOk oa.toList)
    (h : ProgState.writeOffs oa oa.keys u = .ok oa') : oa' = oa.map fun _ => u := by
  have hlist : oa'.toList = oa.toList.map fun p => (p.1, u) := by
    rw [writeOffs_int hok (fun _ hk => hk) h]
    exact List.map_congr_left fun p hp => if_pos (List.mem_map_of_mem hp)
  exact congrArg OrdMap.mk hlist

/-- New regions at one base address are all that matters after they are stored. -/
theorem StateIn.set_iff {oa' : IntOffs} {oc' : ConOffs} (h : StateIn s σ)
    (hsa : ProgState.SetRegion s b oa' s') (hsc : ProgState.SetRegion σ b oc' σ') :
    StateIn s' σ' ↔ RegionIn oa' oc' := by
  constructor
  · intro h'
    have hb := h'.region b
    rw [hsa.region, hsc.region, if_pos rfl, if_pos rfl] at hb
    cases hb with
    | some hb => exact hb
  · intro hr
    refine ⟨?_, fun t => ?_, fun c => ?_⟩
    · rw [hsa.isBot, hsc.isBot]
      exact h.isBot
    · rw [hsa.position, hsc.position]
      exact h.position t
    · rw [hsa.region, hsc.region]
      split
      · exact .some hr
      · exact h.region c

/-- A write to the whole region of a variable, in both states. -/
theorem StateIn.write [HostInt] (h : StateIn s σ) (hv : VarAt s σ b A C)
    (hok : ∀ oa, s.region b = some oa → OffsOk oa.toList) {u : IntValue} {n : Int} (hn : n ∈ u)
    (hA : s.writeMemory A u = .ok s') (hC : σ.writeMemory C (.val (.int n)) = .ok σ') :
    StateIn s' σ' ∧ ∃ oa', OffsOk oa'.toList ∧ ProgState.SetRegion s b oa' s' := by
  obtain ⟨oa, oc, ha, hc, hr, rfl, rfl⟩ := hv
  rw [ProgState.toMemAddrs_eq] at hA hC
  obtain ⟨oa', hwa, hsa⟩ := ProgState.writeMemory_eq_ok ha hA
  obtain ⟨oc', hwc, hsc⟩ := ProgState.writeMemory_eq_ok hc hC
  obtain rfl := writeOffs_keys (hok oa ha) hwa
  have hok' : OffsOk (oa.map fun _ => u).toList := (hok oa ha).of_keys (by simp [OrdMap.map])
  refine ⟨(h.set_iff hsa hsc).2 fun off val hval => ?_, _, hok', hsa⟩
  rw [writeOffs_con hwc] at hval
  split at hval
  · next hoff =>
    obtain ⟨x, hx⟩ := OrdMap.mem_keys.1 hoff
    obtain ⟨k, -, key, u₀, hk, -, hu₀, hkey, -⟩ := hr off x hx
    refine ⟨k, n, key, u, hk, (Option.some.inj hval).symm, ?_, hkey, hn⟩
    rw [OrdMap.lookup_map, hu₀, Option.map_some]
  · next hoff => exact absurd (OrdMap.mem_keys.2 ⟨val, hval⟩) hoff

end Variables

/-! ## Expressions -/

/-- Expressions over the variables `S` without arrays, calls and division. -/
inductive ScalarExpr (S : SymId → Prop) : SExpression → Prop where
  | const (n : Int) : ScalarExpr S (.const ⟨.int n⟩)
  | var {x} (h : S x) : ScalarExpr S (.var x)
  | binary {op l r} (hop : op = .add ∨ op = .sub ∨ op = .mul) (hl : ScalarExpr S l)
      (hr : ScalarExpr S r) : ScalarExpr S (.binary op l r)
  | unary {op e} (hop : op = .plus ∨ op = .min ∨ op = .postInc ∨ op = .postDec)
      (h : ScalarExpr S e) : ScalarExpr S (.unary op e)
  | assign {op l r} (hop : op = .assign ∨ op = .add ∨ op = .sub ∨ op = .mul) (hl : ScalarExpr S l)
      (hr : ScalarExpr S r) : ScalarExpr S (.assign op l r)

section Expressions

variable {S : SymId → Prop} [SimpleC]

theorem ScalarExpr.eq_var {v : Type} [DecidableEq v] [ToValue v] [OrdKey v] [Region v] [TransValue v]
    {e : SExpression} (h : ScalarExpr S e) {st : ProgState v} {scope : Scope} {A : MemAddrs v}
    (hA : getAddrsExpr e st scope = .ok A) : ∃ x, S x ∧ e = .var x := by
  cases h with
  | const n => cases hA
  | var hx => exact ⟨_, hx, rfl⟩
  | binary _ _ _ => cases hA
  | unary hop _ => rcases hop with rfl | rfl | rfl | rfl <;> cases hA
  | assign _ _ _ => cases hA

theorem sim_var [HostInt] {x : SymId} :
    Op.Sim (TStateIn S) ResultIn (varTransformer x) (varTransformer x) := by
  refine Op.sim_bind Op.sim_get fun ta tc ht => ?_
  refine Op.sim_bind (Op.sim_monadLift fun A C hA hC => ht.st.varAt hA (ht.scope ▸ hC)) ?_
  intro A C hv
  exact Op.sim_pure ⟨hv.valIn _, hv.addrsIn, addrsIn_nil⟩

theorem sim_const [HostInt] (n : Int) :
    Op.Sim (TStateIn S) ResultIn (constTransformer (.int n)) (constTransformer (.int n)) := by
  refine Op.sim_pure ⟨?_, actIn_bot⟩
  rintro _ _ ⟨⟩ ⟨⟩
  exact ⟨n, rfl, le_rfl, le_rfl⟩

section Operations

attribute [local instance] HostInt.unbounded

variable (hops : IntegerOps)
include hops

theorem sim_binop {op : BinaryOp} (hop : op = .add ∨ op = .sub ∨ op = .mul)
    {l r : TOp IntValue (ValAct IntValue)} {l' r' : TOp ConValue (ValAct ConValue)}
    (hl : Op.Sim (TStateIn S) ResultIn l l') (hr : Op.Sim (TStateIn S) ResultIn r r') :
    Op.Sim (TStateIn S) ResultIn (binopTransformer op l r) (binopTransformer op l' r') := by
  refine Op.sim_bind hl fun vl cl h => Op.sim_bind hr fun vr cr h' => Op.sim_pure ?_
  refine ⟨?_, h.2.join h'.2⟩
  rcases hop with rfl | rfl | rfl
  · exact h.1.map₂ h'.1 (· + ·) (IntValue.mem_add fun _ => hops) (ConValue.add_int hops)
  · exact h.1.map₂ h'.1 (· - ·) (IntValue.mem_sub fun _ => hops) (ConValue.sub_int hops)
  · exact h.1.map₂ h'.1 (· * ·) (IntValue.mem_mul fun _ => hops) (ConValue.mul_int hops)

theorem sim_minus {e : TOp IntValue (ValAct IntValue)} {e' : TOp ConValue (ValAct ConValue)}
    (he : Op.Sim (TStateIn S) ResultIn e e') :
    Op.Sim (TStateIn S) ResultIn (minusTransformer e) (minusTransformer e') := by
  refine Op.sim_bind he fun v c h => Op.sim_pure ⟨?_, h.2⟩
  intro u w hu hw
  obtain ⟨x, hx, hu⟩ := bind_eq_ok.1 hu
  obtain ⟨y, hy, hw⟩ := bind_eq_ok.1 hw
  obtain ⟨n, rfl, hn⟩ := h.1 x y hx hy
  refine ⟨-n, (Except.ok.inj ((ConValue.minus_int hops n).symm.trans hw)).symm, ?_⟩
  rw [← Int.zero_sub]
  exact IntValue.mem_sub (by simp) hu (by decide) hn

/-- What an assignment stores. -/
theorem ResultIn.assign {op : AssignOp} {vl vr : ValAct IntValue} {cl cr : ValAct ConValue}
    (h : ResultIn vl cl) (h' : ResultIn vr cr) :
    op = .assign ∨ op = .add ∨ op = .sub ∨ op = .mul →
    ValIn (match op with | .assign => vr.1 | _ => do TransValue.assignOp op (← vl.1) (← vr.1))
      (match op with | .assign => cr.1 | _ => do TransValue.assignOp op (← cl.1) (← cr.1)) := by
  rintro (rfl | rfl | rfl | rfl)
  · exact h'.1
  · exact h.1.map₂ h'.1 (· + ·) (IntValue.mem_add fun _ => hops) (ConValue.add_int hops)
  · exact h.1.map₂ h'.1 (· - ·) (IntValue.mem_sub fun _ => hops) (ConValue.sub_int hops)
  · exact h.1.map₂ h'.1 (· * ·) (IntValue.mem_mul fun _ => hops) (ConValue.mul_int hops)

theorem sim_assign {op : AssignOp} (hop : op = .assign ∨ op = .add ∨ op = .sub ∨ op = .mul)
    {e : SExpression} (he : ScalarExpr S e)
    {l r : TOp IntValue (ValAct IntValue)} {l' r' : TOp ConValue (ValAct ConValue)}
    (hl : Op.Sim (TStateIn S) ResultIn l l') (hr : Op.Sim (TStateIn S) ResultIn r r') :
    Op.Sim (TStateIn S) ResultIn (assignTransformer op l r (getAddrsExpr e))
      (assignTransformer op l' r' (getAddrsExpr e)) := by
  refine Op.sim_bind hl fun vl cl h => Op.sim_bind hr fun vr cr h' => ?_
  refine Op.sim_bind Op.sim_get fun ta tc ht => ?_
  refine Op.sim_bind (Q := fun A C => ∃ x, S x ∧ VarAt ta.st tc.st (ta.st.baseOf x ta.scope) A C)
    (Op.sim_monadLift fun A C hA hC => ?_) fun A C ⟨x, hx, hv⟩ => ?_
  · obtain ⟨x, hx, rfl⟩ := he.eq_var hA
    exact ⟨x, hx, ht.st.varAt hA (ht.scope ▸ hC)⟩
  refine Op.sim_bind (Op.sim_monadLift fun u w hu hw => h.assign hops h' hop u w hu hw) ?_
  rintro u _ ⟨n, rfl, hn⟩
  refine Op.sim_bind (Op.sim_monadLift fun s' σ' hA hC =>
    ht.st.write hv (fun _ => ht.declared.baseOf hx ta.scope) hn hA hC) ?_
  rintro s' σ' ⟨hst, oa', hoa', hset⟩
  refine Op.sim_bind (Op.sim_modify (R := TStateIn S) fun ta' tc' ht' =>
    ⟨ht'.scope, hst, ht.declared.set hset hoa'⟩) fun _ _ _ => ?_
  refine Op.sim_pure ⟨?_, (h'.2.join h.2).addWrites hv.addrsIn⟩
  rintro _ _ ⟨⟩ ⟨⟩
  exact ⟨n, rfl, hn⟩

theorem sim_transformer {e : SExpression} (he : ScalarExpr S e) :
    Op.Sim (TStateIn S) ResultIn (transformer e) (transformer e) := by
  induction he with
  | const n => exact sim_const n
  | var _ => exact sim_var
  | binary hop _ _ ihl ihr => exact sim_binop hops hop ihl ihr
  | unary hop he ih =>
    rcases hop with rfl | rfl | rfl | rfl
    · exact ih
    · exact sim_minus hops ih
    · exact sim_assign hops (.inr (.inl rfl)) he ih (sim_const 1)
    · exact sim_assign hops (.inr (.inr (.inl rfl))) he ih (sim_const 1)
  | assign hop hl _ ihl ihr => exact sim_assign hops hop hl ihl ihr

end Operations

end Expressions

section Simulation

attribute [local instance] HostInt.unbounded

/-- Run in related states, the two transformers give related values, actions and states. -/
theorem interval_simulates_concrete [SimpleC] (hops : IntegerOps) {S : SymId → Prop}
    {e : SExpression} (he : ScalarExpr S e) {ta ta' : TState IntValue} {tc tc' : TState ConValue}
    (hscope : ta.scope = tc.scope) (hst : StateIn ta.st tc.st) (hS : DeclaredOk S ta.st)
    {va : LazyVal IntValue} {aa : IntAct} {vc : LazyVal ConValue} {ac : ConAct}
    (hA : transformer e ta = (.ok (va, aa), ta')) (hC : transformer e tc = (.ok (vc, ac), tc')) :
    (∀ u w, va = .ok u → vc = .ok w → ∃ n, w = .val (.int n) ∧ n ∈ u) ∧
      StateIn ta'.st tc'.st ∧ AddrsIn aa.rds ac.rds ∧ AddrsIn aa.wrs ac.wrs := by
  obtain ⟨⟨hval, hact⟩, ht⟩ :=
    sim_transformer hops he ta tc ⟨hscope, hst, hS⟩ (va, aa) ta' (vc, ac) tc' hA hC
  exact ⟨hval, ht.st, hact.rds, hact.wrs⟩

end Simulation

/-! A state with a global `x` and a local `y` of the thread 0. -/

def pairState {v : Type} [ToValue v] (x y : v) : ProgState v :=
  ⟨⟨[(⟨⟨7⟩, .glob⟩, ⟨[(ToValue.zero, x)]⟩)]⟩,
    ⟨[(0, ⟨4, ⟨0⟩, ⟨[(⟨⟨8⟩, .loc 0⟩, ⟨[(ToValue.zero, y)]⟩)]⟩⟩)]⟩, 1, false⟩

def pairTState {v : Type} [ToValue v] (x y : v) : TState v :=
  ⟨.loc 0, pairState x y, none, none, false, 0, []⟩

theorem region_pairState {v : Type} [ToValue v] (x y : v) (b : MemAddrBase) :
    (pairState x y).region b = if b = ⟨⟨7⟩, .glob⟩ then some ⟨[(ToValue.zero, x)]⟩
      else if b = ⟨⟨8⟩, .loc 0⟩ then some ⟨[(ToValue.zero, y)]⟩ else none := by
  obtain ⟨id, level⟩ := b
  cases level with
  | glob => simp [ProgState.region, pairState, OrdMap.lookup, OrdMap.lookupList]
  | loc i =>
    by_cases hi : i = 0 <;>
      simp [ProgState.region, pairState, OrdMap.lookup, OrdMap.lookupList, hi]

theorem regionIn_cell {u : IntValue} {n : Int} (h : n ∈ u) :
    RegionIn ⟨[(ToValue.zero, u)]⟩ ⟨[(ToValue.zero, .val (.int n))]⟩ := by
  intro off val hval
  simp only [OrdMap.lookup, OrdMap.lookupList] at hval
  split at hval
  · next hoff =>
    refine ⟨0, n, ToValue.zero, u, hoff, (Option.some.inj hval).symm, ?_, by decide, h⟩
    simp [OrdMap.lookup, OrdMap.lookupList]
  · cases hval

theorem stateIn_pairState {u w : IntValue} {n m : Int} (hn : n ∈ u) (hm : m ∈ w) :
    StateIn (pairState u w) (pairState (.val (.int n)) (.val (.int m))) := by
  refine ⟨⟨rfl, rfl⟩, fun t => ?_, fun b => ?_⟩
  · by_cases ht : t = 0 <;>
      simp [ProgState.position, pairState, OrdMap.lookup, OrdMap.lookupList, ht]
  · rw [region_pairState, region_pairState]
    split
    · exact .some (regionIn_cell hn)
    · split
      · exact .some (regionIn_cell hm)
      · exact .none

theorem declaredOk_pairState (S : SymId → Prop) (u w : IntValue) : DeclaredOk S (pairState u w) := by
  intro x _ level offs h
  rw [region_pairState] at h
  split at h
  · obtain rfl := Option.some.inj h
    exact offsOk_singleton (by decide)
  · split at h
    · obtain rfl := Option.some.inj h
      exact offsOk_singleton (by decide)
    · cases h

/-- `x += y++ * 2`. -/
def pairExpr : SExpression :=
  .assign .add (.var ⟨7⟩) (.binary .mul (.unary .postInc (.var ⟨8⟩)) (.const ⟨.int 2⟩))

theorem scalarExpr_pairExpr : ScalarExpr (fun _ => True) pairExpr :=
  .assign (.inr (.inl rfl)) (.var trivial)
    (.binary (.inr (.inr rfl)) (.unary (.inr (.inr (.inl rfl))) (.var trivial)) (.const 2))

def pairInt : TState IntValue := pairTState (.interVal (.i 0) (.i 5)) (.interVal (.i 1) (.i 2))

def pairCon : TState ConValue := pairTState (.val (.int 3)) (.val (.int 2))

section Integers

attribute [local instance] HostInt.unbounded SimpleC.integers

/-- `x += y++ * 2`, from `x` in `[0,5]` and `y` in `[1,2]`, at 3 and 2. -/
theorem interval_simulates_concrete_pair : ∃ aa ta' ac tc',
    transformer pairExpr pairInt = (.ok (.ok (.interVal (.i 4) (.i 11)), aa), ta') ∧
    transformer pairExpr pairCon = (.ok (.ok (.val (.int 9)), ac), tc') ∧
    (∀ u w, Except.ok (.interVal (.i 4) (.i 11)) = (.ok u : LazyVal IntValue) →
      Except.ok (.val (.int 9)) = (.ok w : LazyVal ConValue) → ∃ n, w = .val (.int n) ∧ n ∈ u) ∧
    StateIn ta'.st tc'.st ∧ AddrsIn aa.rds ac.rds ∧ AddrsIn aa.wrs ac.wrs := by
  have hscope : pairInt.scope = pairCon.scope := rfl
  have hst : StateIn pairInt.st pairCon.st := stateIn_pairState (by decide) (by decide)
  have hS : DeclaredOk (fun _ => True) pairInt.st := declaredOk_pairState _ _ _
  exact ⟨_, _, _, _, rfl, rfl, interval_simulates_concrete integerOps_integers scalarExpr_pairExpr hscope hst
    hS rfl rfl⟩

end Integers

end Poet
