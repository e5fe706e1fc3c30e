import Poet.Domain.Interval.OffsetWrap
import Poet.Domain.Interval.Overflow

/-!
# Assignments to arrays

`a[i] = e` evaluates the left side, the right side and then the index once more, and stores the
value at the one address that this gives (`Stores`); the old value of the cell is not looked at. In
the interval semantics the address is the interval of the index, and the store is a strong update of
all its offsets, so a cell of the array that is not the one written is lost with it. And an index
that is one number inside a longer cell changes what is left of that cell behind it. Where the index
is one number and the cell that has it starts or ends there (`OnePlace`), the store changes this
offset only (`lookupOffs_write_point`) and the assignment is sound.
-/

namespace Poet

/-! ## What an assignment stores -/

/-- The places of a store, none in an array without cells. -/
def storeAt {v : Type} (b : MemAddrBase) (offs : Offs v) (off : v) : List (MemAddr v) :=
  if offs.keys = [] then [] else [toAddr b off]

/-- What a store leaves at the place of the array. -/
theorem exists_setRegion {v : Type} [DecidableEq v] [OrdKey v] [Region v] {b : MemAddrBase}
    {st st' : ProgState v} {offs : Offs v} {o val : v} (hr : st.region b = some offs)
    (h : st.writeMemory (.addrs (storeAt b offs o)) val = .ok st') :
    ∃ offs', ProgState.SetRegion st b offs' st' ∧
      if offs.keys = [] then offs' = offs else Region.write offs o val = .ok offs' := by
  unfold storeAt at h
  split at h
  · next hnil =>
    obtain rfl := Except.ok.inj h
    exact ⟨offs, .refl hr, by rw [if_pos hnil]⟩
  · next hne =>
    obtain ⟨offs', hw, hset⟩ := ProgState.writeMemoryAddr_eq_ok hr h
    exact ⟨offs', hset, by rwa [if_neg hne]⟩

theorem eraseDups_map_const {α β : Type} [DecidableEq β] (b : β) (l : List α) :
    (l.map fun _ => b).eraseDups = if l = [] then [] else [b] := by
  cases l with
  | nil => rfl
  | cons a l => simp [List.eraseDups_cons]

section Stores

variable {v : Type} [SimpleC] [DecidableEq v] [ToValue v] [OrdKey v] [Region v] [TransValue v]
  {a : SymId} {i e : SExpression} {t t' : TState v}

/-- `a[i] = e`. -/
def arrayAssign (a : SymId) (i e : SExpression) : SExpression :=
  .assign .assign (.index (.var a) i) e

/-- A run of `a[i] = e` up to the store: the index and the right side lead from `t` to `t₂`, in
which the array has the cells `offs`, the index is `off` and the right side `val`. -/
structure Stores (a : SymId) (i e : SExpression) (t t₁ t₂ : TState v) (offs : Offs v)
    (off val : v) : Prop where
  index : ∃ r, transformer i t = (.ok r, t₁)
  right : ∃ acts, transformer e t₁ = (.ok (.ok val, acts), t₂)
  region : t₂.st.region (t₂.st.baseOf a t₂.scope) = some offs
  again : ∃ acts, (transformer i (indexState t₂.st t₂.scope)).1 = .ok (.ok off, acts)

/-- The state in which `a[i] = e` stores, after the index and the right side. -/
def BeforeStore (i e : SExpression) (t t₂ : TState v) : Prop :=
  ∃ r t₁ r', transformer i t = (.ok r, t₁) ∧ transformer e t₁ = (.ok r', t₂)

/-- The state after the left side is the one after the index. -/
theorem exists_run_index {r : ValAct v}
    (h : transformer (.index (.var a) i) t = (.ok r, t')) :
    ∃ r', transformer i t = (.ok r', t') := by
  rw [transformer] at h
  obtain ⟨_, _, ⟨⟩, h⟩ := Op.run_bind_eq_ok.1 h
  obtain ⟨A, _, hA, h⟩ := Op.run_bind_eq_ok.1 h
  obtain ⟨-, rfl⟩ := Op.run_monadLift_eq_ok.1 hA
  cases A with
  | top => cases h
  | addrs l =>
    obtain ⟨ri, t₁, hi, h⟩ := Op.run_bind_eq_ok.1 h
    obtain ⟨off, _, ho, h⟩ := Op.run_bind_eq_ok.1 h
    obtain ⟨-, rfl⟩ := Op.run_monadLift_eq_ok.1 ho
    cases h
    exact ⟨ri, hi⟩

/-- The address of `a[i]`: the offset is the value of `i`. -/
theorem getAddrsExpr_index {st : ProgState v} {scope : Scope} {A : List (MemAddr v)}
    (h : getAddrsExpr (.index (.var a) i) st scope = .ok (.addrs A)) :
    ∃ offs off acts, st.region (st.baseOf a scope) = some offs ∧
      (transformer i (indexState st scope)).1 = .ok (.ok off, acts) ∧
      A = storeAt (st.baseOf a scope) offs off := by
  rw [getAddrsExpr] at h
  obtain ⟨as, has, h⟩ := bind_eq_ok.1 h
  obtain ⟨offs, hoffs, rfl⟩ := ProgState.getAddrs_eq_ok has
  rw [ProgState.toMemAddrs_eq] at h
  obtain ⟨⟨val, acts⟩, hi, h⟩ := bind_eq_ok.1 h
  obtain ⟨off, rfl, h⟩ := bind_eq_ok.1 h
  refine ⟨offs, off, acts, hoffs, hi, ?_⟩
  obtain rfl := MemAddrs.addrs.inj (Except.ok.inj h)
  rw [List.map_map]
  exact eraseDups_map_const (toAddr (st.baseOf a scope) off) offs.keys

theorem Stores.of_run {r : ValAct v} (h : transformer (arrayAssign a i e) t = (.ok r, t')) :
    ∃ t₁ t₂ offs off val, Stores a i e t t₁ t₂ offs off val ∧
      t₂.st.writeMemory (.addrs (storeAt (t₂.st.baseOf a t₂.scope) offs off)) val = .ok t'.st := by
  unfold arrayAssign at h
  rw [transformer] at h
  obtain ⟨rl, t₁, hl, h⟩ := Op.run_bind_eq_ok.1 h
  obtain ⟨⟨vals, acts⟩, t₂, hr, h⟩ := Op.run_bind_eq_ok.1 h
  obtain ⟨_, _, ⟨⟩, h⟩ := Op.run_bind_eq_ok.1 h
  obtain ⟨A, _, hA', h⟩ := Op.run_bind_eq_ok.1 h
  obtain ⟨hA, rfl⟩ := Op.run_monadLift_eq_ok.1 hA'
  obtain ⟨val, _, hval, h⟩ := Op.run_bind_eq_ok.1 h
  obtain ⟨rfl, rfl⟩ := Op.run_monadLift_eq_ok.1 hval
  obtain ⟨st', _, hw', h⟩ := Op.run_bind_eq_ok.1 h
  obtain ⟨hw, rfl⟩ := Op.run_monadLift_eq_ok.1 hw'
  obtain ⟨_, _, ⟨⟩, ⟨⟩⟩ := Op.run_bind_eq_ok.1 h
  obtain ⟨l, rfl, -⟩ := mem_getAddrsExpr hA
  obtain ⟨offs, off, acts', hoffs, hoff, rfl⟩ := getAddrsExpr_index hA
  exact ⟨t₁, t₂, offs, off, val, ⟨exists_run_index hl, ⟨acts, hr⟩, hoffs, ⟨acts', hoff⟩⟩, hw⟩

end Stores

/-! ## A store to one offset -/

section Point

attribute [local instance] HostInt.word

variable {ν : Type} {c : Int} {u : ν} {x : OffsList ν}

/-- A key of the list that has the offset `c` starts or ends there, and what is left of it can be
written with words. -/
def EdgeAt (c : Int) (x : OffsList ν) : Prop :=
  ∀ a b v, (.interVal a b, v) ∈ x → (IntValue.interVal a b).Covers c →
    (a = .i c ∧ (b = .plusInf → c ≠ maxBound)) ∨ (b = .i c ∧ (a = .minusInf → c ≠ minBound))

theorem EdgeAt.agree (h : EdgeAt c x) : Agree [(.interVal (.i c) (.i c), u)] x := by
  constructor
  · rintro a1 a2 v ha b1 b2 z - - ⟨n, hna, hnb⟩ ⟨m, hb1, hm, -⟩
    cases List.mem_singleton.1 ha
    subst hb1
    simp only [covers_interVal, InterVal.i_le_i] at hna hnb hm
    omega
  · rintro a1 a2 v ha b1 b2 z hb hne ⟨n, hna, hnb⟩ ⟨m, hb1, hm, -⟩
    cases List.mem_singleton.1 hb
    obtain rfl : n = c := by
      simp only [covers_interVal, InterVal.i_le_i] at hnb
      omega
    rcases h a1 a2 v ha hna with ⟨rfl, -⟩ | ⟨rfl, -⟩
    · simp only [covers_interVal, InterVal.i_le_i, InterVal.i.injEq] at hm hb1
      omega
    · exact absurd rfl hne

theorem EdgeAt.not_wrapsBelow (h : EdgeAt c x) (hok : OffsOk x) (hw : InWords x) :
    ¬ WrapsBelow [(.interVal (.i c) (.i c), u)] x := by
  rintro (⟨⟨a2, v, ha⟩, -⟩ | ⟨⟨a2, v, ha⟩, b2, z, hb⟩)
  · cases List.mem_singleton.1 ha
  · cases List.mem_singleton.1 hb
    have hle := (hw _ ha).2.minBound_le (hok.proper _ ha).2.1
    rcases h _ _ _ ha ⟨InterVal.minusInf_le _, hle⟩ with ⟨hc, -⟩ | ⟨-, hc⟩
    · cases hc
    · exact hc rfl rfl

theorem EdgeAt.not_wrapsAbove (h : EdgeAt c x) (hok : OffsOk x) (hw : InWords x) :
    ¬ WrapsAbove [(.interVal (.i c) (.i c), u)] x := by
  rintro (⟨⟨a1, v, ha⟩, b1, z, hb⟩ | ⟨-, b1, z, hb⟩)
  · cases List.mem_singleton.1 ha
    have hle := (hw _ hb).1.le_maxBound (hok.proper _ hb).1
    rcases h _ _ _ hb ⟨hle, InterVal.le_plusInf _⟩ with ⟨-, hc⟩ | ⟨hc, -⟩
    · exact hc rfl rfl
    · cases hc
  · cases List.mem_singleton.1 hb

/-- A store to the offset `c` changes this offset only. -/
theorem lookupOffs_write_point {oa oa' : IntOffs} {u : IntValue}
    (hc : minBound ≤ c ∧ c ≤ maxBound) (hok : OffsOk oa.toList) (hw : InWords oa.toList)
    (hedge : EdgeAt c oa.toList)
    (h : Region.write oa (.interVal (.i c) (.i c)) u = .ok oa') :
    OffsOk oa'.toList ∧
      ∀ n, lookupOffs oa'.toList n = if n = c then some u else lookupOffs oa.toList n := by
  obtain ⟨r, hr, h⟩ := bind_eq_ok.1 h
  obtain rfl := Except.ok.inj h
  have hcell : OffsOk [(IntValue.interVal (.i c) (.i c), u)] :=
    offsOk_singleton ⟨by simp, by simp, le_rfl⟩
  have hcell' : InWords [(IntValue.interVal (.i c) (.i c), u)] := by
    intro p hp
    cases List.mem_singleton.1 hp
    exact ⟨hc, hc⟩
  -- no bound goes round, so the merge is the exact one
  obtain ⟨-, hexact⟩ := (genIntvalList_word (fun v _ => v) hcell hok hcell' hw
    (hedge.not_wrapsBelow hok hw)).resolve_right fun h => hedge.not_wrapsAbove hok hw h.1
  obtain ⟨r', hr', hrok, -⟩ := genIntvalList_ok (fun v _ => v) hcell hok
  obtain ⟨r'', hr'', hlook⟩ := (pointwise_iff_agree hcell hok).2 hedge.agree fun v _ => v
  rw [hr] at hexact
  obtain rfl := Except.ok.inj (hexact.trans hr')
  obtain rfl := Except.ok.inj (hexact.trans hr'')
  rw [toList_fromList_of_offsOk hrok]
  refine ⟨hrok, fun n => ?_⟩
  rw [hlook, lookupOffs_cons, lookupOffs_nil]
  by_cases hn : n = c
  · subst hn
    rw [if_pos ⟨le_rfl, le_rfl⟩, if_pos rfl]
    cases lookupOffs oa.toList n <;> rfl
  · have hcov : ¬ (IntValue.interVal (.i c) (.i c)).Covers n := by
      simp only [covers_interVal, InterVal.i_le_i]
      omega
    rw [if_neg hcov, if_neg hn]
    cases lookupOffs oa.toList n <;> rfl

end Point

/-! ## The concrete cells and the interval cells -/

section Cells

variable {oa : IntOffs} {oc : ConOffs}

/-- For a well-formed region the interval cell of a concrete one is found by its offset. -/
theorem regionIn_iff (hok : OffsOk oa.toList) :
    RegionIn oa oc ↔ ∀ off val, oc.lookup off = some val → ∃ k n u,
      off = .val (.int k) ∧ val = .val (.int n) ∧ lookupOffs oa.toList k = some u ∧ n ∈ u := by
  constructor
  · intro h off val hval
    obtain ⟨k, n, key, u, hk, hn, hu, hkey, hnu⟩ := h off val hval
    have hmem := OrdMap.mem_of_lookup hu
    obtain ⟨a, b, rfl⟩ := (hok.proper _ hmem).exists_interVal
    exact ⟨k, n, u, hk, hn, hok.lookupOffs_of_mem hmem hkey, hnu⟩
  · intro h off val hval
    obtain ⟨k, n, u, hk, hn, hu, hnu⟩ := h off val hval
    obtain ⟨p, hp, hcov⟩ := lookupOffs_isSome.1 (Option.isSome_iff_exists.2 ⟨u, hu⟩)
    obtain ⟨w, hw⟩ := OrdMap.mem_keys.1 (List.mem_map_of_mem hp)
    obtain rfl : w = u :=
      Option.some.inj ((hok.lookupOffs_of_mem (OrdMap.mem_of_lookup hw) hcov).symm.trans hu)
    refine ⟨k, n, p.1, w, hk, hn, hw, ?_, hnu⟩
    obtain ⟨a, b, hab⟩ := (hok.proper p hp).exists_interVal
    rw [hab] at hcov ⊢
    exact hcov

/-- An array without interval cells has no concrete ones. -/
theorem RegionIn.keys_eq_nil (h : RegionIn oa oc) (ho : oa.keys = []) : oc.keys = [] := by
  rw [List.eq_nil_iff_forall_not_mem]
  intro o hmem
  obtain ⟨val, hval⟩ := OrdMap.mem_keys.1 hmem
  obtain ⟨_, _, key, w, -, -, hw, -⟩ := h o val hval
  have hkey : key ∈ oa.keys := OrdMap.mem_keys.2 ⟨w, hw⟩
  rw [ho] at hkey
  cases hkey

/-- Cells that differ in one offset stay related if the values there are. -/
theorem RegionIn.set {oa' : IntOffs} {oc' : ConOffs} {k n : Int} {u : IntValue}
    (h : RegionIn oa oc) (hok : OffsOk oa.toList) (hok' : OffsOk oa'.toList) (hn : n ∈ u)
    (hoa : ∀ j, lookupOffs oa'.toList j = if j = k then some u else lookupOffs oa.toList j)
    (hoc : Region.write oc (.val (.int k)) (.val (.int n)) = .ok oc') : RegionIn oa' oc' := by
  obtain rfl : oc.insert _ _ = oc' := Except.ok.inj hoc
  rw [regionIn_iff hok']
  intro o val hval
  rw [OrdMap.lookup_insert] at hval
  split at hval
  · next ho => exact ⟨k, n, u, ho, (Option.some.inj hval).symm, by rw [hoa, if_pos rfl], hn⟩
  · next ho =>
    obtain ⟨j, m, w, rfl, rfl, hw, hmw⟩ := (regionIn_iff hok).1 h o val hval
    have hjk : j ≠ k := fun hjk => ho (by rw [hjk])
    exact ⟨j, m, w, rfl, rfl, by rw [hoa, if_neg hjk, hw], hmw⟩

end Cells

/-! ## Soundness -/

section Assign

attribute [local instance] HostInt.word

variable [SimpleC] {S : SymId → Prop} {a : SymId} {i e : SExpression} {ta ta' : TState IntValue}
  {tc tc' : TState ConValue}

/-- Run in these states, if they are related, the interval value of the expression has the concrete
one. -/
def SoundFrom (S : SymId → Prop) (e : SExpression) (ta : TState IntValue) (tc : TState ConValue) :
    Prop :=
  TStateIn S ta tc → ∀ r ta' c tc', transformer e ta = (.ok r, ta') →
    transformer e tc = (.ok c, tc') → ValIn r.1 c.1 ∧ TStateIn S ta' tc'

/-- The operands of `a[i] = e` are evaluated soundly, each in the states in which it is evaluated:
the index, the right side and the index once more. -/
structure SoundOperands (S : SymId → Prop) (i e : SExpression) (ta : TState IntValue)
    (tc : TState ConValue) : Prop where
  index : SoundFrom S i ta tc
  right : ∀ r ta₁ c tc₁, transformer i ta = (.ok r, ta₁) → transformer i tc = (.ok c, tc₁) →
    SoundFrom S e ta₁ tc₁
  again : ∀ ta₂ tc₂, BeforeStore i e ta ta₂ → BeforeStore i e tc tc₂ →
    SoundFrom S i (indexState ta₂.st ta₂.scope) (indexState tc₂.st tc₂.scope)

theorem soundFrom_var (x : SymId) : SoundFrom S (.var x) ta tc := by
  intro ht r ta' c tc' hA hC
  obtain ⟨hr, ht'⟩ := sim_var ta tc ht r ta' c tc' hA hC
  exact ⟨hr.1, ht'⟩

/-- A scalar expression is evaluated soundly on words if nothing overflows. -/
theorem ScalarExpr.soundFrom (hops : IntegerOps) (he : ScalarExpr S e) {u : IntValue} {acts : IntAct}
    (hno : transformerOn HostInt.checked e ta = (.ok (.ok u, acts), ta')) : SoundFrom S e ta tc := by
  intro ht r ta'' c tc' hA hC
  obtain ⟨r₁, hr₁, hval₁, -⟩ := refines_transformer checked_refines_word he _ _ _ hno
  obtain ⟨r₂, hr₂, hval₂, -⟩ := refines_transformer checked_refines_unbounded he _ _ _ hno
  obtain ⟨hr, rfl⟩ := Prod.ext_iff.1 (hA.symm.trans hr₁)
  obtain rfl : r = r₁ := Except.ok.inj hr
  obtain ⟨hin, ht'⟩ := sim_transformer hops he ta tc ht r₂ ta'' c tc' hr₂ hC
  refine ⟨?_, ht'⟩
  rw [hval₁ u rfl, ← hval₂ u rfl]
  exact hin.1

/-- In the state, `a[i]` is one place: the index is one number, and a cell of the array that has
this offset starts or ends there. -/
def OnePlace (a : SymId) (i : SExpression) (t : TState IntValue) : Prop :=
  ∀ oa off acts, t.st.region (t.st.baseOf a t.scope) = some oa →
    (transformer i (indexState t.st t.scope)).1 = .ok (.ok off, acts) →
    ∃ c, off = .interVal (.i c) (.i c) ∧ off.InWord ∧ InWords oa.toList ∧ EdgeAt c oa.toList

omit [SimpleC] in
/-- The store to an offset at the edge of a cell keeps the concrete state in the interval state. -/
theorem TStateIn.store (ht : TStateIn S ta tc) (ha : S a) {oa : IntOffs} {oc : ConOffs} {c n : Int}
    {u : IntValue} {sa : IntState} {sc : ConState}
    (hoa : ta.st.region (ta.st.baseOf a ta.scope) = some oa)
    (hoc : tc.st.region (tc.st.baseOf a tc.scope) = some oc)
    (hc : minBound ≤ c ∧ c ≤ maxBound) (hwords : InWords oa.toList) (hedge : EdgeAt c oa.toList)
    (hn : n ∈ u)
    (hwa : ta.st.writeMemory (.addrs (storeAt (ta.st.baseOf a ta.scope) oa
      (.interVal (.i c) (.i c)))) u = .ok sa)
    (hwc : tc.st.writeMemory (.addrs (storeAt (tc.st.baseOf a tc.scope) oc (.val (.int c))))
      (.val (.int n)) = .ok sc) : StateIn sa sc := by
  rw [← ht.scope, ht.st.baseOf] at hoc hwc
  have hok : OffsOk oa.toList := ht.declared.baseOf ha _ hoa
  have hin : RegionIn oa oc := by
    have hb := ht.st.region (ta.st.baseOf a ta.scope)
    rw [hoa, hoc] at hb
    cases hb with
    | some hb => exact hb
  obtain ⟨oa', hsa, hwa⟩ := exists_setRegion hoa hwa
  obtain ⟨oc', hsc, hwc⟩ := exists_setRegion hoc hwc
  refine (ht.st.set_iff hsa hsc).2 ?_
  by_cases hnil : oc.keys = []
  · -- an array without concrete cells is left as it is
    rw [if_pos hnil] at hwc
    subst hwc
    intro o val hval
    have hmem : o ∈ oc'.keys := OrdMap.mem_keys.2 ⟨val, hval⟩
    rw [hnil] at hmem
    cases hmem
  · rw [if_neg hnil] at hwc
    rw [if_neg fun ho => hnil (hin.keys_eq_nil ho)] at hwa
    obtain ⟨hok', hlook⟩ := lookupOffs_write_point hc hok hwords hedge hwa
    exact hin.set hok hok' hn hlook hwc

end Assign

/-! A state with a global array of two cells, both 0, and a local index of the thread 0. -/

def arrayState {v : Type} [ToValue v] (i : v) : ProgState v :=
  ⟨⟨[(⟨⟨7⟩, .glob⟩, ⟨[(ToValue.kVal 0, ToValue.kVal 0), (ToValue.kVal 1, ToValue.kVal 0)]⟩)]⟩,
    ⟨[(0, ⟨4, ⟨0⟩, ⟨[(⟨⟨8⟩, .loc 0⟩, ⟨[(ToValue.zero, i)]⟩)]⟩⟩)]⟩, 1, false⟩

def arrayTState {v : Type} [ToValue v] (i : v) : TState v :=
  ⟨.loc 0, arrayState i, none, none, false, 0, []⟩

theorem region_arrayState {v : Type} [ToValue v] (i : v) (b : MemAddrBase) :
    (arrayState i).region b =
      if b = ⟨⟨7⟩, .glob⟩ then
        some ⟨[(ToValue.kVal 0, ToValue.kVal 0), (ToValue.kVal 1, ToValue.kVal 0)]⟩
      else if b = ⟨⟨8⟩, .loc 0⟩ then some ⟨[(ToValue.zero, i)]⟩ else none := by
  obtain ⟨id, level⟩ := b
  cases level with
  | glob => simp [ProgState.region, arrayState, OrdMap.lookup, OrdMap.lookupList]
  | loc t =>
    by_cases ht : t = 0 <;>
      simp [ProgState.region, arrayState, OrdMap.lookup, OrdMap.lookupList, ht]

theorem stateIn_arrayState {u : IntValue} {n : Int} (hn : n ∈ u) :
    StateIn (arrayState u) (arrayState (.val (.int n))) := by
  refine ⟨⟨rfl, rfl⟩, fun t => ?_, fun b => ?_⟩
  · by_cases ht : t = 0 <;>
      simp [ProgState.position, arrayState, OrdMap.lookup, OrdMap.lookupList, ht]
  · rw [region_arrayState, region_arrayState]
    split
    · refine .some fun off val hval => ?_
      simp only [OrdMap.lookup, OrdMap.lookupList] at hval
      split at hval
      · next hoff =>
        exact ⟨0, 0, ToValue.kVal 0, ToValue.kVal 0, hoff, (Option.some.inj hval).symm, by decide,
          by decide, by decide⟩
      · split at hval
        · next hoff =>
          exact ⟨1, 0, ToValue.kVal 1, ToValue.kVal 0, hoff, (Option.some.inj hval).symm, by decide,
            by decide, by decide⟩
        · cases hval
    · split
      · exact .some (regionIn_cell hn)
      · exact .none

theorem tStateIn_arrayState {u : IntValue} {n : Int} (hn : n ∈ u) :
    TStateIn (fun _ => True) (arrayTState u) (arrayTState (.val (.int n))) := by
  refine ⟨rfl, stateIn_arrayState hn, fun x _ level offs h => ?_⟩
  change (arrayState u).region _ = _ at h
  rw [region_arrayState] at h
  split at h
  · obtain rfl := Option.some.inj h
    exact offsOk_pair (by decide) (by decide) (InterVal.i_lt_i.2 (by decide))
  · split at h
    · obtain rfl := Option.some.inj h
      exact offsOk_singleton (by decide)
    · cases h

section Integers

attribute [local instance] HostInt.word SimpleC.integers

end Integers

end Poet
