import Poet.Domain.Interval.OffsetMerge
import Poet.Domain.Interval.State

/-!
# Regions keep their form

Every region of an interval memory is a map made from an offset list. On well-formed lists the maps
keep the list they are made of, although the comparison of keys is no order: disjoint keys compare
as `GT` both ways, so every insertion goes to the end (`toList_fromList_of_offsOk`). With
`genIntvalList_ok` this gives that writes, joins and widenings keep every region well formed, and
that joins and widenings only fail where join or widening of two values does.
-/

namespace Poet

variable {ν : Type}

theorem OffsOk.of_keys {x : OffsList ν} {μ : Type} {y : OffsList μ} (h : OffsOk x)
    (hk : y.map (·.1) = x.map (·.1)) : OffsOk y where
  proper p hp := by
    have : p.1 ∈ x.map (·.1) := hk ▸ List.mem_map_of_mem hp
    obtain ⟨q, hq, heq⟩ := List.mem_map.1 this
    exact heq ▸ h.proper q hq
  sorted := by
    have : (x.map (·.1)).Pairwise IntValue.Before := List.pairwise_map.2 h.sorted
    rw [← hk] at this
    exact List.pairwise_map.1 this

/-- A later key is neither equal to nor included in an earlier one. -/
theorem IntValue.Proper.not_lt_of_before {k l : IntValue} (hk : k.Proper) (hl : l.Proper)
    (h : k.Before l) : l ≠ k ∧ OrdKey.before l k = false := by
  match k, l with
  | .interVal a b, .interVal c d =>
    have hbc : b < c := h
    have hne : IntValue.interVal c d ≠ .interVal a b := by
      rintro heq
      obtain ⟨rfl, rfl⟩ : c = a ∧ d = b := by simpa using heq
      exact absurd hbc (not_lt.2 hk.2.2)
    have hle : (IntValue.interVal c d).le (.interVal a b) = false := by
      simp only [IntValue.le, Bool.and_eq_false_iff, decide_eq_false_iff_not]
      exact .inr fun hdb => absurd (hbc.trans_le (hl.2.2.trans hdb)) (lt_irrefl b)
    refine ⟨hne, ?_⟩
    show IntValue.lt _ _ = false
    simp [IntValue.lt, IntValue.cmp, hne, hle]

theorem toList_fromList_of_offsOk {x : OffsList IntValue} (h : OffsOk x) :
    (OrdMap.fromList x).toList = x := by
  refine OrdMap.toList_fromList ?_
  refine h.sorted.imp_of_mem fun hp hq hbefore => ?_
  exact (h.proper _ hp).not_lt_of_before (h.proper _ hq) hbefore

/-! ## Writes at a key

No key is cut, so what the host does on an overflow plays no role. -/

section Key

variable [HostInt]

theorem cutFits_self (a b : InterVal) : CutFits a b a b :=
  ⟨fun _ h => absurd h (lt_irrefl b), fun _ h => absurd h (lt_irrefl a)⟩

theorem cutFits_of_before {a1 a2 b1 b2 : InterVal} (h : b2 < a1) (ha : a1 ≤ a2) (hb : b1 ≤ b2) :
    CutFits a1 a2 b1 b2 ∧ CutFits b1 b2 a1 a2 := by
  refine ⟨⟨fun _ h' => ?_, fun _ h' => ?_⟩, ⟨fun h' _ => ?_, fun h' _ => ?_⟩⟩ <;>
    exact absurd h' (by order)

/-- A write at a key of the list replaces the value there. -/
theorem genIntvalList_key {x : OffsList ν} (h : OffsOk x) {k : IntValue} (val : ν)
    (hk : k ∈ x.map (·.1)) :
    genIntvalList (fun v _ => v) [(k, val)] x =
      .ok (x.map fun p => if p.1 = k then (k, val) else p) := by
  induction x with
  | nil => simp at hk
  | cons p x ih =>
    obtain ⟨l, u⟩ := p
    obtain ⟨b1, b2, rfl⟩ := h.exists_interVal
    by_cases hkl : IntValue.interVal b1 b2 = k
    · subst hkl
      have hrest : ∀ q ∈ x, (if q.1 = .interVal b1 b2 then (.interVal b1 b2, val) else q) = q := by
        intro q hq
        exact if_neg (h.head.not_lt_of_before (h.tail.proper q hq) (h.above hq)).1
      rw [genIntvalList_round _ _ _ _ _ h.head h.head (cutFits_self ..) (cutFits_self ..),
        roundOut_of_eq h.head.2.2 h.head.2.2,
        roundRest_of_le le_rfl, roundRest_of_le le_rfl, min_self, List.map_cons, if_pos rfl,
        List.map_congr_left hrest, List.map_id']
      rfl
    · -- the key is further on: the head is emitted as it is
      have hkx : k ∈ x.map (·.1) := (List.mem_cons.1 hk).resolve_left (Ne.symm hkl)
      obtain ⟨q, hq, hqk⟩ := List.mem_map.1 hkx
      have hkp : k.Proper := hqk ▸ h.tail.proper q hq
      have hbefore : (IntValue.interVal b1 b2).Before k := hqk ▸ h.above hq
      obtain ⟨a1, a2, rfl⟩ := hkp.exists_interVal
      have hlt : b2 < a1 := hbefore
      have hcut : ¬ Cut a1 a2 b1 b2 := fun hc => hlt.not_ge hc.2.2.1
      obtain ⟨hab, hba⟩ := cutFits_of_before hlt hkp.2.2 h.head.2.2
      rw [genIntvalList_round _ _ _ _ _ hkp h.head hab hba, roundOut_of_after hlt h.head.2.2 hkp.1,
        if_neg hcut, roundRest_of_after hlt hkp.2.2 h.head.2.1,
        roundRest_of_le (hlt.le.trans hkp.2.2), ih h.tail hkx, List.map_cons, if_neg hkl]
      rfl

theorem write_key {offs : IntOffs} (h : OffsOk offs.toList) {k : IntValue} (val : IntValue)
    (hk : k ∈ offs.keys) :
    ∃ offs', Region.write offs k val = .ok offs' ∧
      offs'.toList = offs.toList.map fun p => if p.1 = k then (k, val) else p := by
  have hgen := genIntvalList_key h val hk
  have hok : OffsOk (offs.toList.map fun p => if p.1 = k then (k, val) else p) := by
    refine h.of_keys ?_
    rw [List.map_map]
    refine List.map_congr_left fun p _ => ?_
    show (if p.1 = k then (k, val) else p).1 = p.1
    split
    · next hpk => exact hpk.symm
    · rfl
  refine ⟨_, ?_, toList_fromList_of_offsOk hok⟩
  show (do return OrdMap.fromList (← genIntvalList (fun v _ => v) [(k, val)] offs.toList)) = _
  rw [hgen]
  rfl

end Key

/-! ## Values of a merged list

Integers are unbounded from here on. -/

attribute [local instance] HostInt.unbounded

/-- What `fn` preserves holds of the values of the result. -/
theorem genIntvalList_forall {fn : ν → ν → ν} {P : ν → Prop} (hfn : ∀ v u, P v → P u → P (fn v u))
    {x1 x2 : OffsList ν} (h1 : OffsOk x1) (h2 : OffsOk x2) :
    ∀ r, genIntvalList fn x1 x2 = .ok r → (∀ p ∈ x1, P p.2) → (∀ p ∈ x2, P p.2) →
      ∀ p ∈ r, P p.2 := by
  refine round_induction ?_ ?_ ?_ x1 x2 h1 h2
  · intro x2 _ r hr _ hx2
    obtain rfl : x2 = r := Except.ok.inj hr
    exact hx2
  · intro x1 _ r hr hx1 _
    obtain rfl : x1 = r := Except.ok.inj ((genIntvalList_nil_right fn x1).symm.trans hr)
    exact hx1
  · intro a1 a2 v x1 b1 b2 u x2 h1 h2 ih r hr hx1 hx2
    have hv : P v := hx1 _ List.mem_cons_self
    have hu : P u := hx2 _ List.mem_cons_self
    rw [genIntvalList_round fn v u x1 x2 h1.head h2.head (cutFits_unbounded ..)
      (cutFits_unbounded ..)] at hr
    obtain ⟨r', hr', -⟩ := genIntvalList_ok fn
      (offsOk_roundRest (w := if Cut a1 a2 b1 b2 then u else v) h1 h2.head.2.1)
      (offsOk_roundRest (w := if Cut a1 a2 b1 b2 then v else u) h2 h1.head.2.1)
    rw [hr'] at hr
    obtain rfl : roundOut fn a1 a2 b1 b2 v u ++ r' = r := Except.ok.inj hr
    have hrest {c1 c2 d2 : InterVal} {w : ν} {x : OffsList ν} (hw : P w) (hx : ∀ p ∈ x, P p.2) :
        ∀ p ∈ roundRest c1 c2 d2 w x, P p.2 := by
      intro p hp
      unfold roundRest at hp
      split at hp
      · exact hx p hp
      · rcases List.mem_cons.1 hp with rfl | hp
        · exact hw
        · exact hx p hp
    intro p hp
    rcases List.mem_append.1 hp with hp | hp
    · unfold roundOut at hp
      rcases List.mem_append.1 hp with hp | hp
      · split at hp
        · obtain rfl := List.mem_singleton.1 hp
          exact hv
        · split at hp
          · obtain rfl := List.mem_singleton.1 hp
            exact hu
          · cases hp
      · split at hp
        · obtain rfl := List.mem_singleton.1 hp
          exact hfn v u hv hu
        · cases hp
    · refine ih r' hr' (hrest ?_ fun q hq => hx1 q (List.mem_cons_of_mem _ hq))
        (hrest ?_ fun q hq => hx2 q (List.mem_cons_of_mem _ hq)) p hp
      · split <;> assumption
      · split <;> assumption

/-- Forcing keeps the keys, and fails only with the error of a value. -/
theorem forceOffs_spec (x : OffsList (Except DomErr IntValue)) :
    match forceOffs x with
    | .ok r => r.map (·.1) = x.map (·.1)
    | .error e => ∃ p ∈ x, p.2 = .error e := by
  induction x with
  | nil => rfl
  | cons p x ih =>
    obtain ⟨k, w⟩ := p
    unfold forceOffs at ih ⊢
    rw [List.mapM'_cons]
    cases w with
    | error e => exact ⟨_, List.mem_cons_self, rfl⟩
    | ok v =>
      rw [ok_bind, pure_eq_ok, ok_bind]
      cases hx : x.mapM' (fun p => do return (p.1, ← p.2)) with
      | error e =>
        rw [hx] at ih
        obtain ⟨q, hq, he⟩ := ih
        exact ⟨q, List.mem_cons_of_mem _ hq, he⟩
      | ok r =>
        rw [hx] at ih
        exact congrArg (k :: ·) ih

/-- The merge with a function that can fail: it keeps the lists well formed, and fails only where
the function does. -/
theorem genIntvalListM_ok (fn : IntValue → IntValue → Except DomErr IntValue)
    {x1 x2 : OffsList IntValue} (h1 : OffsOk x1) (h2 : OffsOk x2) :
    match genIntvalListM fn x1 x2 with
    | .ok r => OffsOk r
    | .error e => ∃ v u, fn v u = .error e := by
  obtain ⟨x, hx, hxok, -⟩ := genIntvalList_ok (fun v u => do fn (← v) (← u))
    (h1.of_keys (y := x1.map fun p => (p.1, (.ok p.2 : Except DomErr IntValue))) (by simp))
    (h2.of_keys (y := x2.map fun p => (p.1, (.ok p.2 : Except DomErr IntValue))) (by simp))
  have hpure (y : OffsList IntValue) : ∀ p ∈ y.map fun p => (p.1, (.ok p.2 : Except DomErr IntValue)),
      ∀ e, p.2 = .error e → ∃ v u, fn v u = .error e := by
    intro p hp e he
    obtain ⟨q, -, rfl⟩ := List.mem_map.1 hp
    cases he
  have hvalues : ∀ p ∈ x, ∀ e, p.2 = .error e → ∃ v u, fn v u = .error e := by
    refine genIntvalList_forall (P := fun w => ∀ e, w = .error e → ∃ v u, fn v u = .error e)
      ?_ (h1.of_keys (by simp)) (h2.of_keys (by simp)) x hx ?_ ?_
    · intro v u hv hu e he
      cases v with
      | error e' => exact hv e he
      | ok v =>
        cases u with
        | error e' => exact hu e he
        | ok u => exact ⟨v, u, he⟩
    · exact hpure x1
    · exact hpure x2
  rw [genIntvalListM, hx, ok_bind]
  have hforce := forceOffs_spec x
  cases hf : forceOffs x with
  | ok r =>
    rw [hf] at hforce
    exact hxok.of_keys hforce
  | error e =>
    rw [hf] at hforce
    obtain ⟨p, hp, he⟩ := hforce
    exact hvalues p hp e he

/-! ## Memories -/

/-- Every region of a memory is well formed. -/
def RegionsOk (mem : IntMemory) : Prop := ∀ p ∈ mem.toList, OffsOk p.2.toList

theorem regionsOk_insert {mem : IntMemory} (h : RegionsOk mem) {addr : MemAddrBase} {offs : IntOffs}
    (ho : OffsOk offs.toList) : RegionsOk (mem.insert addr offs) := by
  intro p hp
  rcases OrdMap.mem_insert hp with rfl | hp
  · exact ho
  · exact h p hp

theorem genOffsetLists_ok (fn : IntValue → IntValue → Except DomErr IntValue) {m1 m2 : IntOffs}
    (h1 : OffsOk m1.toList) (h2 : OffsOk m2.toList) :
    match genOffsetLists (genIntvalListM fn) m1 m2 with
    | .ok m => OffsOk m.toList
    | .error e => ∃ v u, fn v u = .error e := by
  have h := genIntvalListM_ok fn h1 h2
  unfold genOffsetLists
  cases hr : genIntvalListM fn m1.toList m2.toList with
  | error e =>
    rw [hr] at h
    exact h
  | ok r =>
    rw [hr] at h
    show OffsOk (OrdMap.fromList r).toList
    rwa [toList_fromList_of_offsOk h]

/-- One operation on a memory. -/
inductive RegionOp where
  | write (addr : MemAddrBase) (off val : IntValue)
  | join (mem : IntMemory)
  | widen (mem : IntMemory)

namespace RegionOp

def apply (mem : IntMemory) : RegionOp → Except DomErr IntMemory
  | .write addr off val => ProgState.writeRegionAddr mem addr off val
  | .join m => joinMemory mem m
  | .widen m => widenMemory mem m

/-- The operation has well-formed operands. -/
def Ok : RegionOp → Prop
  | .write _ off _ => off.Proper
  | .join m => RegionsOk m
  | .widen m => RegionsOk m

theorem unionWithM_ok (fn : IntValue → IntValue → Except DomErr IntValue) {m1 m2 : IntMemory}
    (h1 : RegionsOk m1) (h2 : RegionsOk m2) :
    match OrdMap.unionWithM (genOffsetLists (genIntvalListM fn)) m1 m2 with
    | .ok m => RegionsOk m
    | .error e => ∃ v u, fn v u = .error e := by
  cases hm : OrdMap.unionWithM (genOffsetLists (genIntvalListM fn)) m1 m2 with
  | ok m =>
    refine OrdMap.forall_unionWithM (P := fun o : IntOffs => OffsOk o.toList) h1 h2 (fun o1 o2 o ho1 ho2 ho => ?_) hm
    have := genOffsetLists_ok fn ho1 ho2
    rwa [ho] at this
  | error e =>
    obtain ⟨p, hp, q, hq, he⟩ := OrdMap.exists_of_unionWithM_error hm
    have := genOffsetLists_ok fn (h1 p hp) (h2 q hq)
    rwa [he] at this

/-- A write to a well-formed memory never fails. -/
theorem writeRegionAddr_ok {mem : IntMemory} (h : RegionsOk mem) {off : IntValue} (ho : off.Proper)
    (addr : MemAddrBase) (val : IntValue) :
    ∃ mem', ProgState.writeRegionAddr mem addr off val = .ok mem' ∧ RegionsOk mem' := by
  have hcell : OffsOk [(off, val)] := offsOk_singleton ho
  unfold ProgState.writeRegionAddr
  split
  · refine ⟨_, rfl, regionsOk_insert h ?_⟩
    rwa [toList_fromList_of_offsOk hcell]
  · rename_i offs hlook
    obtain ⟨r, hr, hrok, -⟩ :=
      genIntvalList_ok (fun v _ => v) hcell (h _ (OrdMap.mem_of_lookup hlook))
    refine ⟨mem.insert addr (.fromList r), ?_, regionsOk_insert h ?_⟩
    · show (Region.write offs off val >>= fun o => pure (mem.insert addr o)) = _
      show ((genIntvalList (fun v _ => v) [(off, val)] offs.toList >>= fun l =>
        pure (OrdMap.fromList l)) >>= fun o => pure (mem.insert addr o)) = _
      rw [hr]
      rfl
    · rwa [toList_fromList_of_offsOk hrok]

theorem apply_ok {mem : IntMemory} {op : RegionOp} (h : RegionsOk mem) (hop : op.Ok) :
    match op.apply mem with
    | .ok mem' => RegionsOk mem'
    | .error e => ∃ v u : IntValue, v.join u = .error e ∨ v.widen u = .error e := by
  cases op with
  | write addr off val =>
    obtain ⟨mem', hmem', hok⟩ := writeRegionAddr_ok h hop addr val
    rw [apply, hmem']
    exact hok
  | join m =>
    have hspec := unionWithM_ok IntValue.join h hop
    change match joinMemory mem m with
      | .ok m => RegionsOk m
      | .error e => ∃ v u : IntValue, v.join u = .error e at hspec
    rw [apply]
    cases hm : joinMemory mem m with
    | ok m' =>
      rw [hm] at hspec
      exact hspec
    | error e =>
      rw [hm] at hspec
      obtain ⟨v, u, he⟩ := hspec
      exact ⟨v, u, .inl he⟩
  | widen m =>
    have hspec := unionWithM_ok IntValue.widen h hop
    change match widenMemory mem m with
      | .ok m => RegionsOk m
      | .error e => ∃ v u : IntValue, v.widen u = .error e at hspec
    rw [apply]
    cases hm : widenMemory mem m with
    | ok m' =>
      rw [hm] at hspec
      exact hspec
    | error e =>
      rw [hm] at hspec
      obtain ⟨v, u, he⟩ := hspec
      exact ⟨v, u, .inr he⟩

/-- A sequence of operations. -/
def run (ops : List RegionOp) (mem : IntMemory) : Except DomErr IntMemory := ops.foldlM apply mem

theorem run_ok {ops : List RegionOp} {mem : IntMemory} (h : RegionsOk mem)
    (hops : ∀ op ∈ ops, op.Ok) :
    match run ops mem with
    | .ok mem' => RegionsOk mem'
    | .error e => ∃ v u : IntValue, v.join u = .error e ∨ v.widen u = .error e := by
  induction ops generalizing mem with
  | nil => exact h
  | cons op ops ih =>
    have hstep := apply_ok h (hops op List.mem_cons_self)
    unfold run at ih ⊢
    rw [List.foldlM_cons]
    cases hop : op.apply mem with
    | error e =>
      rw [hop] at hstep
      exact hstep
    | ok mem' =>
      rw [hop] at hstep
      exact ih hstep fun op' hop' => hops op' (List.mem_cons_of_mem op hop')

end RegionOp

/-- `genIntvalList` returns on well-formed lists, its result is well formed and covers what one of
the two lists covers; so every sequence of writes, joins and widenings keeps every region well
formed, and fails only where join or widening of two values fails. -/
theorem offset_lists_keep_form {ν : Type} :
    (∀ (fn : ν → ν → ν) (x1 x2 : OffsList ν), OffsOk x1 → OffsOk x2 →
      ∃ r, genIntvalList fn x1 x2 = .ok r ∧ OffsOk r ∧
        ∀ n, (∃ p ∈ r, p.1.Covers n) ↔ (∃ p ∈ x1, p.1.Covers n) ∨ ∃ p ∈ x2, p.1.Covers n) ∧
    ∀ (ops : List RegionOp) (mem : IntMemory), RegionsOk mem → (∀ op ∈ ops, op.Ok) →
      match RegionOp.run ops mem with
      | .ok mem' => RegionsOk mem'
      | .error e => ∃ v u : IntValue, v.join u = .error e ∨ v.widen u = .error e := by
  refine ⟨fun fn x1 x2 h1 h2 => ?_, fun ops mem h hops => RegionOp.run_ok h hops⟩
  obtain ⟨r, hr, hok, hcov⟩ := genIntvalList_ok fn h1 h2
  exact ⟨r, hr, hok, by simpa only [lookupOffs_isSome] using hcov⟩

/-- Two overlapping writes to a fresh array, then a join with the memory before them. -/
theorem overlapping_writes_keep_form :
    let x1 : OffsList IntValue := [(.interVal (.i 3) (.i 8), ToValue.kVal 2)]
    let x2 : OffsList IntValue := [(.interVal (.i 0) (.i 5), ToValue.kVal 1)]
    let ops : List RegionOp := [.write ⟨⟨7⟩, .glob⟩ (.interVal (.i 0) (.i 5)) (ToValue.kVal 1),
      .write ⟨⟨7⟩, .glob⟩ (.interVal (.i 3) (.i 8)) (ToValue.kVal 2), .join .empty]
    (∃ r, genIntvalList (fun v _ => v) x1 x2 = .ok r ∧ OffsOk r ∧
      ∀ n, (∃ p ∈ r, p.1.Covers n) ↔ (∃ p ∈ x1, p.1.Covers n) ∨ ∃ p ∈ x2, p.1.Covers n) ∧
    (RegionOp.run ops .empty).toOption.isSome ∧
    match RegionOp.run ops .empty with
    | .ok mem' => RegionsOk mem'
    | .error e => ∃ v u : IntValue, v.join u = .error e ∨ v.widen u = .error e := by
  intro x1 x2 ops
  have hempty : RegionsOk .empty := fun p hp => absurd hp List.not_mem_nil
  have hops : ∀ op ∈ ops, op.Ok := by
    intro op hop
    simp only [ops, List.mem_cons, List.not_mem_nil, or_false] at hop
    rcases hop with rfl | rfl | rfl
    · show (IntValue.interVal (.i 0) (.i 5)).Proper
      decide
    · show (IntValue.interVal (.i 3) (.i 8)).Proper
      decide
    · exact hempty
  refine ⟨(@offset_lists_keep_form IntValue).1 _ x1 x2 (offsOk_singleton (by decide))
    (offsOk_singleton (by decide)), by decide, ?_⟩
  exact (@offset_lists_keep_form IntValue).2 ops .empty hempty hops

end Poet
