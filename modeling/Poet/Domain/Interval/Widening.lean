import Poet.Domain.Interval.Order
import Poet.Domain.Interval.State
import Poet.Lib.Measure

/-!
# Widening of interval memories

A bound that grows in a widening becomes infinite and stays so. On a memory whose regions are single
cells, `widenMemory` widens cell by cell: the merge of two offset lists and the union of the maps
have nothing else to do. So the finite bounds of the cells, at most two for each of them, count how
often the memory can still change.
-/

namespace Poet

namespace IntValue

variable {u v w : IntValue} {a b c d : InterVal} {n : Int}

/-- The value of `widen` on two intervals. -/
def widened : IntValue → IntValue → IntValue
  | .interVal a b, .interVal c d =>
    .interVal (if c < a then .minusInf else a) (if b < d then .plusInf else b)
  | v, _ => v

theorem widen_eq (hu : u.Proper) (hv : v.Proper) : u.widen v = .ok (u.widened v) := by
  obtain ⟨a, b, rfl⟩ := hu.exists_interVal
  obtain ⟨c, d, rfl⟩ := hv.exists_interVal
  unfold widen
  by_cases heq : interVal a b = interVal c d
  · obtain ⟨rfl, rfl⟩ : a = c ∧ b = d := by simpa using heq
    simp [widened]
  · simp [heq, widened]

theorem mem_widened_left (hu : u.Proper) (hv : v.Proper) (hn : n ∈ u) : n ∈ u.widened v := by
  obtain ⟨a, b, rfl⟩ := hu.exists_interVal
  obtain ⟨c, d, rfl⟩ := hv.exists_interVal
  refine ⟨?_, ?_⟩
  · split
    · exact InterVal.minusInf_le _
    · exact hn.1
  · split
    · exact InterVal.le_plusInf _
    · exact hn.2

theorem mem_widened_right (hu : u.Proper) (hv : v.Proper) (hn : n ∈ v) : n ∈ u.widened v := by
  obtain ⟨a, b, rfl⟩ := hu.exists_interVal
  obtain ⟨c, d, rfl⟩ := hv.exists_interVal
  refine ⟨?_, ?_⟩
  · split
    · exact InterVal.minusInf_le _
    · next h => exact (not_lt.1 h).trans hn.1
  · split
    · exact InterVal.le_plusInf _
    · next h => exact hn.2.trans (not_lt.1 h)

theorem widened_proper (hu : u.Proper) (hv : v.Proper) : (u.widened v).Proper := by
  obtain ⟨n, hn⟩ := hu.exists_covers
  obtain ⟨a, b, rfl⟩ := hu.exists_interVal
  have hmem := mem_widened_left hu hv hn
  obtain ⟨c, d, rfl⟩ := hv.exists_interVal
  exact proper_of_mem hmem

/-- The number of finite bounds. -/
def finiteBounds : IntValue → Nat
  | .interVal a b => (if a = .minusInf then 0 else 1) + if b = .plusInf then 0 else 1
  | _ => 0

theorem finiteBounds_le (v : IntValue) : v.finiteBounds ≤ 2 := by
  unfold finiteBounds
  split
  · split <;> split <;> simp
  · simp

theorem finiteBounds_widened (hu : u.Proper) (hv : v.Proper) :
    (u.widened v).finiteBounds ≤ u.finiteBounds ∧
      (u.widened v ≠ u → (u.widened v).finiteBounds < u.finiteBounds) := by
  obtain ⟨a, b, rfl⟩ := hu.exists_interVal
  obtain ⟨c, d, rfl⟩ := hv.exists_interVal
  have hlow : c < a → a ≠ .minusInf := by
    rintro h rfl
    exact InterVal.not_lt_minusInf c h
  have hhigh : b < d → b ≠ .plusInf := by
    rintro h rfl
    exact InterVal.not_plusInf_lt d h
  by_cases hca : c < a <;> by_cases hbd : b < d <;> simp_all [widened, finiteBounds]

end IntValue

/-! ## Memories with one cell for each address -/

/-- The region of a variable: one cell at the offset `[0, 0]`. -/
def cellAt (v : IntValue) : IntOffs := ⟨[(ToValue.zero, v)]⟩

theorem widenOffs_cellAt [HostInt] {u v w : IntValue} (h : u.widen v = .ok w) :
    widenOffs (cellAt u) (cellAt v) = .ok (cellAt w) := by
  have hmerge : widenOffsList [(ToValue.zero, u)] [(ToValue.zero, v)] = .ok [(ToValue.zero, w)] := by
    show (do
      let x ← (Except.ok [(ToValue.zero, u.widen v)] : Except DomErr (OffsList (Except DomErr IntValue)))
      forceOffs x) = _
    simp [forceOffs, h]
  show (do return OrdMap.fromList (← widenOffsList [(ToValue.zero, u)] [(ToValue.zero, v)])) = _
  rw [hmerge]
  rfl

/-- A memory over the addresses of `K`: each has one cell, with a non-empty interval. -/
structure ScalarMemory (K : Finset MemAddrBase) (m : IntMemory) : Prop where
  ordered : m.Ordered
  mem_keys : ∀ k, k ∈ m.keys ↔ k ∈ K
  cells : ∀ p ∈ m.toList, ∃ v : IntValue, v.Proper ∧ p.2 = cellAt v

namespace ScalarMemory

variable {K : Finset MemAddrBase} {m m1 m2 : IntMemory}

theorem length_eq (h : ScalarMemory K m) : m.toList.length = K.card := by
  have hset : m.keys.toFinset = K := by
    ext k
    rw [List.mem_toFinset, h.mem_keys]
  rw [← hset, List.toFinset_card_of_nodup h.ordered.nodup_keys, OrdMap.keys, List.length_map]

theorem lookup (h : ScalarMemory K m) {k : MemAddrBase} (hk : k ∈ K) :
    ∃ v : IntValue, v.Proper ∧ m.lookup k = some (cellAt v) := by
  obtain ⟨o, ho⟩ := OrdMap.mem_keys.1 ((h.mem_keys k).2 hk)
  obtain ⟨v, hv, rfl⟩ := h.cells _ (OrdMap.mem_of_lookup ho)
  exact ⟨v, hv, ho⟩

/-- The value of the one cell. -/
def cellValue (o : IntOffs) : IntValue := ((o.toList.map (·.2)).head?).getD .bot

@[simp] theorem cellValue_cellAt (v : IntValue) : cellValue (cellAt v) = v := rfl

/-- The widening of two regions with one cell. -/
def widenedCell (o o' : IntOffs) : IntOffs := cellAt ((cellValue o).widened (cellValue o'))

theorem widenMemory_eq [HostInt] (h1 : ScalarMemory K m1) (h2 : ScalarMemory K m2) :
    ∃ m, widenMemory m1 m2 = .ok m ∧
      m.toList = m1.toList.map (OrdMap.merged widenedCell m2.toList) := by
  refine OrdMap.unionWithM_eq h1.ordered h2.ordered fun q hq => ?_
  have hk : q.1 ∈ K := (h2.mem_keys q.1).1 (List.mem_map_of_mem hq)
  obtain ⟨u, hu, hlook⟩ := h1.lookup hk
  obtain ⟨v, hv, hqv⟩ := h2.cells q hq
  refine ⟨_, hlook, ?_⟩
  rw [hqv, widenOffs_cellAt (IntValue.widen_eq hu hv)]
  rfl

/-- An entry of the result: its cell is the widening of the two cells. -/
theorem merged_cell (h1 : ScalarMemory K m1) (h2 : ScalarMemory K m2)
    {p : MemAddrBase × IntOffs} (hp : p ∈ m1.toList) :
    ∃ u v : IntValue, u.Proper ∧ v.Proper ∧ p.2 = cellAt u ∧ m2.lookup p.1 = some (cellAt v) ∧
      OrdMap.merged widenedCell m2.toList p = (p.1, cellAt (u.widened v)) := by
  obtain ⟨u, hu, hpu⟩ := h1.cells p hp
  obtain ⟨v, hv, hlook⟩ := h2.lookup ((h1.mem_keys p.1).1 (List.mem_map_of_mem hp))
  refine ⟨u, v, hu, hv, hpu, hlook, ?_⟩
  have hlist : OrdMap.lookupList p.1 m2.toList = some (cellAt v) := hlook
  simp [OrdMap.merged, hlist, hpu, widenedCell]

theorem widen (h1 : ScalarMemory K m1) (h2 : ScalarMemory K m2)
    (hm : m.toList = m1.toList.map (OrdMap.merged widenedCell m2.toList)) : ScalarMemory K m where
  ordered := by
    unfold OrdMap.Ordered
    rw [hm, List.pairwise_map]
    exact h1.ordered
  mem_keys k := by
    rw [← h1.mem_keys, OrdMap.keys, hm, List.map_map]
    exact Iff.rfl
  cells p hp := by
    rw [hm] at hp
    obtain ⟨q, hq, rfl⟩ := List.mem_map.1 hp
    obtain ⟨u, v, hu, hv, -, -, hcell⟩ := merged_cell h1 h2 hq
    exact ⟨u.widened v, IntValue.widened_proper hu hv, by rw [hcell]⟩

/-- The cells of the result contain those of both memories. -/
theorem covers (h1 : ScalarMemory K m1) (h2 : ScalarMemory K m2)
    (hm : m.toList = m1.toList.map (OrdMap.merged widenedCell m2.toList)) {k : MemAddrBase}
    (hk : k ∈ K) :
    ∃ u v w, m1.lookup k = some (cellAt u) ∧ m2.lookup k = some (cellAt v) ∧
      m.lookup k = some (cellAt w) ∧ ∀ n, n ∈ u ∨ n ∈ v → n ∈ w := by
  obtain ⟨o, -, hlook⟩ := h1.lookup hk
  have hmem := OrdMap.mem_of_lookup hlook
  obtain ⟨u, v, hu, hv, hpu, hlook2, hcell⟩ := merged_cell h1 h2 hmem
  have hres : (k, cellAt (u.widened v)) ∈ m.toList := by
    rw [hm]
    exact List.mem_map.2 ⟨_, hmem, hcell⟩
  have hlook' := OrdMap.lookupList_of_mem (widen h1 h2 hm).ordered.nodup_keys hres
  refine ⟨u, v, _, hpu ▸ hlook, hlook2, hlook', fun n hn => ?_⟩
  rcases hn with hn | hn
  · exact IntValue.mem_widened_left hu hv hn
  · exact IntValue.mem_widened_right hu hv hn

/-! ## Changes -/

/-- The number of finite bounds of the cells. -/
def rank (m : IntMemory) : Nat := (m.toList.map fun p => (cellValue p.2).finiteBounds).sum

theorem rank_le (h : ScalarMemory K m) : rank m ≤ 2 * K.card := by
  rw [← h.length_eq, Nat.mul_comm, rank]
  calc (m.toList.map fun p => (cellValue p.2).finiteBounds).sum
      ≤ (m.toList.map fun p => (cellValue p.2).finiteBounds).length • 2 := by
        refine List.sum_le_card_nsmul _ 2 fun x hx => ?_
        obtain ⟨p, -, rfl⟩ := List.mem_map.1 hx
        exact IntValue.finiteBounds_le _
    _ = m.toList.length * 2 := by simp

theorem rank_lt (h1 : ScalarMemory K m1) (h2 : ScalarMemory K m2)
    (hm : m.toList = m1.toList.map (OrdMap.merged widenedCell m2.toList)) (hne : m ≠ m1) :
    rank m < rank m1 := by
  rw [rank, rank, hm, List.map_map]
  have hle : ∀ p ∈ m1.toList,
      (cellValue (OrdMap.merged widenedCell m2.toList p).2).finiteBounds ≤
        (cellValue p.2).finiteBounds := by
    intro p hp
    obtain ⟨u, v, hu, hv, hpu, -, hcell⟩ := merged_cell h1 h2 hp
    simpa [hcell, hpu] using (IntValue.finiteBounds_widened hu hv).1
  refine List.sum_lt_sum _ _ hle ?_
  -- otherwise no cell changes
  by_contra hno
  have hsame : ∀ p ∈ m1.toList, OrdMap.merged widenedCell m2.toList p = p := by
    intro p hp
    obtain ⟨u, v, hu, hv, hpu, -, hcell⟩ := merged_cell h1 h2 hp
    by_contra hp'
    refine hno ⟨p, hp, ?_⟩
    have huv : u.widened v ≠ u := by
      intro heq
      rw [hcell, heq, ← hpu] at hp'
      exact hp' rfl
    simpa [hcell, hpu] using (IntValue.finiteBounds_widened hu hv).2 huv
  refine hne ?_
  obtain ⟨l⟩ := m
  obtain ⟨l1⟩ := m1
  rw [OrdMap.mk.injEq]
  exact hm.trans ((List.map_congr_left hsame).trans (List.map_id' l1))

end ScalarMemory

/-- Widening contains both memories, cell by cell, and a sequence of widenings with any memories
changes at most twice for each address. -/
theorem widen_covers_and_stabilises [HostInt] (K : Finset MemAddrBase) :
    (∀ m1 m2, ScalarMemory K m1 → ScalarMemory K m2 →
      ∃ m, widenMemory m1 m2 = .ok m ∧ ScalarMemory K m ∧
        ∀ k ∈ K, ∃ u v w, m1.lookup k = some (cellAt u) ∧ m2.lookup k = some (cellAt v) ∧
          m.lookup k = some (cellAt w) ∧ ∀ n, n ∈ u ∨ n ∈ v → n ∈ w) ∧
    ∀ m x : Nat → IntMemory, ScalarMemory K (m 0) → (∀ k, ScalarMemory K (x k)) →
      (∀ k, widenMemory (m k) (x k) = .ok (m (k + 1))) →
      {k | m (k + 1) ≠ m k}.encard ≤ 2 * K.card := by
  constructor
  · intro m1 m2 h1 h2
    obtain ⟨m, hm, hlist⟩ := h1.widenMemory_eq h2
    exact ⟨m, hm, h1.widen h2 hlist, fun k hk => h1.covers h2 hlist hk⟩
  · intro m x h0 hx hstep
    have hlist : ∀ k, ScalarMemory K (m k) → (m (k + 1)).toList =
        (m k).toList.map (OrdMap.merged ScalarMemory.widenedCell (x k).toList) := by
      intro k hk
      obtain ⟨m', hm', hl⟩ := hk.widenMemory_eq (hx k)
      obtain rfl : m' = m (k + 1) := Except.ok.inj (hm'.symm.trans (hstep k))
      exact hl
    have hscalar : ∀ k, ScalarMemory K (m k) := by
      intro k
      induction k with
      | zero => exact h0
      | succ k ih => exact ih.widen (hx k) (hlist k ih)
    have hchanges := encard_changes_le m ScalarMemory.rank fun k hk =>
      (hscalar k).rank_lt (hx k) (hlist k (hscalar k)) hk
    exact hchanges.trans (by exact_mod_cast h0.rank_le)

/-- One global variable. -/
def counterMemory (v : IntValue) : IntMemory := ⟨[(⟨⟨7⟩, .glob⟩, cellAt v)]⟩

theorem counterMemory_scalar {v : IntValue} (hv : v.Proper) :
    ScalarMemory {⟨⟨7⟩, .glob⟩} (counterMemory v) where
  ordered := List.pairwise_singleton _ _
  mem_keys k := by simp [counterMemory, OrdMap.keys]
  cells p hp := by
    obtain rfl := List.mem_singleton.1 hp
    exact ⟨v, hv, rfl⟩

section Counter

attribute [local instance] HostInt.word

/-- A counter that starts at zero: the first widening with `[0, 1]` drops its upper bound, the
others change nothing. -/
theorem widen_covers_and_stabilises_counter :
    let m : Nat → IntMemory
      | 0 => counterMemory (.interVal (.i 0) (.i 0))
      | _ + 1 => counterMemory (.interVal (.i 0) .plusInf)
    (∀ k, widenMemory (m k) (counterMemory (.interVal (.i 0) (.i 1))) = .ok (m (k + 1))) ∧
      {k | m (k + 1) ≠ m k}.encard ≤ 2 * (1 : Nat) := by
  intro m
  have hstep : ∀ k, widenMemory (m k) (counterMemory (.interVal (.i 0) (.i 1))) = .ok (m (k + 1)) := by
    intro k
    cases k with
    | zero =>
      show widenMemory (counterMemory _) _ = .ok (counterMemory _)
      decide
    | succ k =>
      show widenMemory (counterMemory _) _ = .ok (counterMemory _)
      decide
  have h0 : ScalarMemory {⟨⟨7⟩, .glob⟩} (m 0) := counterMemory_scalar (by decide)
  exact ⟨hstep, (widen_covers_and_stabilises {⟨⟨7⟩, .glob⟩}).2 m _ h0
    (fun _ => counterMemory_scalar (by decide)) hstep⟩

end Counter

end Poet
