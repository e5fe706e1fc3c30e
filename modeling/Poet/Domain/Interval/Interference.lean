import Poet.Domain.Interval.OffsetMerge

/-!
# Interference of interval actions (`Domain/Action.hs`)

An address with an interval offset stands for a set of cells. `interferes` meets the addresses of the
two actions, and the meet of two lists of addresses is their intersection: `[0,5]` and `[3,8]` of one
array are different addresses, and two writes to them do not interfere. So `interferes` is complete
for cells only where two actions with overlapping addresses have an address in common
(`interferes_sound_iff`).
-/

namespace Poet

/-- A concrete cell of the memory. -/
structure Cell where
  base : SymId
  level : Scope
  offset : Int
deriving DecidableEq, Repr

namespace IntValue

/-- Two proper offsets share an integer exactly if their meet is not bottom. -/
theorem Proper.meet_ne_bot {k l : IntValue} (hk : k.Proper) (hl : l.Proper) :
    k.meet l ≠ .ok .bot ↔ ∃ n, k.Covers n ∧ l.Covers n := by
  obtain ⟨a, b, rfl⟩ := hk.exists_interVal
  obtain ⟨c, d, rfl⟩ := hl.exists_interVal
  obtain ⟨ha, hb, hab⟩ := hk
  obtain ⟨hc, hd, hcd⟩ := hl
  simp only [meet]
  constructor
  · intro h
    split at h
    · exact absurd rfl h
    · next hle =>
      -- the common part is proper
      have hproper : (IntValue.interVal (max a c) (min b d)).Proper := by
        refine ⟨?_, ?_, not_lt.1 hle⟩
        · rcases max_choice a c with h | h <;> rw [h] <;> assumption
        · rcases min_choice b d with h | h <;> rw [h] <;> assumption
      obtain ⟨n, hn⟩ := hproper.exists_covers
      obtain ⟨hna, hnc⟩ := max_le_iff.1 hn.1
      obtain ⟨hnb, hnd⟩ := le_min_iff.1 hn.2
      exact ⟨n, ⟨hna, hnb⟩, hnc, hnd⟩
  · rintro ⟨n, hn, hn'⟩
    have hle : max a c ≤ min b d := (max_le hn.1 hn'.1).trans (le_min hn.2 hn'.2)
    rw [if_neg hle.not_gt]
    simp

end IntValue

/-- The cell is one of those that the address stands for. -/
def MemAddr.Has (x : IntMAddr) (c : Cell) : Prop :=
  x.base = c.base ∧ x.level = c.level ∧ x.offset.Covers c.offset

/-- The addresses have a base, a scope and a part of their offsets in common. -/
def MemAddr.Overlaps (x y : IntMAddr) : Prop :=
  x.base = y.base ∧ x.level = y.level ∧ x.offset.meet y.offset ≠ .ok .bot

namespace MemAddrs

/-- The cell belongs to one of the addresses; `MemAddrTop` has every cell. -/
def HasCell (m : IntMAddrs) (c : Cell) : Prop := ∃ x ∈ m, x.Has c

/-- The addresses that are listed have non-empty interval offsets. -/
def ProperOffsets : IntMAddrs → Prop
  | .top => True
  | .addrs l => ∀ x ∈ l, x.offset.Proper

/-- The meet of two sets of addresses is bottom exactly if they have no address in common. -/
theorem meet_eq_bot {m m' : IntMAddrs} : m.meet m' = .addrs [] ↔ ¬ ∃ z ∈ m, z ∈ m' := by
  cases m with
  | top =>
    cases m' with
    | top => exact iff_of_false nofun fun h => h ⟨⟨⟨0⟩, .top, .glob⟩, trivial, trivial⟩
    | addrs l =>
      have hmem : (∃ z ∈ (top : IntMAddrs), z ∈ addrs l) ↔ ∃ z, z ∈ l :=
        ⟨fun ⟨z, _, hz⟩ => ⟨z, hz⟩, fun ⟨z, hz⟩ => ⟨z, trivial, hz⟩⟩
      rw [hmem]
      simp [meet, List.eq_nil_iff_forall_not_mem]
  | addrs l =>
    cases m' with
    | top =>
      have hmem : (∃ z ∈ addrs l, z ∈ (top : IntMAddrs)) ↔ ∃ z, z ∈ l :=
        ⟨fun ⟨z, hz, _⟩ => ⟨z, hz⟩, fun ⟨z, hz⟩ => ⟨z, hz, trivial⟩⟩
      rw [hmem]
      simp [meet, List.eq_nil_iff_forall_not_mem]
    | addrs l' => simp [meet, List.eq_nil_iff_forall_not_mem]

/-- Without a common address both sets are lists, unless one of them is empty. -/
theorem exists_addrs_of_disjoint {m m' : IntMAddrs} (h : ¬ ∃ z ∈ m, z ∈ m') {x y : IntMAddr}
    (hx : x ∈ m) (hy : y ∈ m') : ∃ l l', m = .addrs l ∧ m' = .addrs l' := by
  cases m with
  | top => exact absurd ⟨y, trivial, hy⟩ h
  | addrs l =>
    cases m' with
    | top => exact absurd ⟨x, hx, trivial⟩ h
    | addrs l' => exact ⟨l, l', rfl, rfl⟩

/-- Disjoint sets of addresses have a common cell exactly if two of their addresses overlap. -/
theorem exists_cell_iff {m m' : IntMAddrs} (h : ¬ ∃ z ∈ m, z ∈ m') (hm : m.ProperOffsets)
    (hm' : m'.ProperOffsets) :
    (∃ c, m.HasCell c ∧ m'.HasCell c) ↔ ∃ x ∈ m, ∃ y ∈ m', x.Overlaps y := by
  constructor
  · rintro ⟨c, ⟨x, hx, hxb, hxl, hxo⟩, y, hy, hyb, hyl, hyo⟩
    obtain ⟨l, l', rfl, rfl⟩ := exists_addrs_of_disjoint h hx hy
    exact ⟨x, hx, y, hy, hxb.trans hyb.symm, hxl.trans hyl.symm,
      ((hm x hx).meet_ne_bot (hm' y hy)).2 ⟨_, hxo, hyo⟩⟩
  · rintro ⟨x, hx, y, hy, hb, hl, ho⟩
    obtain ⟨l, l', rfl, rfl⟩ := exists_addrs_of_disjoint h hx hy
    obtain ⟨n, hxn, hyn⟩ := ((hm x hx).meet_ne_bot (hm' y hy)).1 ho
    exact ⟨⟨x.base, x.level, n⟩, ⟨x, hx, rfl, rfl, hxn⟩, y, hy, hb.symm, hl.symm, hyn⟩

end MemAddrs

theorem interferes_eq_false {a1 a2 : IntAct} :
    Action.interferes a1 a2 = false ↔ ¬ ∃ z ∈ a1.actAddrs, z ∈ a2.actAddrs := by
  rw [← MemAddrs.meet_eq_bot]
  simp [Action.interferes, Lattice.isBot]

/-- Actions that do not interfere have no cell in common, exactly if overlapping addresses of the two
come with an address in common. -/
theorem interferes_sound_iff {a1 a2 : IntAct} (h1 : a1.actAddrs.ProperOffsets)
    (h2 : a2.actAddrs.ProperOffsets) :
    (Action.interferes a1 a2 = false → ¬ ∃ c, a1.actAddrs.HasCell c ∧ a2.actAddrs.HasCell c) ↔
      ∀ x ∈ a1.actAddrs, ∀ y ∈ a2.actAddrs, x.Overlaps y → ∃ z ∈ a1.actAddrs, z ∈ a2.actAddrs := by
  rw [interferes_eq_false]
  constructor
  · intro h x hx y hy hxy
    by_contra hdisj
    exact h hdisj ((MemAddrs.exists_cell_iff hdisj h1 h2).2 ⟨x, hx, y, hy, hxy⟩)
  · intro h hdisj hcell
    obtain ⟨x, hx, y, hy, hxy⟩ := (MemAddrs.exists_cell_iff hdisj h1 h2).1 hcell
    exact hdisj (h x hx y hy hxy)

/-- A write to the offsets from `a` to `b` of one global array. -/
def writeRange (a b : Int) : IntAct :=
  Act.writeActAddr (.addrs [⟨⟨7⟩, .interVal (.i a) (.i b), .glob⟩])

theorem properOffsets_writeRange {a b : Int} (h : a ≤ b) :
    (writeRange a b).actAddrs.ProperOffsets := by
  have hproper : (IntValue.interVal (.i a) (.i b)).Proper := ⟨by simp, by simp, InterVal.i_le_i.2 h⟩
  intro x hx
  obtain rfl := List.mem_singleton.1 hx
  exact hproper

/-- Two writes to ranges that do not overlap. -/
theorem interferes_sound_iff_ranges :
    Action.interferes (writeRange 0 5) (writeRange 6 8) = false ∧
      ¬ ∃ c, (writeRange 0 5).actAddrs.HasCell c ∧ (writeRange 6 8).actAddrs.HasCell c := by
  have hdisj : Action.interferes (writeRange 0 5) (writeRange 6 8) = false := by decide
  refine ⟨hdisj, (interferes_sound_iff (properOffsets_writeRange (by decide))
    (properOffsets_writeRange (by decide))).2 (fun x hx y hy hxy => ?_) hdisj⟩
  obtain rfl := List.mem_singleton.1 hx
  obtain rfl := List.mem_singleton.1 hy
  exact absurd hxy.2.2 (by decide)

/-- Two writes to overlapping ranges of an array, which do not interfere. -/
theorem interferes_misses_overlap :
    (writeRange 0 5).actAddrs.ProperOffsets ∧ (writeRange 3 8).actAddrs.ProperOffsets ∧
    Action.interferes (writeRange 0 5) (writeRange 3 8) = false ∧
    ∃ c, (writeRange 0 5).actAddrs.HasCell c ∧ (writeRange 3 8).actAddrs.HasCell c := by
  refine ⟨properOffsets_writeRange (by decide), properOffsets_writeRange (by decide), by decide,
    ⟨⟨7⟩, .glob, 4⟩, ⟨_, List.mem_singleton_self _, rfl, rfl, ?_⟩,
    _, List.mem_singleton_self _, rfl, rfl, ?_⟩
  · exact ⟨by simp, by simp⟩
  · exact ⟨by simp, by simp⟩

end Poet
