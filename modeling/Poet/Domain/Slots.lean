import Poet.Domain.Layout

/-!
# States as families of slots

A slot is a key of the heap or of the locals of a thread, and a state is what its slots hold, the
positions of its threads, the thread counter and whether it is bottom: two states whose maps are
ordered, as those of `Data.Map` are, are equal if these are (`MapsOrdered.ext`). A write to an
address changes one slot (`SetSlot`).
-/

namespace Poet

/-! ## The order of the keys -/

theorem Scope.before_asymm {a b : Scope} (h : a.before b = true) : b.before a = false := by
  cases a <;> cases b <;> simp_all [Scope.before]
  exact Int.le_of_lt h

theorem Scope.before_trans {a b c : Scope} (h : a.before b = true) (h' : b.before c = true) :
    a.before c = true := by
  cases a <;> cases b <;> cases c <;> simp_all [Scope.before]
  exact Int.lt_trans h h'

theorem Scope.before_total {a b : Scope} (h : a ≠ b) : a.before b = true ∨ b.before a = true := by
  cases a <;> cases b <;> simp_all [Scope.before]

theorem before_memAddrBase {a b : MemAddrBase} : OrdKey.before a b = true ↔
    a.base.symId < b.base.symId ∨ a.base = b.base ∧ a.level.before b.level = true := by
  simp [OrdKey.before]

instance : TotalKey MemAddrBase where
  asymm {a b} h := by
    rw [← Bool.not_eq_true, before_memAddrBase]
    rcases before_memAddrBase.1 h with h | ⟨hb, hl⟩
    · rintro (h' | ⟨hb', -⟩)
      · omega
      · rw [hb'] at h
        omega
    · rintro (h' | ⟨-, hl'⟩)
      · rw [hb] at h'
        omega
      · simp [Scope.before_asymm hl] at hl'
  trans {a b c} h h' := by
    rw [before_memAddrBase] at *
    rcases h with h | ⟨hb, hl⟩
    · rcases h' with h' | ⟨hb', -⟩
      · exact .inl (by omega)
      · exact .inl (hb' ▸ h)
    · rcases h' with h' | ⟨hb', hl'⟩
      · exact .inl (hb ▸ h')
      · exact .inr ⟨hb.trans hb', Scope.before_trans hl hl'⟩
  total {a b} h := by
    simp only [before_memAddrBase]
    rcases Int.lt_trichotomy a.base.symId b.base.symId with hlt | heq | hgt
    · exact .inl (.inl hlt)
    · obtain ⟨⟨i⟩, l⟩ := a
      obtain ⟨⟨j⟩, l'⟩ := b
      obtain rfl : i = j := heq
      have hl : l ≠ l' := by
        rintro rfl
        exact h rfl
      rcases Scope.before_total hl with hb | hb
      · exact .inl (.inr ⟨rfl, hb⟩)
      · exact .inr (.inr ⟨rfl, hb⟩)
    · exact .inr (.inl hgt)

/-! ## Slots -/

namespace ProgState

variable {v : Type}

/-- What the heap (`glob`) or the locals of a thread have under a key. -/
def slot (st : ProgState v) (scope : Scope) (k : MemAddrBase) : Option (Offs v) :=
  match scope with
  | .glob => st.heap.lookup k
  | .loc i => (st.thStates.lookup i).bind fun th => th.thLocals.lookup k

/-- `st'` is `st` with other cells at the base address `b`. -/
structure SetSlot (st : ProgState v) (b : MemAddrBase) (offs : Offs v) (st' : ProgState v) :
    Prop where
  slot : ∀ scope k, st'.slot scope k = if scope = b.level ∧ k = b then some offs else st.slot scope k
  position : ∀ t, st'.position t = st.position t
  numTh : st'.numTh = st.numTh
  isBot : st'.isBot = st.isBot

theorem SetSlot.refl {st : ProgState v} {b : MemAddrBase} {offs : Offs v}
    (h : st.slot b.level b = some offs) : SetSlot st b offs st := by
  refine ⟨fun scope k => ?_, fun _ => rfl, rfl, rfl⟩
  split
  · next hk =>
    obtain ⟨rfl, rfl⟩ := hk
    exact h
  · rfl

theorem SetSlot.trans {st st' st'' : ProgState v} {b : MemAddrBase} {offs offs' : Offs v}
    (h : SetSlot st b offs st') (h' : SetSlot st' b offs' st'') : SetSlot st b offs' st'' := by
  refine ⟨fun scope k => ?_, fun t => (h'.position t).trans (h.position t), h'.numTh.trans h.numTh,
    h'.isBot.trans h.isBot⟩
  rw [h'.slot]
  split
  · rfl
  · next hne => rw [h.slot, if_neg hne]

theorem SetSlot.self {st st' : ProgState v} {b : MemAddrBase} {offs : Offs v}
    (h : SetSlot st b offs st') : st'.slot b.level b = some offs := by
  rw [h.slot, if_pos ⟨rfl, rfl⟩]

section Write

variable [DecidableEq v] [OrdKey v] [Region v]

/-- The cells at a base address, of which there may be none, after a write. -/
def writeCell (o : Option (Offs v)) (off val : v) : Except DomErr (Offs v) :=
  match o with
  | none => .ok (.fromList [(off, val)])
  | some offs => Region.write offs off val

theorem writeRegionAddr_cell {mem mem' : Memory v} {b : MemAddrBase} {off val : v}
    (h : writeRegionAddr mem b off val = .ok mem') :
    ∃ offs, writeCell (mem.lookup b) off val = .ok offs ∧ mem' = mem.insert b offs := by
  unfold writeRegionAddr at h
  cases hm : mem.lookup b with
  | none =>
    simp only [hm] at h
    exact ⟨_, rfl, (Except.ok.inj h).symm⟩
  | some offs =>
    simp only [hm] at h
    obtain ⟨offs', ho, h⟩ := bind_eq_ok.1 h
    exact ⟨offs', ho, (Except.ok.inj h).symm⟩

theorem writeMemoryAddr_setSlot {st st' : ProgState v} {a : MemAddr v} {val : v}
    (h : st.writeMemoryAddr a val = .ok st') :
    ∃ offs, writeCell (st.slot a.level ⟨a.base, a.level⟩) a.offset val = .ok offs ∧
      SetSlot st ⟨a.base, a.level⟩ offs st' := by
  obtain ⟨id, off, level⟩ := a
  cases level with
  | glob =>
    obtain ⟨heap, hw, h⟩ := bind_eq_ok.1 h
    obtain rfl := Except.ok.inj h
    obtain ⟨offs, ho, rfl⟩ := writeRegionAddr_cell hw
    refine ⟨offs, ho, fun scope k => ?_, fun _ => rfl, rfl, rfl⟩
    cases scope <;> simp [slot, fromAddr]
  | loc i =>
    simp only [writeMemoryAddr] at h
    split at h
    · cases h
    · next th hth =>
      obtain ⟨locals, hw, h⟩ := bind_eq_ok.1 h
      obtain rfl := Except.ok.inj h
      obtain ⟨offs, ho, rfl⟩ := writeRegionAddr_cell hw
      refine ⟨offs, by simpa [slot, hth, fromAddr] using ho, fun scope k => ?_, fun t => ?_, rfl, rfl⟩
      · cases scope with
        | glob => simp [slot]
        | loc j =>
          by_cases hji : j = i
          · subst hji
            simp [slot, hth, fromAddr]
          · simp [slot, hji]
      · by_cases hti : t = i
        · subst hti
          simp [position, hth]
        · simp [position, hti]

/-- All cells of a variable are written, one after the other. -/
theorem writeMemory_setSlot {st st' : ProgState v} {b : MemAddrBase} {offs : Offs v} {val : v}
    (hb : st.slot b.level b = some offs) {ks : List v}
    (h : st.writeMemory (.addrs (ks.map (toAddr b))) val = .ok st') :
    ∃ offs', writeOffs offs ks val = .ok offs' ∧ SetSlot st b offs' st' := by
  induction ks generalizing st' with
  | nil =>
    obtain rfl := Except.ok.inj h
    exact ⟨offs, rfl, .refl hb⟩
  | cons k ks ih =>
    obtain ⟨st₁, h₁, h⟩ := bind_eq_ok.1 h
    obtain ⟨offs₁, ho₁, hset₁⟩ := ih h₁
    obtain ⟨offs', ho, hset⟩ := writeMemoryAddr_setSlot h
    refine ⟨offs', ?_, hset₁.trans hset⟩
    have ho : writeCell (st₁.slot b.level b) k val = .ok offs' := ho
    rw [hset₁.self] at ho
    exact bind_eq_ok.2 ⟨offs₁, ho₁, ho⟩

/-- Every write changes the slot of its address. -/
theorem writeMemory_slot {st st' : ProgState v} {l : List (MemAddr v)} {val : v}
    (h : st.writeMemory (.addrs l) val = .ok st') {scope : Scope} {k : MemAddrBase}
    (hk : ∀ a ∈ l, k ≠ ⟨a.base, a.level⟩) : st'.slot scope k = st.slot scope k := by
  induction l generalizing st' with
  | nil =>
    obtain rfl := Except.ok.inj h
    rfl
  | cons a l ih =>
    obtain ⟨st₁, h₁, h⟩ := bind_eq_ok.1 h
    obtain ⟨offs, -, hset⟩ := writeMemoryAddr_setSlot h
    rw [hset.slot, if_neg fun hc => hk a List.mem_cons_self hc.2,
      ih h₁ fun b hb => hk b (List.mem_cons_of_mem _ hb)]

end Write

/-! ## Ordered maps -/

/-- The heap, the threads and their locals are ordered, as maps of `Data.Map` are. -/
structure MapsOrdered (st : ProgState v) : Prop where
  heap : st.heap.Ordered
  threads : st.thStates.Ordered
  locals : ∀ i th, st.thStates.lookup i = some th → th.thLocals.Ordered

theorem mapsOrdered_bot : (bot : ProgState v).MapsOrdered :=
  ⟨OrdMap.ordered_empty, OrdMap.ordered_empty, fun _ _ h => by cases h⟩

theorem MapsOrdered.ext {st st' : ProgState v} (h : st.MapsOrdered) (h' : st'.MapsOrdered)
    (hslot : ∀ scope k, st.slot scope k = st'.slot scope k)
    (hpos : ∀ t, st.position t = st'.position t) (hnum : st.numTh = st'.numTh)
    (hbot : st.isBot = st'.isBot) : st = st' := by
  have hheap : st.heap = st'.heap := h.heap.ext h'.heap (hslot .glob)
  have hthreads : st.thStates = st'.thStates := by
    refine h.threads.ext h'.threads fun i => ?_
    have hp := hpos i
    have hl := hslot (.loc i)
    simp only [position] at hp
    simp only [slot] at hl
    cases ht : st.thStates.lookup i with
    | none =>
      rw [ht] at hp
      cases ht' : st'.thStates.lookup i with
      | none => rfl
      | some th' => simp [ht'] at hp
    | some th =>
      cases ht' : st'.thStates.lookup i with
      | none => simp [ht, ht'] at hp
      | some th' =>
        obtain ⟨pos, id, locals⟩ := th
        obtain ⟨pos', id', locals'⟩ := th'
        obtain ⟨rfl, rfl⟩ : pos = pos' ∧ id = id' := by simpa [ht, ht'] using hp
        obtain rfl : locals = locals' :=
          (h.locals i _ ht).ext (h'.locals i _ ht') fun k => by simpa [ht, ht'] using hl k
        rfl
  obtain ⟨heap, thStates, numTh, isBot⟩ := st
  obtain ⟨heap', thStates', numTh', isBot'⟩ := st'
  obtain ⟨rfl, rfl, rfl, rfl⟩ : heap = heap' ∧ thStates = thStates' ∧ numTh = numTh' ∧ isBot = isBot' :=
    ⟨hheap, hthreads, hnum, hbot⟩
  rfl

theorem MapsOrdered.insertThread {st : ProgState v} (h : st.MapsOrdered) {tid : TId}
    {th : ThState v} (hth : th.thLocals.Ordered) : (st.insertThread tid th).MapsOrdered := by
  refine ⟨h.heap, h.threads.insert tid th, fun i th' hi => ?_⟩
  simp only [ProgState.insertThread, OrdMap.lookup_insert] at hi
  split at hi
  · obtain rfl := Option.some.inj hi
    exact hth
  · exact h.locals i th' hi

section Write

variable [DecidableEq v] [OrdKey v] [Region v]

theorem MapsOrdered.writeMemoryAddr {st st' : ProgState v} (h : st.MapsOrdered) {a : MemAddr v}
    {val : v} (hw : st.writeMemoryAddr a val = .ok st') : st'.MapsOrdered := by
  unfold ProgState.writeMemoryAddr at hw
  split at hw
  · obtain ⟨heap, hreg, hst⟩ := bind_eq_ok.1 hw
    obtain rfl := Except.ok.inj hst
    obtain ⟨offs, -, rfl⟩ := writeRegionAddr_cell hreg
    exact ⟨h.heap.insert _ _, h.threads, h.locals⟩
  · split at hw
    · cases hw
    · next th hth =>
      obtain ⟨locals, hreg, hst⟩ := bind_eq_ok.1 hw
      obtain rfl := Except.ok.inj hst
      obtain ⟨offs, -, rfl⟩ := writeRegionAddr_cell hreg
      exact h.insertThread ((h.locals _ th hth).insert _ _)

theorem MapsOrdered.writes {P : MemAddr v → Prop} {st st' : ProgState v} (h : st.MapsOrdered)
    (hw : Writes P st st') : st'.MapsOrdered := by
  induction hw with
  | refl => exact h
  | step _ _ hw ih => exact ih.writeMemoryAddr hw

end Write

end ProgState

end Poet
