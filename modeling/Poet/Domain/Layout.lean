import Poet.Domain.Memory

/-!
# States as families of regions

A state is seen through three functions: the region at a base address, the position of a thread,
and whether it is bottom. A variable has the region in the locals of the thread if there is one,
and the one in the heap otherwise (`baseOf`). A variable is read and written as a whole: its
addresses are all the cells of its region, a write stores one value in each of them and leaves the
rest of the state (`SetRegion`).
-/

namespace Poet

namespace ProgState

variable {v : Type}

/-- The cells at a base address. -/
def region (st : ProgState v) (b : MemAddrBase) : Option (Offs v) :=
  match b.level with
  | .glob => st.heap.lookup b
  | .loc i => (st.thStates.lookup i).bind fun th => th.thLocals.lookup b

/-- The position and the code of a thread. -/
def position (st : ProgState v) (t : TId) : Option (Pos × SymId) :=
  (st.thStates.lookup t).map fun th => (th.thPos, th.thCfgId)

/-- Where a variable is found from a scope. -/
def baseOf (st : ProgState v) (id : SymId) (scope : Scope) : MemAddrBase :=
  if (st.region ⟨id, scope⟩).isSome then ⟨id, scope⟩ else ⟨id, .glob⟩

theorem baseOf_base (st : ProgState v) (id : SymId) (scope : Scope) :
    (st.baseOf id scope).base = id := by
  unfold baseOf
  split <;> rfl

theorem toMemAddrs_eq (offs : Offs v) (b : MemAddrBase) :
    toMemAddrs offs b = .addrs (offs.keys.map (toAddr b)) := by
  simp [toMemAddrs, OrdMap.keys]

theorem getAddrsGlobal_eq_ok {st : ProgState v} {id : SymId} {addrs : MemAddrs v}
    (h : st.getAddrsGlobal ⟨id, .glob⟩ = .ok addrs) :
    ∃ offs, st.region ⟨id, .glob⟩ = some offs ∧ addrs = toMemAddrs offs ⟨id, .glob⟩ := by
  unfold getAddrsGlobal getAddrsMemory at h
  cases ho : st.heap.lookup ⟨id, .glob⟩ with
  | none => simp [ho] at h
  | some offs =>
    simp only [ho, Option.map_some, Except.ok.injEq] at h
    exact ⟨offs, ho, h.symm⟩

theorem getAddrs_eq_ok {st : ProgState v} {id : SymId} {scope : Scope} {addrs : MemAddrs v}
    (h : st.getAddrs ⟨id, scope⟩ = .ok addrs) :
    ∃ offs, st.region (st.baseOf id scope) = some offs ∧
      addrs = toMemAddrs offs (st.baseOf id scope) := by
  cases scope with
  | glob =>
    have hb : st.baseOf id .glob = ⟨id, .glob⟩ := by simp [baseOf]
    rw [hb]
    exact getAddrsGlobal_eq_ok h
  | loc i =>
    simp only [getAddrs] at h
    split at h
    · cases h
    · next th hth =>
      have hr : st.region ⟨id, .loc i⟩ = th.thLocals.lookup ⟨id, .loc i⟩ := by simp [region, hth]
      unfold baseOf getAddrsMemory at *
      rw [hr]
      cases ho : th.thLocals.lookup ⟨id, .loc i⟩ with
      | none =>
        simp only [ho, Option.map_none] at h
        simpa using getAddrsGlobal_eq_ok h
      | some offs =>
        simp only [ho, Option.map_some, Except.ok.injEq] at h
        exact ⟨offs, by simp [hr, ho], by simp [h]⟩

/-! ## Reading -/

section Read

variable [Region v]

/-- A cell that the region can read is the value at its address. -/
theorem readMemoryAddr_eq {st : ProgState v} {b : MemAddrBase} {offs : Offs v} {off val : v}
    (hr : st.region b = some offs) (hread : Region.read offs off = .ok (some val)) :
    st.readMemoryAddr (toAddr b off) = .ok val := by
  obtain ⟨id, level⟩ := b
  cases level with
  | glob =>
    simp only [region] at hr
    simp [readMemoryAddr, readMemoryGlobal, readAddrFromRegion, toAddr, fromAddr, hr, hread]
  | loc i =>
    obtain ⟨th, hth, hl⟩ := Option.bind_eq_some_iff.1 hr
    simp [readMemoryAddr, readAddrFromRegion, toAddr, fromAddr, hth, hl, hread]

end Read

/-! ## Writing -/

/-- `st'` is `st` with another region at `b`. -/
structure SetRegion (st : ProgState v) (b : MemAddrBase) (offs : Offs v) (st' : ProgState v) :
    Prop where
  region : ∀ c, st'.region c = if c = b then some offs else st.region c
  position : ∀ t, st'.position t = st.position t
  isBot : st'.isBot = st.isBot

theorem SetRegion.refl {st : ProgState v} {b : MemAddrBase} {offs : Offs v}
    (h : st.region b = some offs) : SetRegion st b offs st := by
  refine ⟨fun c => ?_, fun _ => rfl, rfl⟩
  split
  · next hc => rw [hc, h]
  · rfl

theorem SetRegion.trans {st st' st'' : ProgState v} {b : MemAddrBase} {offs offs' : Offs v}
    (h : SetRegion st b offs st') (h' : SetRegion st' b offs' st'') : SetRegion st b offs' st'' := by
  refine ⟨fun c => ?_, fun t => (h'.position t).trans (h.position t), h'.isBot.trans h.isBot⟩
  rw [h'.region c]
  split
  · rfl
  · next hc => rw [h.region c, if_neg hc]

section Write

variable [DecidableEq v] [OrdKey v] [Region v]

theorem writeRegionAddr_eq_ok {mem mem' : Memory v} {b : MemAddrBase} {offs : Offs v} {off val : v}
    (hb : mem.lookup b = some offs) (h : writeRegionAddr mem b off val = .ok mem') :
    ∃ offs', Region.write offs off val = .ok offs' ∧ mem' = mem.insert b offs' := by
  simp only [writeRegionAddr, hb] at h
  obtain ⟨offs', ho, h⟩ := bind_eq_ok.1 h
  exact ⟨offs', ho, (Except.ok.inj h).symm⟩

theorem writeMemoryAddr_eq_ok {st st' : ProgState v} {b : MemAddrBase} {offs : Offs v} {off val : v}
    (hr : st.region b = some offs) (h : st.writeMemoryAddr (toAddr b off) val = .ok st') :
    ∃ offs', Region.write offs off val = .ok offs' ∧ SetRegion st b offs' st' := by
  obtain ⟨id, level⟩ := b
  cases level with
  | glob =>
    obtain ⟨heap, hw, h⟩ := bind_eq_ok.1 h
    obtain rfl := Except.ok.inj h
    obtain ⟨offs', ho, rfl⟩ := writeRegionAddr_eq_ok (b := ⟨id, .glob⟩) hr hw
    refine ⟨offs', ho, fun c => ?_, fun _ => rfl, rfl⟩
    obtain ⟨x, l⟩ := c
    cases l <;> simp [region]
  | loc i =>
    obtain ⟨th, hth, hl⟩ := Option.bind_eq_some_iff.1 hr
    simp only [writeMemoryAddr, toAddr, hth] at h
    obtain ⟨locals, hw, h⟩ := bind_eq_ok.1 h
    obtain rfl := Except.ok.inj h
    obtain ⟨offs', ho, rfl⟩ := writeRegionAddr_eq_ok (b := ⟨id, .loc i⟩) hl hw
    refine ⟨offs', ho, fun c => ?_, fun t => ?_, rfl⟩
    · obtain ⟨x, l⟩ := c
      cases l with
      | glob => simp [region]
      | loc j =>
        by_cases hji : j = i
        · subst hji
          simp [region, hth]
        · simp [region, hji]
    · by_cases hti : t = i
      · subst hti
        simp [position, hth]
      · simp [position, hti]

/-- Stores one value at some of the offsets of a region, from the last to the first. -/
def writeOffs (offs : Offs v) (ks : List v) (val : v) : Except DomErr (Offs v) :=
  ks.foldr (fun k o => do Region.write (← o) k val) (.ok offs)

theorem writeMemory_eq_ok {st st' : ProgState v} {b : MemAddrBase} {offs : Offs v} {val : v}
    (hr : st.region b = some offs) {ks : List v}
    (h : st.writeMemory (.addrs (ks.map (toAddr b))) val = .ok st') :
    ∃ offs', writeOffs offs ks val = .ok offs' ∧ SetRegion st b offs' st' := by
  induction ks generalizing st' with
  | nil =>
    obtain rfl := Except.ok.inj h
    exact ⟨offs, rfl, .refl hr⟩
  | cons k ks ih =>
    obtain ⟨st₁, h₁, h⟩ := bind_eq_ok.1 h
    obtain ⟨offs₁, ho₁, hset₁⟩ := ih h₁
    have hr₁ : st₁.region b = some offs₁ := by simp [hset₁.region]
    obtain ⟨offs', ho', hset'⟩ := writeMemoryAddr_eq_ok hr₁ h
    exact ⟨offs', bind_eq_ok.2 ⟨offs₁, ho₁, ho'⟩, hset₁.trans hset'⟩

end Write

end ProgState

end Poet
