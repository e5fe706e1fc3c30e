import Poet.Domain.Transformer

/-!
# What the memory operations change

A write to a set of addresses, and the writes of a declaration, are sequences of writes to one
address each (`Writes`). They keep the thread counter and the threads, and the state of every thread
whose locals are not written. The addresses that `getAddrsExpr` finds for an expression are those of
the variable it starts with (`root`): in the locals of the thread if the variable is there, and in
the heap otherwise.
-/

namespace Poet

/-- The variable in which the address of an expression lies. -/
def root : SExpression → Option SymId
  | .var id => some id
  | .unary .adr e => root e
  | .index lhs _ => root lhs
  | _ => none

section Addresses

variable {v : Type}

/-- The address is in the heap, or in the locals of the thread of the scope. -/
def Located (st : ProgState v) (scope : Scope) (a : MemAddr v) : Prop :=
  a.level = .glob ∨ ∃ i th offs, scope = .loc i ∧ a.level = .loc i ∧
    st.thStates.lookup i = some th ∧ th.thLocals.lookup ⟨a.base, .loc i⟩ = some offs

theorem Located.level {st : ProgState v} {scope : Scope} {a : MemAddr v} (h : Located st scope a) :
    a.level = .glob ∨ a.level = scope := by
  rcases h with h | ⟨i, th, offs, hs, ha, -⟩
  · exact .inl h
  · exact .inr (ha.trans hs.symm)

theorem mem_getAddrsMemory {mem : Memory v} {base : MemAddrBase} {addrs : MemAddrs v}
    (h : ProgState.getAddrsMemory mem base = some addrs) :
    ∃ offs l, mem.lookup base = some offs ∧ addrs = .addrs l ∧
      ∀ a ∈ l, a.base = base.base ∧ a.level = base.level := by
  obtain ⟨offs, ho, rfl⟩ := Option.map_eq_some_iff.1 h
  refine ⟨offs, _, ho, rfl, fun a ha => ?_⟩
  obtain ⟨p, -, rfl⟩ := List.mem_map.1 ha
  exact ⟨rfl, rfl⟩

theorem mem_getAddrsGlobal {st : ProgState v} {base : MemAddrBase} {addrs : MemAddrs v}
    (h : st.getAddrsGlobal base = .ok addrs) :
    ∃ l, addrs = .addrs l ∧ ∀ a ∈ l, a.base = base.base ∧ a.level = base.level := by
  unfold ProgState.getAddrsGlobal at h
  split at h
  · cases h
  · next as has =>
    obtain rfl := Except.ok.inj h
    obtain ⟨-, l, -, rfl, hl⟩ := mem_getAddrsMemory has
    exact ⟨l, rfl, hl⟩

theorem mem_getAddrs {st : ProgState v} {id : SymId} {scope : Scope} {addrs : MemAddrs v}
    (h : st.getAddrs ⟨id, scope⟩ = .ok addrs) :
    ∃ l, addrs = .addrs l ∧ ∀ a ∈ l, a.base = id ∧ Located st scope a := by
  unfold ProgState.getAddrs at h
  split at h
  · next i hi =>
    obtain rfl : scope = .loc i := hi
    split at h
    · cases h
    · next th hth =>
      split at h
      · obtain ⟨l, rfl, hl⟩ := mem_getAddrsGlobal h
        exact ⟨l, rfl, fun a ha => ⟨(hl a ha).1, .inl (hl a ha).2⟩⟩
      · next as has =>
        obtain rfl := Except.ok.inj h
        obtain ⟨offs, l, ho, rfl, hl⟩ := mem_getAddrsMemory has
        refine ⟨l, rfl, fun a ha => ⟨(hl a ha).1, .inr ⟨i, th, offs, rfl, (hl a ha).2, hth, ?_⟩⟩⟩
        rw [(hl a ha).1]
        exact ho
  · next hi =>
    obtain rfl : scope = .glob := hi
    obtain ⟨l, rfl, hl⟩ := mem_getAddrsGlobal h
    exact ⟨l, rfl, fun a ha => ⟨(hl a ha).1, .inl (hl a ha).2⟩⟩

variable [DecidableEq v] [ToValue v] [OrdKey v] [Region v] [TransValue v]

/-- The addresses of an expression are those of its variable. -/
theorem mem_getAddrsExpr [SimpleC] {st : ProgState v} {scope : Scope} :
    ∀ {e : SExpression} {addrs : MemAddrs v}, getAddrsExpr e st scope = .ok addrs →
      ∃ l, addrs = .addrs l ∧ ∀ a ∈ l, root e = some a.base ∧ Located st scope a
  | .var id, addrs, h => by
    obtain ⟨l, rfl, hl⟩ := mem_getAddrs h
    exact ⟨l, rfl, fun a ha => ⟨congrArg some (hl a ha).1.symm, (hl a ha).2⟩⟩
  | .unary op e, addrs, h => by
    cases op with
    | adr => exact mem_getAddrsExpr (e := e) h
    | _ => cases h
  | .index lhs rhs, addrs, h => by
    obtain ⟨as, has, h⟩ := bind_eq_ok.1 h
    obtain ⟨l, rfl, hl⟩ := mem_getAddrsExpr has
    obtain ⟨⟨val, acts⟩, -, h⟩ := bind_eq_ok.1 h
    obtain ⟨off, -, h⟩ := bind_eq_ok.1 h
    obtain rfl := Except.ok.inj h
    refine ⟨_, rfl, fun a ha => ?_⟩
    -- a new offset leaves the variable and the scope
    obtain ⟨b, hb, rfl⟩ := List.mem_map.1 (List.mem_eraseDups.1 ha)
    exact hl b hb
  | .assign _ _ _, _, h | .binary _ _ _, _, h | .call _ _, _, h | .cast _, _, h | .cond _ _ _, _, h
  | .const _, _, h | .skip, _, h | .unsupported _, _, h => by cases h

/-- Without the thread of the scope no address is found. -/
theorem getAddrsExpr_ne_ok [SimpleC] {st : ProgState v} {i : TId} (hi : st.thStates.lookup i = none) :
    ∀ {e : SExpression} {addrs : MemAddrs v}, getAddrsExpr e st (.loc i) ≠ .ok addrs
  | .var id, addrs, h => by
    simp [getAddrsExpr, ProgState.getAddrs, hi] at h
  | .unary op e, addrs, h => by
    cases op with
    | adr => exact getAddrsExpr_ne_ok hi (e := e) h
    | _ => cases h
  | .index lhs rhs, addrs, h => by
    obtain ⟨as, has, -⟩ := bind_eq_ok.1 h
    exact getAddrsExpr_ne_ok hi has
  | .assign _ _ _, _, h | .binary _ _ _, _, h | .call _ _, _, h | .cast _, _, h | .cond _ _ _, _, h
  | .const _, _, h | .skip, _, h | .unsupported _, _, h => by cases h

end Addresses

/-! ## Writing -/

section Writes

variable {v : Type} [DecidableEq v] [OrdKey v] [Region v] {P Q : MemAddr v → Prop}
  {s s' : ProgState v}

/-- `s'` is `s` after some writes, each to an address for which `P` holds. -/
inductive Writes (P : MemAddr v → Prop) (s : ProgState v) : ProgState v → Prop where
  | refl : Writes P s s
  | step {s' s'' a val} (h : Writes P s s') (ha : P a) (hw : s'.writeMemoryAddr a val = .ok s'') :
      Writes P s s''

theorem Writes.mono (hPQ : ∀ a, P a → Q a) (h : Writes P s s') : Writes Q s s' := by
  induction h with
  | refl => exact .refl
  | step _ ha hw ih => exact .step ih (hPQ _ ha) hw

theorem writes_of_writeMemory {addrs : MemAddrs v} {val : v}
    (h : s.writeMemory addrs val = .ok s') : Writes (· ∈ addrs) s s' := by
  cases addrs with
  | top => cases h
  | addrs l =>
    induction l generalizing s' with
    | nil =>
      obtain rfl := Except.ok.inj h
      exact .refl
    | cons a l ih =>
      obtain ⟨s₁, h₁, h⟩ := bind_eq_ok.1 h
      exact .step ((ih h₁).mono fun b hb => List.mem_cons_of_mem a hb) List.mem_cons_self h

theorem writes_of_writeCells [ToValue v] [TransValue v] {cells : List (MemAddr v × v)}
    (h : writeCells s cells = .ok s') : Writes (· ∈ cells.map (·.1)) s s' := by
  induction cells generalizing s' with
  | nil =>
    obtain rfl := Except.ok.inj h
    exact .refl
  | cons c cells ih =>
    obtain ⟨s₁, h₁, h⟩ := bind_eq_ok.1 h
    exact .step ((ih h₁).mono fun b hb => List.mem_cons_of_mem _ hb) List.mem_cons_self h

/-- What writes to addresses with `P` leave. -/
structure ThreadFrame (P : MemAddr v → Prop) (s s' : ProgState v) : Prop where
  numTh : s'.numTh = s.numTh
  isBot : s'.isBot = s.isBot
  threads : ∀ t, s'.thStates.lookup t = none ↔ s.thStates.lookup t = none
  others : ∀ t, (∀ a, P a → a.level ≠ .loc t) → s'.thStates.lookup t = s.thStates.lookup t

theorem writeMemoryAddr_frame {a : MemAddr v} {val : v} (h : s.writeMemoryAddr a val = .ok s') :
    ThreadFrame (· = a) s s' := by
  unfold ProgState.writeMemoryAddr at h
  split at h
  · obtain ⟨heap, -, h⟩ := bind_eq_ok.1 h
    obtain rfl := Except.ok.inj h
    exact ⟨rfl, rfl, fun _ => .rfl, fun _ _ => rfl⟩
  · next i hi =>
    split at h
    · cases h
    · next th hth =>
      obtain ⟨locals, -, h⟩ := bind_eq_ok.1 h
      obtain rfl := Except.ok.inj h
      refine ⟨rfl, rfl, fun t => ?_, fun t ht => ?_⟩
      · by_cases hti : t = i
        · simp [hti, hth]
        · simp [hti]
      · have hti : t ≠ i := by
          rintro rfl
          exact ht a rfl hi
        simp [hti]

theorem Writes.frame (h : Writes P s s') : ThreadFrame P s s' := by
  induction h with
  | refl => exact ⟨rfl, rfl, fun _ => .rfl, fun _ _ => rfl⟩
  | step _ ha hw ih =>
    have hf := writeMemoryAddr_frame hw
    refine ⟨hf.numTh.trans ih.numTh, hf.isBot.trans ih.isBot,
      fun t => (hf.threads t).trans (ih.threads t), fun t ht => ?_⟩
    exact (hf.others t (by rintro _ rfl; exact ht _ ha)).trans (ih.others t ht)

end Writes

end Poet
