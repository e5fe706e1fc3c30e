import Poet.Domain.Effects
import Poet.Domain.Slots
import Poet.Lib.Simulation

/-!
# A variable that an expression does not mention

Two states that differ only in the cells of a variable `x` of one scope (`Shadowed`) can not be told
apart by an expression without `x`: the transformer finds the same addresses and the same values and
leaves two states that again differ only there. The cells of `x` themselves stay as they are, unless
a thread is created, which the thread counter shows, or the expression blocks in both states.
-/

namespace Poet

/-- The identifier stands somewhere in the expression. -/
def Mentions (x : SymId) : SExpression → Prop
  | .assign _ lhs rhs => Mentions x lhs ∨ Mentions x rhs
  | .binary _ lhs rhs => Mentions x lhs ∨ Mentions x rhs
  | .call fn args => Mentions x fn ∨ MentionsAny args
  | .cast e => Mentions x e
  | .cond c mThen els => Mentions x c ∨ (match mThen with
    | some e => Mentions x e
    | none => False) ∨ Mentions x els
  | .const _ => False
  | .index arr idx => Mentions x arr ∨ Mentions x idx
  | .skip => False
  | .unary _ e => Mentions x e
  | .var id => id = x
  | .unsupported _ => False
where
  MentionsAny : List SExpression → Prop
  | [] => False
  | e :: es => Mentions x e ∨ MentionsAny es

/-! ## States that differ in one variable -/

section Shadowed

variable {v : Type}

/-- `s'` is `s` with other cells for `b`. -/
structure Shadowed (b : MemAddrBase) (s s' : ProgState v) : Prop where
  slot : ∀ scope k, ¬ (scope = b.level ∧ k = b) → s.slot scope k = s'.slot scope k
  position : ∀ t, s.position t = s'.position t
  numTh : s.numTh = s'.numTh
  isBot : s.isBot = s'.isBot
  ordered : s.MapsOrdered ∧ s'.MapsOrdered

variable {b : MemAddrBase} {s s' : ProgState v} {id : SymId}

theorem ProgState.SetSlot.shadowed {offs : Offs v} (h : s.SetSlot b offs s') (hs : s.MapsOrdered)
    (hs' : s'.MapsOrdered) : Shadowed b s s' :=
  ⟨fun scope k hk => by rw [h.slot, if_neg hk], fun t => (h.position t).symm, h.numTh.symm,
    h.isBot.symm, hs, hs'⟩

theorem Shadowed.symm (h : Shadowed b s s') : Shadowed b s' s :=
  ⟨fun scope k hk => (h.slot scope k hk).symm, fun t => (h.position t).symm, h.numTh.symm,
    h.isBot.symm, h.ordered.symm⟩

theorem Shadowed.trans {s'' : ProgState v} (h : Shadowed b s s') (h' : Shadowed b s' s'') :
    Shadowed b s s'' :=
  ⟨fun scope k hk => (h.slot scope k hk).trans (h'.slot scope k hk),
    fun t => (h.position t).trans (h'.position t), h.numTh.trans h'.numTh, h.isBot.trans h'.isBot,
    h.ordered.1, h'.ordered.2⟩

theorem Shadowed.eq (h : Shadowed b s s') (hb : s.slot b.level b = s'.slot b.level b) : s = s' := by
  refine h.ordered.1.ext h.ordered.2 (fun scope k => ?_) h.position h.numTh h.isBot
  by_cases hk : scope = b.level ∧ k = b
  · obtain ⟨rfl, rfl⟩ := hk
    exact hb
  · exact h.slot scope k hk

theorem Shadowed.lookup_heap (h : Shadowed b s s') {k : MemAddrBase} (hk : k.base ≠ b.base) :
    s.heap.lookup k = s'.heap.lookup k :=
  h.slot .glob k fun hc => hk (hc.2 ▸ rfl)

/-- The same threads, with the same locals but for `b`. -/
theorem Shadowed.thread (h : Shadowed b s s') (i : TId) :
    (s.thStates.lookup i = none ∧ s'.thStates.lookup i = none) ∨
      ∃ th th', s.thStates.lookup i = some th ∧ s'.thStates.lookup i = some th' ∧
        th.thPos = th'.thPos ∧ th.thCfgId = th'.thCfgId ∧
        ∀ k : MemAddrBase, k.base ≠ b.base → th.thLocals.lookup k = th'.thLocals.lookup k := by
  have hp := h.position i
  simp only [ProgState.position] at hp
  cases ht : s.thStates.lookup i with
  | none =>
    cases ht' : s'.thStates.lookup i with
    | none => exact .inl ⟨rfl, rfl⟩
    | some th' => simp [ht, ht'] at hp
  | some th =>
    cases ht' : s'.thStates.lookup i with
    | none => simp [ht, ht'] at hp
    | some th' =>
      obtain ⟨hpos, hcfg⟩ : th.thPos = th'.thPos ∧ th.thCfgId = th'.thCfgId := by
        simpa [ht, ht'] using hp
      refine .inr ⟨th, th', rfl, rfl, hpos, hcfg, fun k hk => ?_⟩
      have hs := h.slot (.loc i) k fun hc => hk (hc.2 ▸ rfl)
      simpa [ProgState.slot, ht, ht'] using hs

theorem Shadowed.getAddrsGlobal (h : Shadowed b s s') {k : MemAddrBase} (hk : k.base ≠ b.base) :
    s.getAddrsGlobal k = s'.getAddrsGlobal k := by
  simp only [ProgState.getAddrsGlobal, ProgState.getAddrsMemory, h.lookup_heap hk]

theorem Shadowed.getAddrs (h : Shadowed b s s') (hid : id ≠ b.base) (scope : Scope) :
    s.getAddrs ⟨id, scope⟩ = s'.getAddrs ⟨id, scope⟩ := by
  have hglob := h.getAddrsGlobal (k := ⟨id, .glob⟩) hid
  cases scope with
  | glob => exact hglob
  | loc i =>
    rcases h.thread i with ⟨ht, ht'⟩ | ⟨th, th', ht, ht', -, -, hl⟩
    · simp [ProgState.getAddrs, ht, ht']
    · have hlook := hl ⟨id, .loc i⟩ hid
      simp only [ProgState.getAddrs, ht, ht', ProgState.getAddrsMemory, hlook]
      cases th'.thLocals.lookup ⟨id, .loc i⟩ with
      | none => exact hglob
      | some offs => rfl

theorem Shadowed.hasExited (h : Shadowed b s s') (cfgs : List (SymId × Graph)) (tid : TId) :
    hasExited cfgs s tid = hasExited cfgs s' tid := by
  rcases h.thread tid with ⟨ht, ht'⟩ | ⟨th, th', ht, ht', hpos, hcfg, -⟩
  · simp [Poet.hasExited, ht, ht']
  · simp only [Poet.hasExited, ht, ht', hpos, hcfg]

section Read

variable [Region v]

theorem Shadowed.readMemoryGlobal (h : Shadowed b s s') {a : MemAddr v} (ha : a.base ≠ b.base) :
    s.readMemoryGlobal a = s'.readMemoryGlobal a := by
  have hlook := h.lookup_heap (k := (fromAddr a).1) ha
  simp only [ProgState.readMemoryGlobal, ProgState.readAddrFromRegion, hlook]

theorem Shadowed.readMemoryAddr (h : Shadowed b s s') {a : MemAddr v} (ha : a.base ≠ b.base) :
    s.readMemoryAddr a = s'.readMemoryAddr a := by
  have hglob := h.readMemoryGlobal ha
  have hglob' := h.readMemoryGlobal (a := { a with level := .glob }) ha
  unfold ProgState.readMemoryAddr
  split
  · exact hglob
  · next i hi =>
    rcases h.thread i with ⟨ht, ht'⟩ | ⟨th, th', ht, ht', -, -, hl⟩
    · simp only [ht, ht']
    · have hlook := hl (fromAddr a).1 ha
      simp only [ht, ht', ProgState.readAddrFromRegion, hlook, hglob']

theorem Shadowed.readMemory (h : Shadowed b s s') {addrs : MemAddrs v}
    (ha : ∀ a ∈ addrs, a.base ≠ b.base) : s.readMemory addrs = s'.readMemory addrs := by
  cases addrs with
  | top => rfl
  | addrs l =>
    show l.mapM' s.readMemoryAddr = l.mapM' s'.readMemoryAddr
    induction l with
    | nil => rfl
    | cons a l ih =>
      rw [List.mapM'_cons, List.mapM'_cons, h.readMemoryAddr (ha a List.mem_cons_self),
        ih fun c hc => ha c (List.mem_cons_of_mem _ hc)]

end Read

section Write

variable [DecidableEq v] [OrdKey v] [Region v] {s₁ s₁' : ProgState v} {val : v}

theorem Shadowed.writeMemoryAddr (h : Shadowed b s s') {a : MemAddr v} (ha : a.base ≠ b.base)
    (hw : s.writeMemoryAddr a val = .ok s₁) (hw' : s'.writeMemoryAddr a val = .ok s₁') :
    Shadowed b s₁ s₁' := by
  obtain ⟨offs, ho, hset⟩ := ProgState.writeMemoryAddr_setSlot hw
  obtain ⟨offs', ho', hset'⟩ := ProgState.writeMemoryAddr_setSlot hw'
  have hold : s.slot a.level ⟨a.base, a.level⟩ = s'.slot a.level ⟨a.base, a.level⟩ :=
    h.slot _ _ fun hc => ha (congrArg MemAddrBase.base hc.2)
  obtain rfl : offs = offs' := by
    rw [hold, ho'] at ho
    exact (Except.ok.inj ho).symm
  refine ⟨fun scope k hk => ?_, fun t => ?_, ?_, ?_, h.ordered.1.writeMemoryAddr hw,
    h.ordered.2.writeMemoryAddr hw'⟩
  · rw [hset.slot, hset'.slot]
    split
    · rfl
    · exact h.slot scope k hk
  · rw [hset.position, hset'.position, h.position]
  · rw [hset.numTh, hset'.numTh, h.numTh]
  · rw [hset.isBot, hset'.isBot, h.isBot]

theorem Shadowed.writeMemory (h : Shadowed b s s') {addrs : MemAddrs v}
    (ha : ∀ a ∈ addrs, a.base ≠ b.base) (hw : s.writeMemory addrs val = .ok s₁)
    (hw' : s'.writeMemory addrs val = .ok s₁') : Shadowed b s₁ s₁' := by
  cases addrs with
  | top => cases hw
  | addrs l =>
    induction l generalizing s₁ s₁' with
    | nil =>
      obtain rfl := Except.ok.inj hw
      obtain rfl := Except.ok.inj hw'
      exact h
    | cons a l ih =>
      obtain ⟨s₂, h₂, hw⟩ := bind_eq_ok.1 hw
      obtain ⟨s₂', h₂', hw'⟩ := bind_eq_ok.1 hw'
      have hmid := ih (fun c hc => ha c (List.mem_cons_of_mem _ hc)) h₂ h₂'
      exact hmid.writeMemoryAddr (ha a List.mem_cons_self) hw hw'

end Write

end Shadowed

/-! ## The cells of the variable -/

section Coupled

variable {v : Type}

/-- `s` has the cells `o` and `s'` the cells `offs` at `b`, or there are more than `n` threads. -/
def CellsKept (b : MemAddrBase) (o : Option (Offs v)) (offs : Offs v) (n : Int) (s s' : ProgState v) :
    Prop :=
  (s.slot b.level b = o ∧ s'.slot b.level b = some offs ∧ s.numTh = n) ∨ n < s.numTh

/-- The states of two evaluations, one of which started with `o` and one with `offs` at `b`. -/
structure Coupled (b : MemAddrBase) (o : Option (Offs v)) (offs : Offs v) (n : Int)
    (s s' : ProgState v) : Prop where
  shadowed : Shadowed b s s'
  kept : CellsKept b o offs n s s' ∨ s = ProgState.bot ∧ s' = ProgState.bot

variable {b : MemAddrBase} {o : Option (Offs v)} {offs : Offs v} {n : Int} {s s' s₁ s₁' : ProgState v}

theorem coupled_bot : Coupled b o offs n (ProgState.bot : ProgState v) ProgState.bot :=
  ⟨⟨fun _ _ _ => rfl, fun _ => rfl, rfl, rfl, ProgState.mapsOrdered_bot,
    ProgState.mapsOrdered_bot⟩, .inr ⟨rfl, rfl⟩⟩

variable [DecidableEq v] [ToValue v] [OrdKey v] [Region v] [TransValue v]

/-- Nothing is found where there is nothing. -/
theorem getAddrsExpr_empty [SimpleC] {st : ProgState v} (hheap : st.heap = .empty)
    (hthreads : st.thStates = .empty) {scope : Scope} :
    ∀ {e : SExpression} {addrs : MemAddrs v}, getAddrsExpr e st scope ≠ .ok addrs
  | .var id, addrs, h => by
    cases scope <;>
      simp [getAddrsExpr, ProgState.getAddrs, ProgState.getAddrsGlobal, ProgState.getAddrsMemory,
        hheap, hthreads] at h
  | .unary op e, addrs, h => by
    cases op with
    | adr => exact getAddrsExpr_empty hheap hthreads (e := e) h
    | _ => cases h
  | .index lhs rhs, addrs, h => by
    obtain ⟨as, has, -⟩ := bind_eq_ok.1 h
    exact getAddrsExpr_empty hheap hthreads has
  | .assign _ _ _, _, h | .binary _ _ _, _, h | .call _ _, _, h | .cast _, _, h | .cond _ _ _, _, h
  | .const _, _, h | .skip, _, h | .unsupported _, _, h => by cases h

omit [ToValue v] [TransValue v] in
/-- A write to other variables. -/
theorem CellsKept.writeMemory (h : CellsKept b o offs n s s') {addrs : MemAddrs v} {val : v}
    (ha : ∀ a ∈ addrs, a.base ≠ b.base) (hw : s.writeMemory addrs val = .ok s₁)
    (hw' : s'.writeMemory addrs val = .ok s₁') : CellsKept b o offs n s₁ s₁' := by
  have hnum : s₁.numTh = s.numTh := (writes_of_writeMemory hw).frame.numTh
  cases addrs with
  | top => cases hw
  | addrs l =>
    have hk : ∀ a ∈ l, b ≠ ⟨a.base, a.level⟩ := fun a hal heq => ha a hal (heq ▸ rfl)
    rw [CellsKept, ProgState.writeMemory_slot hw hk, ProgState.writeMemory_slot hw' hk, hnum]
    exact h

end Coupled

/-! ## The transformer -/

section Transformer

variable {v : Type} {b : MemAddrBase} {o : Option (Offs v)} {offs : Offs v} {n : Int}

/-- The two evaluations are in the scope of `b`. -/
structure TCoupled (b : MemAddrBase) (o : Option (Offs v)) (offs : Offs v) (n : Int)
    (t t' : TState v) : Prop where
  scope : t.scope = b.level
  scope' : t'.scope = b.level
  sym : t.sym = t'.sym
  cfgs : t.cfgs = t'.cfgs
  st : Coupled b o offs n t.st t'.st

/-- The values are the same, if both can be looked at. -/
def SameVal (r r' : ValAct v) : Prop := ∀ u w, r.1 = .ok u → r'.1 = .ok w → u = w

/-- The two evaluations go the same way. -/
abbrev Follows (b : MemAddrBase) (o : Option (Offs v)) (offs : Offs v) (n : Int)
    (op : TOp v (ValAct v)) : Prop := Op.Sim (TCoupled b o offs n) SameVal op op

/-- Both evaluations find the same addresses, none of which is at `b`, and none in an empty state. -/
structure FindsSame (b : MemAddrBase) (o : Option (Offs v)) (offs : Offs v) (n : Int)
    (A : AddrsOf v) : Prop where
  same : ∀ {s s' as as'}, Coupled b o offs n s s' → A s b.level = .ok as →
    A s' b.level = .ok as' → as = as' ∧ ∀ a ∈ as, a.base ≠ b.base
  empty : ∀ {s : ProgState v} {scope as}, s.heap = .empty → s.thStates = .empty → A s scope ≠ .ok as

/-- If an address is found, the evaluations have not blocked. -/
theorem FindsSame.kept {A : AddrsOf v} (hA : FindsSame b o offs n A) {s s' : ProgState v}
    (h : Coupled b o offs n s s') {scope : Scope} {as : MemAddrs v} (has : A s scope = .ok as) :
    CellsKept b o offs n s s' := by
  rcases h.kept with hk | ⟨rfl, -⟩
  · exact hk
  · exact absurd has (hA.empty rfl rfl)

theorem SameVal.map₂ {r₁ r₁' r₂ r₂' : ValAct v} (h₁ : SameVal r₁ r₁') (h₂ : SameVal r₂ r₂')
    (f : v → v → Except DomErr v) (a a' : Act v) :
    SameVal (do f (← r₁.1) (← r₂.1), a) (do f (← r₁'.1) (← r₂'.1), a') := by
  intro u w hu hw
  obtain ⟨x, hx, hu⟩ := bind_eq_ok.1 hu
  obtain ⟨y, hy, hu⟩ := bind_eq_ok.1 hu
  obtain ⟨x', hx', hw⟩ := bind_eq_ok.1 hw
  obtain ⟨y', hy', hw⟩ := bind_eq_ok.1 hw
  obtain rfl := h₁ x x' hx hx'
  obtain rfl := h₂ y y' hy hy'
  exact Except.ok.inj (hu.symm.trans hw)

theorem sameVal_of_eq {l l' : LazyVal v} (h : l = l') (a a' : Act v) : SameVal (l, a) (l', a') := by
  subst h
  intro u w hu hw
  exact Except.ok.inj (hu.symm.trans hw)

/-- The state of the evaluation is replaced in both. -/
theorem sim_setState {s s' : ProgState v} (h : Coupled b o offs n s s') :
    Op.Sim (TCoupled b o offs n) (fun _ _ => True) (setState s) (setState s') :=
  Op.sim_modify fun _ _ ht => ⟨ht.scope, ht.scope', ht.sym, ht.cfgs, h⟩

theorem follows_pure {l : LazyVal v} {a : Act v} :
    Follows b o offs n (pure (l, a) : TOp v (ValAct v)) :=
  Op.sim_pure (sameVal_of_eq rfl a a)

/-- Both evaluations look for an address. -/
theorem FindsSame.sim {A : AddrsOf v} (hA : FindsSame b o offs n A) {t t' : TState v}
    (ht : TCoupled b o offs n t t') :
    Op.Sim (TCoupled b o offs n) (fun as as' => as = as' ∧ A t.st t.scope = .ok as ∧
      ∀ a ∈ as, a.base ≠ b.base) (monadLift (A t.st t.scope) : TOp v (MemAddrs v))
      (monadLift (A t'.st t'.scope)) := by
  refine Op.sim_monadLift fun as as' has has' => ?_
  obtain ⟨rfl, hb⟩ := hA.same ht.st (ht.scope ▸ has) (ht.scope' ▸ has')
  exact ⟨rfl, has, hb⟩

theorem follows_argOp {ops : List (TOp v (ValAct v))} (h : ∀ op ∈ ops, Follows b o offs n op)
    (k : Nat) : Follows b o offs n (argOp ops k) := by
  refine Op.sim_bind (Q := fun op op' => op = op' ∧ op ∈ ops)
    (Op.sim_monadLift fun op op' hop hop' => ?_) ?_
  · obtain rfl := Except.ok.inj (hop.symm.trans hop')
    exact ⟨rfl, List.mem_of_getElem? (nthArg_eq_ok.1 hop)⟩
  · rintro op _ ⟨rfl, hop⟩
    exact h op hop

theorem findsSame_argAddrs {addrs : List (AddrsOf v)} (h : ∀ A ∈ addrs, FindsSame b o offs n A)
    (k : Nat) : FindsSame b o offs n (argAddrs addrs k) where
  same hlink has has' := by
    obtain ⟨A, hA, has⟩ := bind_eq_ok.1 has
    obtain ⟨A', hA', has'⟩ := bind_eq_ok.1 has'
    obtain rfl := Except.ok.inj (hA.symm.trans hA')
    exact (h A (List.mem_of_getElem? (nthArg_eq_ok.1 hA))).same hlink has has'
  empty hheap hthreads has := by
    obtain ⟨A, hA, has⟩ := bind_eq_ok.1 has
    exact (h A (List.mem_of_getElem? (nthArg_eq_ok.1 hA))).empty hheap hthreads has

theorem sim_same {α : Type} {x : Except DomErr α} :
    Op.Sim (TCoupled b o offs n) Eq (monadLift x : TOp v α) (monadLift x) :=
  Op.sim_monadLift fun _ _ h h' => Except.ok.inj (h.symm.trans h')

theorem TCoupled.tables {t t' : TState v} (ht : TCoupled b o offs n t t') : tables t = tables t' := by
  simp only [Poet.tables, ht.sym, ht.cfgs]

theorem Shadowed.insertThread {s s' : ProgState v} (h : Shadowed b s s') (tid : TId) {th : ThState v}
    (hth : th.thLocals.Ordered) : Shadowed b (s.insertThread tid th) (s'.insertThread tid th) := by
  refine ⟨fun scope k hk => ?_, fun t => ?_, h.numTh, h.isBot, h.ordered.1.insertThread hth,
    h.ordered.2.insertThread hth⟩
  · have hold := h.slot scope k hk
    cases scope with
    | glob => exact hold
    | loc i =>
      by_cases hi : i = tid
      · simp [ProgState.slot, ProgState.insertThread, hi]
      · simpa [ProgState.slot, ProgState.insertThread, hi] using hold
  · have hold := h.position t
    by_cases ht : t = tid
    · simp [ProgState.position, ProgState.insertThread, ht]
    · simpa [ProgState.position, ProgState.insertThread, ht] using hold

/-- A new thread is counted before its address is looked for. -/
theorem Coupled.incNumTh {s s' : ProgState v} (h : Coupled b o offs n s s')
    (hlive : CellsKept b o offs n s s') :
    Coupled b o offs n s.incNumTh.2 s'.incNumTh.2 ∧ n < s.incNumTh.2.numTh := by
  have hgrown : n < s.incNumTh.2.numTh := by
    show n < s.numTh + 1
    rcases hlive with ⟨-, -, hn⟩ | hn <;> omega
  have hord : ∀ {st : ProgState v}, st.MapsOrdered → st.incNumTh.2.MapsOrdered := fun hst =>
    ⟨hst.heap, hst.threads, hst.locals⟩
  refine ⟨⟨⟨h.shadowed.slot, h.shadowed.position, ?_, h.shadowed.isBot,
    hord h.shadowed.ordered.1, hord h.shadowed.ordered.2⟩, .inl (.inr hgrown)⟩, hgrown⟩
  show s.numTh + 1 = s'.numTh + 1
  rw [h.shadowed.numTh]

theorem findsSame_fail (e : DomErr) :
    FindsSame b o offs n (fun _ _ => .error e : AddrsOf v) :=
  ⟨fun _ h => by (cases h), fun _ _ h => by (cases h)⟩

variable [TransValue v]

theorem follows_minus {e : TOp v (ValAct v)} (he : Follows b o offs n e) :
    Follows b o offs n (minusTransformer e) := by
  refine Op.sim_bind he fun r r' hr => Op.sim_pure fun u w hu hw => ?_
  obtain ⟨x, hx, hu⟩ := bind_eq_ok.1 hu
  obtain ⟨x', hx', hw⟩ := bind_eq_ok.1 hw
  obtain rfl := hr x x' hx hx'
  exact Except.ok.inj (hu.symm.trans hw)

theorem follows_threadArg {arg : TOp v (ValAct v)} (h : Follows b o offs n arg) :
    Follows b o offs n (threadArgOp arg) := by
  unfold threadArgOp
  split
  · exact h
  · exact follows_pure

variable [DecidableEq v]

theorem follows_binop (op : BinaryOp) {lhs rhs : TOp v (ValAct v)} (hl : Follows b o offs n lhs)
    (hr : Follows b o offs n rhs) : Follows b o offs n (binopTransformer op lhs rhs) := by
  refine Op.sim_bind hl fun l l' hl' => Op.sim_bind hr fun r r' hr' => Op.sim_pure ?_
  exact hl'.map₂ hr' _ _ _

theorem follows_nondet {lower upper : TOp v (ValAct v)} (hl : Follows b o offs n lower)
    (hu : Follows b o offs n upper) : Follows b o offs n (nondetTransformer lower upper) := by
  unfold nondetTransformer
  split
  · exact Op.sim_fail
  · refine Op.sim_bind hl fun l l' hl' => Op.sim_bind hu fun u u' hu' => Op.sim_pure ?_
    exact hl'.map₂ hu' _ _ _

variable [ToValue v] [OrdKey v] [Region v]

omit [TransValue v] [ToValue v] in
theorem FindsSame.write {A : AddrsOf v} (hA : FindsSame b o offs n A) {s s' s₁ s₁' : ProgState v}
    (h : Coupled b o offs n s s') {scope : Scope} {as : MemAddrs v} {val : v}
    (has : A s scope = .ok as) (hb : ∀ a ∈ as, a.base ≠ b.base)
    (hw : s.writeMemory as val = .ok s₁) (hw' : s'.writeMemory as val = .ok s₁') :
    Coupled b o offs n s₁ s₁' :=
  ⟨h.shadowed.writeMemory hb hw hw', .inl ((hA.kept h has).writeMemory hb hw hw')⟩

omit [TransValue v] [ToValue v] in
/-- Both evaluations store a value there. -/
theorem FindsSame.sim_store {A : AddrsOf v} (hA : FindsSame b o offs n A) {t t' : TState v}
    (ht : TCoupled b o offs n t t') {as : MemAddrs v} (has : A t.st t.scope = .ok as)
    (hb : ∀ a ∈ as, a.base ≠ b.base) (val : v) (l : LazyVal v) (a a' : Act v) :
    Op.Sim (TCoupled b o offs n) SameVal
      (do
        let resSt ← t.st.writeMemory as val
        setState resSt
        return (l, a) : TOp v (ValAct v))
      (do
        let resSt ← t'.st.writeMemory as val
        setState resSt
        return (l, a')) := by
  refine Op.sim_bind (Op.sim_monadLift fun s₁ s₁' hw hw' => hA.write ht.st has hb hw hw') ?_
  intro s₁ s₁' hlink
  refine Op.sim_bind (sim_setState hlink) fun _ _ _ => ?_
  exact Op.sim_pure (sameVal_of_eq rfl a a')

omit [DecidableEq v] [ToValue v] [OrdKey v] in
theorem follows_var {id : SymId} (hid : id ≠ b.base) :
    Follows b o offs n (varTransformer id : TOp v (ValAct v)) := by
  refine Op.sim_bind Op.sim_get fun t t' ht => ?_
  have haddrs := ht.st.shadowed.getAddrs hid t.scope
  refine Op.sim_bind (Q := fun A A' => A = A' ∧ ∀ a ∈ A, a.base ≠ b.base)
    (Op.sim_monadLift fun A A' hA hA' => ?_) ?_
  · rw [ht.scope', ← ht.scope, ← haddrs] at hA'
    obtain rfl := Except.ok.inj (hA.symm.trans hA')
    obtain ⟨l, rfl, hl⟩ := mem_getAddrs hA
    exact ⟨rfl, fun a ha => (hl a ha).1 ▸ hid⟩
  · rintro A _ ⟨rfl, hA⟩
    refine Op.sim_pure (sameVal_of_eq ?_ _ _)
    rw [ht.st.shadowed.readMemory hA]

omit [ToValue v] [OrdKey v] in
theorem follows_index {A : AddrsOf v} {idx : TOp v (ValAct v)} (hA : FindsSame b o offs n A)
    (hidx : Follows b o offs n idx) : Follows b o offs n (indexTransformer A idx) := by
  refine Op.sim_bind Op.sim_get fun t t' ht => ?_
  refine Op.sim_bind (hA.sim ht) ?_
  rintro as _ ⟨rfl, -, hb⟩
  cases as with
  | top => exact Op.sim_fail
  | addrs l =>
    refine Op.sim_bind hidx fun r r' hr => ?_
    refine Op.sim_bind (Op.sim_monadLift fun u w hu hw => hr u w hu hw) ?_
    rintro off _ rfl
    have hb' : ∀ a ∈ MemAddrs.addrs (l.map (setOffset · off)).eraseDups, a.base ≠ b.base := by
      intro a ha
      obtain ⟨c, hc, rfl⟩ := List.mem_map.1 (List.mem_eraseDups.1 ha)
      exact hb c hc
    refine Op.sim_pure (sameVal_of_eq ?_ _ _)
    rw [ht.st.shadowed.readMemory hb']

omit [ToValue v] in
theorem follows_assign (op : AssignOp) {lhs rhs : TOp v (ValAct v)} {A : AddrsOf v}
    (hl : Follows b o offs n lhs) (hr : Follows b o offs n rhs) (hA : FindsSame b o offs n A) :
    Follows b o offs n (assignTransformer op lhs rhs A) := by
  refine Op.sim_bind hl fun l l' hl' => Op.sim_bind hr fun r r' hr' => ?_
  refine Op.sim_bind Op.sim_get fun t t' ht => ?_
  refine Op.sim_bind (hA.sim ht) ?_
  rintro as _ ⟨rfl, has, hb⟩
  refine Op.sim_bind (Q := Eq) (Op.sim_monadLift fun u w hu hw => ?_) ?_
  · cases op with
    | assign => exact hr' u w hu hw
    | _ => exact hl'.map₂ hr' _ Act.bot Act.bot u w hu hw
  rintro u _ rfl
  exact hA.sim_store ht has hb u _ _ _

/-! ## Calls -/

theorem follows_lock {A : AddrsOf v} (hA : FindsSame b o offs n A) :
    Follows b o offs n (lockTransformer A) := by
  refine Op.sim_bind Op.sim_get fun t t' ht => ?_
  refine Op.sim_bind (Q := Eq) (Op.sim_monadLift fun locked locked' hlk hlk' => ?_) ?_
  · obtain ⟨as, x, has, hx, rfl⟩ := isLocked_eq_ok hlk
    obtain ⟨as', x', has', hx', rfl⟩ := isLocked_eq_ok hlk'
    obtain ⟨rfl, hb⟩ := hA.same ht.st (ht.scope ▸ has) (ht.scope' ▸ has')
    rw [← ht.st.shadowed.readMemory hb, hx] at hx'
    obtain rfl : x = x' := by simpa using hx'
    rfl
  · rintro locked _ rfl
    cases locked with
    | true =>
      refine Op.sim_bind (sim_setState coupled_bot) fun _ _ _ => ?_
      exact follows_pure
    | false =>
      refine Op.sim_bind (hA.sim ht) ?_
      rintro as _ ⟨rfl, has, hb⟩
      exact hA.sim_store ht has hb _ _ _ _

omit [TransValue v] in
theorem follows_reset {A : AddrsOf v} (hA : FindsSame b o offs n A) (actOf : MemAddrs v → Act v) :
    Follows b o offs n (resetTransformer A actOf) := by
  refine Op.sim_bind Op.sim_get fun t t' ht => ?_
  refine Op.sim_bind (hA.sim ht) ?_
  rintro as _ ⟨rfl, has, hb⟩
  exact hA.sim_store ht has hb _ _ _ _

omit [DecidableEq v] [OrdKey v] in
theorem follows_join {A : AddrsOf v} (hA : FindsSame b o offs n A) :
    Follows b o offs n (joinTransformer A) := by
  refine Op.sim_bind Op.sim_get fun t t' ht => ?_
  refine Op.sim_bind (Q := Eq) (Op.sim_monadLift fun tid tid' htid htid' => ?_) ?_
  · obtain ⟨as, has, htid⟩ := bind_eq_ok.1 htid
    obtain ⟨vals, hvals, htid⟩ := bind_eq_ok.1 htid
    obtain ⟨as', has', htid'⟩ := bind_eq_ok.1 htid'
    obtain ⟨vals', hvals', htid'⟩ := bind_eq_ok.1 htid'
    obtain ⟨rfl, hb⟩ := hA.same ht.st (ht.scope ▸ has) (ht.scope' ▸ has')
    rw [← ht.st.shadowed.readMemory hb, hvals] at hvals'
    obtain rfl := Except.ok.inj hvals'
    exact Except.ok.inj (htid.symm.trans htid')
  rintro tid _ rfl
  refine Op.sim_bind (Q := Eq) (Op.sim_monadLift fun tabs tabs' htabs htabs' => ?_) ?_
  · have heq : tables t = tables t' := by simp only [tables, ht.sym, ht.cfgs]
    rw [heq] at htabs
    exact Except.ok.inj (htabs.symm.trans htabs')
  rintro tabs _ rfl
  refine Op.sim_bind (Q := Eq) (Op.sim_monadLift fun x x' hx hx' => ?_) ?_
  · rw [ht.st.shadowed.hasExited] at hx
    exact Except.ok.inj (hx.symm.trans hx')
  rintro exited _ rfl
  cases exited with
  | true => exact follows_pure
  | false =>
    refine Op.sim_bind (sim_setState coupled_bot) fun _ _ _ => ?_
    exact follows_pure

/-- The argument of a new thread is the same. -/
theorem SameVal.threadLocals {r r' : ValAct v} (h : SameVal r r') {tid : TId}
    {cfgs : List (SymId × Graph)} {cfgSym : SymId} {locals locals' : Memory v}
    (hl : threadLocals tid cfgs cfgSym r.1 = .ok locals)
    (hl' : threadLocals tid cfgs cfgSym r'.1 = .ok locals') : locals = locals' := by
  unfold Poet.threadLocals at hl hl'
  split at hl
  · next harg =>
    rw [if_pos harg] at hl'
    cases hcfg : cfgs.lookup cfgSym with
    | none => simp [hcfg] at hl
    | some cfg =>
      simp only [hcfg] at hl hl'
      obtain ⟨u, hu, hl⟩ := bind_eq_ok.1 hl
      obtain ⟨w, hw, hl'⟩ := bind_eq_ok.1 hl'
      obtain rfl := h u w hu hw
      exact Except.ok.inj (hl.symm.trans hl')
  · next harg =>
    rw [if_neg harg] at hl'
    exact Except.ok.inj (hl.symm.trans hl')

theorem threadLocals_ordered {tid : TId} {cfgs : List (SymId × Graph)} {cfgSym : SymId}
    {l : LazyVal v} {locals : Memory v} (h : threadLocals tid cfgs cfgSym l = .ok locals) :
    locals.Ordered := by
  unfold threadLocals at h
  split at h
  · split at h
    · cases h
    · obtain ⟨u, -, h⟩ := bind_eq_ok.1 h
      unfold paramLocals at h
      split at h
      · obtain ⟨offs, -, rfl⟩ := ProgState.writeRegionAddr_cell h
        exact OrdMap.ordered_empty.insert _ _
      all_goals cases h
  · obtain rfl := Except.ok.inj h
    exact OrdMap.ordered_empty

theorem follows_create [SimpleC] {A : AddrsOf v} {fn : Except DomErr SExpression} {arg : TOp v (ValAct v)}
    (hA : FindsSame b o offs n A) (harg : Follows b o offs n arg) :
    Follows b o offs n (createTransformer A fn arg) := by
  refine Op.sim_bind (follows_threadArg harg) fun r r' hr => ?_
  refine Op.sim_bind Op.sim_get fun t t' ht => ?_
  have hnum : t'.st.numTh + 1 = t.st.numTh + 1 := by rw [ht.st.shadowed.numTh]
  -- the address is not found in the bottom state
  refine Op.sim_bind (Q := fun as as' => as = as' ∧ (∀ a ∈ as, a.base ≠ b.base) ∧
      CellsKept b o offs n t.st t'.st) (Op.sim_monadLift fun as as' has has' => ?_) ?_
  · rcases ht.st.kept with hk | ⟨hs, -⟩
    · obtain ⟨rfl, hb⟩ := hA.same (ht.st.incNumTh hk).1 (ht.scope ▸ has) (ht.scope' ▸ has')
      exact ⟨rfl, hb, hk⟩
    · refine absurd has (hA.empty ?_ ?_)
      · show t.st.heap = _
        rw [hs]
        rfl
      · show t.st.thStates = _
        rw [hs]
        rfl
  rintro as _ ⟨rfl, hb, hk⟩
  obtain ⟨hlink, hgrown⟩ := ht.st.incNumTh hk
  refine Op.sim_bind (Q := fun s₁ s₁' => Shadowed b s₁ s₁' ∧ n < s₁.numTh)
    (Op.sim_monadLift fun s₁ s₁' hw hw' => ?_) ?_
  · have hval : (TransValue.tidVal (t'.st.numTh + 1) : v) = TransValue.tidVal (t.st.numTh + 1) := by
      rw [hnum]
    rw [hval] at hw'
    refine ⟨hlink.shadowed.writeMemory hb hw hw', ?_⟩
    rw [(writes_of_writeMemory hw).frame.numTh]
    exact hgrown
  rintro s₁ s₁' ⟨hsh, hnum₁⟩
  refine Op.sim_bind sim_same ?_
  rintro e _ rfl
  refine Op.sim_bind sim_same ?_
  rintro thSym _ rfl
  rw [← ht.tables]
  refine Op.sim_bind sim_same ?_
  rintro ⟨sym, cfgs⟩ _ rfl
  refine Op.sim_bind sim_same ?_
  rintro name _ rfl
  refine Op.sim_bind sim_same ?_
  rintro ⟨thPos, cfgSym⟩ _ rfl
  refine Op.sim_bind (Q := fun l l' => l = l' ∧ l.Ordered)
    (Op.sim_monadLift fun l l' hl hl' => ?_) ?_
  · rw [hnum] at hl'
    exact ⟨hr.threadLocals hl hl', threadLocals_ordered hl⟩
  rintro locals _ ⟨rfl, hord⟩
  simp only [hnum]
  refine Op.sim_bind (sim_setState ⟨hsh.insertThread _ hord, .inl (.inr hnum₁)⟩) fun _ _ _ => ?_
  exact Op.sim_pure (sameVal_of_eq rfl _ _)

omit [DecidableEq v] [OrdKey v] [Region v] in
theorem follows_exit : Follows b o offs n (exitTransformer : TOp v (ValAct v)) := by
  refine Op.sim_bind Op.sim_get fun t t' ht => ?_
  rw [ht.scope, ht.scope']
  cases b.level with
  | glob => exact Op.sim_fail
  | loc tid => exact follows_pure

omit [TransValue v] [DecidableEq v] [OrdKey v] [Region v] in
theorem follows_error : Follows b o offs n (errorTransformer : TOp v (ValAct v)) := by
  refine Op.sim_bind Op.sim_get fun t t' ht => ?_
  refine Op.sim_bind (Op.sim_modify (R := TCoupled b o offs n)
    fun _ _ h => ⟨h.scope, h.scope', h.sym, h.cfgs, h.st⟩) fun _ _ _ => ?_
  exact follows_pure

theorem follows_callName [SimpleC] (name : CallName) {args : List SExpression} {ops : List (TOp v (ValAct v))}
    {addrs : List (AddrsOf v)} (hops : ∀ op ∈ ops, Follows b o offs n op)
    (haddrs : ∀ A ∈ addrs, FindsSame b o offs n A) :
    Follows b o offs n (callTransformerName name args ops addrs) := by
  cases name with
  | create => exact follows_create (findsSame_argAddrs haddrs 0) (follows_argOp hops 3)
  | join => exact follows_join (findsSame_argAddrs haddrs 0)
  | exit => exact follows_exit
  | lock => exact follows_lock (findsSame_argAddrs haddrs 0)
  | unlock => exact follows_reset (findsSame_argAddrs haddrs 0) _
  | init => exact follows_reset (findsSame_argAddrs haddrs 0) _
  | nondet => exact follows_nondet (follows_argOp hops 0) (follows_argOp hops 1)
  | error => exact follows_error
  | other => exact follows_pure

theorem follows_call [SimpleC] {fn : SExpression} {args : List SExpression} {ops : List (TOp v (ValAct v))}
    {addrs : List (AddrsOf v)} (hops : ∀ op ∈ ops, Follows b o offs n op)
    (haddrs : ∀ A ∈ addrs, FindsSame b o offs n A) :
    Follows b o offs n (callTransformer fn args ops addrs) := by
  cases fn with
  | var ident =>
    refine Op.sim_bind Op.sim_get fun t t' ht => ?_
    rw [← ht.tables]
    refine Op.sim_bind sim_same ?_
    rintro ⟨sym, cfgs⟩ _ rfl
    refine Op.sim_bind sim_same ?_
    rintro name _ rfl
    exact follows_callName _ hops haddrs
  | _ => exact Op.sim_fail

/-! ## Expressions -/

mutual

theorem follows_transformer [SimpleC] : ∀ e : SExpression, ¬ Mentions b.base e →
    Follows b o offs n (transformer e : TOp v (ValAct v))
  | .assign op lhs rhs, h => by
    simp only [Mentions, not_or] at h
    exact follows_assign op (follows_transformer lhs h.1) (follows_transformer rhs h.2)
      (findsSame_getAddrsExpr lhs h.1)
  | .binary op lhs rhs, h => by
    simp only [Mentions, not_or] at h
    exact follows_binop op (follows_transformer lhs h.1) (follows_transformer rhs h.2)
  | .call fn args, h => by
    simp only [Mentions, not_or] at h
    exact follows_call (follows_transformerList args h.2) (findsSame_addrsList args h.2)
  | .cast _, _ => follows_pure
  | .cond _ _ _, _ => Op.sim_fail
  | .const _, _ => follows_pure
  | .index arr idx, h => by
    simp only [Mentions, not_or] at h
    exact follows_index (findsSame_getAddrsExpr arr h.1) (follows_transformer idx h.2)
  | .skip, _ => follows_pure
  | .unary op e, h => by
    have he := follows_transformer e h
    have hincr : ∀ aop, Follows b o offs n (assignTransformer aop (transformer e)
        (constTransformer (.int 1)) (getAddrsExpr e) : TOp v (ValAct v)) := fun aop =>
      follows_assign aop he follows_pure (findsSame_getAddrsExpr e h)
    cases op with
    | preInc =>
      simp only [transformer]
      split
      · exact hincr .add
      · exact Op.sim_fail
    | postInc => exact hincr .add
    | postDec => exact hincr .sub
    | plus => exact he
    | min => exact follows_minus he
    | neg => exact follows_transformerNeg e h
    | preDec => exact Op.sim_fail
    | adr => exact Op.sim_fail
    | ind => exact Op.sim_fail
    | comp => exact Op.sim_fail
  | .var id, h => follows_var h
  | .unsupported _, _ => Op.sim_fail

theorem follows_transformerNeg [SimpleC] : ∀ e : SExpression, ¬ Mentions b.base e →
    Follows b o offs n (transformerNeg e : TOp v (ValAct v))
  | .binary op l r, h => by
    simp only [Mentions, not_or] at h
    have hl := follows_transformer l h.1
    have hr := follows_transformer r h.2
    unfold transformerNeg
    split
    · exact follows_binop _ (follows_transformerNeg l h.1) (follows_transformerNeg r h.2)
    · exact follows_binop _ (follows_transformerNeg l h.1) (follows_transformerNeg r h.2)
    · split
      · exact follows_binop _ hl hr
      · exact Op.sim_fail
  | .unary op e, h => by
    have he := follows_transformer e h
    cases op with
    | neg => exact he
    | _ => exact Op.sim_fail
  | .assign _ _ _, _ | .call _ _, _ | .cast _, _ | .cond _ _ _, _ | .const _, _ | .index _ _, _
  | .skip, _ | .var _, _ | .unsupported _, _ => Op.sim_fail

theorem findsSame_getAddrsExpr [SimpleC] : ∀ e : SExpression, ¬ Mentions b.base e →
    FindsSame b o offs n (getAddrsExpr e : AddrsOf v)
  | .var id, h =>
    ⟨fun {s s' as as'} hlink has has' => by
      have has'' : s.getAddrs ⟨id, b.level⟩ = .ok as' :=
        (hlink.shadowed.getAddrs h b.level).trans has'
      obtain rfl := Except.ok.inj (has.symm.trans has'')
      obtain ⟨l, rfl, hl⟩ := mem_getAddrs has
      exact ⟨rfl, fun a ha => (hl a ha).1 ▸ h⟩,
    fun hheap hthreads => getAddrsExpr_empty hheap hthreads⟩
  | .unary op e, h => by
    cases op with
    | adr => exact findsSame_getAddrsExpr e h
    | _ => exact findsSame_fail _
  | .index lhs rhs, h => by
    simp only [Mentions, not_or] at h
    refine ⟨fun {s s' as as'} hlink has has' => ?_,
      fun hheap hthreads => getAddrsExpr_empty hheap hthreads⟩
    obtain ⟨l, hl, has⟩ := bind_eq_ok.1 has
    obtain ⟨l', hl', has'⟩ := bind_eq_ok.1 has'
    obtain ⟨rfl, hb⟩ := (findsSame_getAddrsExpr lhs h.1).same hlink hl hl'
    obtain ⟨cells, rfl, -⟩ := mem_getAddrsExpr hl
    obtain ⟨⟨val, acts⟩, hidx, has⟩ := bind_eq_ok.1 has
    obtain ⟨⟨val', acts'⟩, hidx', has'⟩ := bind_eq_ok.1 has'
    obtain ⟨off, hoff, has⟩ := bind_eq_ok.1 has
    obtain ⟨off', hoff', has'⟩ := bind_eq_ok.1 has'
    -- the index is evaluated in the two states, and what it does to them is given up
    have hval : SameVal (val, acts) (val', acts') :=
      (follows_transformer rhs h.2 (indexState s b.level) (indexState s' b.level)
        ⟨rfl, rfl, rfl, rfl, hlink⟩ _ _ _ _ (Prod.ext hidx rfl) (Prod.ext hidx' rfl)).1
    obtain rfl := hval off off' hoff hoff'
    obtain rfl := Except.ok.inj has
    obtain rfl := Except.ok.inj has'
    refine ⟨rfl, fun a ha => ?_⟩
    obtain ⟨c, hc, rfl⟩ := List.mem_map.1 (List.mem_eraseDups.1 ha)
    exact hb c hc
  | .assign _ _ _, _ | .binary _ _ _, _ | .call _ _, _ | .cast _, _ | .cond _ _ _, _ | .const _, _
  | .skip, _ | .unsupported _, _ => findsSame_fail _

theorem follows_transformerList [SimpleC] : ∀ es : List SExpression, ¬ Mentions.MentionsAny b.base es →
    ∀ op ∈ (transformerList es : List (TOp v (ValAct v))), Follows b o offs n op
  | [], _ => fun op hop => by cases hop
  | e :: es, h => fun op hop => by
    simp only [Mentions.MentionsAny, not_or] at h
    rcases List.mem_cons.1 hop with rfl | hop
    · exact follows_transformer e h.1
    · exact follows_transformerList es h.2 op hop

theorem findsSame_addrsList [SimpleC] : ∀ es : List SExpression, ¬ Mentions.MentionsAny b.base es →
    ∀ A ∈ (addrsList es : List (AddrsOf v)), FindsSame b o offs n A
  | [], _ => fun A hA => by cases hA
  | e :: es, h => fun A hA => by
    simp only [Mentions.MentionsAny, not_or] at h
    rcases List.mem_cons.1 hA with rfl | hA
    · exact findsSame_getAddrsExpr e h.1
    · exact findsSame_addrsList es h.2 A hA

end

end Transformer

end Poet
