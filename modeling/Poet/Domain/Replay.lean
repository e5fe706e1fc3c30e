import Mathlib.Data.Finset.Dedup
import Poet.Domain.Synchron
import Poet.Lib.Schedule

/-!
# Replaying a poset (`Domain/Synchron.hs`)

Which events `enabled` reports along a run. The invariant of the states is `Marked`: the position of a
thread is behind the last of its events that has been run, and the tokens of an event count its
predecessors that have been run, and one more for the first event of a thread. So `enabled` reports the
events that are ready in the order `Tracked` of the edges that `toFPoset` enters.

This is not the order of the poset. A memory predecessor `(0,0)` is an event, the first one of thread 0,
but is taken for none, and `Tracked` does not have its edges. `enabled_exact_iff` says when that makes
no difference.
-/

namespace Poet

namespace Synchron

variable {α : Type}

/-! ## Posets -/

/-- An event with its memory predecessor, if any. -/
structure MemEvent (α : Type) where
  act : α
  mem : Option (Nat × Nat)
  sidx : Int

section Order

variable (threads : List (List (MemEvent α))) (y x : Nat × Nat)

def ThreadBefore : Prop := (eventAt threads x).isSome ∧ y.1 = x.1 ∧ y.2 + 1 = x.2

def MemBefore : Prop := ∃ e, eventAt threads x = some e ∧ e.mem = some y

/-- `y` is the predecessor of `x` in the thread, or its memory predecessor. -/
def Before : Prop := ThreadBefore threads y x ∨ MemBefore threads y x

/-- The edges that `toFPoset` enters. -/
def Tracked : Prop := ThreadBefore threads y x ∨ MemBefore threads y x ∧ y ≠ (0, 0)

end Order

/-- Threads of events whose memory predecessors are events, without cycles. -/
structure MemPoset (α : Type) where
  threads : List (List (MemEvent α))
  mem_isSome : ∀ y x, MemBefore threads y x → (eventAt threads y).isSome
  acyclic : ∀ x, ¬ Relation.TransGen (Before threads) x x

/-- No memory predecessor is written as `(0,0)`. -/
def MemEvent.toStid (e : MemEvent α) : StidEvent α :=
  ⟨e.act, (e.mem.getD (0, 0)).1, (e.mem.getD (0, 0)).2, e.sidx⟩

namespace MemPoset

/-- The poset as `toPoset` gets it. -/
def stream (P : MemPoset α) : List (List (StidEvent α)) := P.threads.map (·.map MemEvent.toStid)

def events (P : MemPoset α) : Finset (Nat × Nat) :=
  (P.threads.zipIdx.flatMap fun p => (List.range p.1.length).map fun i => (p.2, i)).toFinset

variable {P : MemPoset α} {x y : Nat × Nat}

theorem mem_events : x ∈ P.events ↔ (eventAt P.threads x).isSome := by
  obtain ⟨t, i⟩ := x
  simp only [events, List.mem_toFinset, List.mem_flatMap, List.mem_map, List.mem_range, Prod.exists,
    List.mem_zipIdx_iff_getElem?, Prod.mk.injEq, eventAt]
  constructor
  · rintro ⟨th, t, hth, i, hi, rfl, rfl⟩
    simp [hth, hi]
  · intro h
    cases hth : P.threads[t]? with
    | none => simp [hth] at h
    | some th => exact ⟨th, t, hth, i, by simpa [hth] using h, rfl, rfl⟩

theorem eventAt_stream : eventAt P.stream x = (eventAt P.threads x).map MemEvent.toStid := by
  simp only [stream, eventAt, List.getElem?_map]
  cases P.threads[x.1]? <;> simp

theorem mem_memPreds {e : MemEvent α} :
    y ∈ memPreds e.toStid.evPreMemTid e.toStid.evPreMemIdx ↔ e.mem = some y ∧ y ≠ (0, 0) := by
  unfold memPreds MemEvent.toStid
  cases e.mem with
  | none => simp
  | some z =>
    obtain ⟨t, i⟩ := z
    by_cases hz : t = 0 ∧ i = 0
    · simp [hz]
      grind
    · simp [hz]
      grind

theorem mem_threadPreds : y ∈ threadPreds x ↔ y.1 = x.1 ∧ y.2 + 1 = x.2 := by
  obtain ⟨t, i⟩ := x
  cases i with
  | zero => simp [threadPreds]
  | succ i => simp [threadPreds, Prod.ext_iff]

theorem mem_preds : y ∈ preds P.stream x ↔ Tracked P.threads y x := by
  unfold preds Tracked ThreadBefore MemBefore
  rw [eventAt_stream]
  cases eventAt P.threads x with
  | none => simp
  | some e => simp [mem_threadPreds, mem_memPreds]

theorem memClosed_stream (P : MemPoset α) : MemClosed P.stream := by
  intro x e he y hy
  rw [eventAt_stream, Option.map_eq_some_iff] at he
  obtain ⟨e₀, he₀, rfl⟩ := he
  rw [eventAt_stream, Option.isSome_map]
  exact P.mem_isSome y x ⟨e₀, he₀, (mem_memPreds.1 hy).1⟩

theorem before_mem_events (h : Before P.threads y x) : y ∈ P.events ∧ x ∈ P.events := by
  rw [mem_events, mem_events]
  rcases h with ⟨hx, hfst, hsnd⟩ | h
  · obtain ⟨t, i⟩ := x
    obtain ⟨u, j⟩ := y
    obtain rfl : u = t := hfst
    exact ⟨isSome_eventAt_of_le hx (by simp at hsnd; omega), hx⟩
  · obtain ⟨e, he, -⟩ := id h
    exact ⟨P.mem_isSome y x h, by simp [he]⟩

end MemPoset

/-! ## Tokens -/

def peName (e : PEvent α) : Nat × Nat := (e.tid, e.idx)

/-- The tokens of an event when the events of `done` have been run. -/
def tokens (evsProcs : List (List (StidEvent α))) (done : List (Nat × Nat)) (x : Nat × Nat) : Nat :=
  (if x.2 = 0 then 1 else 0) + (preds evsProcs x).countP (· ∈ done)

/-- A state in which the events of `done` have been run. -/
structure Marked (evsProcs : List (List (StidEvent α))) (done : List (Nat × Nat)) (st : St) :
    Prop where
  ordered : st.Ordered
  thread : ∀ t, (st.lookup t).isSome ↔ t < evsProcs.length
  pos : ∀ {t p m}, st.lookup t = some (p, m) → ∀ i, (t, i) ∈ done ↔ i < p
  count : ∀ {t p m}, st.lookup t = some (p, m) →
    ∀ i, (m.lookup i).getD 0 = tokens evsProcs done (t, i)

variable {evsProcs : List (List (StidEvent α))} {succs : Nat × Nat → List (Nat × Nat)}
  {procs : List (List (PEvent α))} {done : List (Nat × Nat)} {st : St} {t p : Nat}
  {m : OrdMap Nat Nat} {e : PEvent α} {x : Nat × Nat}

theorem Forward.exists_event (hf : Forward evsProcs succs procs) (hx : (eventAt evsProcs x).isSome) :
    ∃ e, eventAt procs x = some e ∧ peName e = x ∧ e.immSucc = succs x := by
  obtain ⟨e₀, he₀⟩ := Option.isSome_iff_exists.1 hx
  refine ⟨{ toPEvent e₀ x.1 x.2 with immSucc := succs x }, ?_, rfl, rfl⟩
  rw [hf.event, he₀, Option.map_some]

theorem initialState_eq (procs : List (List (PEvent α))) :
    initialState procs = .indexed (procs.map fun _ => (0, OrdMap.empty.insert 0 1)) := by
  have hlist : (procs.zipIdx.map fun p => (p.2, 0, OrdMap.empty.insert 0 1)) =
      (OrdMap.indexed (procs.map fun _ => (0, (OrdMap.empty : OrdMap Nat Nat).insert 0 1))).toList := by
    simp only [OrdMap.indexed, List.zipIdx_map, List.map_map, Function.comp_def, Prod.map, id_eq]
  unfold initialState
  rw [hlist]
  exact congrArg OrdMap.mk (OrdMap.toList_fromList (OrdMap.ordered_indexed _))

theorem marked_initialState (h : Forward evsProcs succs procs) :
    Marked evsProcs [] (initialState procs) := by
  rw [initialState_eq]
  refine ⟨OrdMap.ordered_indexed _, fun t => by simp [h.length], ?_, ?_⟩
  · intro t p m hlook i
    obtain ⟨-, rfl, rfl⟩ : t < procs.length ∧ 0 = p ∧ OrdMap.empty.insert 0 1 = m := by
      simpa [List.getElem?_replicate] using hlook
    simp
  · intro t p m hlook i
    obtain ⟨-, rfl, rfl⟩ : t < procs.length ∧ 0 = p ∧ OrdMap.empty.insert 0 1 = m := by
      simpa [List.getElem?_replicate] using hlook
    by_cases hi : i = 0
    · simp [tokens, hi]
    · simp [tokens, hi]

/-! ## The events that are reported -/

/-- What `enabled` takes from the entry of a thread. -/
def offered (procs : List (List (PEvent α))) (x : Nat × Nat × OrdMap Nat Nat) : List (PEvent α) :=
  match eventAt procs (x.1, x.2.1) with
  | none => []
  | some e =>
    if (e.preMemTid = 0 ∧ e.preMemIdx = 0) ∨ x.2.2.lookup x.2.1 = some 2 then [e] else []

theorem enabledIn_eq (x : Nat × Nat × OrdMap Nat Nat) (h : x.1 < procs.length)
    (pes : List (PEvent α)) : enabledIn procs x pes = .ok (offered procs x ++ pes) := by
  obtain ⟨t, p, m⟩ := x
  have hth : procs[t]? = some procs[t] := List.getElem?_eq_getElem h
  cases he : procs[t][p]? with
  | none => simp [enabledIn, index, offered, eventAt, hth, he]
  | some e =>
    by_cases hmem : e.preMemTid = 0 ∧ e.preMemIdx = 0
    · simp [enabledIn, index, offered, eventAt, hth, he, hmem]
    · cases hm : m.lookup p with
      | none => simp [enabledIn, index, offered, eventAt, hth, he, hmem, hm]
      | some c =>
        by_cases hc : c = 2
        · simp [enabledIn, index, offered, eventAt, hth, he, hmem, hm, hc]
        · simp [enabledIn, index, offered, eventAt, hth, he, hmem, hm, hc]

theorem foldrM_enabledIn (l : List (Nat × Nat × OrdMap Nat Nat)) (h : ∀ x ∈ l, x.1 < procs.length) :
    l.foldrM (enabledIn procs) [] = .ok (l.flatMap (offered procs)) := by
  induction l with
  | nil => rfl
  | cons x l ih =>
    rw [List.foldrM_cons, ih fun y hy => h y (List.mem_cons_of_mem _ hy), ok_bind,
      enabledIn_eq x (h x List.mem_cons_self), List.flatMap_cons]

theorem length_memPreds {tid idx : Nat} :
    (memPreds tid idx).length = if tid = 0 ∧ idx = 0 then 0 else 1 := by
  unfold memPreds
  split <;> rfl

theorem length_threadPreds : (threadPreds x).length = if x.2 = 0 then 0 else 1 := by
  obtain ⟨t, i⟩ := x
  cases i <;> simp [threadPreds]

namespace Marked

/-- An event that its thread is at is offered when all its predecessors have been run. -/
theorem mem_offered (hf : Forward evsProcs succs procs) (h : Marked evsProcs done st)
    (hlook : st.lookup t = some (p, m)) :
    e ∈ offered procs (t, p, m) ↔
      eventAt procs (t, p) = some e ∧ ∀ y ∈ preds evsProcs (t, p), y ∈ done := by
  unfold offered
  rw [hf.event]
  cases he : eventAt evsProcs (t, p) with
  | none => simp
  | some e₀ =>
    have hpreds : preds evsProcs (t, p) =
        threadPreds (t, p) ++ memPreds e₀.evPreMemTid e₀.evPreMemIdx := by
      simp [preds, he]
    -- the thread is at the event, so the one before it has been run
    have hthread : ∀ y ∈ threadPreds (t, p), y ∈ done := by
      rintro ⟨u, j⟩ hy
      obtain ⟨rfl, hj⟩ : u = t ∧ j + 1 = p := MemPoset.mem_threadPreds.1 hy
      exact (h.pos hlook j).2 (by omega)
    by_cases hmem : e₀.evPreMemTid = 0 ∧ e₀.evPreMemIdx = 0
    · have hall : ∀ y ∈ preds evsProcs (t, p), y ∈ done := by
        rw [hpreds, memPreds, if_pos hmem, List.append_nil]
        exact hthread
      simp only [toPEvent, hmem, and_self, true_or, if_true, List.mem_singleton, Option.map_some,
        Option.some.injEq, eq_comm, and_iff_left hall]
    · have hlen : (if p = 0 then 1 else 0) + (preds evsProcs (t, p)).length = 2 := by
        rw [hpreds, List.length_append, length_threadPreds, length_memPreds, if_neg hmem]
        split <;> rfl
      have hcount : (m.lookup p).getD 0 = _ := h.count hlook p
      have hall : m.lookup p = some 2 ↔ ∀ y ∈ preds evsProcs (t, p), y ∈ done := by
        have hlength := List.countP_eq_length (p := (· ∈ done)) (l := preds evsProcs (t, p))
        simp only [decide_eq_true_eq] at hlength
        rw [← hlength]
        unfold tokens at hcount
        cases hm : m.lookup p with
        | none =>
          simp only [hm, Option.getD_none] at hcount
          simp only [reduceCtorEq, false_iff]
          omega
        | some c =>
          simp only [hm, Option.getD_some] at hcount
          simp only [Option.some.injEq]
          omega
      simp [toPEvent, hmem, hall, eq_comm, and_comm]

theorem lookup_of_mem (h : Marked evsProcs done st) (hmem : (t, p, m) ∈ st.toList) :
    st.lookup t = some (p, m) :=
  OrdMap.lookupList_of_mem h.ordered.nodup_keys hmem

theorem enabled_eq (hf : Forward evsProcs succs procs) (h : Marked evsProcs done st) :
    enabled procs st = .ok (st.toList.flatMap (offered procs)) := by
  refine foldrM_enabledIn st.toList ?_
  rintro ⟨t, p, m⟩ hmem
  rw [hf.length]
  exact (h.thread t).1 (by simp [h.lookup_of_mem hmem])

/-- The thread of an event that is ready is at it. -/
theorem lookup_of_ready (h : Marked evsProcs done st) (hx : (eventAt evsProcs x).isSome)
    (hfresh : x ∉ done) (hpre : ∀ y ∈ preds evsProcs x, y ∈ done) :
    ∃ m, st.lookup x.1 = some (x.2, m) := by
  obtain ⟨t, i⟩ := x
  obtain ⟨e, he⟩ := Option.isSome_iff_exists.1 hx
  have ht : (st.lookup t).isSome := (h.thread t).2 (lt_of_isSome_eventAt hx)
  obtain ⟨⟨p, m⟩, hlook⟩ := Option.isSome_iff_exists.1 ht
  have hle : ¬ i < p := fun hi => hfresh ((h.pos hlook i).2 hi)
  have hge : i ≤ p := by
    cases i with
    | zero => omega
    | succ i =>
      exact (h.pos hlook i).1 (hpre (t, i) (by simp [preds, he, threadPreds]))
  obtain rfl : i = p := by omega
  exact ⟨m, hlook⟩

/-- `enabled` reports the events that have not been run and whose predecessors have. -/
theorem mem_enabled (hf : Forward evsProcs succs procs) (h : Marked evsProcs done st) :
    x ∈ (st.toList.flatMap (offered procs)).map peName ↔
      (eventAt evsProcs x).isSome ∧ x ∉ done ∧ ∀ y ∈ preds evsProcs x, y ∈ done := by
  constructor
  · intro hx
    obtain ⟨e, he, rfl⟩ := List.mem_map.1 hx
    obtain ⟨⟨t, p, m⟩, hmem, he⟩ := List.mem_flatMap.1 he
    have hlook := h.lookup_of_mem hmem
    obtain ⟨he, hpre⟩ := (h.mem_offered hf hlook).1 he
    rw [hf.event, Option.map_eq_some_iff] at he
    obtain ⟨e₀, he₀, rfl⟩ := he
    refine ⟨by simp [peName, toPEvent, he₀], fun hdone => ?_, hpre⟩
    exact absurd ((h.pos hlook p).1 hdone) (by omega)
  · rintro ⟨hx, hfresh, hpre⟩
    obtain ⟨m, hlook⟩ := h.lookup_of_ready hx hfresh hpre
    obtain ⟨e, he, hname, -⟩ := hf.exists_event hx
    have hoff : e ∈ offered procs (x.1, x.2, m) := (h.mem_offered hf hlook).2 ⟨he, hpre⟩
    exact List.mem_map.2 ⟨e, List.mem_flatMap.2 ⟨_, OrdMap.mem_of_lookup hlook, hoff⟩, hname⟩

end Marked

/-! ## Running an event -/

/-- `st'` is `st` with the tokens of `xs`. -/
structure AddsTokens (xs : List (Nat × Nat)) (st st' : St) : Prop where
  isSome : ∀ t, (st'.lookup t).isSome = (st.lookup t).isSome
  count : ∀ {t p m'}, st'.lookup t = some (p, m') → ∃ m, st.lookup t = some (p, m) ∧
    ∀ i, (m'.lookup i).getD 0 = (m.lookup i).getD 0 + xs.count (t, i)

theorem putToken_adds (hord : st.Ordered) (hx : (st.lookup x.1).isSome) :
    ∃ st', putToken x st = .ok st' ∧ st'.Ordered ∧ AddsTokens [x] st st' := by
  obtain ⟨t, i⟩ := x
  obtain ⟨⟨p, m⟩, hlook⟩ := Option.isSome_iff_exists.1 hx
  have hput : putToken (t, i) st =
      .ok (st.insert t (p, m.insert i ((m.lookup i).getD 0 + 1))) := by
    cases hm : m.lookup i <;> simp [putToken, hlook, hm]
  refine ⟨_, hput, hord.insert _ _, ?_, ?_⟩
  · intro u
    by_cases hu : u = t
    · simp [hu, hlook]
    · simp [hu]
  · intro u q m' hu
    rw [OrdMap.lookup_insert] at hu
    split at hu
    · next hut =>
      obtain ⟨rfl, rfl⟩ : p = q ∧ m.insert i ((m.lookup i).getD 0 + 1) = m' := by simpa using hu
      refine ⟨m, hut ▸ hlook, fun j => ?_⟩
      by_cases hj : j = i
      · simp [hj, hut]
      · simp [hj, Ne.symm hj]
    · next hut => exact ⟨m', hu, fun j => by simp [Ne.symm hut]⟩

theorem foldrM_putToken (xs : List (Nat × Nat)) (hord : st.Ordered)
    (hxs : ∀ x ∈ xs, (st.lookup x.1).isSome) :
    ∃ st', xs.foldrM putToken st = .ok st' ∧ st'.Ordered ∧ AddsTokens xs st st' := by
  induction xs with
  | nil => exact ⟨st, rfl, hord, fun _ => rfl, fun {t p m'} h => ⟨m', h, by simp⟩⟩
  | cons x xs ih =>
    obtain ⟨st₁, hrun₁, hord₁, hadds₁⟩ := ih fun y hy => hxs y (List.mem_cons_of_mem _ hy)
    obtain ⟨st₂, hrun₂, hord₂, hadds₂⟩ := putToken_adds (x := x) hord₁
      (by rw [hadds₁.isSome]; exact hxs x List.mem_cons_self)
    refine ⟨st₂, by rw [List.foldrM_cons, hrun₁, ok_bind, hrun₂], hord₂, ?_, ?_⟩
    · intro t
      rw [hadds₂.isSome, hadds₁.isSome]
    · intro t p m₂ h₂
      obtain ⟨m₁, h₁, hcount₂⟩ := hadds₂.count h₂
      obtain ⟨m, h, hcount₁⟩ := hadds₁.count h₁
      refine ⟨m, h, fun i => ?_⟩
      rw [hcount₂, hcount₁, List.count_cons, List.count_cons, List.count_nil]
      omega

theorem tokens_cons (hx : x ∉ done) (z : Nat × Nat) :
    tokens evsProcs (x :: done) z = tokens evsProcs done z + (preds evsProcs z).count x := by
  unfold tokens
  generalize preds evsProcs z = l
  induction l with
  | nil => simp
  | cons y l ih =>
    rw [List.countP_cons, List.countP_cons, List.count_cons]
    by_cases hy : y = x
    · subst hy
      simp only [List.mem_cons_self, hx, decide_true, decide_false, if_true, beq_self_eq_true]
      simp only [Bool.false_eq_true, if_false]
      omega
    · have hmem : y ∈ x :: done ↔ y ∈ done := by simp [hy]
      simp only [hmem, hy, beq_iff_eq, if_false]
      omega

/-- An event that is reported can be run, and then it has been run. -/
theorem Marked.run (hf : Forward evsProcs succs procs)
    (hsuccs : ∀ x y, (succs y).count x = (preds evsProcs x).count y)
    (h : Marked evsProcs done st) (hx : (eventAt evsProcs x).isSome) (hfresh : x ∉ done)
    (hpre : ∀ y ∈ preds evsProcs x, y ∈ done) :
    ∃ st', Synchron.run procs st x.1 x.2 = .ok st' ∧ Marked evsProcs (x :: done) st' := by
  obtain ⟨t, i⟩ := x
  obtain ⟨m, hlook⟩ := h.lookup_of_ready hx hfresh hpre
  obtain ⟨e, he, -, hsucc⟩ := hf.exists_event hx
  obtain ⟨th, hth, hi⟩ := Option.bind_eq_some_iff.1 he
  have hisSome (u : Nat) :
      (OrdMap.lookup (st.insert t (i + 1, m)) u).isSome = (st.lookup u).isSome := by
    by_cases hu : u = t
    · simp [hu, hlook]
    · simp [hu]
  -- the successors are events, so their threads are in the state
  have hthreads : ∀ z ∈ succs (t, i), (OrdMap.lookup (st.insert t (i + 1, m)) z.1).isSome := by
    intro z hz
    have hpred : (t, i) ∈ preds evsProcs z := by
      rw [← List.count_pos_iff, ← hsuccs, List.count_pos_iff]
      exact hz
    rw [hisSome]
    exact (h.thread z.1).2 (lt_of_isSome_eventAt (isSome_of_mem_preds hpred))
  obtain ⟨st', hrun, hord, hadds⟩ :=
    foldrM_putToken (succs (t, i)) (h.ordered.insert t (i + 1, m)) hthreads
  refine ⟨st', ?_, hord, ?_, ?_, ?_⟩
  · simp only [Synchron.run, index, hth, hi, ok_bind, hlook, hsucc, hrun]
  · intro u
    rw [hadds.isSome, hisSome]
    exact h.thread u
  · intro u p m' hu j
    obtain ⟨m₁, hm₁, -⟩ := hadds.count hu
    rw [OrdMap.lookup_insert] at hm₁
    split at hm₁
    · next hut =>
      obtain ⟨rfl, rfl⟩ : i + 1 = p ∧ m = m₁ := by simpa using hm₁
      have hpos := h.pos hlook j
      simp only [hut, List.mem_cons, Prod.mk.injEq, true_and, hpos]
      omega
    · next hut =>
      have hpos := h.pos hm₁ j
      simp [hut, hpos]
  · intro u p m' hu j
    obtain ⟨m₁, hm₁, hcount⟩ := hadds.count hu
    rw [tokens_cons hfresh, hcount, hsuccs]
    -- the position of the thread changes, its tokens do not
    rw [OrdMap.lookup_insert] at hm₁
    split at hm₁
    · next hut =>
      obtain ⟨rfl, rfl⟩ : i + 1 = p ∧ m = m₁ := by simpa using hm₁
      rw [hut, h.count hlook]
    · rw [h.count hm₁]

/-! ## Runs -/

/-- The sequences of steps from the initial state, each of which runs an event that `enabled` reports,
with the events that have been run. -/
inductive Replay (procs : List (List (PEvent α))) : List (Nat × Nat) → St → Prop where
  | init : Replay procs [] (initialState procs)
  | step {done : List (Nat × Nat)} {st st' : St} {pes : List (PEvent α)} {e : PEvent α}
      (h : Replay procs done st) (hen : enabled procs st = .ok pes) (he : e ∈ pes)
      (hrun : run procs st e.tid e.idx = .ok st') : Replay procs (peName e :: done) st'

section Poset

variable {P : MemPoset α}

theorem ready_tracked_iff :
    Ready P.events (Tracked P.threads) done x ↔
      (eventAt P.stream x).isSome ∧ x ∉ done ∧ ∀ y ∈ preds P.stream x, y ∈ done := by
  rw [MemPoset.eventAt_stream, Option.isSome_map, ← MemPoset.mem_events]
  simp only [MemPoset.mem_preds]
  constructor
  · intro h
    exact ⟨h.mem, h.fresh, h.pre⟩
  · rintro ⟨hmem, hfresh, hpre⟩
    exact ⟨hmem, hfresh, hpre⟩

variable (hf : Forward P.stream succs procs)

include hf

/-- `enabled` reports the events that are ready in the order of the edges it knows. -/
theorem Marked.mem_enabled_iff_ready {pes : List (PEvent α)} (h : Marked P.stream done st)
    (hen : enabled procs st = .ok pes) :
    x ∈ pes.map peName ↔ Ready P.events (Tracked P.threads) done x := by
  obtain rfl : st.toList.flatMap (offered procs) = pes := by
    rw [h.enabled_eq hf] at hen
    exact Except.ok.inj hen
  rw [h.mem_enabled hf, ready_tracked_iff]

variable (hsuccs : ∀ x y, (succs y).count x = (preds P.stream x).count y)

include hsuccs

theorem Marked.run_of_ready (h : Marked P.stream done st)
    (hx : Ready P.events (Tracked P.threads) done x) :
    ∃ st', Synchron.run procs st x.1 x.2 = .ok st' ∧ Marked P.stream (x :: done) st' := by
  obtain ⟨hev, hfresh, hpre⟩ := ready_tracked_iff.1 hx
  exact h.run hf hsuccs hev hfresh hpre

/-- A run is a schedule of the order of the edges that are known. -/
theorem Replay.schedule (h : Replay procs done st) :
    Marked P.stream done st ∧ Schedule P.events (Tracked P.threads) done := by
  induction h with
  | init => exact ⟨marked_initialState hf, .nil⟩
  | step h hen he hrun ih =>
    obtain ⟨hm, hs⟩ := ih
    have hready := (hm.mem_enabled_iff_ready hf hen).1 (List.mem_map_of_mem he)
    obtain ⟨st', hrun', hm'⟩ := hm.run_of_ready hf hsuccs hready
    obtain rfl := Except.ok.inj (hrun.symm.trans hrun')
    exact ⟨hm', hs.cons hready⟩

/-- Every schedule of that order is a run. -/
theorem exists_replay (h : Schedule P.events (Tracked P.threads) done) :
    ∃ st, Replay procs done st := by
  induction h with
  | nil => exact ⟨_, .init⟩
  | cons h hx ih =>
    obtain ⟨st, hst⟩ := ih
    have hm := (hst.schedule hf hsuccs).1
    have hen := hm.enabled_eq hf
    obtain ⟨e, he, rfl⟩ := List.mem_map.1 ((hm.mem_enabled_iff_ready hf hen).2 hx)
    obtain ⟨st', hrun, -⟩ := hm.run_of_ready hf hsuccs hx
    exact ⟨st', hst.step hen he hrun⟩

end Poset

/-- On every poset the runs go on without an error: `enabled` returns, and so does `run` for each
event that is reported. Along every run `enabled` reports exactly the events that are ready in the
poset if and only if every event whose memory predecessor is `(0,0)` comes after it by other edges. -/
theorem enabled_exact_iff (P : MemPoset α) :
    ∃ procs, toPoset P.stream = .ok procs ∧
      (∀ done st, Replay procs done st → ∃ pes, enabled procs st = .ok pes ∧
        ∀ e ∈ pes, ∃ st', run procs st e.tid e.idx = .ok st') ∧
      ((∀ done st pes, Replay procs done st → enabled procs st = .ok pes →
          ∀ x, x ∈ pes.map peName ↔ Ready P.events (Before P.threads) done x) ↔
        ∀ x, MemBefore P.threads (0, 0) x → Relation.TransGen (Tracked P.threads) (0, 0) x) := by
  obtain ⟨procs, succs, hposet, hf, hsuccs⟩ := toPoset_forward P.memClosed_stream
  refine ⟨procs, hposet, fun done st h => ?_, ?_⟩
  · have hm := (h.schedule hf hsuccs).1
    refine ⟨_, hm.enabled_eq hf, fun e he => ?_⟩
    have hready := (hm.mem_enabled_iff_ready hf (hm.enabled_eq hf)).1 (List.mem_map_of_mem he)
    obtain ⟨st', hrun, -⟩ := hm.run_of_ready hf hsuccs hready
    exact ⟨st', hrun⟩
  · have hle : ∀ y x, Tracked P.threads y x → Before P.threads y x :=
      fun y x h => h.imp_right And.left
    have hready := ready_iff_ready (E := P.events) hle (fun _ _ h => MemPoset.before_mem_events h)
      P.acyclic
    constructor
    · intro h x hx
      refine hready.1 (fun done hdone z => ?_) (0, 0) x (.inr hx)
      obtain ⟨st, hst⟩ := exists_replay hf hsuccs hdone
      have hm := (hst.schedule hf hsuccs).1
      rw [← hm.mem_enabled_iff_ready hf (hm.enabled_eq hf), h done st _ hst (hm.enabled_eq hf)]
    · intro h done st pes hst hen x
      obtain ⟨hm, hdone⟩ := hst.schedule hf hsuccs
      rw [hm.mem_enabled_iff_ready hf hen]
      refine hready.2 (fun y x hyx => ?_) done hdone x
      rcases hyx with hyx | hyx
      · exact .single (.inl hyx)
      · by_cases hy : y = (0, 0)
        · subst hy
          exact h x hyx
        · exact .single (.inr ⟨hyx, hy⟩)

theorem acyclic_of_rank {threads : List (List (MemEvent α))} (rank : Nat × Nat → Nat)
    (h : ∀ y x, Before threads y x → rank y < rank x) (x : Nat × Nat) :
    ¬ Relation.TransGen (Before threads) x x := by
  intro hx
  have hlt : Relation.TransGen (· < ·) (rank x) (rank x) := hx.lift rank h
  rw [Relation.transGen_eq_self] at hlt
  exact Nat.lt_irrefl _ hlt

/-- Two threads of one event: that of thread 1 has that of thread 0 as its memory predecessor. -/
def rootReadThreads : List (List (MemEvent Unit)) := [[⟨(), none, 0⟩], [⟨(), some (0, 0), 1⟩]]

theorem eq_of_memBefore_rootRead {y x : Nat × Nat} (h : MemBefore rootReadThreads y x) :
    y = (0, 0) ∧ x = (1, 0) := by
  obtain ⟨t, i⟩ := x
  obtain ⟨e, he, hy⟩ := h
  match t, i with
  | 0, 0 =>
    obtain rfl : _ = e := Option.some.inj he
    cases hy
  | 1, 0 =>
    obtain rfl : _ = e := Option.some.inj he
    exact ⟨(Option.some.inj hy).symm, rfl⟩
  | 0, i + 1 => cases he
  | 1, i + 1 => cases he
  | t + 2, i => cases he

def rootRead : MemPoset Unit where
  threads := rootReadThreads
  mem_isSome y x h := by
    obtain ⟨rfl, rfl⟩ := eq_of_memBefore_rootRead h
    rfl
  acyclic := by
    refine acyclic_of_rank (fun x => x.1 + x.2) fun y x h => ?_
    rcases h with ⟨-, hfst, hsnd⟩ | h
    · omega
    · obtain ⟨rfl, rfl⟩ := eq_of_memBefore_rootRead h
      decide

/-- In the initial state the event of thread 1 is reported, and its memory predecessor has not been
run. -/
theorem enabled_before_root : ∃ procs pes, toPoset rootRead.stream = .ok procs ∧
    Replay procs [] (initialState procs) ∧ enabled procs (initialState procs) = .ok pes ∧
    (1, 0) ∈ pes.map peName ∧ ¬ Ready rootRead.events (Before rootRead.threads) [] (1, 0) := by
  refine ⟨_, _, rfl, .init, rfl, by decide, fun h => ?_⟩
  exact absurd (h.pre (0, 0) (.inr ⟨_, rfl, rfl⟩)) (by simp)

end Synchron

end Poet
