import Poet.Lib.OrdMap
import Poet.Model.GCS

/-!
# The partial-order replay model (`Domain/Synchron.hs`)

A poset of events, as the stream of a run gives it: for each thread the list of its events, each with
a memory predecessor. `toPoset` turns the predecessors round into lists of immediate successors. A
state has for each thread its position and, for each index, the number of tokens that the events run
so far have put there. An event can run when its thread is at it and it has two tokens, or when it has
no memory predecessor.

| here | there |
|------|-------|
| `toPEvent`, `toPTh`, `toPMap`, `toPoset` | `Synchron.hs:48-59`, `87-93` |
| `updatePEvent`, `updatePoset`, `toFPoset`, `toFlat` | `Synchron.hs:61-85` |
| `initialState`, `run`, `enabled` | `Synchron.hs:188-228` |

That an event has no memory predecessor is written as the pair `(0,0)`. Threads and indices are
natural numbers here. `evs_max_lock`, which is handed through, is left out, and of an action nothing
is read. A call of `error` or an index past the end of a list is an error of the domain.
-/

namespace Poet

namespace Synchron

variable {α : Type}

/-- An event of the stream (`STID.Event`), with an action of type `α`. -/
structure StidEvent (α : Type) where
  evAct : α
  evPreMemTid : Nat
  evPreMemIdx : Nat
  evSidx : Int
deriving DecidableEq, Repr

structure PEvent (α : Type) where
  act : α
  tid : Nat
  idx : Nat
  preMemTid : Nat
  preMemIdx : Nat
  immSucc : List (Nat × Nat)
  sidx : Int
deriving DecidableEq, Repr

/-- The events by thread and index. -/
abbrev PMap (α : Type) := OrdMap Nat (OrdMap Nat (PEvent α))

def toPEvent (e : StidEvent α) (tid enr : Nat) : PEvent α :=
  ⟨e.evAct, tid, enr, e.evPreMemTid, e.evPreMemIdx, [], e.evSidx⟩

def toPTh (th : List (StidEvent α)) (tid : Nat) : OrdMap Nat (PEvent α) × Nat :=
  th.foldl (fun r e => (r.1.insert r.2 (toPEvent e tid r.2), r.2 + 1)) (.empty, 0)

def toPMap (evsProcs : List (List (StidEvent α))) : PMap α × Nat :=
  evsProcs.foldl (fun r th => (r.1.insert r.2 (toPTh th r.2).1, r.2 + 1)) (.empty, 0)

/-- Enters `succ` as an immediate successor of `pre`. -/
def updatePoset (pre succ : Nat × Nat) (m : PMap α) : Except DomErr (PMap α) :=
  match m.lookup pre.1 with
  | none => .error (.error "updatePoset")
  | some th =>
    match th.lookup pre.2 with
    | none => .error (.error "updatePoset")
    | some e => .ok (m.insert pre.1 (th.insert pre.2 { e with immSucc := succ :: e.immSucc }))

/-- Enters the event as a successor of its predecessor in the thread and of its memory predecessor. -/
def updatePEvent (succTid succIdx : Nat) (e : PEvent α) (m : PMap α) : Except DomErr (PMap α) := do
  let mTh ← if succIdx = 0 then pure m
    else updatePoset (succTid, succIdx - 1) (succTid, succIdx) m
  if e.preMemTid = 0 ∧ e.preMemIdx = 0 then pure mTh
  else updatePoset (e.preMemTid, e.preMemIdx) (succTid, succIdx) mTh

/-- The forward poset: `M.foldWithKey` goes from the last key to the first. -/
def toFPoset (m : PMap α) : Except DomErr (PMap α) :=
  m.toList.foldrM (fun p m' => p.2.toList.foldrM (fun q m'' => updatePEvent p.1 q.1 q.2 m'') m') m

def toFlat (m : PMap α) : List (List (PEvent α)) := m.elems.map OrdMap.elems

def toPoset (evsProcs : List (List (StidEvent α))) : Except DomErr (List (List (PEvent α))) :=
  toFlat <$> toFPoset (toPMap evsProcs).1

/-- From threads to the position and the tokens by index. -/
abbrev St := OrdMap Nat (Nat × OrdMap Nat Nat)

def initialState (evsProcs : List (List (PEvent α))) : St :=
  .fromList (evsProcs.zipIdx.map fun p => (p.2, 0, OrdMap.empty.insert 0 1))

/-- The `!!` of lists. -/
def index {β : Type} (l : List β) (i : Nat) : Except DomErr β :=
  match l[i]? with
  | none => .error (.error "Prelude.!!: index too large")
  | some b => .ok b

/-- Puts a token on `x`. -/
def putToken (x : Nat × Nat) (m : St) : Except DomErr St :=
  match m.lookup x.1 with
  | none => .error (.error "run: thread not in state")
  | some (p, nm) =>
    let nm' := match nm.lookup x.2 with
      | none => nm.insert x.2 1
      | some c => nm.insert x.2 (c + 1)
    .ok (m.insert x.1 (p, nm'))

def run (evsProcs : List (List (PEvent α))) (st : St) (tid idx : Nat) : Except DomErr St := do
  let th ← index evsProcs tid
  let pe ← index th idx
  match st.lookup tid with
  | none => .error (.error "run: not possible")
  | some (p, m) => pe.immSucc.foldrM putToken (st.insert tid (p + 1, m))

/-- The event that thread `tid` is at, if it can run, on top of `pes`. -/
def enabledIn (evsProcs : List (List (PEvent α))) (x : Nat × Nat × OrdMap Nat Nat)
    (pes : List (PEvent α)) : Except DomErr (List (PEvent α)) := do
  let (tid, idx, m) := x
  let th ← index evsProcs tid
  match th[idx]? with
  -- `length th <= idx`
  | none => pure pes
  | some e =>
    if e.preMemTid = 0 ∧ e.preMemIdx = 0 then pure (e :: pes)
    else
      match m.lookup idx with
      | none => pure pes
      | some c => if c = 2 then pure (e :: pes) else pure pes

def enabled (evsProcs : List (List (PEvent α))) (st : St) : Except DomErr (List (PEvent α)) :=
  st.toList.foldrM (enabledIn evsProcs) []

/-! ## The maps as lists of lists -/

section Tables

variable {β γ : Type}

/-- The entry at a thread and an index. -/
def eventAt (l : List (List β)) (x : Nat × Nat) : Option β := l[x.1]?.bind (·[x.2]?)

def modifyAt (l : List (List β)) (x : Nat × Nat) (f : β → β) : List (List β) :=
  l.modify x.1 (·.modify x.2 f)

theorem set_eq_modify {l : List β} {i : Nat} {b : β} (f : β → β) (h : l[i]? = some b) :
    l.set i (f b) = l.modify i f := by
  rw [List.modify_eq_set_getElem?, h]
  rfl

theorem eventAt_modifyAt (l : List (List β)) (x y : Nat × Nat) (f : β → β) :
    eventAt (modifyAt l x f) y = if y = x then (eventAt l y).map f else eventAt l y := by
  obtain ⟨t, i⟩ := x
  obtain ⟨u, j⟩ := y
  simp only [eventAt, modifyAt, List.getElem?_modify, Prod.mk.injEq]
  cases l[u]? with
  | none => simp
  | some th =>
    by_cases ht : t = u
    · by_cases hi : i = j
      · simp [ht, hi]
      · simp [ht, hi, Ne.symm hi]
    · simp [ht, Ne.symm ht]

theorem eventAt_mapIdx (f : Nat → Nat → β → γ) (l : List (List β)) (x : Nat × Nat) :
    eventAt (l.mapIdx fun t th => th.mapIdx (f t)) x = (eventAt l x).map (f x.1 x.2) := by
  simp only [eventAt, List.getElem?_mapIdx]
  cases l[x.1]? <;> simp

theorem lt_of_isSome_eventAt {l : List (List β)} {x : Nat × Nat} (h : (eventAt l x).isSome) :
    x.1 < l.length := by
  by_contra hlt
  simp [eventAt, List.getElem?_eq_none (Nat.le_of_not_lt hlt)] at h

theorem isSome_eventAt_of_le {l : List (List β)} {t i j : Nat} (h : (eventAt l (t, j)).isSome)
    (hij : i ≤ j) : (eventAt l (t, i)).isSome := by
  unfold eventAt at h ⊢
  cases hth : l[t]? with
  | none => simp [hth] at h
  | some th =>
    simp only [hth, Option.bind_some, isSome_getElem?] at h ⊢
    omega

end Tables

/-- The map with these events. -/
def table (evsProcs : List (List (PEvent α))) : PMap α := .indexed (evsProcs.map .indexed)

/-- The events before any successor is entered. -/
def flatEvents (evsProcs : List (List (StidEvent α))) : List (List (PEvent α)) :=
  evsProcs.mapIdx fun t th => th.mapIdx fun i e => toPEvent e t i

theorem toPMap_eq (evsProcs : List (List (StidEvent α))) :
    (toPMap evsProcs).1 = table (flatEvents evsProcs) := by
  have hth (th : List (StidEvent α)) (t : Nat) :
      (toPTh th t).1 = .indexed (th.mapIdx fun i e => toPEvent e t i) :=
    congrArg Prod.fst (OrdMap.foldl_insert_indexed (fun i e => toPEvent e t i) th)
  have hfold := OrdMap.foldl_insert_indexed (fun t th => (toPTh th t).1) evsProcs
  rw [toPMap, hfold]
  refine congrArg OrdMap.indexed (List.ext_getElem? fun t => ?_)
  simp [flatEvents, hth, Function.comp_def]

theorem toFlat_table (evsProcs : List (List (PEvent α))) : toFlat (table evsProcs) = evsProcs := by
  simp [toFlat, table, Function.comp_def]

def PEvent.addSucc (x : Nat × Nat) (e : PEvent α) : PEvent α := { e with immSucc := x :: e.immSucc }

theorem updatePoset_table {evsProcs : List (List (PEvent α))} {pre succ : Nat × Nat}
    (h : (eventAt evsProcs pre).isSome) :
    updatePoset pre succ (table evsProcs) = .ok (table (modifyAt evsProcs pre (·.addSucc succ))) := by
  unfold eventAt at h
  cases hth : evsProcs[pre.1]? with
  | none => simp [hth] at h
  | some th =>
    cases he : th[pre.2]? with
    | none => simp [hth, he] at h
    | some e =>
      obtain ⟨hlt, -⟩ := List.getElem?_eq_some_iff.1 hth
      obtain ⟨hlt', -⟩ := List.getElem?_eq_some_iff.1 he
      have hset : evsProcs.set pre.1 (th.set pre.2 (e.addSucc succ)) =
          modifyAt evsProcs pre (·.addSucc succ) := by
        rw [set_eq_modify (·.addSucc succ) he]
        exact set_eq_modify (·.modify pre.2 (·.addSucc succ)) hth
      simp only [updatePoset, table, OrdMap.lookup_indexed, List.getElem?_map, hth, Option.map_some, he]
      rw [OrdMap.indexed_insert hlt', OrdMap.indexed_insert (by simpa using hlt), ← List.map_set,
        ← hset]
      rfl

/-! ## The forward poset -/

/-- The predecessor in the thread. -/
def threadPreds : Nat × Nat → List (Nat × Nat)
  | (_, 0) => []
  | (t, i + 1) => [(t, i)]

/-- The memory predecessor, which is not `(0,0)`. -/
def memPreds (tid idx : Nat) : List (Nat × Nat) := if tid = 0 ∧ idx = 0 then [] else [(tid, idx)]

/-- The events that have an event as an immediate successor, once for each edge. -/
def preds (evsProcs : List (List (StidEvent α))) (x : Nat × Nat) : List (Nat × Nat) :=
  match eventAt evsProcs x with
  | none => []
  | some e => threadPreds x ++ memPreds e.evPreMemTid e.evPreMemIdx

/-- The events of the stream with the immediate successors that `succs` gives. -/
structure Forward (evsProcs : List (List (StidEvent α))) (succs : Nat × Nat → List (Nat × Nat))
    (procs : List (List (PEvent α))) : Prop where
  length : procs.length = evsProcs.length
  event : ∀ x, eventAt procs x =
    (eventAt evsProcs x).map fun e => { toPEvent e x.1 x.2 with immSucc := succs x }

variable {evsProcs : List (List (StidEvent α))} {succs : Nat × Nat → List (Nat × Nat)}
  {procs : List (List (PEvent α))} {x y : Nat × Nat}

theorem Forward.updatePoset (h : Forward evsProcs succs procs) (hy : (eventAt evsProcs y).isSome) :
    ∃ procs', updatePoset y x (table procs) = .ok (table procs') ∧
      Forward evsProcs (Function.update succs y (x :: succs y)) procs' := by
  refine ⟨_, updatePoset_table (by simpa [h.event] using hy), by simp [modifyAt, h.length], ?_⟩
  intro z
  rw [eventAt_modifyAt, h.event]
  by_cases hz : z = y
  · subst hz
    simp [PEvent.addSucc, Function.comp_def]
  · simp [hz]

theorem updatePEvent_eq (x : Nat × Nat) (e : PEvent α) (m : PMap α) :
    updatePEvent x.1 x.2 e m =
      (threadPreds x ++ memPreds e.preMemTid e.preMemIdx).foldlM (fun m y => updatePoset y x m) m := by
  obtain ⟨t, i⟩ := x
  by_cases hm : e.preMemTid = 0 ∧ e.preMemIdx = 0
  · cases i with
    | zero => simp [updatePEvent, threadPreds, memPreds, hm]
    | succ i => simp [updatePEvent, threadPreds, memPreds, hm]
  · cases i with
    | zero => simp [updatePEvent, threadPreds, memPreds, hm, - pure_eq_ok]
    | succ i => simp [updatePEvent, threadPreds, memPreds, hm, - pure_eq_ok]

theorem Forward.foldlM_updatePoset (ys : List (Nat × Nat)) (h : Forward evsProcs succs procs)
    (hys : ∀ y ∈ ys, (eventAt evsProcs y).isSome) :
    ∃ procs', ys.foldlM (fun m y => Synchron.updatePoset y x m) (table procs) = .ok (table procs') ∧
      Forward evsProcs (fun y => List.replicate (ys.count y) x ++ succs y) procs' := by
  induction ys generalizing succs procs with
  | nil => exact ⟨procs, rfl, by simpa using h⟩
  | cons y ys ih =>
    obtain ⟨procs₁, hrun₁, h₁⟩ := h.updatePoset (x := x) (hys y List.mem_cons_self)
    obtain ⟨procs₂, hrun₂, h₂⟩ := ih h₁ fun z hz => hys z (List.mem_cons_of_mem _ hz)
    refine ⟨procs₂, by simp [hrun₁, hrun₂], ?_⟩
    have hsuccs : (fun z => List.replicate (ys.count z) x ++ Function.update succs y (x :: succs y) z) =
        fun z => List.replicate ((y :: ys).count z) x ++ succs z := by
      funext z
      by_cases hz : z = y
      · simp [hz, List.replicate_succ']
      · simp [hz, List.count_cons_of_ne (Ne.symm hz)]
    rwa [hsuccs] at h₂

theorem isSome_of_mem_preds (hy : y ∈ preds evsProcs x) : (eventAt evsProcs x).isSome := by
  unfold preds at hy
  split at hy
  · simp at hy
  · next he => simp [he]

/-- The memory predecessors are events. -/
def MemClosed (evsProcs : List (List (StidEvent α))) : Prop :=
  ∀ x e, eventAt evsProcs x = some e →
    ∀ y ∈ memPreds e.evPreMemTid e.evPreMemIdx, (eventAt evsProcs y).isSome

theorem MemClosed.isSome (h : MemClosed evsProcs) (hy : y ∈ preds evsProcs x) :
    (eventAt evsProcs y).isSome := by
  unfold preds at hy
  cases he : eventAt evsProcs x with
  | none => simp [he] at hy
  | some e =>
    simp only [he, List.mem_append] at hy
    rcases hy with hy | hy
    · obtain ⟨t, i⟩ := x
      cases i with
      | zero => simp [threadPreds] at hy
      | succ i =>
        obtain rfl : y = (t, i) := by simpa [threadPreds] using hy
        exact isSome_eventAt_of_le (j := i + 1) (by simp [he]) (by omega)
    · exact h x e he y hy

/-- The immediate successors once the events of `xs` are entered. -/
def succsOf (evsProcs : List (List (StidEvent α))) (xs : List (Nat × Nat)) (y : Nat × Nat) :
    List (Nat × Nat) :=
  xs.flatMap fun x => List.replicate ((preds evsProcs x).count y) x

theorem count_succsOf {xs : List (Nat × Nat)} (hnd : xs.Nodup)
    (hxs : ∀ x, (eventAt evsProcs x).isSome → x ∈ xs) (x y : Nat × Nat) :
    (succsOf evsProcs xs y).count x = (preds evsProcs x).count y := by
  have hcount : ∀ zs : List (Nat × Nat), zs.Nodup →
      (succsOf evsProcs zs y).count x = if x ∈ zs then (preds evsProcs x).count y else 0 := by
    intro zs hzs
    induction zs with
    | nil => simp [succsOf]
    | cons z zs ih =>
      obtain ⟨hz, hzs⟩ := List.nodup_cons.1 hzs
      have hrec := ih hzs
      simp only [succsOf, List.flatMap_cons, List.count_append, List.count_replicate] at hrec ⊢
      rw [hrec]
      by_cases hxz : z = x
      · subst hxz
        simp [hz]
      · simp [hxz, Ne.symm hxz]
  rw [hcount xs hnd]
  by_cases hx : x ∈ xs
  · rw [if_pos hx]
  · have hnone : eventAt evsProcs x = none := by
      simpa using mt (hxs x) hx
    simp [hx, preds, hnone]

/-- The entries of a map in the order of its keys. -/
def entries (m : PMap α) : List ((Nat × Nat) × PEvent α) :=
  m.toList.flatMap fun p => p.2.toList.map fun q => ((p.1, q.1), q.2)

theorem toFPoset_eq (m : PMap α) :
    toFPoset m = (entries m).foldrM (fun x m' => updatePEvent x.1.1 x.1.2 x.2 m') m := by
  unfold toFPoset entries
  generalize m.toList = l
  induction l with
  | nil => rfl
  | cons p l ih =>
    simp only [List.foldrM_cons, ih, List.flatMap_cons, List.foldrM_append, List.foldrM_map]

theorem mem_entries_table {procs : List (List (PEvent α))} {e : PEvent α} :
    (x, e) ∈ entries (table procs) ↔ eventAt procs x = some e := by
  obtain ⟨t, i⟩ := x
  simp only [entries, table, List.mem_flatMap, List.mem_map, Prod.exists, Prod.mk.injEq,
    OrdMap.mem_indexed, List.getElem?_map, Option.map_eq_some_iff, eventAt, Option.bind_eq_some_iff]
  constructor
  · rintro ⟨t, m, ⟨th, hth, rfl⟩, i, e, he, ⟨rfl, rfl⟩, rfl⟩
    exact ⟨th, hth, OrdMap.mem_indexed.1 he⟩
  · rintro ⟨th, hth, he⟩
    exact ⟨t, _, ⟨th, hth, rfl⟩, i, e, OrdMap.mem_indexed.2 he, ⟨rfl, rfl⟩, rfl⟩

theorem nodup_entries_table (procs : List (List (PEvent α))) :
    ((entries (table procs)).map (·.1)).Nodup := by
  have hnames : (entries (table procs)).map (·.1) =
      (table procs).toList.flatMap fun p => p.2.keys.map fun i => (p.1, i) := by
    simp [entries, List.map_flatMap, OrdMap.keys, Function.comp_def]
  rw [hnames, List.nodup_flatMap]
  constructor
  · rintro ⟨t, th⟩ hp
    obtain ⟨l, -, rfl⟩ : ∃ l, procs[t]? = some l ∧ OrdMap.indexed l = th := by
      simpa using OrdMap.mem_indexed.1 hp
    refine (OrdMap.ordered_indexed l).nodup_keys.map fun i j hij => ?_
    exact (Prod.mk.inj hij).2
  · refine (OrdMap.ordered_indexed _).imp fun hpq => ?_
    intro z hz hz'
    obtain ⟨i, -, rfl⟩ := List.mem_map.1 hz
    obtain ⟨j, -, hj⟩ := List.mem_map.1 hz'
    exact hpq.1 (Prod.mk.inj hj).1

theorem Forward.foldrM_updatePEvent (hclosed : MemClosed evsProcs)
    (xs : List ((Nat × Nat) × PEvent α)) (h : Forward evsProcs (succsOf evsProcs []) procs)
    (hxs : ∀ x ∈ xs, eventAt procs x.1 = some x.2) :
    ∃ procs', xs.foldrM (fun x m => updatePEvent x.1.1 x.1.2 x.2 m) (table procs) = .ok (table procs') ∧
      Forward evsProcs (succsOf evsProcs (xs.map (·.1))) procs' := by
  induction xs with
  | nil => exact ⟨procs, rfl, h⟩
  | cons p xs ih =>
    obtain ⟨x, e⟩ := p
    obtain ⟨procs₁, hrun₁, h₁⟩ := ih fun q hq => hxs q (List.mem_cons_of_mem _ hq)
    -- the entry of the map that is folded has the predecessors of the stream
    have he : eventAt procs x = some e := hxs (x, e) List.mem_cons_self
    rw [h.event, Option.map_eq_some_iff] at he
    obtain ⟨e₀, he₀, rfl⟩ := he
    have hpreds : preds evsProcs x = threadPreds x ++ memPreds e₀.evPreMemTid e₀.evPreMemIdx := by
      simp [preds, he₀]
    obtain ⟨procs₂, hrun₂, h₂⟩ := h₁.foldlM_updatePoset (x := x) (preds evsProcs x)
      fun y hy => hclosed.isSome hy
    refine ⟨procs₂, ?_, h₂⟩
    rw [List.foldrM_cons, hrun₁, ok_bind, updatePEvent_eq, ← hrun₂, hpreds]
    rfl

/-- `toPoset` keeps the events, and an event is in the list of another one as often as there are edges
between them. -/
theorem toPoset_forward (hclosed : MemClosed evsProcs) :
    ∃ procs succs, toPoset evsProcs = .ok procs ∧ Forward evsProcs succs procs ∧
      ∀ x y, (succs y).count x = (preds evsProcs x).count y := by
  have h₀ : Forward evsProcs (succsOf evsProcs []) (flatEvents evsProcs) :=
    ⟨List.length_mapIdx, eventAt_mapIdx (fun t i e => toPEvent e t i) evsProcs⟩
  obtain ⟨procs, hrun, h⟩ := h₀.foldrM_updatePEvent hclosed (entries (table (flatEvents evsProcs)))
    fun p hp => mem_entries_table.1 hp
  refine ⟨procs, _, ?_, h, count_succsOf (nodup_entries_table (flatEvents evsProcs)) fun x hx => ?_⟩
  · rw [toPoset, toPMap_eq, toFPoset_eq, hrun, map_ok, toFlat_table]
  · obtain ⟨e, he⟩ := Option.isSome_iff_exists.1 hx
    have hmem : (x, toPEvent e x.1 x.2) ∈ entries (table (flatEvents evsProcs)) := by
      rw [mem_entries_table, h₀.event, he]
      rfl
    exact List.mem_map_of_mem hmem

end Synchron

end Poet
