import Mathlib.Data.Set.Finite.Basic
import Mathlib.Logic.Relation
import Poet.Domain.Class
import Poet.Domain.Interval.Type
import Poet.Lib.OrdMap

/-!
# The interpreter by depth-first search (`Model/Interpreter.hs:105-142`)

`dfs` pops a state, drops it if the visited table has an equal state under its hash value, and
otherwise records it there and pushes its successors. The table has one state for each hash value:
an insertion replaces a different state with the same one. Terminal states are never recorded.

* `dfs_complete`: a search that ends has popped every reachable state, whatever the hash function.
* `dfs_terminates`: a search over finitely many states ends, if no state on a cycle can reach
  another one, with successors, that has its hash value. Without that two states may evict each
  other forever (`boundSystem_diverges`).

The printing is left out, and `popped` is added: the states popped so far, newest first.
-/

namespace Poet

/-- The arguments of `dfs` that change: the last thread, `n`, `m`, the threads of the path, the
visited table and the states to pop. -/
structure Search (st : Type) where
  tid : TId
  traces : Int
  cutoffs : Int
  stack : List TId
  visited : OrdMap Int st
  todo : List (TId × st)
  popped : List st

inductive SearchErr where
  /-- An `error` of the domain. -/
  | domain (e : DomErr)
  /-- Not an error of the source: the bound on the states popped was used up. -/
  | outOfFuel
deriving DecidableEq, Repr

section Dfs

variable {st act : Type} [DecidableEq st] [DecidableEq act] [LatticeM st] [Projection st]
  [Lattice act] [Action act] [Domain st act]

def isCutoff (hash : st → Int) (s : st) (visited : OrdMap Int st) : Bool :=
  match visited.lookup (hash s) with
  | some s' => s = s'
  | none => false

/-- One call of `dfs`, with the head `(i, s)` and the tail `ss` of the states to pop. -/
def dfsStep (hash : st → Int) (syst : System st act) (d : Search st) (i : TId) (s : st)
    (ss : List (TId × st)) : Except DomErr (Search st) :=
  let d := { d with tid := i, popped := s :: d.popped }
  if isCutoff hash s d.visited then .ok { d with cutoffs := d.cutoffs + 1, todo := ss }
  else do
    match ← Domain.enabled syst s with
    | [] => return { d with traces := d.traces + 1, todo := ss }
    | ts => return { d with
        stack := i :: d.stack, visited := d.visited.insert (hash s) s, todo := ts ++ ss }

/-- Standard depth first search, with a bound on the number of states popped. -/
def dfs (hash : st → Int) (syst : System st act) : Nat → Search st → Except SearchErr (Search st)
  | 0, d =>
    match d.todo with
    | [] => .ok d
    | _ :: _ => .error .outOfFuel
  | n + 1, d =>
    match d.todo with
    | [] => .ok d
    | (i, s) :: ss =>
      match dfsStep hash syst d i s ss with
      | .error e => .error (.domain e)
      | .ok d' => dfs hash syst n d'

/-- The call of `interpreter` in mode `IPDFS`. -/
def Search.init (syst : System st act) : Search st := ⟨0, 1, 1, [], .empty, [(0, syst.gbst)], []⟩

/-- `t` is among the successors that `enabled` returns. -/
def Succ (syst : System st act) (s t : st) : Prop :=
  ∃ ts i, Domain.enabled syst s = .ok ts ∧ (i, t) ∈ ts

def Reachable (syst : System st act) : st → Prop := Relation.ReflTransGen (Succ syst) syst.gbst

omit [LatticeM st] [Projection st] in
theorem isCutoff_iff {hash : st → Int} {s : st} {visited : OrdMap Int st} :
    isCutoff hash s visited = true ↔ visited.lookup (hash s) = some s := by
  unfold isCutoff
  split
  · rename_i s' h
    simp [h, eq_comm]
  · rename_i h
    simp [h]

variable {hash : st → Int} {syst : System st act} {d d' : Search st} {i : TId} {s : st}
  {ss : List (TId × st)}

/-- What one call does to the states popped, the table and the states to pop. -/
theorem dfsStep_cases (h : dfsStep hash syst d i s ss = .ok d') :
    d'.popped = s :: d.popped ∧
      (d.visited.lookup (hash s) = some s ∧ d'.visited = d.visited ∧ d'.todo = ss ∨
        d.visited.lookup (hash s) ≠ some s ∧
          (Domain.enabled syst s = .ok [] ∧ d'.visited = d.visited ∧ d'.todo = ss ∨
            ∃ ts, ts ≠ [] ∧ Domain.enabled syst s = .ok ts ∧
              d'.visited = d.visited.insert (hash s) s ∧ d'.todo = ts ++ ss)) := by
  unfold dfsStep at h
  simp only at h
  split at h
  · rename_i hc
    obtain rfl := Except.ok.inj h
    exact ⟨rfl, .inl ⟨isCutoff_iff.1 hc, rfl, rfl⟩⟩
  · rename_i hc
    rw [isCutoff_iff] at hc
    obtain ⟨ts, hts, h⟩ := bind_eq_ok.1 h
    cases ts with
    | nil =>
      obtain rfl := Except.ok.inj h
      exact ⟨rfl, .inr ⟨hc, .inl ⟨hts, rfl, rfl⟩⟩⟩
    | cons t ts =>
      obtain rfl := Except.ok.inj h
      exact ⟨rfl, .inr ⟨hc, .inr ⟨t :: ts, by simp, hts, rfl, rfl⟩⟩⟩

/-! ## A search that ends is complete -/

def Search.Found (d : Search st) (t : st) : Prop := t ∈ d.popped ∨ ∃ i, (i, t) ∈ d.todo

/-- The initial state and the successors of what was popped are found, and the table has popped
states only. So a state that is dropped because of the table was popped before, and what it leads to
has been found then: it does not matter which states the table has lost. -/
structure Closed (syst : System st act) (d : Search st) : Prop where
  start : d.Found syst.gbst
  succs : ∀ s ∈ d.popped, ∀ t, Succ syst s t → d.Found t
  visited : ∀ k s, d.visited.lookup k = some s → s ∈ d.popped

theorem Search.Found.dfsStep {t : st} (hd : d.todo = (i, s) :: ss)
    (h : Poet.dfsStep hash syst d i s ss = .ok d') (ht : d.Found t) : d'.Found t := by
  obtain ⟨hp, hcases⟩ := dfsStep_cases h
  have htodo : ∀ j, (j, t) ∈ ss → (j, t) ∈ d'.todo := by
    intro j hj
    obtain ⟨-, -, htodo⟩ | ⟨-, ⟨-, -, htodo⟩ | ⟨ts, -, -, -, htodo⟩⟩ := hcases <;> simp [htodo, hj]
  obtain ht | ⟨j, hj⟩ := ht
  · left
    simp [hp, ht]
  · rw [hd, List.mem_cons] at hj
    obtain heq | hj := hj
    · left
      simp [hp, (Prod.mk.inj heq).2]
    · exact .inr ⟨j, htodo j hj⟩

theorem Closed.dfsStep (hd : d.todo = (i, s) :: ss) (h : Poet.dfsStep hash syst d i s ss = .ok d')
    (hc : Closed syst d) : Closed syst d' := by
  obtain ⟨hp, hcases⟩ := dfsStep_cases h
  refine ⟨hc.start.dfsStep hd h, ?_, ?_⟩
  · intro x hx t hxt
    have hold : x ∈ d.popped → d'.Found t := fun hx => (hc.succs x hx t hxt).dfsStep hd h
    rw [hp, List.mem_cons] at hx
    obtain rfl | hx := hx
    · obtain ⟨hv, -, -⟩ | ⟨-, ⟨he, -, -⟩ | ⟨ts, -, he, -, htodo⟩⟩ := hcases
      · exact hold (hc.visited _ _ hv)
      · obtain ⟨ts, j, hts, hj⟩ := hxt
        simp_all
      · obtain ⟨ts', j, hts, hj⟩ := hxt
        obtain rfl := Except.ok.inj (he.symm.trans hts)
        exact .inr ⟨j, by simp [htodo, hj]⟩
    · exact hold hx
  · intro k x hx
    rw [hp, List.mem_cons]
    obtain ⟨-, hv, -⟩ | ⟨-, ⟨-, hv, -⟩ | ⟨ts, -, -, hv, -⟩⟩ := hcases
    · exact .inr (hc.visited k x (hv ▸ hx))
    · exact .inr (hc.visited k x (hv ▸ hx))
    · rw [hv, OrdMap.lookup_insert] at hx
      split at hx
      · exact .inl (Option.some.inj hx).symm
      · exact .inr (hc.visited k x hx)

theorem dfs_cons {n : Nat} (hd : d.todo = (i, s) :: ss) :
    dfs hash syst (n + 1) d =
      match dfsStep hash syst d i s ss with
      | .error e => .error (.domain e)
      | .ok d' => dfs hash syst n d' := by
  rw [dfs, hd]

theorem dfs_nil {n : Nat} (hd : d.todo = []) : dfs hash syst n d = .ok d := by
  cases n <;> simp [dfs, hd]

theorem Closed.dfs {fuel : Nat} (hc : Closed syst d) (h : Poet.dfs hash syst fuel d = .ok d') :
    Closed syst d' ∧ d'.todo = [] := by
  induction fuel generalizing d with
  | zero =>
    cases hd : d.todo with
    | nil =>
      rw [dfs_nil hd] at h
      obtain rfl := Except.ok.inj h
      exact ⟨hc, hd⟩
    | cons p ss => simp [Poet.dfs, hd] at h
  | succ n ih =>
    cases hd : d.todo with
    | nil =>
      rw [dfs_nil hd] at h
      obtain rfl := Except.ok.inj h
      exact ⟨hc, hd⟩
    | cons p ss =>
      rw [dfs_cons hd] at h
      split at h
      · cases h
      · rename_i d1 hp
        exact ih (hc.dfsStep hd hp) h

theorem closed_init (syst : System st act) : Closed syst (Search.init syst) where
  start := .inr ⟨0, by simp [Search.init]⟩
  succs := by simp [Search.init]
  visited := by simp [Search.init, OrdMap.empty, OrdMap.lookup, OrdMap.lookupList]

/-- **Completeness.** A search that ends has popped every reachable state, whatever states share a
hash value. -/
theorem dfs_complete (hash : st → Int) (syst : System st act) (fuel : Nat) (d : Search st)
    (h : dfs hash syst fuel (Search.init syst) = .ok d) (t : st) (ht : Reachable syst t) :
    t ∈ d.popped := by
  obtain ⟨hc, hd⟩ := (closed_init syst).dfs h
  have hfound : ∀ t, d.Found t → t ∈ d.popped := by
    intro t ht
    obtain ht | ⟨i, hi⟩ := ht
    · exact ht
    · simp [hd] at hi
  induction ht with
  | refl => exact hfound _ hc.start
  | tail _ hst ih => exact hfound _ (hc.succs _ ih _ hst)

/-! ## Termination -/

/-- The search ends, with its result or at an `error` of the domain. -/
def Ends (hash : st → Int) (syst : System st act) (d : Search st) : Prop :=
  ∃ N, ∀ n, N ≤ n → dfs hash syst n d ≠ .error .outOfFuel

theorem ends_nil (hd : d.todo = []) : Ends hash syst d := by
  refine ⟨0, fun n _ => ?_⟩
  rw [dfs_nil hd]
  simp

theorem ends_cons (hd : d.todo = (i, s) :: ss)
    (h : ∀ d', dfsStep hash syst d i s ss = .ok d' → Ends hash syst d') : Ends hash syst d := by
  have hbound : ∃ N, ∀ n, N ≤ n → dfs hash syst (n + 1) d ≠ .error .outOfFuel := by
    simp only [dfs_cons hd]
    cases hp : dfsStep hash syst d i s ss with
    | error e => exact ⟨0, fun n _ => by simp⟩
    | ok d' => exact h d' hp
  obtain ⟨N, hN⟩ := hbound
  refine ⟨N + 1, fun n hn => ?_⟩
  obtain ⟨m, rfl⟩ : ∃ m, n = m + 1 := ⟨n - 1, by omega⟩
  exact hN m (by omega)

/-- The states of `P` that lie on a cycle are in the table. -/
def Kept (hash : st → Int) (syst : System st act) (P : Finset st) (d : Search st) : Prop :=
  ∀ a ∈ P, Relation.TransGen (Succ syst) a a → d.visited.lookup (hash a) = some a

/-- Where a state on a cycle leads to no other state that is recorded under its hash value. -/
def NoEviction (hash : st → Int) (syst : System st act) : Prop :=
  ∀ a b, Reachable syst a → Relation.TransGen (Succ syst) a a →
    Relation.ReflTransGen (Succ syst) a b → (∃ t, Succ syst b t) → hash b = hash a → b = a

variable {P : Finset st} {rest : List (TId × st)}

/-- Recording `s` below the path `P` leaves the states of `P` in the table, and adds `s`. -/
theorem Kept.insert (hne : NoEviction hash syst) (hk : Kept hash syst P d)
    (hreach : ∀ a ∈ P, Reachable syst a) (hpath : ∀ a ∈ P, Relation.TransGen (Succ syst) a s)
    (hs : ∃ t, Succ syst s t) (hv : d'.visited = d.visited.insert (hash s) s) :
    Kept hash syst (Insert.insert s P) d' := by
  intro a ha hcycle
  rw [hv, OrdMap.lookup_insert]
  rw [Finset.mem_insert] at ha
  by_cases has : a = s
  · simp [has]
  · have haP : a ∈ P := ha.resolve_left has
    have hhash : hash a ≠ hash s := fun h =>
      has (hne a s (hreach a haP) hcycle (hpath a haP).to_reflTransGen hs h.symm).symm
    rw [if_neg hhash]
    exact hk a haP hcycle

theorem Kept.mono {Q : Finset st} (hPQ : P ⊆ Q) (hk : Kept hash syst Q d) : Kept hash syst P d :=
  fun a ha => hk a (hPQ ha)

/-- If the search ends from every child with what follows it, then it ends from their list. -/
theorem ends_append {ok : st → Prop}
    (hchild : ∀ d i t rest, ok t → d.todo = (i, t) :: rest → Kept hash syst P d →
      (∀ d', d'.todo = rest → Kept hash syst P d' → Ends hash syst d') → Ends hash syst d)
    (hrest : ∀ d', d'.todo = rest → Kept hash syst P d' → Ends hash syst d')
    (ts : List (TId × st)) (hok : ∀ p ∈ ts, ok p.2) (d : Search st) (hd : d.todo = ts ++ rest)
    (hk : Kept hash syst P d) : Ends hash syst d := by
  induction ts generalizing d with
  | nil => exact hrest d hd hk
  | cons p ts ih =>
    apply hchild d p.1 p.2 (ts ++ rest) (hok p (by simp)) hd hk
    intro d' hd' hk'
    exact ih (fun q hq => hok q (by simp [hq])) d' hd' hk'

/-- The induction is on the number of reachable states that are not on the path `P` to the state
popped. A state that is on the path lies on a cycle, so it is still in the table and is dropped; any
other one is added to the path for its successors. -/
theorem ends_of_path (hne : NoEviction hash syst) (R : Finset st)
    (hR : ∀ t, Reachable syst t → t ∈ R) (n : Nat) :
    ∀ (P : Finset st) (d : Search st) (i : TId) (s : st) (rest : List (TId × st)),
      (R \ P).card < n → Reachable syst s → (∀ a ∈ P, Reachable syst a) →
      (∀ a ∈ P, Relation.TransGen (Succ syst) a s) → d.todo = (i, s) :: rest →
      Kept hash syst P d →
      (∀ d', d'.todo = rest → Kept hash syst P d' → Ends hash syst d') → Ends hash syst d := by
  induction n with
  | zero =>
    intro P d i s rest hcard
    omega
  | succ n ih =>
    intro P d i s rest hcard hs hreach hpath hd hk hrest
    apply ends_cons hd
    intro d' hp
    obtain ⟨-, ⟨-, hv, htodo⟩ | ⟨hc, ⟨-, hv, htodo⟩ | ⟨ts, hne', he, hv, htodo⟩⟩⟩ := dfsStep_cases hp
    · exact hrest d' htodo (by rwa [Kept, hv])
    · exact hrest d' htodo (by rwa [Kept, hv])
    · have hsP : s ∉ P := fun hsP => hc (hk s hsP (hpath s hsP))
      have hsucc : ∀ p ∈ ts, Succ syst s p.2 := fun p hp => ⟨ts, p.1, he, hp⟩
      have hsome : ∃ t, Succ syst s t := by
        obtain ⟨p, hp⟩ := List.exists_mem_of_ne_nil ts hne'
        exact ⟨p.2, hsucc p hp⟩
      have hcard' : (R \ insert s P).card < n := by
        have : (R \ insert s P).card < (R \ P).card := by
          apply Finset.card_lt_card
          rw [Finset.ssubset_iff_of_subset (Finset.sdiff_subset_sdiff subset_rfl (by simp))]
          exact ⟨s, by simp [hR s hs, hsP], by simp⟩
        omega
      -- the children are searched below the path `P`, `s`
      refine ends_append ?_ ?_ ts hsucc d' htodo
        (hk.insert hne hreach hpath hsome hv)
      · intro d i t rest hst
        refine ih (insert s P) d i t rest hcard' (hs.tail hst) ?_ ?_
        · intro a ha
          obtain rfl | ha := Finset.mem_insert.1 ha
          · exact hs
          · exact hreach a ha
        · intro a ha
          obtain rfl | ha := Finset.mem_insert.1 ha
          · exact .single hst
          · exact (hpath a ha).tail hst
      · intro d' htodo' hk'
        exact hrest d' htodo' (hk'.mono (by simp))

/-- **Termination** over finitely many reachable states, if the search can not lose a state on a
cycle from the table. -/
theorem dfs_terminates (hash : st → Int) (syst : System st act)
    (hfin : {t | Reachable syst t}.Finite) (hne : NoEviction hash syst) :
    ∃ N, ∀ n, N ≤ n → dfs hash syst n (Search.init syst) ≠ .error .outOfFuel := by
  refine ends_of_path hne hfin.toFinset (by simp) _ ∅ (Search.init syst) 0 syst.gbst []
    (Nat.lt_succ_self _) .refl (by simp) (by simp) rfl ?_ ?_
  · simp [Kept]
  · intro d' hd' _
    exact ends_nil hd'

end Dfs

/-! ## A search that does not end

One thread changes the upper bound of a variable from `1` to `+∞` and back. The two bounds have the
same hash value, so each of the two states replaces the other in the table. -/

section Bound

/-- The bound of the variable. -/
structure Bound where
  val : InterVal
deriving DecidableEq, Repr

def Bound.next (s : Bound) : Bound := if s.val = .i 1 then ⟨.plusInf⟩ else ⟨.i 1⟩

instance : LatticeM Bound where
  join a b := .ok ⟨max a.val b.val⟩
  leq a b := .ok (a.val ≤ b.val)
  isBot _ := false
  widen _ _ := .ok ⟨.plusInf⟩

instance : Projection Bound where
  controlPart _ := [(0, 0)]
  toThCFGSym _ _ := .ok ⟨0⟩

instance : Domain Bound (Act Int) where
  isEnabled _ s _ := .ok (some s.next)
  run _ _ _ s _ := .ok ([], [(s.next, 0, Act.bot)])

def boundSystem : System Bound (Act Int) where
  gbst := ⟨.i 1⟩
  gbac := Act.bot
  cfgs := []
  symt := []

theorem enabled_boundSystem (s : Bound) : Domain.enabled boundSystem s = .ok [(0, s.next)] := rfl

theorem reachable_boundSystem {t : Bound} (h : Reachable boundSystem t) :
    t ∈ [⟨.i 1⟩, (⟨.plusInf⟩ : Bound)] := by
  induction h with
  | refl => decide
  | tail _ hst _ =>
    obtain ⟨ts, i, he, hi⟩ := hst
    obtain rfl := Except.ok.inj he
    obtain ⟨-, rfl⟩ := Prod.mk.inj (List.mem_singleton.1 hi)
    unfold Bound.next
    split <;> decide

theorem finite_boundSystem : {t | Reachable boundSystem t}.Finite :=
  (List.finite_toSet _).subset fun _ h => reachable_boundSystem h

/-- The state popped is never in the table: its place is taken by the state before it. -/
theorem dfs_bound (n : Nat) (d : Search Bound) (i : TId) (s : Bound) (hd : d.todo = [(i, s)])
    (hs : s ∈ [⟨.i 1⟩, (⟨.plusInf⟩ : Bound)]) (hv : d.visited.lookup 1 ≠ some s) :
    dfs (fun s => s.val.hash) boundSystem n d = .error .outOfFuel := by
  induction n generalizing d i s with
  | zero => simp [dfs, hd]
  | succ n ih =>
    have hhash : s.val.hash = 1 := by
      simp only [List.mem_cons, List.not_mem_nil, or_false] at hs
      obtain rfl | rfl := hs <;> rfl
    have hnext : s.next ∈ [⟨.i 1⟩, (⟨.plusInf⟩ : Bound)] ∧ s ≠ s.next := by
      simp only [List.mem_cons, List.not_mem_nil, or_false] at hs
      obtain rfl | rfl := hs <;> decide
    have hcut : isCutoff (fun s => s.val.hash) s d.visited = false := by
      rw [Bool.eq_false_iff]
      intro hc
      rw [isCutoff_iff, hhash] at hc
      exact hv hc
    rw [dfs_cons hd]
    simp only [dfsStep, hcut, enabled_boundSystem]
    refine ih _ 0 s.next rfl hnext.1 ?_
    show (d.visited.insert s.val.hash s).lookup 1 ≠ some s.next
    rw [hhash, OrdMap.lookup_insert, if_pos rfl]
    exact fun h => hnext.2 (Option.some.inj h)

theorem boundSystem_diverges :
    {t | Reachable boundSystem t}.Finite ∧
      ∀ n, dfs (fun s : Bound => s.val.hash) boundSystem n (Search.init boundSystem) =
        .error .outOfFuel :=
  ⟨finite_boundSystem, fun n => dfs_bound n _ 0 ⟨.i 1⟩ rfl (by decide) (by decide)⟩

/-- A hash function that tells the two states apart. -/
def Bound.hash (s : Bound) : Int := if s.val = .plusInf then 2 else s.val.hash

theorem noEviction_boundSystem : NoEviction Bound.hash boundSystem := by
  intro a b ha _ hab _ hhash
  have ha' := reachable_boundSystem ha
  have hb' := reachable_boundSystem (Relation.ReflTransGen.trans ha hab)
  simp only [List.mem_cons, List.not_mem_nil, or_false] at ha' hb'
  obtain rfl | rfl := ha' <;> obtain rfl | rfl := hb' <;> first | rfl | exact absurd hhash (by decide)

theorem boundSystem_terminates :
    ∃ N, ∀ n, N ≤ n → dfs Bound.hash boundSystem n (Search.init boundSystem) ≠
      .error .outOfFuel :=
  dfs_terminates Bound.hash boundSystem finite_boundSystem noEviction_boundSystem

theorem boundSystem_complete :
    ∃ d, dfs Bound.hash boundSystem 3 (Search.init boundSystem) = .ok d ∧
      (⟨.plusInf⟩ : Bound) ∈ d.popped :=
  ⟨_, rfl, dfs_complete Bound.hash boundSystem 3 _ rfl _
    (.single ⟨_, 0, rfl, List.mem_singleton_self _⟩)⟩

end Bound

end Poet
