import Mathlib.Data.List.Induction
import Mathlib.Data.List.Nodup
import Poet.Lib.ListOps

/-!
# Maps as ordered association lists

`Data.Map` from its interface: a map is what `toList` gives. `insert` walks the list from the left,
replaces the value of an equal key and otherwise stops at the first key it compares below. `before`
is the test `compare k l == LT` of the key type; nothing here assumes that it is an order, so a key
type whose comparison is none can be used, and the lemmas about `lookup` still hold.

Where the comparison is a total order this is `Data.Map`. Where it is not, the tree of `Data.Map`
decides which comparisons are made; `toList_fromList` then only uses comparisons that have one
answer for all pairs of keys in question.
-/

namespace Poet

/-- The comparison of a key type: `compare a b == LT`. -/
class OrdKey (α : Type) where
  before : α → α → Bool

instance : OrdKey Int := ⟨fun a b => a < b⟩

instance : OrdKey Nat := ⟨fun a b => a < b⟩

/-- The comparison is a strict total order. -/
class TotalKey (α : Type) [OrdKey α] : Prop where
  asymm : ∀ {a b : α}, OrdKey.before a b = true → OrdKey.before b a = false
  trans : ∀ {a b c : α}, OrdKey.before a b = true → OrdKey.before b c = true →
    OrdKey.before a c = true
  total : ∀ {a b : α}, a ≠ b → OrdKey.before a b = true ∨ OrdKey.before b a = true

instance : TotalKey Int where
  asymm h := by
    simp only [OrdKey.before, decide_eq_true_eq, decide_eq_false_iff_not] at *
    omega
  trans h h' := by
    simp only [OrdKey.before, decide_eq_true_eq] at *
    omega
  total h := by
    simp only [OrdKey.before, decide_eq_true_eq]
    omega

instance : TotalKey Nat where
  asymm h := by
    simp only [OrdKey.before, decide_eq_true_eq, decide_eq_false_iff_not] at *
    omega
  trans h h' := by
    simp only [OrdKey.before, decide_eq_true_eq] at *
    omega
  total h := by
    simp only [OrdKey.before, decide_eq_true_eq]
    omega

structure OrdMap (α β : Type) where
  toList : List (α × β)
deriving DecidableEq, Repr

namespace OrdMap

variable {α β γ : Type}

def empty : OrdMap α β := ⟨[]⟩

def keys (m : OrdMap α β) : List α := m.toList.map (·.1)

def elems (m : OrdMap α β) : List β := m.toList.map (·.2)

def size (m : OrdMap α β) : Nat := m.toList.length

def map (f : β → γ) (m : OrdMap α β) : OrdMap α γ := ⟨m.toList.map fun p => (p.1, f p.2)⟩

variable [DecidableEq α]

def lookupList (k : α) : List (α × β) → Option β
  | [] => none
  | (l, v) :: m => if k = l then some v else lookupList k m

def lookup (m : OrdMap α β) (k : α) : Option β := lookupList k m.toList

variable [OrdKey α]

def insertList (k : α) (v : β) : List (α × β) → List (α × β)
  | [] => [(k, v)]
  | (l, w) :: m =>
    if k = l then (k, v) :: m
    else if OrdKey.before k l then (k, v) :: (l, w) :: m
    else (l, w) :: insertList k v m

def insert (m : OrdMap α β) (k : α) (v : β) : OrdMap α β := ⟨insertList k v m.toList⟩

def fromList (l : List (α × β)) : OrdMap α β := l.foldl (fun m p => m.insert p.1 p.2) empty

/-- `M.update (Just . f) k`. -/
def adjust (m : OrdMap α β) (k : α) (f : β → β) : OrdMap α β :=
  match m.lookup k with
  | none => m
  | some v => m.insert k (f v)

/-- Adds one entry of the second map to the union. -/
def unionStep {ε : Type} (f : β → β → Except ε β) (m1 m : OrdMap α β) (p : α × β) :
    Except ε (OrdMap α β) :=
  match m1.lookup p.1 with
  | none => .ok (m.insert p.1 p.2)
  | some v => do return m.insert p.1 (← f v p.2)

/-- `M.unionWith f`, for an `f` that can fail. -/
def unionWithM {ε : Type} (f : β → β → Except ε β) (m1 m2 : OrdMap α β) :
    Except ε (OrdMap α β) :=
  m2.toList.foldlM (unionStep f m1) m1

omit [OrdKey α] in
@[simp] theorem lookup_empty (k : α) : (empty : OrdMap α β).lookup k = none := rfl

theorem lookupList_insertList (k l : α) (v : β) (m : List (α × β)) :
    lookupList l (insertList k v m) = if l = k then some v else lookupList l m := by
  induction m with
  | nil => rfl
  | cons p m ih =>
    obtain ⟨j, w⟩ := p
    simp only [insertList]
    by_cases hkj : k = j
    · subst hkj
      by_cases hl : l = k <;> simp [lookupList, hl]
    · by_cases hb : OrdKey.before k j
      · by_cases hl : l = k <;> simp [lookupList, hkj, hb, hl]
      · by_cases hl : l = k
        · subst hl
          simp [lookupList, hkj, hb, ih]
        · simp [lookupList, hkj, hb, hl, ih]

@[simp] theorem lookup_insert (m : OrdMap α β) (k l : α) (v : β) :
    (m.insert k v).lookup l = if l = k then some v else m.lookup l :=
  lookupList_insertList k l v m.toList

theorem lookup_adjust (m : OrdMap α β) (k l : α) (f : β → β) :
    (m.adjust k f).lookup l = if l = k then (m.lookup l).map f else m.lookup l := by
  unfold adjust
  by_cases hl : l = k
  · subst hl
    cases h : m.lookup l <;> simp [h]
  · cases m.lookup k <;> simp [hl]

omit [OrdKey α] in
theorem lookup_map (m : OrdMap α β) (f : β → γ) (k : α) :
    (m.map f).lookup k = (m.lookup k).map f := by
  obtain ⟨l⟩ := m
  show lookupList k (l.map fun p => (p.1, f p.2)) = (lookupList k l).map f
  induction l with
  | nil => rfl
  | cons p l ih =>
    simp only [List.map_cons, lookupList]
    split <;> simp [ih]

omit [OrdKey α] in
theorem mem_of_lookup {m : OrdMap α β} {k : α} {v : β} (h : m.lookup k = some v) :
    (k, v) ∈ m.toList := by
  obtain ⟨l⟩ := m
  induction l with
  | nil => cases h
  | cons p l ih =>
    obtain ⟨j, w⟩ := p
    change (if k = j then some w else lookupList k l) = some v at h
    split at h
    · rename_i hk
      obtain rfl := Option.some.inj h
      exact hk ▸ List.mem_cons_self
    · exact List.mem_cons_of_mem _ (ih h)

omit [OrdKey α] in
theorem mem_keys {m : OrdMap α β} {k : α} : k ∈ m.keys ↔ ∃ v, m.lookup k = some v := by
  constructor
  · obtain ⟨l⟩ := m
    intro h
    change k ∈ l.map (·.1) at h
    show ∃ v, lookupList k l = some v
    induction l with
    | nil => simp at h
    | cons p l ih =>
      simp only [lookupList]
      split
      · exact ⟨p.2, rfl⟩
      · next hk => exact ih ((List.mem_cons.1 h).resolve_left hk)
  · rintro ⟨v, h⟩
    exact List.mem_map.2 ⟨_, mem_of_lookup h, rfl⟩

theorem mem_insert {m : OrdMap α β} {k : α} {v : β} {p : α × β} (h : p ∈ (m.insert k v).toList) :
    p = (k, v) ∨ p ∈ m.toList := by
  obtain ⟨l⟩ := m
  change p ∈ insertList k v l at h
  induction l with
  | nil => simpa [insertList] using h
  | cons q l ih =>
    obtain ⟨j, w⟩ := q
    simp only [insertList] at h
    split at h
    · rcases List.mem_cons.1 h with h | h
      · exact .inl h
      · exact .inr (List.mem_cons_of_mem _ h)
    · split at h
      · exact List.mem_cons.1 h
      · rcases List.mem_cons.1 h with h | h
        · exact .inr (h ▸ List.mem_cons_self)
        · exact (ih h).imp_right (List.mem_cons_of_mem _)

/-- A key that is new and before no other one goes to the end. -/
theorem toList_insert_last {m : OrdMap α β} {k : α} {v : β}
    (h : ∀ p ∈ m.toList, k ≠ p.1 ∧ OrdKey.before k p.1 = false) :
    (m.insert k v).toList = m.toList ++ [(k, v)] := by
  obtain ⟨l⟩ := m
  show insertList k v l = l ++ [(k, v)]
  induction l with
  | nil => rfl
  | cons q l ih =>
    obtain ⟨j, w⟩ := q
    obtain ⟨hne, hb⟩ := h (j, w) List.mem_cons_self
    rw [insertList, if_neg hne, hb, if_neg Bool.false_ne_true,
      ih fun p hp => h p (List.mem_cons_of_mem _ hp)]
    rfl

/-- A list in which no key equals or compares below an earlier one is kept as it is. -/
theorem toList_fromList {l : List (α × β)}
    (h : l.Pairwise fun p q => q.1 ≠ p.1 ∧ OrdKey.before q.1 p.1 = false) :
    (fromList l).toList = l := by
  -- from any map whose keys come before those of the list
  have hgen (m : OrdMap α β) (hm : (m.toList ++ l).Pairwise
      fun p q => q.1 ≠ p.1 ∧ OrdKey.before q.1 p.1 = false) :
      (l.foldl (fun m p => m.insert p.1 p.2) m).toList = m.toList ++ l := by
    clear h
    induction l generalizing m with
    | nil => simp
    | cons p l ih =>
      have hlast : (m.insert p.1 p.2).toList = m.toList ++ [p] :=
        toList_insert_last fun q hq => (List.pairwise_append.1 hm).2.2 q hq p List.mem_cons_self
      rw [List.foldl_cons, ih _ (by rwa [hlast, List.append_assoc]), hlast, List.append_assoc]
      rfl
  exact hgen empty (by simpa [empty] using h)

/-- What holds of the values of two maps, and of `f` on them, holds of the values of the union. -/
theorem forall_unionWithM {ε : Type} {f : β → β → Except ε β} {P : β → Prop} {m1 m2 m : OrdMap α β}
    (h1 : ∀ p ∈ m1.toList, P p.2) (h2 : ∀ p ∈ m2.toList, P p.2)
    (hf : ∀ v w u, P v → P w → f v w = .ok u → P u) (hm : unionWithM f m1 m2 = .ok m) :
    ∀ p ∈ m.toList, P p.2 := by
  refine foldlM_inv (I := fun m : OrdMap α β => ∀ p ∈ m.toList, P p.2) ?_ h1 hm
  intro m p hp m' hm hstep
  unfold unionStep at hstep
  -- the new value is that of the second map, or `f` of the two
  split at hstep
  · obtain rfl := Except.ok.inj hstep
    intro q hq
    rcases mem_insert hq with rfl | hq
    · exact h2 p hp
    · exact hm q hq
  · rename_i v hlook
    obtain ⟨u, hu, hstep⟩ := bind_eq_ok.1 hstep
    obtain rfl := Except.ok.inj hstep
    intro q hq
    rcases mem_insert hq with rfl | hq
    · exact hf v p.2 u (h1 _ (mem_of_lookup hlook)) (h2 p hp) hu
    · exact hm q hq

/-- A union fails only where `f` fails on a value of each map. -/
theorem exists_of_unionWithM_error {ε : Type} {f : β → β → Except ε β} {m1 m2 : OrdMap α β} {e : ε}
    (h : unionWithM f m1 m2 = .error e) :
    ∃ p ∈ m1.toList, ∃ q ∈ m2.toList, f p.2 q.2 = .error e := by
  obtain ⟨m, q, hq, hstep⟩ := exists_of_foldlM_error h
  unfold unionStep at hstep
  split at hstep
  · cases hstep
  · rename_i v hlook
    cases hf : f v q.2 with
    | error e' =>
      rw [hf] at hstep
      obtain rfl : e' = e := Except.error.inj hstep
      exact ⟨_, mem_of_lookup hlook, q, hq, hf⟩
    | ok u =>
      rw [hf] at hstep
      cases hstep

/-! ## Maps with ordered lists -/

/-- No key equals an earlier one or compares below it. The lists of `Data.Map` are such. -/
def Ordered (m : OrdMap α β) : Prop :=
  m.toList.Pairwise fun p q => q.1 ≠ p.1 ∧ OrdKey.before q.1 p.1 = false

omit [DecidableEq α] in
theorem Ordered.nodup_keys {m : OrdMap α β} (h : m.Ordered) : m.keys.Nodup := by
  unfold keys List.Nodup
  rw [List.pairwise_map]
  exact h.imp fun hpq => hpq.1.symm

omit [OrdKey α] in
theorem lookupList_of_mem {l : List (α × β)} (h : (l.map (·.1)).Nodup) {p : α × β} (hp : p ∈ l) :
    lookupList p.1 l = some p.2 := by
  induction l with
  | nil => cases hp
  | cons q l ih =>
    obtain ⟨hq, hl⟩ := List.nodup_cons.1 h
    rcases List.mem_cons.1 hp with rfl | hp
    · simp [lookupList]
    · have hne : p.1 ≠ q.1 := by
        intro heq
        exact hq (List.mem_map.2 ⟨p, hp, heq⟩)
      simp [lookupList, hne, ih hl hp]

omit [OrdKey α] in
theorem lookupList_append (k : α) (l l' : List (α × β)) :
    lookupList k (l ++ l') = (lookupList k l).or (lookupList k l') := by
  induction l with
  | nil => simp [lookupList]
  | cons q l ih =>
    simp only [List.cons_append, lookupList, ih]
    split <;> simp

omit [OrdKey α] in
theorem lookupList_eq_none {k : α} {l : List (α × β)} (h : k ∉ l.map (·.1)) :
    lookupList k l = none := by
  cases hlook : lookupList k l with
  | none => rfl
  | some w => exact absurd (List.mem_map_of_mem (mem_of_lookup (m := ⟨l⟩) hlook)) h

/-- A key that is there keeps its place. -/
theorem Ordered.toList_insert {m : OrdMap α β} (h : m.Ordered) {k : α} (hk : k ∈ m.keys) (v : β) :
    (m.insert k v).toList = m.toList.map fun p => if p.1 = k then (k, v) else p := by
  obtain ⟨l⟩ := m
  change l.Pairwise _ at h
  change k ∈ l.map (·.1) at hk
  show insertList k v l = l.map _
  induction l with
  | nil => simp at hk
  | cons q l ih =>
    obtain ⟨hq, hl⟩ := List.pairwise_cons.1 h
    by_cases hqk : k = q.1
    · -- the other keys are different
      have hrest : ∀ p ∈ l, (if p.1 = k then (k, v) else p) = p := fun p hp =>
        if_neg (hqk ▸ (hq p hp).1)
      have hhead : (if q.1 = k then (k, v) else q) = (k, v) := if_pos hqk.symm
      rw [List.map_cons, List.map_congr_left hrest, List.map_id', hhead]
      obtain ⟨j, w⟩ := q
      exact if_pos hqk
    · have hkl : k ∈ l.map (·.1) := (List.mem_cons.1 hk).resolve_left hqk
      obtain ⟨p, hp, rfl⟩ := List.mem_map.1 hkl
      rw [List.map_cons, if_neg (Ne.symm hqk), ← ih hl hkl]
      obtain ⟨j, w⟩ := q
      simp [insertList, hqk, (hq p hp).2]

/-- An entry of the first map of a union. -/
def merged (g : β → β → β) (l : List (α × β)) (p : α × β) : α × β :=
  (p.1, ((lookupList p.1 l).map (g p.2)).getD p.2)

theorem foldlM_unionStep {ε : Type} {f : β → β → Except ε β} {g : β → β → β} {m1 : OrdMap α β}
    (h1 : m1.Ordered) (l : List (α × β)) (hnd : (l.map (·.1)).Nodup)
    (hl : ∀ q ∈ l, ∃ v, m1.lookup q.1 = some v ∧ f v q.2 = .ok (g v q.2)) :
    ∃ m, l.foldlM (unionStep f m1) m1 = .ok m ∧ m.toList = m1.toList.map (merged g l) := by
  -- over the prefixes of the second list
  induction l using List.reverseRecOn with
  | nil =>
    refine ⟨m1, rfl, ?_⟩
    exact (List.map_id'' (fun p => by simp [merged, lookupList]) m1.toList).symm
  | append_singleton l q ih =>
    rw [List.map_append, List.nodup_append] at hnd
    obtain ⟨m, hm, htl⟩ := ih hnd.1 fun q' hq' => hl q' (List.mem_append_left _ hq')
    obtain ⟨v, hv, hf⟩ := hl q (List.mem_append_right _ List.mem_cons_self)
    have hstep : unionStep f m1 m q = .ok (m.insert q.1 (g v q.2)) := by
      simp [unionStep, hv, hf]
    refine ⟨m.insert q.1 (g v q.2), by simp [List.foldlM_append, hm, hstep], ?_⟩
    have hord : m.Ordered := by
      unfold Ordered
      rw [htl, List.pairwise_map]
      exact h1
    have hkey : q.1 ∈ m.keys := by
      unfold keys
      rw [htl, List.map_map]
      exact List.mem_map.2 ⟨_, mem_of_lookup hv, rfl⟩
    rw [hord.toList_insert hkey, htl, List.map_map]
    refine List.map_congr_left fun p hp => ?_
    have hnew : lookupList q.1 l = none :=
      lookupList_eq_none fun hmem => hnd.2.2 _ hmem _ List.mem_cons_self rfl
    show (if (merged g l p).1 = q.1 then (q.1, g v q.2) else merged g l p) = merged g (l ++ [q]) p
    by_cases hpq : p.1 = q.1
    · have hpv : p.2 = v := by
        have hlook := lookupList_of_mem h1.nodup_keys hp
        exact Option.some.inj (hlook.symm.trans (hpq ▸ hv))
      simp [merged, lookupList_append, lookupList, hpq, hnew, hpv]
    · simp [merged, lookupList_append, lookupList, hpq]

/-- The union of two maps, the second of which has no new keys. -/
theorem unionWithM_eq {ε : Type} {f : β → β → Except ε β} {g : β → β → β} {m1 m2 : OrdMap α β}
    (h1 : m1.Ordered) (h2 : m2.Ordered)
    (hf : ∀ q ∈ m2.toList, ∃ v, m1.lookup q.1 = some v ∧ f v q.2 = .ok (g v q.2)) :
    ∃ m, unionWithM f m1 m2 = .ok m ∧ m.toList = m1.toList.map (merged g m2.toList) :=
  foldlM_unionStep h1 m2.toList h2.nodup_keys hf

/-! ## Maps over a total order -/

variable [TotalKey α]

omit [DecidableEq α] in
theorem before_of_later {a b : α} (hne : b ≠ a) (hb : OrdKey.before b a = false) :
    OrdKey.before a b = true :=
  (TotalKey.total hne.symm).resolve_right (by simp [hb])

theorem Ordered.insert {m : OrdMap α β} (h : m.Ordered) (k : α) (v : β) : (m.insert k v).Ordered := by
  obtain ⟨l⟩ := m
  change l.Pairwise _ at h
  show (insertList k v l).Pairwise _
  induction l with
  | nil => simp [insertList]
  | cons q l ih =>
    obtain ⟨j, u⟩ := q
    obtain ⟨hq, hl⟩ := List.pairwise_cons.1 h
    by_cases hkj : k = j
    · subst hkj
      simp only [insertList, if_true]
      exact List.pairwise_cons.2 ⟨hq, hl⟩
    by_cases hb : OrdKey.before k j = true
    · simp only [insertList, hkj, hb, if_false, if_true]
      -- what comes after `j` comes after `k`
      refine List.pairwise_cons.2 ⟨fun p hp => ?_, h⟩
      have hkp : OrdKey.before k p.1 = true := by
        rcases List.mem_cons.1 hp with rfl | hp
        · exact hb
        · exact TotalKey.trans hb (before_of_later (hq p hp).1 (hq p hp).2)
      refine ⟨?_, TotalKey.asymm hkp⟩
      rintro rfl
      simp [TotalKey.asymm hkp] at hkp
    · simp only [insertList, hkj, hb, if_false]
      refine List.pairwise_cons.2 ⟨fun p hp => ?_, ih hl⟩
      rcases mem_insert (m := ⟨l⟩) hp with rfl | hp
      · exact ⟨hkj, by simpa using hb⟩
      · exact hq p hp

/-- A map over a total order is what `lookup` says. -/
theorem Ordered.ext {m m' : OrdMap α β} (h : m.Ordered) (h' : m'.Ordered)
    (hl : ∀ k, m.lookup k = m'.lookup k) : m = m' := by
  have hmem : ∀ p, p ∈ m.toList ↔ p ∈ m'.toList := by
    intro p
    constructor
    · intro hp
      exact mem_of_lookup ((hl p.1).symm.trans (lookupList_of_mem h.nodup_keys hp))
    · intro hp
      exact mem_of_lookup ((hl p.1).trans (lookupList_of_mem h'.nodup_keys hp))
  have hperm : m.toList.Perm m'.toList :=
    (List.perm_ext_iff_of_nodup h.nodup_keys.of_map h'.nodup_keys.of_map).2 hmem
  have heq : m.toList = m'.toList := by
    refine hperm.eq_of_pairwise (fun p q _ _ hpq hqp => ?_) h h'
    have hb := before_of_later hpq.1 hpq.2
    simp [hqp.2] at hb
  obtain ⟨l⟩ := m
  obtain ⟨l'⟩ := m'
  exact congrArg OrdMap.mk heq

omit [DecidableEq α] [TotalKey α] in
theorem ordered_empty : (empty : OrdMap α β).Ordered := List.Pairwise.nil

/-! ## The entries of a list by position -/

section Indexed

variable {β : Type}

def indexed (l : List β) : OrdMap Nat β := ⟨l.zipIdx.map fun p => (p.2, p.1)⟩

theorem keys_indexed (l : List β) : (indexed l).keys = List.range l.length := by
  simp only [keys, indexed, List.map_map, List.range_eq_range']
  exact List.zipIdx_map_snd 0 l

@[simp] theorem elems_indexed (l : List β) : (indexed l).elems = l := by
  simp only [elems, indexed, List.map_map]
  exact List.zipIdx_map_fst 0 l

theorem mem_indexed {l : List β} {i : Nat} {b : β} :
    (i, b) ∈ (indexed l).toList ↔ l[i]? = some b := by
  simp [indexed, List.mem_zipIdx_iff_getElem?]

theorem ordered_indexed (l : List β) : (indexed l).Ordered := by
  have hlt : (indexed l).keys.Pairwise (· < ·) := by
    rw [keys_indexed]
    exact List.pairwise_lt_range
  unfold keys at hlt
  rw [List.pairwise_map] at hlt
  refine hlt.imp fun hpq => ⟨Nat.ne_of_gt hpq, ?_⟩
  simpa [OrdKey.before] using Nat.le_of_lt hpq

@[simp] theorem lookup_indexed (l : List β) (i : Nat) : (indexed l).lookup i = l[i]? := by
  cases h : l[i]? with
  | none =>
    refine lookupList_eq_none fun hmem => ?_
    change i ∈ (indexed l).keys at hmem
    rw [keys_indexed, List.mem_range] at hmem
    simp [List.getElem?_eq_getElem hmem] at h
  | some b =>
    exact lookupList_of_mem (p := (i, b)) (ordered_indexed l).nodup_keys (mem_indexed.2 h)

theorem indexed_insert {l : List β} {i : Nat} (h : i < l.length) (b : β) :
    (indexed l).insert i b = indexed (l.set i b) := by
  refine ((ordered_indexed l).insert i b).ext (ordered_indexed _) fun k => ?_
  rw [lookup_insert, lookup_indexed, lookup_indexed, List.getElem?_set]
  by_cases hk : k = i
  · simp [hk, h]
  · simp [hk, Ne.symm hk]

theorem indexed_insert_last (l : List β) (b : β) :
    (indexed l).insert l.length b = indexed (l ++ [b]) := by
  refine ((ordered_indexed l).insert l.length b).ext (ordered_indexed _) fun k => ?_
  rw [lookup_insert, lookup_indexed, lookup_indexed]
  rcases Nat.lt_trichotomy k l.length with hk | hk | hk
  · rw [if_neg (Nat.ne_of_lt hk), List.getElem?_append_left hk]
  · simp [hk]
  · rw [if_neg (Nat.ne_of_gt hk), List.getElem?_eq_none (Nat.le_of_lt hk), List.getElem?_eq_none]
    rw [List.length_append, List.length_singleton]
    exact hk

/-- Inserting the entries one after the other, with a counter. -/
theorem foldl_insert_indexed {γ : Type} (f : Nat → γ → β) (l : List γ) :
    l.foldl (fun r c => (r.1.insert r.2 (f r.2 c), r.2 + 1)) (empty, 0) =
      (indexed (l.mapIdx f), l.length) := by
  induction l using List.reverseRecOn with
  | nil => rfl
  | append_singleton l c ih =>
    have hlast := indexed_insert_last (l.mapIdx f) (f l.length c)
    rw [List.length_mapIdx] at hlast
    simp [List.foldl_append, ih, hlast, List.mapIdx_append]

end Indexed

end OrdMap

end Poet
