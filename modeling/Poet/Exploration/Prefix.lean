import Mathlib.Logic.Relation
import Poet.Exploration.API

/-!
# The links of the prefix

The prefix keeps each causal link twice, in `pred` of one event and in `succ` of the other, and each
conflict twice, in the two `icnf` lists. `Linked T P` says that the lists agree, but for the events
of `P`, which are being deleted: their links to others are gone, and their own lists are still
there. A table between two operations is `Linked T []`.
-/

namespace Poet

variable {act : Type}

namespace Events

/-! ## Fields of an event, empty when it is not there -/

def predOf (T : Events act) (e : EventID) : EventsID := ((T.lookup e).map (·.pred)).getD []
def succOf (T : Events act) (e : EventID) : EventsID := ((T.lookup e).map (·.succ)).getD []
def icnfOf (T : Events act) (e : EventID) : EventsID := ((T.lookup e).map (·.icnf)).getD []

variable {T : Events act} {e x : EventID} {ev : Event act}

theorem mem_of_lookup (h : T.lookup e = some ev) : e ∈ T := by
  rw [← AList.lookup_isSome, h]
  rfl

theorem lookup_of_mem (h : e ∈ T) : ∃ ev, T.lookup e = some ev :=
  Option.isSome_iff_exists.1 (AList.lookup_isSome.2 h)

theorem predOf_of_lookup (h : T.lookup e = some ev) : T.predOf e = ev.pred := by simp [predOf, h]
theorem succOf_of_lookup (h : T.lookup e = some ev) : T.succOf e = ev.succ := by simp [succOf, h]
theorem icnfOf_of_lookup (h : T.lookup e = some ev) : T.icnfOf e = ev.icnf := by simp [icnfOf, h]

theorem mem_of_mem_predOf (h : x ∈ T.predOf e) : e ∈ T := by
  rw [← AList.lookup_isSome]
  cases hl : T.lookup e with
  | none => simp [predOf, hl] at h
  | some _ => rfl

theorem mem_of_mem_succOf (h : x ∈ T.succOf e) : e ∈ T := by
  rw [← AList.lookup_isSome]
  cases hl : T.lookup e with
  | none => simp [succOf, hl] at h
  | some _ => rfl

theorem mem_of_mem_icnfOf (h : x ∈ T.icnfOf e) : e ∈ T := by
  rw [← AList.lookup_isSome]
  cases hl : T.lookup e with
  | none => simp [icnfOf, hl] at h
  | some _ => rfl

/-! ## Fields after a write -/

theorem predOf_erase (x : EventID) : predOf (T.erase e) x = if x = e then [] else T.predOf x := by
  by_cases h : x = e
  · subst h; simp [predOf, AList.lookup_erase]
  · simp [predOf, AList.lookup_erase_ne h, h]

theorem succOf_erase (x : EventID) : succOf (T.erase e) x = if x = e then [] else T.succOf x := by
  by_cases h : x = e
  · subst h; simp [succOf, AList.lookup_erase]
  · simp [succOf, AList.lookup_erase_ne h, h]

theorem icnfOf_erase (x : EventID) : icnfOf (T.erase e) x = if x = e then [] else T.icnfOf x := by
  by_cases h : x = e
  · subst h; simp [icnfOf, AList.lookup_erase]
  · simp [icnfOf, AList.lookup_erase_ne h, h]

theorem lt_bound (h : e ∈ T) : e < T.bound := by
  have hk : e ∈ T.keys := h
  unfold bound
  generalize T.keys = ks at hk
  induction ks with
  | nil => cases hk
  | cons k ks ih =>
    simp only [List.map_cons, List.foldr_cons]
    rcases List.mem_cons.1 hk with rfl | hk
    · exact Nat.lt_of_lt_of_le (Nat.lt_succ_self _) (Nat.le_max_left _ _)
    · exact Nat.lt_of_lt_of_le (ih hk) (Nat.le_max_right _ _)

end Events

/-! ## Getters on an event that is there -/

theorem getEvent_ok {T : Events act} {e : EventID} {ev : Event act} (fn : String)
    (h : T.lookup e = some ev) : getEvent fn e T = .ok ev := by
  simp [getEvent, h]

theorem lookup_of_getEvent {T : Events act} {e : EventID} {ev : Event act} {fn : String}
    (h : getEvent fn e T = .ok ev) : T.lookup e = some ev := by
  cases hl : T.lookup e <;> simp_all [getEvent]

theorem getPred_ok {T : Events act} {e : EventID} (h : e ∈ T) :
    getPred e T = .ok (T.predOf e) := by
  obtain ⟨ev, hl⟩ := Events.lookup_of_mem h
  simp [getPred, getEvent, hl, Events.predOf_of_lookup hl]

theorem getSucc_ok {T : Events act} {e : EventID} (h : e ∈ T) :
    getSucc e T = .ok (T.succOf e) := by
  obtain ⟨ev, hl⟩ := Events.lookup_of_mem h
  simp [getSucc, getEvent, hl, Events.succOf_of_lookup hl]

theorem getIcnf_ok {T : Events act} {e : EventID} (h : e ∈ T) :
    getIcnf e T = .ok (T.icnfOf e) := by
  obtain ⟨ev, hl⟩ := Events.lookup_of_mem h
  simp [getIcnf, getEvent, hl, Events.icnfOf_of_lookup hl]

/-! ## Agreement of the lists -/

structure Linked (T : Events act) (P : EventsID) : Prop where
  pred_lt : ∀ {e p}, p ∈ T.predOf e → p < e
  pred_nodup : ∀ e, (T.predOf e).Nodup
  pred_mem : ∀ {e p}, e ∉ P → p ∈ T.predOf e → p ∈ T
  succ_of_pred : ∀ {e p}, e ∉ P → p ∈ T.predOf e → e ∈ T.succOf p
  pred_of_succ : ∀ {e s}, s ∈ T.succOf e → e ∈ T.predOf s ∧ s ∉ P
  succ_nodup : ∀ e, (T.succOf e).Nodup
  icnf_symm : ∀ {e y}, e ∉ P → y ∈ T.icnfOf e → e ∈ T.icnfOf y ∧ y ∉ P
  icnf_irrefl : ∀ e, e ∉ T.icnfOf e
  icnf_nodup : ∀ e, (T.icnfOf e).Nodup

namespace Linked

variable {T : Events act} {P : EventsID} {e s : EventID}

theorem succ_mem (h : Linked T P) (hs : s ∈ T.succOf e) : s ∈ T :=
  Events.mem_of_mem_predOf (h.pred_of_succ hs).1

theorem icnf_mem (h : Linked T P) (he : e ∉ P) (hs : s ∈ T.icnfOf e) : s ∈ T :=
  Events.mem_of_mem_icnfOf (h.icnf_symm he hs).1

end Linked

/-! ## Tables with fewer events -/

/-- What is left of an event after others were deleted: name, actions, predecessors and disabled
events stay, the other lists shrink. -/
structure Remains (ev ev' : Event act) : Prop where
  name : ev'.name = ev.name
  acts : ev'.acts = ev.acts
  pred : ev'.pred = ev.pred
  disa : ev'.disa = ev.disa
  succ : ev'.succ ⊆ ev.succ
  icnf : ev'.icnf ⊆ ev.icnf
  alte : ev'.alte ⊆ ev.alte

theorem Remains.refl (ev : Event act) : Remains ev ev := ⟨rfl, rfl, rfl, rfl, by simp, by simp, by simp⟩

theorem Remains.trans {a b c : Event act} (h : Remains a b) (h' : Remains b c) : Remains a c where
  name := h'.name.trans h.name
  acts := h'.acts.trans h.acts
  pred := h'.pred.trans h.pred
  disa := h'.disa.trans h.disa
  succ := List.Subset.trans h'.succ h.succ
  icnf := List.Subset.trans h'.icnf h.icnf
  alte := List.Subset.trans h'.alte h.alte

/-- `T'` has some of the events of `T`. -/
def Shrunk (T T' : Events act) : Prop :=
  ∀ e ev', T'.lookup e = some ev' → ∃ ev, T.lookup e = some ev ∧ Remains ev ev'

theorem Shrunk.refl (T : Events act) : Shrunk T T := fun _ ev h => ⟨ev, h, .refl ev⟩

theorem Shrunk.trans {T₁ T₂ T₃ : Events act} (h : Shrunk T₁ T₂) (h' : Shrunk T₂ T₃) :
    Shrunk T₁ T₃ := by
  intro e ev₃ h₃
  obtain ⟨ev₂, h₂, hr⟩ := h' e ev₃ h₃
  obtain ⟨ev₁, h₁, hr'⟩ := h e ev₂ h₂
  exact ⟨ev₁, h₁, hr'.trans hr⟩

theorem Shrunk.mem {T T' : Events act} (h : Shrunk T T') {e : EventID} (he : e ∈ T') : e ∈ T := by
  obtain ⟨ev', hl⟩ := Events.lookup_of_mem he
  obtain ⟨ev, hl', -⟩ := h e ev' hl
  exact Events.mem_of_lookup hl'

theorem Shrunk.predOf {T T' : Events act} (h : Shrunk T T') {e : EventID} (he : e ∈ T') :
    T'.predOf e = T.predOf e := by
  obtain ⟨ev', hl⟩ := Events.lookup_of_mem he
  obtain ⟨ev, hl', hr⟩ := h e ev' hl
  rw [Events.predOf_of_lookup hl, Events.predOf_of_lookup hl', hr.pred]

/-- Sets of events that are closed under predecessors. -/
structure DownClosed (T : Events act) (S : EventID → Prop) : Prop where
  mem : ∀ x, S x → x ∈ T
  pred : ∀ x, S x → ∀ p ∈ T.predOf x, S p

end Poet
