import Poet.Exploration.Causality

/-!
# Deletion from the prefix

`del_event e` takes the links of others to `e` out of their lists, then deletes the successors of `e`
with everything above them, then `e`. While it recurses the events on the way are still in the table:
`Pending T P` is the agreement of the lists of such a table, where no other event lists one of `P`. The
lists agree with multiplicities, so that taking out one occurrence for each link takes out them all.

The effect of a deletion is exact (`delEvent_effect`): the events at or above `e` are gone, and of the
others only the lists `succ`, `icnf` and `alte` lose what is gone.
-/

namespace Poet

variable {act : Type} {T T' : Events act} {P : EventsID} {e x : EventID} {ev : Event act}

/-- A prefix without cycles in which `pred` and `succ` are inverse to each other and `icnf` is
symmetric, as lists with multiplicities. -/
structure Coherent (T : Events act) : Prop where
  acyclic : ∀ x, ¬ Lt T x x
  pred_succ : ∀ e p, (T.predOf e).count p = (T.succOf p).count e
  icnf_symm : ∀ e y, (T.icnfOf e).count y = (T.icnfOf y).count e

theorem mem_iff_mem_of_count_eq {α : Type} [DecidableEq α] {l m : List α} {a b : α}
    (h : l.count a = m.count b) : a ∈ l ↔ b ∈ m := by
  rw [← List.count_pos_iff, h, List.count_pos_iff]

theorem Coherent.causal (hT : Coherent T) : Causal T :=
  ⟨(mem_iff_mem_of_count_eq (hT.pred_succ _ _)).symm, hT.acyclic _⟩

/-- Without repetitions the lists agree with multiplicities when they agree as sets. -/
theorem count_eq_of_nodup {α : Type} [DecidableEq α] {l m : List α} {a b : α} (hl : l.Nodup)
    (hm : m.Nodup) (h : a ∈ l ↔ b ∈ m) : l.count a = m.count b := by
  by_cases ha : a ∈ l
  · rw [List.count_eq_one_of_mem hl ha, List.count_eq_one_of_mem hm (h.1 ha)]
  · rw [List.count_eq_zero_of_not_mem ha, List.count_eq_zero_of_not_mem fun hb => ha (h.2 hb)]

theorem Linked.coherent (hT : Linked T []) : Coherent T where
  acyclic _ := hT.causal.lt_irrefl
  pred_succ e p := count_eq_of_nodup (hT.pred_nodup e) (hT.succ_nodup p) hT.causal.mem_succ_iff.symm
  icnf_symm e y := count_eq_of_nodup (hT.icnf_nodup e) (hT.icnf_nodup y)
    ⟨fun h => (hT.icnf_symm List.not_mem_nil h).1, fun h => (hT.icnf_symm List.not_mem_nil h).1⟩

/-! ## The links of others to an event -/

section Sever

/-- The event at `x` without its links to `e`: `e` is taken out of `succ` when `x` is in `ps`, and out
of `icnf` and the alternatives when `x` is in `cs`. -/
def sever (e : EventID) (ps cs : EventsID) (x : EventID) (ev : Event act) : Event act :=
  { ev with
    succ := if x ∈ ps then ev.succ.filter (· ≠ e) else ev.succ
    icnf := if x ∈ cs then ev.icnf.filter (· ≠ e) else ev.icnf
    alte := if x ∈ cs then ev.alte.filter (fun v => !decide (e ∈ v)) else ev.alte }

theorem remains_sever (e : EventID) (ps cs : EventsID) (x : EventID) (ev : Event act) :
    Remains ev (sever e ps cs x ev) := by
  refine ⟨rfl, rfl, rfl, rfl, ?_, ?_, ?_⟩ <;> simp only [sever] <;> split
  all_goals first
    | exact List.filter_subset_self _
    | exact fun _ h => h

theorem filter_ne_erase {l : EventsID} (e : EventID) :
    (l.erase e).filter (· ≠ e) = l.filter (· ≠ e) := by
  induction l with
  | nil => rfl
  | cons a l ih =>
    by_cases h : a = e
    · subst h
      simp
    · rw [List.erase_cons_tail (by simpa using h), List.filter_cons, List.filter_cons, ih]

theorem filter_ne_of_count_eq_zero {l : EventsID} (h : l.count e = 0) : l.filter (· ≠ e) = l := by
  refine List.filter_eq_self.2 fun y hy => ?_
  have hne : y ≠ e := fun hye => List.count_eq_zero.1 h (hye ▸ hy)
  simpa using hne

/-- The last occurrence. -/
theorem erase_eq_filter_ne {l : EventsID} (h : l.count e = 0 + 1) :
    l.erase e = l.filter (· ≠ e) := by
  have hz : (l.erase e).count e = 0 := by rw [List.count_erase_self, h]
  rw [← filter_ne_erase, filter_ne_of_count_eq_zero hz]

theorem lookup_delSucc (e p : EventID) (T : Events act) (x : EventID) :
    (delSucc e p T).lookup x =
      (T.lookup x).map fun ev => if x = p then { ev with succ := ev.succ.erase e } else ev := by
  unfold delSucc
  by_cases hx : x = p
  · subst hx
    cases h : T.lookup x with
    | none => simp [h]
    | some ev => simp [setEvent, AList.lookup_insert]
  · cases h : T.lookup p with
    | none => simp [hx]
    | some ev => simp [setEvent, AList.lookup_insert_ne hx, hx]

theorem lookup_delIcnf (e : EventID) {c : EventID} (h : c ∈ T) : ∃ T', delIcnf e c T = .ok T' ∧
    ∀ x, T'.lookup x = (T.lookup x).map fun ev => if x = c then { ev with
      icnf := ev.icnf.erase e
      alte := ev.alte.filter fun v => !decide (e ∈ v) } else ev := by
  obtain ⟨ev, hl⟩ := Events.lookup_of_mem h
  refine ⟨_, by rw [delIcnf, getEvent_ok _ hl, ok_bind, pure_eq_ok], fun x => ?_⟩
  by_cases hx : x = c
  · subst hx
    simp [setEvent, AList.lookup_insert, hl]
  · simp [setEvent, AList.lookup_insert_ne hx, hx]

/-- `del_succ` for each occurrence of a link takes out all occurrences. -/
theorem lookup_foldl_delSucc (e : EventID) : ∀ (ps : EventsID) (T : Events act),
    (∀ x ∈ ps, (T.succOf x).count e = ps.count x) →
    ∀ x, (ps.foldl (fun t p => delSucc e p t) T).lookup x = (T.lookup x).map (sever e ps [] x)
  | [], T, _, x => by cases h : T.lookup x <;> simp [h, sever]
  | p :: ps, T, hcnt, x => by
    have hsucc : ∀ y, (delSucc e p T).succOf y =
        if y = p then (T.succOf y).erase e else T.succOf y := by
      intro y
      rw [Events.succOf, lookup_delSucc, Events.succOf]
      cases T.lookup y <;> by_cases hy : y = p <;> simp [hy]
    have hcnt' : ∀ y ∈ ps, ((delSucc e p T).succOf y).count e = ps.count y := by
      intro y hy
      have h := hcnt y (List.mem_cons_of_mem _ hy)
      rw [hsucc]
      by_cases hyp : y = p
      · subst hyp
        rw [List.count_cons_self] at h
        rw [if_pos rfl, List.count_erase_self, h, Nat.add_sub_cancel]
      · rw [if_neg hyp, h, List.count_cons_of_ne (Ne.symm hyp)]
    rw [List.foldl_cons, lookup_foldl_delSucc e ps _ hcnt' x, lookup_delSucc, Option.map_map]
    cases hl : T.lookup x with
    | none => rfl
    | some ev =>
      have hs := Events.succOf_of_lookup hl
      by_cases hxp : x = p
      · subst hxp
        have h := hcnt x List.mem_cons_self
        rw [List.count_cons_self, hs] at h
        by_cases hx : x ∈ ps
        · simpa [sever, hx] using filter_ne_erase e
        · rw [List.count_eq_zero_of_not_mem hx] at h
          simp [sever, hx, erase_eq_filter_ne h]
      · simp [sever, hxp]

/-- The same for `del_icnf`, which needs the other event to be there. -/
theorem foldlM_delIcnf_ok (e : EventID) : ∀ (cs : EventsID) (T : Events act),
    (∀ x ∈ cs, (T.icnfOf x).count e = cs.count x) → (∀ x ∈ cs, x ∈ T) →
    ∃ T', cs.foldlM (fun t c => delIcnf e c t) T = .ok T' ∧
      ∀ x, T'.lookup x = (T.lookup x).map (sever e [] cs x)
  | [], T, _, _ => ⟨T, rfl, fun x => by cases T.lookup x <;> simp [sever]⟩
  | c :: cs, T, hcnt, hmem => by
    obtain ⟨T₁, h₁, hl₁⟩ := lookup_delIcnf e (hmem c List.mem_cons_self)
    have hicnf : ∀ y, T₁.icnfOf y = if y = c then (T.icnfOf y).erase e else T.icnfOf y := by
      intro y
      rw [Events.icnfOf, hl₁, Events.icnfOf]
      cases T.lookup y <;> by_cases hy : y = c <;> simp [hy]
    have hcnt' : ∀ y ∈ cs, (T₁.icnfOf y).count e = cs.count y := by
      intro y hy
      have h := hcnt y (List.mem_cons_of_mem _ hy)
      rw [hicnf]
      by_cases hyc : y = c
      · subst hyc
        rw [List.count_cons_self] at h
        rw [if_pos rfl, List.count_erase_self, h, Nat.add_sub_cancel]
      · rw [if_neg hyc, h, List.count_cons_of_ne (Ne.symm hyc)]
    have hmem' : ∀ y ∈ cs, y ∈ T₁ := by
      intro y hy
      rw [← AList.lookup_isSome, hl₁, Option.isSome_map, AList.lookup_isSome]
      exact hmem y (List.mem_cons_of_mem _ hy)
    obtain ⟨T₂, h₂, hl₂⟩ := foldlM_delIcnf_ok e cs T₁ hcnt' hmem'
    refine ⟨T₂, by rw [List.foldlM_cons, h₁, ok_bind, h₂], fun x => ?_⟩
    rw [hl₂, hl₁, Option.map_map]
    cases hl : T.lookup x with
    | none => rfl
    | some ev =>
      have hi := Events.icnfOf_of_lookup hl
      by_cases hxc : x = c
      · subst hxc
        have h := hcnt x List.mem_cons_self
        rw [List.count_cons_self, hi] at h
        by_cases hx : x ∈ cs
        · simpa [sever, hx] using filter_ne_erase e
        · rw [List.count_eq_zero_of_not_mem hx] at h
          simp [sever, hx, erase_eq_filter_ne h]
      · simp [sever, hxc]

end Sever

/-! ## Tables with events on their way out -/

/-- The lists agree but for the events of `P`, which no other event lists. -/
structure Pending (T : Events act) (P : EventsID) : Prop where
  succ : ∀ e p, (T.succOf p).count e = if e ∈ P then 0 else (T.predOf e).count p
  icnf : ∀ {e y}, e ∉ P → y ∉ P → (T.icnfOf e).count y = (T.icnfOf y).count e
  hidden : ∀ {e y}, e ∉ P → y ∈ P → y ∉ T.icnfOf e

theorem Coherent.pending (hT : Coherent T) : Pending T [] where
  succ e p := by rw [if_neg List.not_mem_nil, hT.pred_succ]
  icnf _ _ := hT.icnf_symm _ _
  hidden _ hy := by cases hy

namespace Pending

theorem mem_succOf (hT : Pending T P) {p : EventID} :
    e ∈ T.succOf p ↔ e ∉ P ∧ p ∈ T.predOf e := by
  rw [← List.count_pos_iff, hT.succ]
  split
  · next h => simp [h]
  · next h => simp [h, List.count_pos_iff]

theorem icnf_mem (hT : Pending T P) (he : e ∉ P) (hx : x ∈ T.icnfOf e) : x ∈ T := by
  have hxP : x ∉ P := fun h => hT.hidden he h hx
  exact Events.mem_of_mem_icnfOf ((mem_iff_mem_of_count_eq (hT.icnf he hxP)).1 hx)

end Pending

/-- `T₂` is `T` after the links of others to `e` were taken out. -/
def Severed (T : Events act) (e : EventID) (T₂ : Events act) : Prop :=
  ∀ x, T₂.lookup x = (T.lookup x).map (sever e (T.predOf e) (T.icnfOf e) x)

namespace Severed

variable {T₂ : Events act} (h : Severed T e T₂)

include h

theorem mem_iff : x ∈ T₂ ↔ x ∈ T := by
  rw [← AList.lookup_isSome, h x, Option.isSome_map, AList.lookup_isSome]

theorem shrunk : Shrunk T T₂ := by
  intro x ev₂ hx
  rw [h x] at hx
  obtain ⟨ev₁, hl, rfl⟩ := Option.map_eq_some_iff.1 hx
  exact ⟨ev₁, hl, remains_sever ..⟩

theorem predOf (x : EventID) : T₂.predOf x = T.predOf x := by
  simp only [Events.predOf, h x]
  cases T.lookup x <;> rfl

theorem succOf (hT : Pending T P) (x : EventID) :
    T₂.succOf x = (T.succOf x).filter (· ≠ e) := by
  have hsucc : T₂.succOf x =
      if x ∈ T.predOf e then (T.succOf x).filter (· ≠ e) else T.succOf x := by
    simp only [Events.succOf, h x]
    cases T.lookup x <;> simp [sever]
  rw [hsucc]
  split
  · rfl
  · next hx =>
    refine (filter_ne_of_count_eq_zero (List.count_eq_zero.2 fun he => hx ?_)).symm
    exact (hT.mem_succOf.1 he).2

theorem icnfOf (hT : Pending T P) (heP : e ∉ P) (hx : x ∉ P) :
    T₂.icnfOf x = (T.icnfOf x).filter (· ≠ e) := by
  have hicnf : T₂.icnfOf x =
      if x ∈ T.icnfOf e then (T.icnfOf x).filter (· ≠ e) else T.icnfOf x := by
    simp only [Events.icnfOf, h x]
    cases T.lookup x <;> simp [sever]
  rw [hicnf]
  split
  · rfl
  · next hxe =>
    refine (filter_ne_of_count_eq_zero (List.count_eq_zero.2 fun he => hxe ?_)).symm
    exact (mem_iff_mem_of_count_eq (hT.icnf hx heP)).1 he

theorem pending (hT : Pending T P) (heP : e ∉ P) : Pending T₂ (e :: P) where
  succ y p := by
    rw [h.succOf hT, h.predOf]
    by_cases hy : y = e
    · subst hy
      simp [List.count_eq_zero]
    · rw [List.count_filter (by simpa using hy), hT.succ]
      simp [hy]
  icnf {a b} ha hb := by
    simp only [List.mem_cons, not_or] at ha hb
    rw [h.icnfOf hT heP ha.2, h.icnfOf hT heP hb.2, List.count_filter (by simpa using hb.1),
      List.count_filter (by simpa using ha.1), hT.icnf ha.2 hb.2]
  hidden {a y} ha hy hmem := by
    simp only [List.mem_cons, not_or] at ha
    rw [h.icnfOf hT heP ha.2, List.mem_filter] at hmem
    rcases List.mem_cons.1 hy with rfl | hy
    · simp at hmem
    · exact hT.hidden ha.2 hy hmem.1

end Severed

/-! ## The effect of a deletion -/

/-- `T'` is what deletions have left of `T`; the events of `P` have kept conflicts that are gone. -/
structure Trimmed (T : Events act) (P : EventsID) (T' : Events act) : Prop where
  shrunk : Shrunk T T'
  succ : ∀ x ∈ T', T'.succOf x = (T.succOf x).filter (· ∈ T')
  icnf : ∀ x ∈ T', x ∉ P → T'.icnfOf x = (T.icnfOf x).filter (· ∈ T')
  alte : ∀ x ev ev', T.lookup x = some ev → T'.lookup x = some ev' →
    ∀ v ∈ ev.alte, (∀ y ∈ v, y ∈ T') → v ∈ ev'.alte

theorem Trimmed.refl (hT : Pending T P) : Trimmed T P T where
  shrunk := .refl T
  succ x _ := (List.filter_eq_self.2 fun y hy => decide_eq_true
    (Events.mem_of_mem_predOf (hT.mem_succOf.1 hy).2)).symm
  icnf x _ hx := (List.filter_eq_self.2 fun y hy => decide_eq_true (hT.icnf_mem hx hy)).symm
  alte x ev ev' hl hl' v hv _ := by
    obtain rfl : ev = ev' := Option.some_inj.1 (hl.symm.trans hl')
    exact hv

theorem filter_mem_filter_mem {T₁ T₂ : Events act} (h : ∀ x ∈ T₂, x ∈ T₁) (l : EventsID) :
    (l.filter (· ∈ T₁)).filter (· ∈ T₂) = l.filter (· ∈ T₂) := by
  rw [List.filter_filter]
  refine List.filter_congr fun y _ => ?_
  by_cases hy : y ∈ T₂
  · simp [hy, h y hy]
  · simp [hy]

theorem Trimmed.trans {T₁ T₂ : Events act} (h₁ : Trimmed T P T₁) (h₂ : Trimmed T₁ P T₂) : Trimmed T P T₂ where
  shrunk := h₁.shrunk.trans h₂.shrunk
  succ x hx := by
    rw [h₂.succ x hx, h₁.succ x (h₂.shrunk.mem hx), filter_mem_filter_mem fun y => h₂.shrunk.mem]
  icnf x hx hxP := by
    rw [h₂.icnf x hx hxP, h₁.icnf x (h₂.shrunk.mem hx) hxP,
      filter_mem_filter_mem fun y => h₂.shrunk.mem]
  alte x ev ev₂ hl hl₂ v hv hmem := by
    obtain ⟨ev₁, hl₁, -⟩ := h₂.shrunk x ev₂ hl₂
    exact h₂.alte x ev₁ ev₂ hl₁ hl₂ v
      (h₁.alte x ev ev₁ hl hl₁ v hv fun y hy => h₂.shrunk.mem (hmem y hy)) hmem

/-- Once everything above it is gone, the event itself goes. -/
theorem Trimmed.erase {T₂ T₃ : Events act} (hs : Severed T e T₂) (hT : Pending T P) (heP : e ∉ P)
    (h : Trimmed T₂ (e :: P) T₃) : Trimmed T P (T₃.erase e) := by
  have hmem : ∀ {y}, y ∈ T₃.erase e ↔ y ≠ e ∧ y ∈ T₃ := AList.mem_erase
  have hfilter : ∀ l : EventsID,
      (l.filter (· ≠ e)).filter (· ∈ T₃) = l.filter (· ∈ T₃.erase e) := by
    intro l
    rw [List.filter_filter]
    refine List.filter_congr fun y _ => ?_
    simp [hmem, Bool.and_comm]
  have hlookup : ∀ {x}, x ≠ e → (T₃.erase e).lookup x = T₃.lookup x := AList.lookup_erase_ne
  refine ⟨?_, ?_, ?_, ?_⟩
  · intro x ev' hx
    have hne := (hmem.1 (Events.mem_of_lookup hx)).1
    exact (hs.shrunk.trans h.shrunk) x ev' (hlookup hne ▸ hx)
  · intro x hx
    obtain ⟨hne, hx₃⟩ := hmem.1 hx
    rw [Events.succOf, hlookup hne, ← Events.succOf, h.succ x hx₃, hs.succOf hT, hfilter]
  · intro x hx hxP
    obtain ⟨hne, hx₃⟩ := hmem.1 hx
    rw [Events.icnfOf, hlookup hne, ← Events.icnfOf, h.icnf x hx₃ (by simp [hne, hxP]),
      hs.icnfOf hT heP hxP, hfilter]
  · intro x ev ev' hl hl' v hv hv'
    have hne := (hmem.1 (Events.mem_of_lookup hl')).1
    rw [hlookup hne] at hl'
    refine h.alte x _ ev' (by rw [hs x, hl, Option.map_some]) hl' v ?_ fun y hy => (hmem.1 (hv' y hy)).2
    simp only [sever]
    split
    · refine List.mem_filter.2 ⟨hv, ?_⟩
      simpa using fun he => (hmem.1 (hv' e he)).1 rfl
    · exact hv

theorem Pending.erase {T₃ : Events act} (hT : Pending T₃ (e :: P)) (hsucc : T₃.succOf e = []) :
    Pending (T₃.erase e) P := by
  refine ⟨fun y p => ?_, fun {a b} ha hb => ?_, fun {a y} ha hy => ?_⟩
  · rw [Events.succOf_erase, Events.predOf_erase]
    have h := hT.succ y p
    by_cases hp : p = e
    · subst hp
      by_cases hy : y = p
      · simp [hy]
      · rw [hsucc, List.count_nil] at h
        simpa [hy] using h
    · by_cases hy : y = e
      · subst hy
        simpa [hp] using h
      · simpa [hp, hy] using h
  · rw [Events.icnfOf_erase, Events.icnfOf_erase]
    by_cases hae : a = e <;> by_cases hbe : b = e
    · simp [hae, hbe]
    · subst hae
      have hb' := hT.hidden (e := b) (y := a) (by simp [hbe, hb]) List.mem_cons_self
      simp [hbe, List.count_eq_zero_of_not_mem hb']
    · subst hbe
      have ha' := hT.hidden (e := a) (y := b) (by simp [hae, ha]) List.mem_cons_self
      simp [hae, List.count_eq_zero_of_not_mem ha']
    · simpa [hae, hbe] using hT.icnf (e := a) (y := b) (by simp [hae, ha]) (by simp [hbe, hb])
  · rw [Events.icnfOf_erase]
    split
    · exact List.not_mem_nil
    · next hae => exact hT.hidden (by simp [hae, ha]) (List.mem_cons_of_mem _ hy)

section Run

variable {T₀ : Events act}

/-- `T` is a part of `T₀`, with the events of `P` on their way out. -/
structure PartOf (T₀ : Events act) (T : Events act) (P : EventsID) : Prop extends Pending T P where
  pred : ∀ x ∈ T, T.predOf x = T₀.predOf x

theorem PartOf.trim (h : PartOf T₀ T P) (hc : Trimmed T P T') (hP : Pending T' P) : PartOf T₀ T' P :=
  ⟨hP, fun x hx => (hc.shrunk.predOf hx).trans (h.pred x (hc.shrunk.mem hx))⟩

/-- What is below an event of the table, and not below one of `P`, is in the table. -/
theorem PartOf.mem_of_le (h : PartOf T₀ T P) (hle : Le T₀ x e) (he : e ∈ T)
    (hP : ∀ q ∈ P, ¬ Le T₀ x q) : x ∈ T := by
  rcases hle with rfl | hlt
  · exact he
  induction hlt with
  | @single c hp =>
    have hcP : c ∉ P := fun hq => hP c hq (.inr (.single hp))
    rw [← h.pred _ he] at hp
    exact Events.mem_of_mem_succOf (h.mem_succOf.2 ⟨hcP, hp⟩)
  | @tail b c hlt hp ih =>
    have hcP : c ∉ P := fun hq => hP c hq (.inr (hlt.tail hp))
    rw [← h.pred _ he] at hp
    exact ih (Events.mem_of_mem_succOf (h.mem_succOf.2 ⟨hcP, hp⟩))

/-- The first part of `del_event`: the links of the predecessors, then those of the conflicts. -/
theorem exists_severed (hT : Pending T P) (heP : e ∉ P) (hl : T.lookup e = some ev) :
    ∃ T₂, ev.icnf.foldlM (fun t c => delIcnf e c t) (ev.pred.foldl (fun t p => delSucc e p t) T) =
      .ok T₂ ∧ Severed T e T₂ := by
  have hpred := Events.predOf_of_lookup hl
  have hicnf := Events.icnfOf_of_lookup hl
  have hl₁ := lookup_foldl_delSucc e ev.pred T fun x _ => by rw [hT.succ, if_neg heP, hpred]
  have hicnf₁ : ∀ x, (ev.pred.foldl (fun t p => delSucc e p t) T).icnfOf x = T.icnfOf x := by
    intro x
    rw [Events.icnfOf, hl₁, Events.icnfOf]
    cases T.lookup x <;> rfl
  have hcP : ∀ {x}, x ∈ ev.icnf → x ∉ P := fun hx hP => hT.hidden heP hP (hicnf ▸ hx)
  obtain ⟨T₂, h₂, hl₂⟩ := foldlM_delIcnf_ok e ev.icnf (ev.pred.foldl (fun t p => delSucc e p t) T)
    (fun x hx => by rw [hicnf₁, ← hT.icnf heP (hcP hx), hicnf])
    fun x hx => by
      rw [← AList.lookup_isSome, hl₁, Option.isSome_map, AList.lookup_isSome]
      exact hT.icnf_mem heP (hicnf ▸ hx)
  refine ⟨T₂, h₂, fun x => ?_⟩
  rw [hl₂, hl₁, Option.map_map, hpred, hicnf]
  cases T.lookup x <;> simp [sever]

/-- Deleting the events `ts` one after the other, if `f` is right for each of them. -/
theorem foldlM_trimmed {f : EventID → Events act → Except Err (Events act)} {Q : EventsID} :
    ∀ (ts : EventsID) (U : Events act), (∀ t ∈ ts, ∀ V : Events act, PartOf T₀ V Q →
        (∀ k ∈ V, k ∈ U) → ∃ V', f t V = .ok V' ∧ Pending V' Q ∧ Trimmed V Q V' ∧
          ∀ x, x ∈ V' ↔ x ∈ V ∧ ¬ Le T₀ t x) → PartOf T₀ U Q →
      ∃ U', ts.foldlM (fun t s => f s t) U = .ok U' ∧ Pending U' Q ∧ Trimmed U Q U' ∧
        ∀ x, x ∈ U' ↔ x ∈ U ∧ ∀ t ∈ ts, ¬ Le T₀ t x
  | [], U, _, hU => ⟨U, rfl, hU.toPending, .refl hU.toPending, by simp⟩
  | t :: ts, U, hf, hU => by
    obtain ⟨U₁, hU₁, hp₁, hc₁, hm₁⟩ := hf t List.mem_cons_self U hU fun _ hk => hk
    obtain ⟨U₂, hU₂, hp₂, hc₂, hm₂⟩ := foldlM_trimmed ts U₁
      (fun s hs V hV hsub => hf s (List.mem_cons_of_mem _ hs) V hV fun k hk =>
        hc₁.shrunk.mem (hsub k hk)) (hU.trim hc₁ hp₁)
    refine ⟨U₂, by rw [List.foldlM_cons, hU₁, ok_bind, hU₂], hp₂, hc₁.trans hc₂, fun x => ?_⟩
    rw [hm₂, hm₁, List.forall_mem_cons, and_assoc]

/-- The recursion follows `succ`, along which the rank grows; `P` are the events it came through. -/
theorem delEventAux_trimmed (hT₀ : Causal T₀) {ρ : EventID → Nat}
    (hρ : ∀ {x e}, Lt T₀ x e → ρ x < ρ e) : ∀ (n : Nat) (e : EventID) (T : Events act)
    (P : EventsID), PartOf T₀ T P → (∀ q ∈ P, Lt T₀ q e) → 0 < n → (∀ k ∈ T, ρ k < n + ρ e) →
    ∃ T', delEventAux n e T = .ok T' ∧ Pending T' P ∧ Trimmed T P T' ∧
      (∀ x, x ∈ T' ↔ x ∈ T ∧ ¬ Le T₀ e x) ∧ (e ∉ T → T' = T)
  | 0, _, _, _, _, _, h0, _ => absurd h0 (Nat.lt_irrefl 0)
  | n + 1, e, T, P, hT, hP, _, hlt => by
    have hnotP : ∀ {y}, Le T₀ e y → ∀ q ∈ P, ¬ Le T₀ y q := fun hy q hq hle =>
      hT₀.lt_irrefl ((hy.trans hle).trans_lt (hP q hq))
    have heP : e ∉ P := fun h => hT₀.lt_irrefl (hP e h)
    by_cases he : e ∈ T
    swap
    · have hf : filterEvent e T = false := by
        simpa [filterEvent, ← AList.lookup_isSome] using he
      refine ⟨T, by simp [delEventAux, hf, pure, Except.pure], hT.toPending, .refl hT.toPending,
        fun x => ⟨fun hx => ⟨hx, fun hle => he ?_⟩, fun hx => hx.1⟩, fun _ => rfl⟩
      exact hT.mem_of_le hle hx (hnotP (.inl rfl))
    obtain ⟨ev, hl⟩ := Events.lookup_of_mem he
    have hsucc := Events.succOf_of_lookup hl
    obtain ⟨T₂, h₂, hsev⟩ := exists_severed hT.toPending heP hl
    have hT₂ : PartOf T₀ T₂ (e :: P) :=
      ⟨hsev.pending hT.toPending heP, fun x hx => (hsev.predOf x).trans (hT.pred x (hsev.mem_iff.1 hx))⟩
    have hchild : ∀ t ∈ ev.succ, t ∈ T ∧ Lt T₀ e t := by
      intro t ht
      have hp := (hT.mem_succOf.1 (hsucc ▸ ht)).2
      have htT := Events.mem_of_mem_predOf hp
      exact ⟨htT, lt_of_mem_pred (hT.pred t htT ▸ hp)⟩
    obtain ⟨T₃, h₃, hp₃, hc₃, hm₃⟩ := foldlM_trimmed ev.succ T₂ (f := delEventAux n) (fun t ht V hV hsub => by
      obtain ⟨htT, het⟩ := hchild t ht
      have htn := hlt t htT
      have hρt := hρ het
      have hPt : ∀ q ∈ e :: P, Lt T₀ q t :=
        List.forall_mem_cons.2 ⟨het, fun q hq => (hP q hq).trans het⟩
      obtain ⟨V', hok, hp, hc, hm, -⟩ := delEventAux_trimmed hT₀ hρ n t V (e :: P) hV hPt (by lia)
        fun k hk => by
          have := hlt k (hsev.mem_iff.1 (hsub k hk))
          lia
      exact ⟨V', hok, hp, hc, hm⟩) hT₂
    -- what is above `e` and still there is above a successor that is still there
    have habove : ∀ x ∈ T, Lt T₀ e x → ∃ t ∈ ev.succ, Le T₀ t x := by
      intro x hx hex
      obtain ⟨t, ht, htx⟩ := hT₀.lt_iff_succ.1 hex
      have hp := hT₀.mem_succ_iff.1 ht
      have htP := hnotP (.inr (lt_of_mem_pred hp))
      have htT := hT.mem_of_le htx hx htP
      exact ⟨t, hsucc ▸ hT.mem_succOf.2 ⟨fun h => htP t h (.inl rfl), (hT.pred t htT).symm ▸ hp⟩, htx⟩
    have hnil : T₃.succOf e = [] := by
      refine List.eq_nil_iff_forall_not_mem.2 fun t ht => ?_
      have he₃ := Events.mem_of_mem_succOf ht
      have htT₃ : t ∈ T₃ := Events.mem_of_mem_predOf (hp₃.mem_succOf.1 ht).2
      rw [hc₃.succ e he₃, hsev.succOf hT.toPending, hsucc] at ht
      simp only [List.mem_filter] at ht
      exact ((hm₃ t).1 htT₃).2 t ht.1.1 (.inl rfl)
    refine ⟨T₃.erase e, ?_, hp₃.erase hnil, .erase hsev hT.toPending heP hc₃, fun x => ?_,
      fun h => absurd he h⟩
    · have hf : filterEvent e T = true := by simp [filterEvent, hl]
      simp [delEventAux, hf, getEvent, hl, h₂, h₃, bind, Except.bind, pure, Except.pure]
    · rw [AList.mem_erase, hm₃, hsev.mem_iff]
      constructor
      · rintro ⟨hne, hx, hts⟩
        refine ⟨hx, fun hle => ?_⟩
        rcases hle with rfl | hex
        · exact hne rfl
        · obtain ⟨t, ht, htx⟩ := habove x hx hex
          exact hts t ht htx
      · rintro ⟨hx, hle⟩
        exact ⟨fun h => hle (.inl h.symm), hx, fun t ht htx =>
          hle (.inr ((hchild t ht).2.trans_le htx))⟩

end Run

theorem delEvent_trimmed (hT : Coherent T) (e : EventID) :
    ∃ T', delEvent e T = .ok T' ∧ Pending T' [] ∧ Trimmed T [] T' ∧
      (∀ x, x ∈ T' ↔ x ∈ T ∧ ¬ Le T e x) ∧ (e ∉ T → T' = T) := by
  obtain ⟨ρ, hρ, hb⟩ := hT.causal.exists_rank
  exact delEventAux_trimmed hT.causal hρ (T.bound + 1) e T [] ⟨hT.pending, fun _ _ => rfl⟩ (by simp)
    (Nat.succ_pos _) fun k hk => by
      have := hb k hk
      lia

/-- Deletion takes out exactly the event and what is above it. The events that stay keep their name,
actions, predecessors and disabled events, and lose from their successors and conflicts exactly what
is gone. -/
theorem delEvent_effect (hT : Coherent T) (e : EventID) :
    ∃ T', delEvent e T = .ok T' ∧ (∀ x, x ∈ T' ↔ x ∈ T ∧ ¬ Le T e x) ∧ (e ∉ T → T' = T) ∧
      ∀ x ev', T'.lookup x = some ev' → ∃ ev, T.lookup x = some ev ∧ ev'.name = ev.name ∧
        ev'.acts = ev.acts ∧ ev'.pred = ev.pred ∧ ev'.disa = ev.disa ∧
        ev'.succ = ev.succ.filter (· ∈ T') ∧ ev'.icnf = ev.icnf.filter (· ∈ T') := by
  obtain ⟨T', hok, -, hc, hm, habs⟩ := delEvent_trimmed hT e
  refine ⟨T', hok, hm, habs, fun x ev' hl' => ?_⟩
  obtain ⟨ev, hl, hr⟩ := hc.shrunk x ev' hl'
  have hx := Events.mem_of_lookup hl'
  have hs := hc.succ x hx
  have hi := hc.icnf x hx List.not_mem_nil
  rw [Events.succOf_of_lookup hl', Events.succOf_of_lookup hl] at hs
  rw [Events.icnfOf_of_lookup hl', Events.icnfOf_of_lookup hl] at hi
  exact ⟨ev, hl, hr.name, hr.acts, hr.pred, hr.disa, hs, hi⟩

theorem delEvent_effect_twoWriters : ∃ T', delEvent 2 twoWriters = .ok T' ∧
    (∀ x, x ∈ T' ↔ x ∈ twoWriters ∧ ¬ Le twoWriters 2 x) ∧ T'.icnfOf 4 = [] := by
  obtain ⟨T', hok, hm, -, hev⟩ := delEvent_effect linked_twoWriters.coherent 2
  refine ⟨T', hok, hm, ?_⟩
  cases hl : T'.lookup 4 with
  | none => simp [Events.icnfOf, hl]
  | some ev' =>
    obtain ⟨ev, hl', -, -, -, -, -, hi⟩ := hev 4 ev' hl
    obtain rfl : ev = _ := Option.some_inj.1 (hl'.symm.trans rfl)
    have h2 : (2 : EventID) ∉ T' := fun h => ((hm 2).1 h).2 (.inl rfl)
    rw [Events.icnfOf_of_lookup hl, hi]
    simp [h2]

/-! ## Deletion from a linked table -/

/-- `T'` is `T` without the events `es` and their successors. -/
structure Deleted (T : Events act) (P es : EventsID) (T' : Events act) : Prop where
  linked : Linked T' P
  shrunk : Shrunk T T'
  gone : ∀ e ∈ es, e ∉ T'
  /-- Conflicts and alternatives are lost only with their events. -/
  keeps : ∀ x ev ev', T.lookup x = some ev → T'.lookup x = some ev' →
    (∀ y ∈ ev.icnf, y ∈ T' → y ∈ ev'.icnf) ∧ ∀ v ∈ ev.alte, (∀ y ∈ v, y ∈ T') → v ∈ ev'.alte
  /-- A closed set without the deleted events is still there. -/
  survive : ∀ S, DownClosed T S → (∀ e ∈ es, ¬ S e) → ∀ x, S x → x ∈ T'

theorem Trimmed.linked (hT : Linked T []) (hc : Trimmed T [] T') (hp : Pending T' []) : Linked T' [] := by
  have hpred : ∀ {e p}, p ∈ T'.predOf e → p ∈ T.predOf e := fun {e p} h =>
    hc.shrunk.predOf (Events.mem_of_mem_predOf h) ▸ h
  have hicnf : ∀ {e y}, y ∈ T'.icnfOf e → y ∈ T.icnfOf e := fun {e y} h => by
    rw [hc.icnf e (Events.mem_of_mem_icnfOf h) List.not_mem_nil] at h
    exact List.mem_of_mem_filter h
  have hnodup : ∀ {f : Events act → EventID → EventsID} {e}, (∀ {x}, x ∈ f T' e → e ∈ T') →
      (e ∈ T' → (f T' e).Nodup) → (f T' e).Nodup := fun {f e} hmem h => by
    by_cases he : e ∈ T'
    · exact h he
    · rw [List.eq_nil_iff_forall_not_mem.2 fun x hx => he (hmem hx)]
      exact List.nodup_nil
  refine ⟨fun h => hT.pred_lt (hpred h), fun e => ?_, fun _ h => ?_, fun _ h => ?_, fun h => ?_,
    fun e => ?_, fun _ h => ?_, fun e h => hT.icnf_irrefl e (hicnf h), fun e => ?_⟩
  · refine hnodup (f := Events.predOf) Events.mem_of_mem_predOf fun he => ?_
    exact hc.shrunk.predOf he ▸ hT.pred_nodup e
  · exact Events.mem_of_mem_succOf (hp.mem_succOf.2 ⟨List.not_mem_nil, h⟩)
  · exact hp.mem_succOf.2 ⟨List.not_mem_nil, h⟩
  · exact ⟨(hp.mem_succOf.1 h).2, List.not_mem_nil⟩
  · refine hnodup (f := Events.succOf) Events.mem_of_mem_succOf fun he => ?_
    exact hc.succ e he ▸ (hT.succ_nodup e).filter _
  · exact ⟨(mem_iff_mem_of_count_eq (hp.icnf List.not_mem_nil List.not_mem_nil)).1 h,
      List.not_mem_nil⟩
  · refine hnodup (f := Events.icnfOf) Events.mem_of_mem_icnfOf fun he => ?_
    exact hc.icnf e he List.not_mem_nil ▸ (hT.icnf_nodup e).filter _

theorem delEvent_ok (hT : Linked T []) (e : EventID) :
    ∃ T', delEvent e T = .ok T' ∧ Deleted T [] [e] T' := by
  obtain ⟨T', hok, hp, hc, hm, -⟩ := delEvent_trimmed hT.coherent e
  refine ⟨T', hok, hc.linked hT hp, hc.shrunk, ?_, fun x ev ev' hl hl' => ⟨?_, hc.alte x ev ev' hl hl'⟩,
    fun S hS he x hx => (hm x).2 ⟨hS.mem x hx, fun hle => he e List.mem_cons_self (hS.of_le hx hle)⟩⟩
  · intro x hx hx'
    obtain rfl : x = e := by simpa using hx
    exact ((hm x).1 hx').2 (.inl rfl)
  · intro y hy hyT
    have hi := hc.icnf x (Events.mem_of_lookup hl') List.not_mem_nil
    rw [Events.icnfOf_of_lookup hl', Events.icnfOf_of_lookup hl] at hi
    rw [hi]
    exact List.mem_filter.2 ⟨hy, by simpa using hyT⟩

end Poet
