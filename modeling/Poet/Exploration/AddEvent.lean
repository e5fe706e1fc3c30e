import Mathlib.Data.List.Perm.Subperm
import Poet.Exploration.History

/-!
# Adding an event to the prefix

`computeConflict` goes through the prefix from bottom; on a linked table it comes to an end
(`computeConflict_ok`) and returns events of the prefix that are dependent with the new one and not in
its local history. `addEvTable` then enters the new event in the lists of its history and of its
conflicts, and the table is linked again (`addEvTable_ok`).
-/

namespace Poet

variable {act : Type} {T : Events act} {e x : EventID}

/-! ## Immediate conflicts -/

section Conflicts

/-- The events of the table that are not in `seen`. -/
def unseen (T : Events act) (seen : EventsID) : EventsID := T.keys.filter (· ∉ seen)

theorem unseen_cons_lt {seen : EventsID} (he : e ∈ T) (hs : e ∉ seen) :
    (unseen T (e :: seen)).length < (unseen T seen).length := by
  have hk : e ∈ unseen T seen := List.mem_filter.2 ⟨he, by simpa using hs⟩
  have hnd : (unseen T seen).Nodup := (AList.keys_nodup T).filter _
  have hsub : unseen T (e :: seen) ⊆ (unseen T seen).erase e := by
    intro y hy
    obtain ⟨hyT, hys⟩ := List.mem_filter.1 hy
    simp only [List.mem_cons, not_or, decide_eq_true_eq] at hys
    exact hnd.mem_erase_iff.2 ⟨hys.1, List.mem_filter.2 ⟨hyT, by simpa using hys.2⟩⟩
  have hle := (List.subperm_of_subset ((AList.keys_nodup T).filter _) hsub).length_le
  have hpos := List.length_pos_of_mem hk
  rw [List.length_erase_of_mem hk] at hle
  unfold unseen at hle hpos ⊢
  lia

theorem length_le_keys {l : EventsID} (hnd : l.Nodup) (hsub : ∀ y ∈ l, y ∈ T) :
    l.length ≤ T.keys.length :=
  (List.subperm_of_subset hnd fun y hy => hsub y hy).length_le

theorem keys_length_le_bound : T.keys.length ≤ T.bound := by
  have hsub : T.keys ⊆ List.range T.bound := fun k hk => List.mem_range.2 (Events.lt_bound hk)
  simpa using (List.subperm_of_subset (AList.keys_nodup T) hsub).length_le

/-- Seeing a new event makes room for a whole frontier. -/
theorem measure_cons {seen rest rest' : EventsID} {n : Nat} (he : e ∈ T) (hs : e ∉ seen)
    (hn : (unseen T seen).length * (T.keys.length + 1) + (rest.length + 1) ≤ n + 1)
    (hnd : rest'.Nodup) (hmem : ∀ y ∈ rest', y ∈ T) :
    (unseen T (e :: seen)).length * (T.keys.length + 1) + rest'.length ≤ n := by
  have h₁ := unseen_cons_lt he hs
  have h₂ := length_le_keys hnd hmem
  have h₃ := Nat.mul_le_mul_right (T.keys.length + 1) (Nat.succ_le_of_lt h₁)
  rw [Nat.succ_mul] at h₃
  lia

/-- The search is on its way to `y`: it has not stopped below it, and `y` was taken when seen. -/
structure Towards (T : Events act) (seen rest cfls : EventsID) (y : EventID) : Prop where
  closed : ∀ z, z = botEID ∨ z ∈ seen → Lt T z y → ∀ s ∈ T.succOf z, s ∈ seen ∨ s ∈ rest
  taken : y ∈ seen → y ∈ cfls

namespace Towards

variable {seen rest cfls : EventsID} {y : EventID}

/-- With an empty frontier everything below `y` was seen. -/
theorem mem (hT : Causal T) (h : Towards T seen [] cfls y) (hy : Lt T botEID y) : y ∈ cfls := by
  have hgo : ∀ z, Lt T z y → z = botEID ∨ z ∈ seen → y ∈ seen := by
    intro z hz
    induction hz using Relation.TransGen.head_induction_on with
    | single hp =>
      intro hs
      simpa using h.closed _ hs (.single hp) y (hT.mem_succ_iff.2 hp)
    | head hp hlt ih =>
      intro hs
      exact ih (.inr (by simpa using h.closed _ hs (.head hp hlt) _ (hT.mem_succ_iff.2 hp)))
  exact h.taken (hgo botEID hy (.inl rfl))

theorem skip (h : Towards T seen (e :: rest) cfls y) (he : e ∈ seen) :
    Towards T seen rest cfls y where
  taken := h.taken
  closed z hz hlt s hs := by
    rcases h.closed z hz hlt s hs with hs | hs
    · exact .inl hs
    · rcases List.mem_cons.1 hs with rfl | hs
      · exact .inl he
      · exact .inr hs

/-- An event that is not below `y` is dropped. -/
theorem drop {cfls' : EventsID} (h : Towards T seen (e :: rest) cfls y) (hlt : ¬ Lt T e y)
    (hne : y = e → y ∈ cfls') (hsub : cfls ⊆ cfls') : Towards T (e :: seen) rest cfls' y where
  taken hy := by
    rcases List.mem_cons.1 hy with hy | hy
    · exact hne hy
    · exact hsub (h.taken hy)
  closed z hz hzy s hs := by
    have hz' : z = botEID ∨ z ∈ seen := by
      rcases hz with hz | hz
      · exact .inl hz
      · rcases List.mem_cons.1 hz with rfl | hz
        · exact absurd hzy hlt
        · exact .inr hz
    rcases h.closed z hz' hzy s hs with hs | hs
    · exact .inl (List.mem_cons_of_mem _ hs)
    · rcases List.mem_cons.1 hs with rfl | hs
      · exact .inl List.mem_cons_self
      · exact .inr hs

theorem expand (h : Towards T seen (e :: rest) cfls y) (hne : y ≠ e) {succ : EventsID}
    (hsucc : T.succOf e = succ) : Towards T (e :: seen) (rest ++ succ).eraseDups cfls y where
  taken hy := h.taken ((List.mem_cons.1 hy).resolve_left hne)
  closed z hz hzy s hs := by
    rw [List.mem_eraseDups, List.mem_append]
    by_cases hze : z = e
    · subst hze
      exact .inr (.inr (hsucc ▸ hs))
    · have hz' : z = botEID ∨ z ∈ seen := by
        rcases hz with hz | hz
        · exact .inl hz
        · exact .inr ((List.mem_cons.1 hz).resolve_left hze)
      rcases h.closed z hz' hzy s hs with hs | hs
      · exact .inl (List.mem_cons_of_mem _ hs)
      · rcases List.mem_cons.1 hs with rfl | hs
        · exact .inl List.mem_cons_self
        · exact .inr (.inl hs)

end Towards

variable [Action act] (info : EventInfo act)

/-- What the search returns: a dependent event outside the local history, with no conflict of the local
history at or below it. -/
structure Conflicting (T : Events act) (lh : EventsID) (y : EventID) : Prop where
  mem : y ∈ T
  notMem : y ∉ lh
  dep : dependsOn info T y = true
  noCnfl : ∀ z, Le T z y → ∀ x ∈ lh, z ∉ T.icnfOf x

/-- What the search cannot miss: a conflicting event with nothing but the local history and
independent events below it. -/
structure Exposed (T : Events act) (lh : EventsID) (y : EventID) : Prop extends
    Conflicting info T lh y where
  below : ∀ z, Lt T z y → z ∈ lh ∨ dependsOn info T z = false

/-- A step of the search, by what stands at the head of the frontier: an event that was seen, a
conflict of the local history, a dependent event outside it with a conflict below, one without, or an
event to go on from. -/
theorem computeConflict_cons (hT : Causal T) {lh lhCnfls : EventsID}
    (hcl : ∀ x, x ∈ lhCnfls ↔ ∃ z ∈ lh, x ∈ T.icnfOf z) (n : Nat) (seen rest cfls : EventsID)
    (he : e ∈ T) {go : EventsID → EventsID → EventsID → Except Err EventsID}
    (hgo : go = computeConflict info lh lhCnfls T n) {run : Except Err EventsID}
    (hrun : run = computeConflict info lh lhCnfls T (n + 1) seen (e :: rest) cfls) :
    (e ∈ seen ∧ run = go seen rest cfls) ∨ e ∉ seen ∧
      ((∃ z ∈ lh, e ∈ T.icnfOf z) ∧ run = go (e :: seen) rest cfls ∨
        (e ∉ lh ∧ dependsOn info T e = true ∧
          ∃ z, Lt T z e ∧ ((∃ x ∈ lh, z ∈ T.icnfOf x) ∨ z ∈ cfls)) ∧ run = go (e :: seen) rest cfls ∨
        (Conflicting info T lh e ∧ ∀ c ∈ cfls, ¬ Lt T c e) ∧ run = go (e :: seen) rest (e :: cfls) ∨
        ((e ∈ lh ∨ dependsOn info T e = false) ∧ ∀ z ∈ lh, e ∉ T.icnfOf z) ∧
          run = go (e :: seen) (rest ++ T.succOf e).eraseDups cfls) := by
  subst hgo hrun
  by_cases hseen : e ∈ seen
  · exact .inl ⟨hseen, by rw [computeConflict, if_pos hseen]⟩
  refine .inr ⟨hseen, ?_⟩
  by_cases hcnf : e ∈ lhCnfls
  · exact .inl ⟨(hcl e).1 hcnf, by rw [computeConflict, if_neg hseen, if_pos hcnf]⟩
  obtain ⟨ev, hl⟩ := Events.lookup_of_mem he
  have hd : dependsOn info T e = isDependent info (ev.name, ev.acts) := by simp [dependsOn, hl]
  have hno : ∀ z ∈ lh, e ∉ T.icnfOf z := fun z hz hez => hcnf ((hcl e).2 ⟨z, hz, hez⟩)
  by_cases hdep : e ∉ lh ∧ isDependent info (ev.name, ev.acts) = true
  · obtain ⟨lhe, hlhe, -, hmem⟩ := predecessors_ok hT he
    have hstep := getEvent_ok "computeConflict" hl
    by_cases hany : (lhCnfls ++ cfls).any (· ∈ lhe) = true
    · refine .inr (.inl ⟨⟨hdep.1, hd ▸ hdep.2, ?_⟩, ?_⟩)
      · obtain ⟨z, hz, hzlt⟩ := List.any_eq_true.1 hany
        refine ⟨z, (hmem z).1 (of_decide_eq_true hzlt), ?_⟩
        exact (List.mem_append.1 hz).imp_left (hcl z).1
      · rw [computeConflict, if_neg hseen, if_neg hcnf, hstep, ok_bind, if_pos hdep, hlhe, ok_bind,
          if_pos hany]
    · have hnot : ∀ z, z ∈ lhCnfls ∨ z ∈ cfls → ¬ Lt T z e := fun z hz hlt =>
        hany (List.any_eq_true.2 ⟨z, List.mem_append.2 hz, decide_eq_true ((hmem z).2 hlt)⟩)
      refine .inr (.inr (.inl ⟨⟨⟨he, hdep.1, hd ▸ hdep.2, fun z hz x hx hzx => ?_⟩,
        fun c hc => hnot c (.inr hc)⟩, ?_⟩))
      · rcases hz with rfl | hz
        · exact hno x hx hzx
        · exact hnot z (.inl ((hcl z).2 ⟨x, hx, hzx⟩)) hz
      · rw [computeConflict, if_neg hseen, if_neg hcnf, hstep, ok_bind, if_pos hdep, hlhe, ok_bind,
          if_neg hany]
  · refine .inr (.inr (.inr ⟨⟨?_, hno⟩, ?_⟩))
    · by_cases hlh : e ∈ lh
      · exact .inl hlh
      · exact .inr (by simpa [hlh, ← hd] using hdep)
    · rw [computeConflict, if_neg hseen, if_neg hcnf, getEvent_ok _ hl, ok_bind, if_neg hdep,
        Events.succOf_of_lookup hl]

/-- Every step either drops an event of the frontier or sees a new one. -/
theorem computeConflict_ok (hT : Causal T) (lh lhCnfls : EventsID)
    (hcl : ∀ x, x ∈ lhCnfls ↔ ∃ z ∈ lh, x ∈ T.icnfOf z) :
    ∀ (n : Nat) (seen rest cfls : EventsID), rest.Nodup → (∀ y ∈ rest, y ∈ T) →
      (∀ y ∈ cfls, Conflicting info T lh y) →
      (unseen T seen).length * (T.keys.length + 1) + rest.length ≤ n →
      ∃ r, computeConflict info lh lhCnfls T n seen rest cfls = .ok r ∧
        (∀ y ∈ r, Conflicting info T lh y) ∧
        ∀ y, Exposed info T lh y → Lt T botEID y → Towards T seen rest cfls y → y ∈ r
  | n, seen, [], cfls, _, _, hc, _ =>
    ⟨cfls, by cases n <;> rfl, hc, fun y _ hy hto => hto.mem hT hy⟩
  | 0, seen, e :: rest, cfls, _, _, _, hn => absurd hn (by simp)
  | n + 1, seen, e :: rest, cfls, hnd, hmem, hc, hn => by
    obtain ⟨-, hnd'⟩ := List.nodup_cons.1 hnd
    have hmem' : ∀ y ∈ rest, y ∈ T := fun y hy => hmem y (List.mem_cons_of_mem _ hy)
    have heT := hmem e List.mem_cons_self
    simp only [List.length_cons] at hn
    -- nothing that the search must find is above a dependent event outside the local history
    have hnlt : e ∉ lh → dependsOn info T e = true → ∀ y, Exposed info T lh y → ¬ Lt T e y := by
      intro hlh hd y hx hlt
      rcases hx.below e hlt with h | h
      · exact hlh h
      · rw [hd] at h
        cases h
    obtain ⟨hseen, heq⟩ | ⟨hseen, ⟨⟨z, hz, hez⟩, heq⟩ | ⟨⟨hlh, hd, z, hzlt, hzc⟩, heq⟩ |
      ⟨⟨hcon, -⟩, heq⟩ | ⟨⟨hexp, -⟩, heq⟩⟩ := computeConflict_cons info hT hcl n seen rest cfls heT rfl rfl
    · obtain ⟨r, hr, hs, hres⟩ :=
        computeConflict_ok hT lh lhCnfls hcl n seen rest cfls hnd' hmem' hc (by omega)
      exact ⟨r, heq.trans hr, hs, fun y hx hy hto => hres y hx hy (hto.skip hseen)⟩
    · obtain ⟨r, hr, hs, hres⟩ := computeConflict_ok hT lh lhCnfls hcl n _ rest cfls hnd' hmem' hc
        (measure_cons heT hseen hn hnd' hmem')
      refine ⟨r, heq.trans hr, hs, fun y hx hy hto => ?_⟩
      exact hres y hx hy (hto.drop (fun hlt => hx.noCnfl e (.inr hlt) z hz hez)
        (fun h => absurd hez (hx.noCnfl e (.inl h.symm) z hz)) fun _ h => h)
    · obtain ⟨r, hr, hs, hres⟩ := computeConflict_ok hT lh lhCnfls hcl n _ rest cfls hnd' hmem' hc
        (measure_cons heT hseen hn hnd' hmem')
      refine ⟨r, heq.trans hr, hs, fun y hx hy hto => ?_⟩
      refine hres y hx hy (hto.drop (hnlt hlh hd y hx) (fun h => ?_) fun _ h => h)
      -- an exposed event has neither kind of conflict below it
      subst h
      rcases hzc with ⟨x, hxl, hzx⟩ | hzc
      · exact absurd hzx (hx.noCnfl z (.inr hzlt) x hxl)
      · rcases hx.below z hzlt with h | h
        · exact absurd h (hc z hzc).notMem
        · rw [(hc z hzc).dep] at h
          cases h
    · have hc' : ∀ y ∈ e :: cfls, Conflicting info T lh y := List.forall_mem_cons.2 ⟨hcon, hc⟩
      obtain ⟨r, hr, hs, hres⟩ := computeConflict_ok hT lh lhCnfls hcl n _ rest (e :: cfls) hnd' hmem'
        hc' (measure_cons heT hseen hn hnd' hmem')
      refine ⟨r, heq.trans hr, hs, fun y hx hy hto => ?_⟩
      exact hres y hx hy (hto.drop (hnlt hcon.notMem hcon.dep y hx) (fun h => h ▸ List.mem_cons_self)
        (List.subset_cons_self e cfls))
    · have hnd₂ := nodup_eraseDups (rest ++ T.succOf e)
      have hmem₂ : ∀ y ∈ (rest ++ T.succOf e).eraseDups, y ∈ T := by
        intro y hy
        rcases List.mem_append.1 (List.mem_eraseDups.1 hy) with hy | hy
        · exact hmem' y hy
        · exact hT.mem_of_succ hy
      obtain ⟨r, hr, hs, hres⟩ := computeConflict_ok hT lh lhCnfls hcl n _ _ cfls hnd₂ hmem₂ hc
        (measure_cons heT hseen hn hnd₂ hmem₂)
      refine ⟨r, heq.trans hr, hs, fun y hx hy hto => ?_⟩
      refine hres y hx hy (hto.expand (fun h => ?_) rfl)
      subst h
      rcases hexp with h | h
      · exact hx.notMem h
      · rw [hx.dep] at h
        cases h

theorem computeConflicts_ok (hT : Causal T) (hbot : botEID ∈ T)
    (hnd : (T.succOf botEID).Nodup) (lh lhCnfls : EventsID)
    (hcl : ∀ x, x ∈ lhCnfls ↔ ∃ z ∈ lh, x ∈ T.icnfOf z) :
    ∃ r, computeConflicts info lh lhCnfls T = .ok r ∧
      (∀ y ∈ r, Conflicting info T lh y) ∧
      ∀ y, Exposed info T lh y → Lt T botEID y → y ∈ r := by
  obtain ⟨ev, hl⟩ := Events.lookup_of_mem hbot
  have hsucc := Events.succOf_of_lookup hl
  have hmem : ∀ y ∈ ev.succ, y ∈ T := fun y hy => hT.mem_of_succ (hsucc ▸ hy)
  rw [hsucc] at hnd
  have hfuel : (unseen T []).length * (T.keys.length + 1) + ev.succ.length ≤
      (T.bound + 1) * (T.bound + 1) := by
    have h₁ : (unseen T []).length ≤ T.keys.length := List.length_filter_le _ _
    have h₂ := length_le_keys hnd hmem
    have h₃ := keys_length_le_bound (T := T)
    have h₄ : (unseen T []).length * (T.keys.length + 1) ≤ T.bound * (T.bound + 1) :=
      Nat.mul_le_mul (Nat.le_trans h₁ h₃) (Nat.succ_le_succ h₃)
    rw [Nat.succ_mul]
    lia
  obtain ⟨r, hr, hs, hres⟩ := computeConflict_ok info hT lh lhCnfls hcl _ [] ev.succ [] hnd hmem
    (by simp) hfuel
  refine ⟨r, by rw [computeConflicts, getEvent_ok _ hl, ok_bind, hr], hs, fun y hx hy => ?_⟩
  refine hres y hx hy ⟨fun z hz _ s hs => .inr ?_, by simp⟩
  obtain rfl : z = botEID := by simpa using hz
  exact hsucc ▸ hs

end Conflicts

/-! ## The new event -/

/-- The event at `x` with the new event `n` entered as a successor, when `x` is in `ps`, and as a
conflict, when it is in `cs`. -/
def linkTo (n : EventID) (ps cs : EventsID) (x : EventID) (ev : Event act) : Event act :=
  { ev with
    succ := if x ∈ ps then n :: ev.succ else ev.succ
    icnf := if x ∈ cs then n :: ev.icnf else ev.icnf }

theorem addSucc_ok (n : EventID) {p : EventID} {ev : Event act} (hl : T.lookup p = some ev) :
    addSucc n p T = .ok (setEvent p { ev with succ := n :: ev.succ } T) := by
  rw [addSucc, getEvent_ok _ hl, ok_bind, pure_eq_ok]

theorem addIcnf_ok (n : EventID) {c : EventID} {ev : Event act} (hl : T.lookup c = some ev) :
    addIcnf n c T = .ok (setEvent c { ev with icnf := n :: ev.icnf } T) := by
  rw [addIcnf, getEvent_ok _ hl, ok_bind, pure_eq_ok]

theorem foldlM_addSucc_ok (n : EventID) : ∀ (ps : EventsID) (T : Events act), ps.Nodup →
    (∀ p ∈ ps, p ∈ T) → ∃ T', ps.foldlM (fun t p => addSucc n p t) T = .ok T' ∧
      ∀ x, T'.lookup x = (T.lookup x).map (linkTo n ps [] x)
  | [], T, _, _ => ⟨T, rfl, fun x => by cases T.lookup x <;> simp [linkTo]⟩
  | p :: ps, T, hnd, hmem => by
    obtain ⟨hp, hnd⟩ := List.nodup_cons.1 hnd
    obtain ⟨ev, hl⟩ := Events.lookup_of_mem (hmem p List.mem_cons_self)
    obtain ⟨T', hT', hl'⟩ := foldlM_addSucc_ok n ps
      (setEvent p { ev with succ := n :: ev.succ } T) hnd fun q hq => by
        rw [setEvent, AList.mem_insert]
        exact .inr (hmem q (List.mem_cons_of_mem _ hq))
    refine ⟨T', by rw [List.foldlM_cons, addSucc_ok n hl, ok_bind, hT'], fun x => ?_⟩
    rw [hl']
    by_cases hx : x = p
    · subst hx
      simp [setEvent, AList.lookup_insert, hl, linkTo, hp]
    · rw [setEvent, AList.lookup_insert_ne hx]
      cases T.lookup x <;> simp [linkTo, hx]

theorem foldlM_addIcnf_ok (n : EventID) : ∀ (cs : EventsID) (T : Events act), cs.Nodup →
    (∀ c ∈ cs, c ∈ T) → ∃ T', cs.foldlM (fun t c => addIcnf n c t) T = .ok T' ∧
      ∀ x, T'.lookup x = (T.lookup x).map (linkTo n [] cs x)
  | [], T, _, _ => ⟨T, rfl, fun x => by cases T.lookup x <;> simp [linkTo]⟩
  | c :: cs, T, hnd, hmem => by
    obtain ⟨hc, hnd⟩ := List.nodup_cons.1 hnd
    obtain ⟨ev, hl⟩ := Events.lookup_of_mem (hmem c List.mem_cons_self)
    obtain ⟨T', hT', hl'⟩ := foldlM_addIcnf_ok n cs
      (setEvent c { ev with icnf := n :: ev.icnf } T) hnd fun q hq => by
        rw [setEvent, AList.mem_insert]
        exact .inr (hmem q (List.mem_cons_of_mem _ hq))
    refine ⟨T', by rw [List.foldlM_cons, addIcnf_ok n hl, ok_bind, hT'], fun x => ?_⟩
    rw [hl']
    by_cases hx : x = c
    · subst hx
      simp [setEvent, AList.lookup_insert, hl, linkTo, hc]
    · rw [setEvent, AList.lookup_insert_ne hx]
      cases T.lookup x <;> simp [linkTo, hx]

/-- `T'` is `T` with the new event `n`, of history `h` and conflicts `cs`. -/
structure Added (T : Events act) (n : EventID) (name : EventName) (acts : act) (h cs : EventsID)
    (T' : Events act) : Prop where
  new : T'.lookup n = some ⟨name, acts, h, [], cs, [], []⟩
  old : ∀ x, x ≠ n → T'.lookup x = (T.lookup x).map (linkTo n h cs x)

namespace Added

variable {T' : Events act} {n : EventID} {name : EventName} {acts : act} {h cs : EventsID}
  (ha : Added T n name acts h cs T')

include ha

theorem mem_iff : x ∈ T' ↔ x = n ∨ x ∈ T := by
  by_cases hx : x = n
  · subst hx
    simp [Events.mem_of_lookup ha.new]
  · rw [← AList.lookup_isSome, ha.old x hx, Option.isSome_map, AList.lookup_isSome]
    simp [hx]

theorem predOf (x : EventID) : T'.predOf x = if x = n then h else T.predOf x := by
  by_cases hx : x = n
  · subst hx
    simp [Events.predOf_of_lookup ha.new]
  · rw [if_neg hx]
    simp only [Events.predOf, ha.old x hx]
    cases T.lookup x <;> simp [linkTo]

theorem mem_succOf (hn : n ∉ T) (hh : ∀ p ∈ h, p ∈ T) {s : EventID} :
    s ∈ T'.succOf x ↔ s ∈ T.succOf x ∨ (s = n ∧ x ∈ h) := by
  by_cases hx : x = n
  · subst hx
    have h₁ : x ∉ h := fun hm => hn (hh x hm)
    have h₂ : s ∉ T.succOf x := fun hm => hn (Events.mem_of_mem_succOf hm)
    simp [Events.succOf_of_lookup ha.new, h₁, h₂]
  · simp only [Events.succOf, ha.old x hx]
    cases hl : T.lookup x with
    | none =>
      have : x ∉ h := fun hm => by
        obtain ⟨ev, hev⟩ := Events.lookup_of_mem (hh x hm)
        simp [hl] at hev
      simp [this]
    | some ev => by_cases hm : x ∈ h <;> simp [linkTo, hm, or_comm]

theorem mem_icnfOf (hn : n ∉ T) (hc : ∀ c ∈ cs, c ∈ T) {y : EventID} :
    y ∈ T'.icnfOf x ↔ y ∈ T.icnfOf x ∨ (y = n ∧ x ∈ cs) ∨ (x = n ∧ y ∈ cs) := by
  by_cases hx : x = n
  · subst hx
    have h₁ : x ∉ cs := fun hm => hn (hc x hm)
    have h₂ : y ∉ T.icnfOf x := fun hm => hn (Events.mem_of_mem_icnfOf hm)
    simp [Events.icnfOf_of_lookup ha.new, h₁, h₂]
  · simp only [Events.icnfOf, ha.old x hx]
    cases hl : T.lookup x with
    | none =>
      have : x ∉ cs := fun hm => by
        obtain ⟨ev, hev⟩ := Events.lookup_of_mem (hc x hm)
        simp [hl] at hev
      simp [this, hx]
    | some ev => by_cases hm : x ∈ cs <;> simp [linkTo, hm, hx, or_comm]

/-- Causality among the old events is as it was. -/
theorem lt_iff (hT : Linked T []) (hn : n ∉ T) {a b : EventID} (hb : b ∈ T) :
    Lt T' a b ↔ Lt T a b := by
  have hpred : ∀ {y}, y ∈ T → T'.predOf y = T.predOf y := by
    intro y hy
    rw [ha.predOf, if_neg (by rintro rfl; exact hn hy)]
  constructor
  · intro hlt
    induction hlt with
    | single hp => exact .single (hpred hb ▸ hp)
    | tail _ hp ih =>
      rw [hpred hb] at hp
      exact (ih (hT.causal.mem_of_pred hp)).tail hp
  · intro hlt
    induction hlt with
    | single hp => exact .single ((hpred hb).symm ▸ hp)
    | tail _ hp ih => exact (ih (hT.causal.mem_of_pred hp)).tail ((hpred hb).symm ▸ hp)

end Added

/-- A prefix between two operations. -/
structure WF (T : Events act) (cntr : Nat) : Prop where
  linked : Linked T []
  lt_cntr : ∀ {e}, e ∈ T → e < cntr
  anti : ∀ e, Antichain T (T.predOf e)
  bot : botEID ∈ T
  root : ∀ {e}, e ∈ T → e ≠ botEID → T.predOf e ≠ []

theorem WF.immediatePred {n : Nat} (h : WF T n) : ImmediatePred T := ⟨h.linked.pred_nodup, h.anti⟩

/-- Everything is above bottom. -/
theorem WF.bot_lt {n : Nat} (h : WF T n) : ∀ {e : EventID}, e ∈ T → e ≠ botEID → Lt T botEID e := by
  intro e
  induction e using Nat.strongRecOn with
  | _ e ih =>
    intro he hne
    obtain ⟨p, hp⟩ := List.exists_mem_of_ne_nil _ (h.root he hne)
    by_cases hb : p = botEID
    · exact .single (hb ▸ hp)
    · exact (ih p (h.linked.pred_lt hp) (h.linked.causal.mem_of_pred hp) hb).tail hp

section New

variable {T' : Events act} {n : EventID} {name : EventName} {acts : act} {h cs : EventsID}

theorem Added.linked (ha : Added T n name acts h cs T') (hT : WF T n) (hnd : h.Nodup)
    (hmem : ∀ p ∈ h, p ∈ T) (hcnd : cs.Nodup) (hcmem : ∀ c ∈ cs, c ∈ T) : Linked T' [] := by
  have hn : n ∉ T := fun hm => Nat.lt_irrefl n (hT.lt_cntr hm)
  have hL := hT.linked
  refine ⟨?_, ?_, ?_, ?_, ?_, ?_, ?_, ?_, ?_⟩
  · intro e p hp
    rw [ha.predOf] at hp
    split at hp
    · next he => exact he ▸ hT.lt_cntr (hmem p hp)
    · exact hL.pred_lt hp
  · intro e
    rw [ha.predOf]
    split
    · exact hnd
    · exact hL.pred_nodup e
  · intro e p _ hp
    rw [ha.predOf] at hp
    rw [ha.mem_iff]
    split at hp
    · exact .inr (hmem p hp)
    · exact .inr (hL.causal.mem_of_pred hp)
  · intro e p _ hp
    rw [ha.predOf] at hp
    rw [ha.mem_succOf hn hmem]
    split at hp
    · next he => exact .inr ⟨he, hp⟩
    · exact .inl (hL.causal.mem_succ_iff.2 hp)
  · intro e s hs
    rw [ha.mem_succOf hn hmem] at hs
    rw [ha.predOf]
    rcases hs with hs | ⟨rfl, he⟩
    · have hsn : s ≠ n := by
        rintro rfl
        exact hn (hL.succ_mem hs)
      simpa [hsn] using hL.causal.mem_succ_iff.1 hs
    · simpa using he
  · intro e
    by_cases he : e = n
    · subst he
      simp [Events.succOf_of_lookup ha.new]
    · have hns : n ∉ T.succOf e := fun hs => hn (hL.succ_mem hs)
      have hnd' := hL.succ_nodup e
      simp only [Events.succOf, ha.old e he] at hns hnd' ⊢
      cases hl : T.lookup e with
      | none => simp
      | some ev =>
        simp only [hl, Option.map_some, Option.getD_some, linkTo] at hns hnd' ⊢
        split
        · exact List.nodup_cons.2 ⟨hns, hnd'⟩
        · exact hnd'
  · intro e y _ hy
    rw [ha.mem_icnfOf hn hcmem] at hy ⊢
    refine ⟨?_, List.not_mem_nil⟩
    rcases hy with hy | ⟨rfl, he⟩ | ⟨rfl, hy⟩
    · exact .inl (hL.icnf_symm List.not_mem_nil hy).1
    · exact .inr (.inr ⟨rfl, he⟩)
    · exact .inr (.inl ⟨rfl, hy⟩)
  · intro e he
    rw [ha.mem_icnfOf hn hcmem] at he
    rcases he with he | ⟨rfl, he⟩ | ⟨rfl, he⟩
    · exact hL.icnf_irrefl e he
    · exact hn (hcmem _ he)
    · exact hn (hcmem _ he)
  · intro e
    by_cases he : e = n
    · subst he
      simpa [Events.icnfOf_of_lookup ha.new] using hcnd
    · have hns : n ∉ T.icnfOf e := fun hs => hn (hL.icnf_mem List.not_mem_nil hs)
      have hnd' := hL.icnf_nodup e
      simp only [Events.icnfOf, ha.old e he] at hns hnd' ⊢
      cases hl : T.lookup e with
      | none => simp
      | some ev =>
        simp only [hl, Option.map_some, Option.getD_some, linkTo] at hns hnd' ⊢
        split
        · exact List.nodup_cons.2 ⟨hns, hnd'⟩
        · exact hnd'

theorem Added.wf (ha : Added T n name acts h cs T') (hT : WF T n) (hne : h ≠ []) (hnd : h.Nodup)
    (hanti : Antichain T h) (hmem : ∀ p ∈ h, p ∈ T) (hcnd : cs.Nodup) (hcmem : ∀ c ∈ cs, c ∈ T) :
    WF T' (n + 1) where
  linked := ha.linked hT hnd hmem hcnd hcmem
  lt_cntr he := by
    rcases ha.mem_iff.1 he with rfl | he
    · exact Nat.lt_succ_self _
    · exact Nat.lt_succ_of_lt (hT.lt_cntr he)
  anti e a haE b hb hlt := by
    have hn : n ∉ T := fun hm => Nat.lt_irrefl n (hT.lt_cntr hm)
    rw [ha.predOf] at haE hb
    split_ifs at haE hb
    · exact hanti a haE b hb ((ha.lt_iff hT.linked hn (hmem b hb)).1 hlt)
    · exact hT.anti e a haE b hb ((ha.lt_iff hT.linked hn (hT.linked.causal.mem_of_pred hb)).1 hlt)
  bot := ha.mem_iff.2 (.inr hT.bot)
  root he hb := by
    rw [ha.predOf]
    split
    · exact hne
    · next hx => exact hT.root ((ha.mem_iff.1 he).resolve_left hx) hb

theorem foldlM_getIcnf_ok : ∀ (lh acc : EventsID), (∀ e ∈ lh, e ∈ T) →
    ∃ r, lh.foldlM (fun a e => do
        let es ← getIcnf e T
        pure (es ++ a)) acc = .ok r ∧
      ∀ x, x ∈ r ↔ x ∈ acc ∨ ∃ e ∈ lh, x ∈ T.icnfOf e
  | [], acc, _ => ⟨acc, rfl, by simp⟩
  | e :: lh, acc, h => by
    obtain ⟨r, hr, hmem⟩ := foldlM_getIcnf_ok lh (T.icnfOf e ++ acc)
      fun x hx => h x (List.mem_cons_of_mem _ hx)
    refine ⟨r, ?_, fun x => ?_⟩
    · rw [List.foldlM_cons, getIcnf_ok (h e List.mem_cons_self), ok_bind, pure_eq_ok, ok_bind, hr]
    · rw [hmem x]
      simp only [List.mem_append, List.exists_mem_cons_iff]
      rw [or_comm (a := x ∈ T.icnfOf e), or_assoc]

variable [Action act]

/-- The conflicts of a new event with local history `lh`. -/
structure NewConflicts (T : Events act) (info : EventInfo act) (lh cs : EventsID) : Prop where
  nodup : cs.Nodup
  sound : ∀ c ∈ cs, Conflicting info T lh c
  complete : ∀ y, Exposed info T lh y → Lt T botEID y → y ∈ cs

theorem addEvTable_ok (hT : WF T n) (hnd : h.Nodup) (hmem : ∀ p ∈ h, p ∈ T) {lh : EventsID}
    (hlh : ∀ x ∈ lh, x ∈ T) : ∃ cs T', addEvTable n name acts h lh T = .ok T' ∧
      Added T n name acts h cs T' ∧ NewConflicts T (name, acts) lh cs := by
  obtain ⟨lc, hlc, hlcm⟩ := foldlM_getIcnf_ok lh [] hlh
  have hcl : ∀ x, x ∈ lc.eraseDups ↔ ∃ z ∈ lh, x ∈ T.icnfOf z := by
    intro x
    simpa [List.mem_eraseDups] using hlcm x
  obtain ⟨r, hr, hsound, hcompl⟩ := computeConflicts_ok (name, acts) hT.linked.causal hT.bot
    (hT.linked.succ_nodup botEID) lh _ hcl
  have hn : n ∉ T := fun hm => Nat.lt_irrefl n (hT.lt_cntr hm)
  have hrT : ∀ c ∈ r.eraseDups, c ∈ T := fun c hc => (hsound c (List.mem_eraseDups.1 hc)).mem
  -- the new event, then its history, then its conflicts
  obtain ⟨T₁, hT₁⟩ : ∃ T₁, T₁ = setEvent n ⟨name, acts, h, [], r.eraseDups, [], []⟩ T := ⟨_, rfl⟩
  have hmem₁ : ∀ {x}, x ∈ T → x ∈ T₁ := by
    intro x hx
    rw [hT₁, setEvent, AList.mem_insert]
    exact .inr hx
  obtain ⟨T₂, hT₂, hl₂⟩ := foldlM_addSucc_ok n h T₁ hnd fun p hp => hmem₁ (hmem p hp)
  obtain ⟨T₃, hT₃, hl₃⟩ := foldlM_addIcnf_ok n r.eraseDups T₂ (nodup_eraseDups r) fun c hc => by
    rw [← AList.lookup_isSome, hl₂, Option.isSome_map, AList.lookup_isSome]
    exact hmem₁ (hrT c hc)
  refine ⟨r.eraseDups, T₃, ?_, ⟨?_, fun x hx => ?_⟩, nodup_eraseDups r,
    fun c hc => hsound c (List.mem_eraseDups.1 hc),
    fun y hx hy => List.mem_eraseDups.2 (hcompl y hx hy)⟩
  · rw [addEvTable, hlc, map_ok, ok_bind, hr, map_ok, ok_bind, ← hT₁]
    simp only [hT₂, ok_bind, hT₃]
  · have hnh : n ∉ h := fun hm => hn (hmem n hm)
    have hnr : n ∉ r.eraseDups := fun hm => hn (hrT n hm)
    rw [hl₃, hl₂, hT₁, setEvent, AList.lookup_insert]
    simp [linkTo, hnh, hnr]
  · rw [hl₃, hl₂, hT₁, setEvent, AList.lookup_insert_ne hx]
    cases T.lookup x <;> simp [linkTo]

end New

end Poet
