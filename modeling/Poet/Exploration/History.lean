import Poet.Exploration.Causality

/-!
# Histories

`history` starts from the maximal events of a configuration and goes up the causality of those that
are independent of the new event, until all that is left is dependent. The result is the set of
maximal dependent events of the configuration: `history_ok`. The lists of `pruneConfiguration` are
antichains all along, which is why no event is listed twice.
-/

namespace Poet

variable {act : Type} {T : Events act} {e x y : EventID} {l : EventsID}

/-- `x` is in the configuration with maximal events `l`. -/
def Under (T : Events act) (l : EventsID) (x : EventID) : Prop := ∃ m ∈ l, Le T x m

/-- No event of the list is below another. -/
def Antichain (T : Events act) (l : EventsID) : Prop := ∀ a ∈ l, ∀ b ∈ l, ¬ Lt T a b

/-- The lists `pred` hold immediate predecessors: no event twice, and none below another. -/
structure ImmediatePred (T : Events act) : Prop where
  nodup : ∀ e, (T.predOf e).Nodup
  anti : ∀ e, Antichain T (T.predOf e)

theorem under_of_mem (h : x ∈ l) : Under T l x := ⟨x, h, .inl rfl⟩

theorem Under.of_le (h : Under T l y) (hxy : Le T x y) : Under T l x := by
  obtain ⟨m, hm, hy⟩ := h
  exact ⟨m, hm, hxy.trans hy⟩

theorem Antichain.subset {l' : EventsID} (h : Antichain T l) (hsub : l' ⊆ l) : Antichain T l' :=
  fun a ha b hb => h a (hsub ha) b (hsub hb)

/-- The events of `l` that are below none of `q`. -/
theorem filterM_maximal_ok (hT : Causal T) (q l : EventsID) (hl : ∀ p ∈ l, p ∈ T) :
    ∃ r, filterM (fun e => do
        let succe ← successors e T
        pure (succe ∩ q).isEmpty) l = .ok r ∧ r.Sublist l ∧
      ∀ p, p ∈ r ↔ p ∈ l ∧ ∀ x ∈ q, ¬ Lt T p x := by
  have hsucc : ∀ p ∈ l, ∃ s, successors p T = .ok s ∧ ∀ x, x ∈ s ↔ Lt T p x := by
    intro p hp
    obtain ⟨s, hs, -, hmem⟩ := successors_ok hT (hl p hp)
    exact ⟨s, hs, hmem⟩
  choose! g hg hmem using hsucc
  refine ⟨l.filter fun p => (g p ∩ q).isEmpty, filterM_ok fun p hp => ?_, List.filter_sublist, ?_⟩
  · simp [hg p hp, bind, Except.bind, pure, Except.pure]
  · intro p
    rw [List.mem_filter, List.isEmpty_iff, List.eq_nil_iff_forall_not_mem]
    refine and_congr_right fun hp => ⟨fun h x hx hlt => ?_, fun h x hx => ?_⟩
    · exact h x (List.mem_inter_iff.2 ⟨(hmem p hp x).2 hlt, hx⟩)
    · obtain ⟨hx₁, hx₂⟩ := List.mem_inter_iff.1 hx
      exact h x hx₂ ((hmem p hp x).1 hx₁)

/-- Above a predecessor that was dropped there is one that was kept, or an event of `preHis`. -/
theorem exists_kept {preHis prdes mpredes : EventsID} {ρ : EventID → Nat}
    (hρ : ∀ {x e}, Lt T x e → ρ x < ρ e) (hb : ∀ p ∈ prdes, ρ p < T.bound)
    (hkeep : ∀ p, p ∈ mpredes ↔ p ∈ prdes ∧ ∀ q ∈ preHis ++ prdes, ¬ Lt T p q) :
    ∀ (n : Nat) (p : EventID), p ∈ prdes → T.bound ≤ n + ρ p → Under T (preHis ++ mpredes) p
  | 0, p, hp, hn => by
    have := hb p hp
    lia
  | n + 1, p, hp, hn => by
    by_cases hk : p ∈ mpredes
    · exact under_of_mem (List.mem_append_right _ hk)
    have hdrop : ∃ q ∈ preHis ++ prdes, Lt T p q := by
      by_contra hno
      exact hk ((hkeep p).2 ⟨hp, fun q hq hlt => hno ⟨q, hq, hlt⟩⟩)
    obtain ⟨q, hq, hlt⟩ := hdrop
    refine Under.of_le ?_ (.inr hlt)
    rcases List.mem_append.1 hq with hq | hq
    · exact under_of_mem (List.mem_append_left _ hq)
    · have := hρ hlt
      exact exists_kept hρ hb hkeep n q hq (by lia)

section Dependent

variable [Action act] (info : EventInfo act)

/-- The event `e` of the prefix is dependent with the new event. -/
def dependsOn (T : Events act) (e : EventID) : Bool :=
  match T.lookup e with
  | some ev => isDependent info (ev.name, ev.acts)
  | none => false

theorem partitionDependent_ok : ∀ (es dep indep : EventsID), (∀ e ∈ es, e ∈ T) →
    partitionDependent info T (dep, indep) es =
      .ok ((es.filter (dependsOn info T)).reverse ++ dep,
        (es.filter fun e => !dependsOn info T e).reverse ++ indep)
  | [], _, _, _ => rfl
  | e :: es, dep, indep, h => by
    obtain ⟨ev, hl⟩ := Events.lookup_of_mem (h e List.mem_cons_self)
    have hes : ∀ x ∈ es, x ∈ T := fun x hx => h x (List.mem_cons_of_mem _ hx)
    have hd : dependsOn info T e = isDependent info (ev.name, ev.acts) := by simp [dependsOn, hl]
    by_cases hdep : dependsOn info T e = true
    · simp [partitionDependent, getEvent, hl, bind, Except.bind, ← hd, hdep,
        partitionDependent_ok es _ _ hes]
    · rw [Bool.not_eq_true] at hdep
      simp [partitionDependent, getEvent, hl, bind, Except.bind, ← hd, hdep,
        partitionDependent_ok es _ _ hes]

/-- `h` are the maximal dependent events under `l`. -/
structure IsHistory (T : Events act) (l h : EventsID) : Prop where
  nodup : h.Nodup
  anti : Antichain T h
  dep : ∀ x ∈ h, dependsOn info T x = true
  under : ∀ x ∈ h, Under T l x
  cover : ∀ x, Under T l x → dependsOn info T x = true → Under T h x

/-- The maximal dependent events, as a set. -/
theorem IsHistory.mem_iff {info : EventInfo act} {h : EventsID} (hh : IsHistory info T l h) :
    x ∈ h ↔ Under T l x ∧ dependsOn info T x = true ∧
      ∀ y, Under T l y → dependsOn info T y = true → ¬ Lt T x y := by
  constructor
  · intro hx
    refine ⟨hh.under x hx, hh.dep x hx, fun y hy hd hxy => ?_⟩
    obtain ⟨m, hm, hym⟩ := hh.cover y hy hd
    exact hh.anti x hx m hm (hxy.trans_le hym)
  · rintro ⟨hu, hd, hmax⟩
    obtain ⟨m, hm, rfl | hlt⟩ := hh.cover x hu hd
    · exact hm
    · exact absurd hlt (hmax m (hh.under m hm) (hh.dep m hm))

/-- The lists of `pruneConfiguration`: `preHis` dependent, `es` independent, together an antichain. -/
structure PruneInv (T : Events act) (preHis es : EventsID) : Prop where
  mem : ∀ x ∈ preHis ++ es, x ∈ T
  nodup : (preHis ++ es).Nodup
  anti : Antichain T (preHis ++ es)
  dep : ∀ x ∈ preHis, dependsOn info T x = true
  indep : ∀ x ∈ es, dependsOn info T x = false

section Prune

variable {info} {preHis es prdes mpredes : EventsID}

/-- One round keeps the invariant, stays below, and loses no dependent event. -/
theorem prune_step (hT : Causal T) (h : PruneInv info T preHis es) (hnd : mpredes.Nodup)
    (hprdes : ∀ p, p ∈ prdes ↔ ∃ z ∈ es, p ∈ T.predOf z)
    (hkeep : ∀ p, p ∈ mpredes ↔ p ∈ prdes ∧ ∀ q ∈ preHis ++ prdes, ¬ Lt T p q) :
    PruneInv info T ((mpredes.filter (dependsOn info T)).reverse ++ preHis)
        (mpredes.filter fun e => !dependsOn info T e).reverse ∧
      (∀ x ∈ mpredes, Under T (preHis ++ es) x) ∧
      ∀ x, Under T (preHis ++ es) x → dependsOn info T x = true → Under T (preHis ++ mpredes) x := by
  have hbelow : ∀ m ∈ mpredes, ∃ z ∈ es, Lt T m z := by
    intro m hm
    obtain ⟨z, hz, hp⟩ := (hprdes m).1 ((hkeep m).1 hm).1
    exact ⟨z, hz, lt_of_mem_pred hp⟩
  have hmem : ∀ p ∈ prdes, p ∈ T := by
    intro p hp
    obtain ⟨z, -, hz⟩ := (hprdes p).1 hp
    exact hT.mem_of_pred hz
  -- an event of `preHis` is not below one of `es`
  have hpre : ∀ a ∈ preHis, ∀ z ∈ es, ¬ Lt T a z := fun a ha z hz =>
    h.anti a (List.mem_append_left _ ha) z (List.mem_append_right _ hz)
  have hdisj : ∀ a ∈ preHis, a ∉ mpredes := by
    intro a ha hm
    obtain ⟨z, hz, hlt⟩ := hbelow a hm
    exact hpre a ha z hz hlt
  have hperm : ∀ x, x ∈ (mpredes.filter (dependsOn info T)).reverse ++ preHis ++
      (mpredes.filter fun e => !dependsOn info T e).reverse → x ∈ preHis ∨ x ∈ mpredes := by
    intro x hx
    simp only [List.mem_append, List.mem_reverse, List.mem_filter] at hx
    rcases hx with (hx | hx) | hx
    · exact .inr hx.1
    · exact .inl hx
    · exact .inr hx.1
  refine ⟨⟨?_, ?_, ?_, ?_, ?_⟩, ?_, ?_⟩
  · intro x hx
    rcases hperm x hx with hx | hx
    · exact h.mem x (List.mem_append_left _ hx)
    · exact hmem x ((hkeep x).1 hx).1
  · have hpreN := (List.nodup_append.1 h.nodup).1
    simp only [List.append_assoc, List.nodup_append, List.nodup_reverse, List.mem_append,
      List.mem_reverse, List.mem_filter]
    refine ⟨hnd.filter _, ⟨hpreN, hnd.filter _, ?_⟩, ?_⟩
    · rintro a ha b ⟨hb, -⟩ rfl
      exact hdisj a ha hb
    · rintro a ⟨ha, had⟩ b (hb | ⟨-, hb⟩) rfl
      · exact hdisj a hb ha
      · simp [had] at hb
  · intro a ha b hb hlt
    rcases hperm a ha with ha | ha <;> rcases hperm b hb with hb | hb
    · exact h.anti a (List.mem_append_left _ ha) b (List.mem_append_left _ hb) hlt
    · obtain ⟨z, hz, hbz⟩ := hbelow b hb
      exact hpre a ha z hz (hlt.trans hbz)
    · exact ((hkeep a).1 ha).2 b (List.mem_append_left _ hb) hlt
    · exact ((hkeep a).1 ha).2 b (List.mem_append_right _ ((hkeep b).1 hb).1) hlt
  · intro x hx
    rcases List.mem_append.1 hx with hx | hx
    · exact (List.mem_filter.1 (List.mem_reverse.1 hx)).2
    · exact h.dep x hx
  · intro x hx
    simpa using (List.mem_filter.1 (List.mem_reverse.1 hx)).2
  · intro x hx
    obtain ⟨z, hz, hlt⟩ := hbelow x hx
    exact ⟨z, List.mem_append_right _ hz, .inr hlt⟩
  · rintro x ⟨z, hz, hxz⟩ hd
    rcases List.mem_append.1 hz with hz | hz
    · exact ⟨z, List.mem_append_left _ hz, hxz⟩
    · rcases hxz with rfl | hlt
      · simp [h.indep x hz] at hd
      · obtain ⟨p, hp, hxp⟩ := lt_iff_pred.1 hlt
        obtain ⟨ρ, hρ, hb⟩ := hT.exists_rank
        exact (exists_kept hρ (fun p hp => hb p (hmem p hp)) hkeep T.bound p
          ((hprdes p).2 ⟨z, hz, hp⟩) (by lia)).of_le hxp

end Prune

theorem pruneConfiguration_ok (hT : Causal T) {ρ : EventID → Nat}
    (hρ : ∀ {x e}, Lt T x e → ρ x < ρ e) : ∀ (n : Nat) (preHis es : EventsID),
    PruneInv info T preHis es → (∀ z ∈ es, ρ z < n) → es ≠ [] →
    ∃ h, pruneConfiguration info T n preHis es = .ok h ∧ IsHistory info T (preHis ++ es) h
  | 0, _, z :: _, _, hn, _ => absurd (hn z List.mem_cons_self) (Nat.not_lt_zero (ρ z))
  | _, _, [], _, _, hne => absurd rfl hne
  | n + 1, preHis, z :: zs, hinv, hn, _ => by
    obtain ⟨es, hes⟩ : ∃ es, es = z :: zs := ⟨_, rfl⟩
    rw [← hes] at hinv hn ⊢
    have hesT : ∀ x ∈ es, x ∈ T := fun x hx => hinv.mem x (List.mem_append_right _ hx)
    obtain ⟨prdes, hprd⟩ : ∃ prdes, prdes = (es.map T.predOf).flatten.eraseDups := ⟨_, rfl⟩
    have hprdes : ∀ p, p ∈ prdes ↔ ∃ z ∈ es, p ∈ T.predOf z := by
      intro p
      simp [hprd, List.mem_eraseDups]
    have hprT : ∀ p ∈ prdes, p ∈ T := by
      intro p hp
      obtain ⟨z, -, hz⟩ := (hprdes p).1 hp
      exact hT.mem_of_pred hz
    obtain ⟨mpredes, hm, hsub, hkeep⟩ := filterM_maximal_ok hT (preHis ++ prdes) prdes hprT
    have hnd : mpredes.Nodup := hsub.nodup (hprd ▸ nodup_eraseDups _)
    obtain ⟨hinv', hunder, hcover⟩ := prune_step hT hinv hnd hprdes hkeep
    have hpart := partitionDependent_ok info mpredes preHis [] fun p hp => hprT p ((hkeep p).1 hp).1
    rw [List.append_nil] at hpart
    have hrun : pruneConfiguration info T (n + 1) preHis es =
        if (mpredes.filter fun e => !dependsOn info T e).reverse.isEmpty then
          pure ((mpredes.filter (dependsOn info T)).reverse ++ preHis)
        else pruneConfiguration info T n ((mpredes.filter (dependsOn info T)).reverse ++ preHis)
          (mpredes.filter fun e => !dependsOn info T e).reverse := by
      have hmap : es.mapM' (fun e => getPred e T) = .ok (es.map T.predOf) :=
        mapM'_ok fun a ha => getPred_ok (hesT a ha)
      rw [pruneConfiguration]
      simp only [hmap, Functor.map, Except.map, bind, Except.bind, ← hprd] at hm ⊢
      simp only [hm, hpart]
    -- the events of the two lists are those of `preHis` and the predecessors kept
    obtain ⟨pre', hpre'⟩ : ∃ l, l = (mpredes.filter (dependsOn info T)).reverse ++ preHis := ⟨_, rfl⟩
    obtain ⟨es', hes'⟩ : ∃ l, l = (mpredes.filter fun e => !dependsOn info T e).reverse := ⟨_, rfl⟩
    rw [← hpre', ← hes'] at hrun hinv'
    have hset : ∀ x, x ∈ pre' ++ es' ↔ x ∈ preHis ++ mpredes := by
      intro x
      simp only [hpre', hes', List.mem_append, List.mem_reverse, List.mem_filter,
        Bool.not_eq_true']
      cases dependsOn info T x <;> simp [or_comm]
    have hup : ∀ x, Under T (pre' ++ es') x → Under T (preHis ++ es) x := by
      rintro x ⟨m, hm', hxm⟩
      refine Under.of_le ?_ hxm
      rcases List.mem_append.1 ((hset m).1 hm') with h | h
      · exact under_of_mem (List.mem_append_left _ h)
      · exact hunder m h
    have hdown : ∀ x, Under T (preHis ++ es) x → dependsOn info T x = true →
        Under T (pre' ++ es') x := by
      intro x hx hd
      obtain ⟨m, hm', hxm⟩ := hcover x hx hd
      exact ⟨m, (hset m).2 hm', hxm⟩
    by_cases hnil : es' = []
    · subst hnil
      rw [List.append_nil] at hup hdown
      have hnodup := hinv'.nodup
      have hanti := hinv'.anti
      rw [List.append_nil] at hnodup hanti
      exact ⟨pre', by simp [hrun, pure, Except.pure], hnodup, hanti, hinv'.dep,
        fun x hx => hup x (under_of_mem hx), hdown⟩
    · have hlt : ∀ x ∈ es', ρ x < n := by
        intro x hx
        have hxm : x ∈ mpredes := by
          rw [hes'] at hx
          exact (List.mem_filter.1 (List.mem_reverse.1 hx)).1
        obtain ⟨z, hz, hp⟩ := (hprdes x).1 ((hkeep x).1 hxm).1
        have h₁ := hρ (lt_of_mem_pred hp)
        have h₂ := hn z hz
        lia
      obtain ⟨h, hok, hh⟩ := pruneConfiguration_ok hT hρ n pre' es' hinv' hlt hnil
      refine ⟨h, by simp [hrun, hnil, hok], hh.nodup, hh.anti, hh.dep,
        fun x hx => hup x (hh.under x hx), fun x hx hd => hh.cover x (hdown x hx hd) hd⟩

/-- The largest history of a new event: the maximal dependent events under `maxevs`. -/
theorem history_ok (hT : Causal T) {maxevs : EventsID} (hmem : ∀ x ∈ maxevs, x ∈ T)
    (hnd : maxevs.Nodup) (hanti : Antichain T maxevs) :
    ∃ h, history info maxevs T = .ok h ∧ IsHistory info T maxevs h := by
  have hpart := partitionDependent_ok info maxevs [] [] hmem
  rw [List.append_nil, List.append_nil] at hpart
  obtain ⟨dep, hdep⟩ : ∃ l, l = (maxevs.filter (dependsOn info T)).reverse := ⟨_, rfl⟩
  obtain ⟨ind, hind⟩ : ∃ l, l = (maxevs.filter fun e => !dependsOn info T e).reverse := ⟨_, rfl⟩
  rw [← hdep, ← hind] at hpart
  have hset : ∀ x, x ∈ dep ++ ind ↔ x ∈ maxevs := by
    intro x
    simp only [hdep, hind, List.mem_append, List.mem_reverse, List.mem_filter, Bool.not_eq_true']
    cases dependsOn info T x <;> simp
  have hunder : ∀ x, Under T (dep ++ ind) x ↔ Under T maxevs x := fun x => by
    simp only [Under, hset]
  have hinv : PruneInv info T dep ind := by
    refine ⟨fun x hx => hmem x ((hset x).1 hx), ?_, hanti.subset fun x hx => (hset x).1 hx, ?_, ?_⟩
    · simp only [hdep, hind, List.nodup_append, List.nodup_reverse, List.mem_reverse,
        List.mem_filter]
      refine ⟨hnd.filter _, hnd.filter _, ?_⟩
      rintro a ⟨-, ha⟩ b ⟨-, hb⟩ rfl
      simp [ha] at hb
    · intro x hx
      rw [hdep] at hx
      exact (List.mem_filter.1 (List.mem_reverse.1 hx)).2
    · intro x hx
      rw [hind] at hx
      simpa using (List.mem_filter.1 (List.mem_reverse.1 hx)).2
  by_cases hnil : ind = []
  · subst hnil
    have hnodup := hinv.nodup
    have hanti' := hinv.anti
    rw [List.append_nil] at hnodup hanti' hunder
    refine ⟨dep, by simp [history, hpart, bind, Except.bind, pure, Except.pure], hnodup, hanti',
      hinv.dep, fun x hx => (hunder x).1 (under_of_mem hx), fun x hx _ => (hunder x).2 hx⟩
  · obtain ⟨ρ, hρ, hb⟩ := hT.exists_rank
    obtain ⟨h, hok, hh⟩ := pruneConfiguration_ok info hT hρ (T.bound + 1) dep ind hinv
      (fun z hz => Nat.lt_succ_of_lt (hb z (hinv.mem z (List.mem_append_right _ hz)))) hnil
    refine ⟨h, by simp [history, hpart, hnil, hok, bind, Except.bind], hh.nodup, hh.anti, hh.dep,
      fun x hx => (hunder x).1 (hh.under x hx), fun x hx hd => hh.cover x ((hunder x).2 hx) hd⟩

/-! ## The other histories -/

/-- A history of an event under `l`: events of the prefix, none below another. -/
structure GoodHistory (T : Events act) (l h : EventsID) : Prop where
  nodup : h.Nodup
  anti : Antichain T h
  mem : ∀ x ∈ h, x ∈ T
  under : ∀ x ∈ h, Under T l x

variable {info}

theorem IsHistory.good (hT : Causal T) {h : EventsID} (hl : ∀ x ∈ l, x ∈ T)
    (hh : IsHistory info T l h) : GoodHistory T l h := by
  refine ⟨hh.nodup, hh.anti, fun x hx => ?_, hh.under⟩
  obtain ⟨m, hm, hxm⟩ := hh.under x hx
  exact hT.mem_of_le hxm (hl m hm)

variable (info) in
/-- `h'` are the maximal dependent events under `h` without its event `e'`. -/
structure Replaced (T : Events act) (h : EventsID) (e' : EventID) (h' : EventsID) : Prop where
  dep : ∀ x ∈ h', dependsOn info T x = true
  below : ∀ x, Under T h' x → Under T h x
  notUnder : ¬ Under T h' e'
  cover : ∀ x, Under T h x → x ≠ e' → dependsOn info T x = true → Under T h' x

/-- The other dependent events of the history stay. -/
theorem Replaced.keep {h h' : EventsID} {e' : EventID} (hr : Replaced info T h e' h')
    (hanti : Antichain T h) (hx : x ∈ h) (hne : x ≠ e') (hd : dependsOn info T x = true) : x ∈ h' := by
  obtain ⟨m, hm, rfl | hlt⟩ := hr.cover x (under_of_mem hx) hne hd
  · exact hm
  · obtain ⟨k, hk, hmk⟩ := hr.below m (under_of_mem hm)
    exact absurd (hlt.trans_le hmk) (hanti x hx k hk)

theorem nextHistory_ok (hT : Causal T) (hpred : ImmediatePred T) {h : EventsID}
    {e' : EventID} (hh : GoodHistory T l h) (he' : e' ∈ h) :
    ∃ h', nextHistory info T h e' = .ok h' ∧ GoodHistory T l h' ∧ Replaced info T h e' h' := by
  have heT := hh.mem e' he'
  have hpT : ∀ p ∈ T.predOf e', p ∈ T := fun p hp => hT.mem_of_pred hp
  obtain ⟨prede, hp, hsub, hmemp⟩ := filterM_maximal_ok hT (h.erase e') (T.predOf e') hpT
  have hmemE : ∀ x, x ∈ h.erase e' ↔ x ≠ e' ∧ x ∈ h := fun x => hh.nodup.mem_erase_iff
  -- replacing `e'` by its predecessors gives an antichain again
  have hanti : Antichain T (h.erase e' ++ prede) := by
    intro a ha b hb hlt
    rcases List.mem_append.1 ha with ha | ha <;> rcases List.mem_append.1 hb with hb | hb
    · exact hh.anti a ((hmemE a).1 ha).2 b ((hmemE b).1 hb).2 hlt
    · exact hh.anti a ((hmemE a).1 ha).2 e' he' (hlt.trans (lt_of_mem_pred ((hmemp b).1 hb).1))
    · exact ((hmemp a).1 ha).2 b hb hlt
    · exact hpred.anti e' a ((hmemp a).1 ha).1 b ((hmemp b).1 hb).1 hlt
  have hnd : (h.erase e' ++ prede).Nodup := by
    refine List.nodup_append.2 ⟨hh.nodup.erase e', hsub.nodup (hpred.nodup e'), ?_⟩
    rintro a ha b hb rfl
    exact hh.anti a ((hmemE a).1 ha).2 e' he' (lt_of_mem_pred ((hmemp a).1 hb).1)
  have hmem : ∀ x ∈ h.erase e' ++ prede, x ∈ T := by
    intro x hx
    rcases List.mem_append.1 hx with hx | hx
    · exact hh.mem x ((hmemE x).1 hx).2
    · exact hpT x ((hmemp x).1 hx).1
  -- and the events under it are those under `h`, without `e'`
  have hunder : ∀ x, Under T (h.erase e' ++ prede) x ↔ Under T h x ∧ x ≠ e' := by
    intro x
    constructor
    · rintro ⟨m, hm, hxm⟩
      rcases List.mem_append.1 hm with hm | hm
      · obtain ⟨hne, hmh⟩ := (hmemE m).1 hm
        refine ⟨⟨m, hmh, hxm⟩, ?_⟩
        rintro rfl
        rcases hxm with rfl | hlt
        · exact hne rfl
        · exact hh.anti x he' m hmh hlt
      · have hlt := hxm.trans_lt (lt_of_mem_pred ((hmemp m).1 hm).1)
        exact ⟨⟨e', he', .inr hlt⟩, fun hx => hT.lt_irrefl (hx ▸ hlt)⟩
    · rintro ⟨⟨m, hm, hxm⟩, hne⟩
      by_cases hme : m = e'
      · subst hme
        obtain ⟨p, hp, hxp⟩ := lt_iff_pred.1 (hxm.resolve_left hne)
        by_cases hpk : p ∈ prede
        · exact ⟨p, List.mem_append_right _ hpk, hxp⟩
        · have : ∃ k ∈ h.erase m, Lt T p k := by
            by_contra hno
            exact hpk ((hmemp p).2 ⟨hp, fun k hk hlt => hno ⟨k, hk, hlt⟩⟩)
          obtain ⟨k, hk, hlt⟩ := this
          exact ⟨k, List.mem_append_left _ hk, .inr (hxp.trans_lt hlt)⟩
      · exact ⟨m, List.mem_append_left _ ((hmemE m).2 ⟨hme, hm⟩), hxm⟩
  obtain ⟨h', hok, hh'⟩ := history_ok info hT hmem hnd hanti
  have hbelow : ∀ x, Under T h' x → Under T h x ∧ x ≠ e' := by
    rintro x ⟨m, hm, hxm⟩
    exact (hunder x).1 ((hh'.under m hm).of_le hxm)
  refine ⟨h', ?_, ⟨hh'.nodup, hh'.anti, (hh'.good hT hmem).mem, fun x hx => ?_⟩, hh'.dep,
    fun x hx => (hbelow x hx).1, fun hu => (hbelow e' hu).2 rfl,
    fun x hx hne hd => hh'.cover x ((hunder x).2 ⟨hx, hne⟩) hd⟩
  · simp only [nextHistory, getPred_ok heT, bind, Except.bind] at hp ⊢
    simp only [hp, hok]
  · obtain ⟨m, hm, hxm⟩ := (hbelow x (under_of_mem hx)).1
    exact (hh.under m hm).of_le hxm

variable (info) in
/-- An event of a history that `histories` replaces: not of the thread, nor the one that creates
it. -/
def replaceable (T : Events act) (x : EventID) : Bool :=
  match T.lookup x with
  | some ev => ev.name.tid ≠ info.1.tid && !Action.isCreateOf ⟨info.1.tid⟩ ev.acts
  | none => false

theorem filterM_replaceable {h : EventsID} (hh : GoodHistory T l h) : filterM (fun e' => do
      let ev ← getEvent "computeHistories" e' T
      pure (ev.name.tid ≠ info.1.tid && !Action.isCreateOf ⟨info.1.tid⟩ ev.acts)) (h.erase e) =
    .ok ((h.erase e).filter (replaceable info T)) := by
  refine filterM_ok fun x hx => ?_
  obtain ⟨ev, hl⟩ := Events.lookup_of_mem (hh.mem x (List.mem_of_mem_erase hx))
  rw [getEvent_ok _ hl, ok_bind, pure_eq_ok, replaceable, hl]

/-- All lists that `histories` handles are histories with `e`; it can only run out of fuel. -/
theorem histories_ok (hT : Causal T) (hpred : ImmediatePred T)
    (hd : dependsOn info T e = true) : ∀ (n : Nat) (wlist hists : Histories),
    (∀ h ∈ wlist, GoodHistory T l h ∧ e ∈ h) → (∀ h ∈ hists, GoodHistory T l h ∧ e ∈ h) →
    (∃ r, histories info e T n wlist hists = .ok r ∧ ∀ h ∈ r, GoodHistory T l h ∧ e ∈ h) ∨
      histories info e T n wlist hists = .error .outOfFuel
  | n, [], hists, _, hh => by
    refine .inl ⟨hists.eraseDups, ?_, fun h hm => hh h (List.mem_eraseDups.1 hm)⟩
    cases n <;> rfl
  | 0, _ :: _, _, _, _ => .inr rfl
  | n + 1, h :: hs, hists, hw, hh => by
    obtain ⟨hgood, heh⟩ := hw h List.mem_cons_self
    obtain ⟨hc, hhc⟩ : ∃ hc, hc = (h.erase e).filter (replaceable info T) := ⟨_, rfl⟩
    have hnext : ∀ x ∈ hc, ∃ h', nextHistory info T h x = .ok h' ∧
        (GoodHistory T l h' ∧ e ∈ h') := by
      intro x hx
      rw [hhc] at hx
      obtain ⟨hne, hxh⟩ := hgood.nodup.mem_erase_iff.1 (List.mem_filter.1 hx).1
      obtain ⟨h', hok, hg, hr⟩ := nextHistory_ok hT hpred hgood hxh
      exact ⟨h', hok, hg, hr.keep hgood.anti heh (Ne.symm hne) hd⟩
    choose! g hg hgg using hnext
    have hmap := mapM'_ok hg
    have hchs : ∀ h' ∈ (hc.map g).eraseDups, GoodHistory T l h' ∧ e ∈ h' := by
      intro h' hm
      obtain ⟨x, hx, rfl⟩ := List.mem_map.1 (List.mem_eraseDups.1 hm)
      exact hgg x hx
    have hrec := histories_ok hT hpred hd n
      (((hc.map g).eraseDups.filter fun h => !decide (h ∈ hs)) ++ hs) ((hc.map g).eraseDups ++ hists)
      (fun h' hm => (List.mem_append.1 hm).elim (fun hm => hchs h' (List.mem_filter.1 hm).1)
        fun hm => hw h' (List.mem_cons_of_mem _ hm))
      (fun h' hm => (List.mem_append.1 hm).elim (hchs h') (hh h'))
    rw [histories, filterM_replaceable hgood, ok_bind, ← hhc, hmap, ok_bind]
    exact hrec

/-- As sets the histories are different from each other. -/
def Distinct (hs : Histories) : Prop := hs.Pairwise fun h h' => ¬ ∀ x, x ∈ h ↔ x ∈ h'

/-- When no history has two events to replace, `histories` goes down a chain. -/
theorem histories_distinct (hT : Causal T) (hpred : ImmediatePred T)
    (hd : dependsOn info T e = true)
    (hw : ∀ h, GoodHistory T l h → e ∈ h → ∀ a ∈ h.erase e, ∀ b ∈ h.erase e,
      replaceable info T a = true → replaceable info T b = true → a = b) {h0 : History} :
    ∀ (n : Nat) (h : History) (hists r : Histories), GoodHistory T l h → e ∈ h →
      (∀ g ∈ hists ++ [h0], ∀ x, Under T h x → Under T g x) → Distinct (hists ++ [h0]) →
      histories info e T n [h] hists = .ok r → Distinct (r ++ [h0])
  | 0, _, _, _, _, _, _, _, hr => by cases hr
  | n + 1, h, hists, r, hgood, heh, habove, hdist, hr => by
    rw [histories, filterM_replaceable hgood, ok_bind] at hr
    cases hc : (h.erase e).filter (replaceable info T) with
    | nil =>
      rw [hc] at hr
      have hr' : hists.eraseDups = r := by
        cases n <;> exact Except.ok.inj hr
      subst hr'
      obtain ⟨hp, -, happ⟩ := List.pairwise_append.1 hdist
      exact List.pairwise_append.2 ⟨pairwise_eraseDups hp, List.pairwise_singleton _ _,
        fun a ha b hb => happ a (List.mem_eraseDups.1 ha) b hb⟩
    | cons e' rest =>
      have he' : e' ∈ (h.erase e).filter (replaceable info T) := hc ▸ List.mem_cons_self
      obtain ⟨heE, hrep⟩ := List.mem_filter.1 he'
      obtain rfl : rest = [] := by
        cases rest with
        | nil => rfl
        | cons b rest =>
          have hb : b ∈ (h.erase e).filter (replaceable info T) := by simp [hc]
          obtain ⟨hbE, hbr⟩ := List.mem_filter.1 hb
          have hnd := (hgood.nodup.erase e).filter (replaceable info T)
          rw [hc, hw h hgood heh e' heE b hbE hrep hbr] at hnd
          simp at hnd
      obtain ⟨hne, hxh⟩ := hgood.nodup.mem_erase_iff.1 heE
      obtain ⟨h', hok, hg', hrep'⟩ := nextHistory_ok hT hpred hgood hxh
      have hmap : [e'].mapM' (nextHistory info T h) = .ok [h'] :=
        mapM'_ok (g := fun _ => h') fun x hx => by
          obtain rfl : x = e' := by simpa using hx
          exact hok
      have hone : [h'].eraseDups = [h'] := by simp [List.eraseDups_cons]
      rw [hc, hmap, ok_bind, hone] at hr
      refine histories_distinct hT hpred hd hw n h' (h' :: hists) r hg'
        (hrep'.keep hgood.anti heh (Ne.symm hne) hd) ?_ ?_ (by simpa using hr)
      · intro g hg x hx
        rcases List.mem_cons.1 hg with rfl | hg
        · exact hx
        · exact habove g hg x (hrep'.below x hx)
      · refine List.pairwise_cons.2 ⟨fun g hg hset => hrep'.notUnder ?_, hdist⟩
        -- `e'` is under every history before `h'`
        obtain ⟨m, hm, hle⟩ := habove g hg e' (under_of_mem hxh)
        exact ⟨m, (hset m).2 hm, hle⟩

/-- The event `x` of the prefix unlocks what the new event locks. -/
def unlocksFor (acts : act) (T : Events act) (x : EventID) : Bool :=
  match T.lookup x with
  | some ev => Action.isUnlockOf acts ev.acts
  | none => false

theorem unlockOfPair_eq {acts : act} {e e' u n : EventID}
    (h : unlockOfPair acts e e' T = .ok (u, n)) :
    ((u = e ∧ n = e') ∨ (u = e' ∧ n = e)) ∧ unlocksFor acts T u = true ∧
      unlocksFor acts T n = false := by
  unfold unlockOfPair at h
  cases h₁ : T.lookup e with
  | none => simp [getEvent, h₁] at h
  | some ev =>
    cases h₂ : T.lookup e' with
    | none => simp [getEvent, h₁, h₂] at h
    | some ev' =>
      simp only [getEvent_ok _ h₁, getEvent_ok _ h₂, ok_bind, pure_eq_ok] at h
      split at h
      · next hu =>
        split at h
        · cases h
        · next hn =>
          obtain ⟨rfl, rfl⟩ : e = u ∧ e' = n := by simpa using h
          exact ⟨.inl ⟨rfl, rfl⟩, by simp [unlocksFor, h₁, hu], by simpa [unlocksFor, h₂] using hn⟩
      · next hn =>
        split at h
        · next hu =>
          obtain ⟨rfl, rfl⟩ : e' = u ∧ e = n := by simpa using h
          exact ⟨.inr ⟨rfl, rfl⟩, by simp [unlocksFor, h₂, hu], by simpa [unlocksFor, h₁] using hn⟩
        · cases h

/-- The answer of `historiesLock` for an unlock `u` beside the event `sE`; `us` are the unlocks below
`u` that are not below `sE`. -/
theorem historiesLock_pair (hT : Causal T) {sE u : EventID} {h0 : EventsID} (huT : u ∈ T)
    (hsT : sE ∈ T) (hlist : h0 = [u, sE] ∨ h0 = [sE, u]) (hu : unlocksFor info.2 T u = true)
    (hn : unlocksFor info.2 T sE = false) : ∃ us : EventsID, us.Nodup ∧
      (∀ x, x ∈ us ↔ Lt T x u ∧ ¬ Le T x sE ∧ unlocksFor info.2 T x = true) ∧
      historiesLock info sE h0 T = .ok (if us.isEmpty then [[sE]] else us.map fun x => [x, sE]) := by
  obtain ⟨pn, hpn, -, hpn'⟩ := predecessors_ok hT hsT
  obtain ⟨pu, hpu, hpund, hpu'⟩ := predecessors_ok hT huT
  obtain ⟨evu, hlu⟩ := Events.lookup_of_mem huT
  obtain ⟨evn, hln⟩ := Events.lookup_of_mem hsT
  have hune : ¬ u = sE := by
    rintro rfl
    rw [hu] at hn
    cases hn
  have hpair : ∃ a b, h0 = [a, b] ∧ unlockOfPair info.2 a b T = .ok (u, sE) := by
    simp only [unlocksFor, hlu] at hu
    simp only [unlocksFor, hln] at hn
    rcases hlist with rfl | rfl
    · refine ⟨u, sE, rfl, ?_⟩
      rw [unlockOfPair, getEvent_ok _ hlu, ok_bind, getEvent_ok _ hln, ok_bind]
      simp [hu, hn]
    · refine ⟨sE, u, rfl, ?_⟩
      rw [unlockOfPair, getEvent_ok _ hln, ok_bind, getEvent_ok _ hlu, ok_bind]
      simp [hu, hn]
  have hcand : ∀ x, x ∈ pu.diff (sE :: pn) ↔ Lt T x u ∧ ¬ Le T x sE := by
    intro x
    rw [hpund.mem_sdiff_iff, hpu' x, List.mem_cons, hpn' x, Le]
  have hf : filterM (fun c => do
      let ev ← getEvent "histories_lock" c T
      pure (Action.isUnlockOf info.2 ev.acts)) (pu.diff (sE :: pn)) =
      .ok ((pu.diff (sE :: pn)).filter (unlocksFor info.2 T)) := by
    refine filterM_ok fun c hc => ?_
    obtain ⟨ev, hl⟩ := Events.lookup_of_mem (hT.mem_of_lt ((hcand c).1 hc).1)
    rw [getEvent_ok _ hl, ok_bind, pure_eq_ok, unlocksFor, hl]
  refine ⟨(pu.diff (sE :: pn)).filter (unlocksFor info.2 T), (hpund.diff).filter _, fun x => ?_, ?_⟩
  · rw [List.mem_filter, hcand, and_assoc]
  · obtain ⟨a, b, rfl, hab⟩ := hpair
    simp only [historiesLock, hab, ok_bind, if_neg hune, hpn, hpu, hf]
    split <;> rfl

/-- With one unlock in it a history of two events has an answer. -/
theorem exists_historiesLock_pair (hT : Causal T) {sE u x : EventID} {h0 : EventsID} (huT : u ∈ T)
    (hxT : x ∈ T) (hlist : h0 = [u, x] ∨ h0 = [x, u]) (hu : unlocksFor info.2 T u = true)
    (hx : unlocksFor info.2 T x = false) (hsE : sE ∈ h0) :
    ∃ r, historiesLock info sE h0 T = .ok r := by
  by_cases hsx : sE = x
  · subst hsx
    obtain ⟨us, -, -, hok⟩ := historiesLock_pair hT huT hxT hlist hu hx
    exact ⟨_, hok⟩
  obtain rfl : u = sE := by
    rcases hlist with rfl | rfl
    · exact ((List.mem_pair.1 hsE).resolve_right hsx).symm
    · exact ((List.mem_pair.1 hsE).resolve_left hsx).symm
  obtain ⟨evu, hlu⟩ := Events.lookup_of_mem huT
  obtain ⟨evx, hlx⟩ := Events.lookup_of_mem hxT
  simp only [unlocksFor, hlu] at hu
  simp only [unlocksFor, hlx] at hx
  refine ⟨[], ?_⟩
  rcases hlist with rfl | rfl <;>
    simp [historiesLock, unlockOfPair, getEvent_ok _ hlu, getEvent_ok _ hlx, hu, hx]

/-- The answers of `historiesLock`: none if `sE` is alone or the unlock, else those that go with an
unlock `u` beside it. -/
theorem historiesLock_cases (hT : Causal T) {sE : EventID} {h0 : EventsID} {r : Histories}
    (hh : GoodHistory T l h0) (hsE : sE ∈ h0) (hr : historiesLock info sE h0 T = .ok r) :
    (r = [] ∧ (h0 = [sE] ∨ unlocksFor info.2 T sE = true)) ∨
    ∃ (u : EventID) (us : EventsID), (h0 = [u, sE] ∨ h0 = [sE, u]) ∧
      unlocksFor info.2 T u = true ∧ unlocksFor info.2 T sE = false ∧ us.Nodup ∧
      (∀ x, x ∈ us ↔ Lt T x u ∧ ¬ Le T x sE ∧ unlocksFor info.2 T x = true) ∧
      r = if us.isEmpty then [[sE]] else us.map fun x => [x, sE] := by
  match h0, hh, hsE, hr with
  | [], _, hsE, _ => cases hsE
  | [x], _, hsE, hr =>
    exact .inl ⟨(Except.ok.inj hr).symm, .inl (by rw [List.mem_singleton.1 hsE])⟩
  | _ :: _ :: _ :: _, _, _, hr => cases hr
  | [e, e'], hh, hsE, hr =>
    cases hu : unlockOfPair info.2 e e' T with
    | error _ => simp [historiesLock, hu] at hr
    | ok p =>
      obtain ⟨u, n⟩ := p
      obtain ⟨hun, huu, hnu⟩ := unlockOfPair_eq hu
      by_cases hune : u = sE
      · simp only [historiesLock, hu, ok_bind, if_pos hune] at hr
        exact .inl ⟨(Except.ok.inj hr).symm, .inr (hune ▸ huu)⟩
      -- the unlock is not `sE`, so the other event is
      have hpair : sE = n ∧ ([e, e'] = [u, n] ∨ [e, e'] = [n, u]) := by
        simp only [List.mem_cons, List.not_mem_nil, or_false] at hsE
        rcases hun with ⟨rfl, rfl⟩ | ⟨rfl, rfl⟩
        · exact ⟨hsE.resolve_left fun h => hune h.symm, .inl rfl⟩
        · exact ⟨hsE.resolve_right fun h => hune h.symm, .inr rfl⟩
      obtain ⟨rfl, hlist⟩ := hpair
      have huh : u ∈ [e, e'] := by rcases hlist with h | h <;> simp [h]
      obtain ⟨us, hnd, hus, hok⟩ := historiesLock_pair hT (hh.mem u huh) (hh.mem sE hsE) hlist
        huu hnu
      exact .inr ⟨u, us, hlist, huu, hnu, hnd, hus, Except.ok.inj (hr.symm.trans hok)⟩

/-- The histories of a lock: they all have the event `sE`, and an unlock below the one of `h0`. -/
theorem historiesLock_good (hT : Causal T) {sE : EventID} {h0 : EventsID} {r : Histories}
    (hh : GoodHistory T l h0) (hsE : sE ∈ h0) (hr : historiesLock info sE h0 T = .ok r) :
    ∀ h ∈ r, GoodHistory T l h ∧ sE ∈ h := by
  rcases historiesLock_cases hT hh hsE hr with ⟨rfl, -⟩ | ⟨u, us, hlist, -, -, -, hus, rfl⟩
  · simp
  have huh : u ∈ h0 := by rcases hlist with rfl | rfl <;> simp
  intro h hm
  split at hm
  · obtain rfl : h = [sE] := by simpa using hm
    refine ⟨⟨by simp, ?_, ?_, ?_⟩, by simp⟩
    · simpa [Antichain] using hT.lt_irrefl
    · simpa using hh.mem sE hsE
    · simpa using hh.under sE hsE
  · obtain ⟨x, hx, rfl⟩ := List.mem_map.1 hm
    obtain ⟨hxu, hxn, -⟩ := (hus x).1 hx
    rw [Le, not_or] at hxn
    have hnx : ¬ Lt T sE x := fun hlt => hh.anti sE hsE u huh (hlt.trans hxu)
    refine ⟨⟨by simp [hxn.1], ?_, ?_, ?_⟩, by simp⟩
    · simp [Antichain, hT.lt_irrefl, hxn.2, hnx]
    · simpa using ⟨hT.mem_of_lt hxu, hh.mem sE hsE⟩
    · simpa using ⟨(hh.under u huh).of_le (.inr hxu), hh.under sE hsE⟩

/-- The events of these histories are those of `h0`, and unlocks. -/
theorem historiesLock_mem (hT : Causal T) {sE : EventID} {h0 : EventsID} {r : Histories}
    (hh : GoodHistory T l h0) (hsE : sE ∈ h0) (hr : historiesLock info sE h0 T = .ok r) :
    ∀ h ∈ r, ∀ x ∈ h, x ∈ h0 ∨ unlocksFor info.2 T x = true := by
  rcases historiesLock_cases hT hh hsE hr with ⟨rfl, -⟩ | ⟨u, us, -, -, -, -, hus, rfl⟩
  · simp
  intro h hm x hx
  split at hm
  · obtain rfl : h = [sE] := by simpa using hm
    exact .inl (List.mem_singleton.1 hx ▸ hsE)
  · obtain ⟨y, hy, rfl⟩ := List.mem_map.1 hm
    simp only [List.mem_cons, List.not_mem_nil, or_false] at hx
    rcases hx with rfl | rfl
    · exact .inr ((hus x).1 hy).2.2
    · exact .inl hsE

theorem historiesLock_distinct (hT : Causal T) {sE : EventID} {h0 : EventsID} {r : Histories}
    (hh : GoodHistory T l h0) (hsE : sE ∈ h0) (hr : historiesLock info sE h0 T = .ok r) :
    Distinct (r ++ [h0]) := by
  rcases historiesLock_cases hT hh hsE hr with ⟨rfl, -⟩ | ⟨u, us, hlist, -, -, hnd, hus, rfl⟩
  · simp [Distinct]
  have hu0 : ∀ x, x ∈ h0 ↔ x = u ∨ x = sE := by
    rcases hlist with rfl | rfl <;> simp [or_comm]
  have hne : u ≠ sE := by
    rintro rfl
    have := hh.nodup
    rcases hlist with rfl | rfl <;> simp at this
  rw [Distinct, List.pairwise_append]
  refine ⟨?_, by simp, ?_⟩
  · split
    · simp
    · refine List.pairwise_map.2 (hnd.imp_of_mem fun {a b} ha hb hab hset => ?_)
      rcases List.mem_pair.1 ((hset a).1 (by simp)) with h | h
      · exact hab h
      · exact ((hus a).1 ha).2.1 (.inl h)
  · intro h hm h' hm' hset
    obtain rfl : h' = h0 := by simpa using hm'
    split at hm
    · obtain rfl : h = [sE] := by simpa using hm
      exact hne (by simpa using (hset u).2 ((hu0 u).2 (.inl rfl)))
    · obtain ⟨x, hx, rfl⟩ := List.mem_map.1 hm
      obtain ⟨hxu, hxn, -⟩ := (hus x).1 hx
      rcases (hu0 x).1 ((hset x).1 (by simp)) with rfl | rfl
      · exact hT.lt_irrefl hxu
      · exact hxn (.inl rfl)

end Dependent

end Poet
