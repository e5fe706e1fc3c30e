import Poet.Exploration.Delete
import Poet.Exploration.History
import Poet.Lib.Measure

/-!
# The set of histories of an event

`history` returns the maximal dependent events of a configuration (`history_largest`). `histories`
starts from these and takes out one event after the other, each time with the maximal dependent events
of what is left; it keeps the event `e`, the events of the thread and the one that creates it. What it
returns are the histories of the smaller configurations that have all these, each of them and nothing
else (`histories_exact`).

No list is visited twice at the same time, but one that was done before may come back. The run still
ends: with each step the events under a history are fewer.
-/

namespace Poet

variable {act : Type} [Action act] {T : Events act} {info : EventInfo act} {e x : EventID}
  {h0 : History}

/-! ## The largest history -/

variable (info) in
/-- The maximal ones of the dependent events of `C`. -/
def MaximalDependent (T : Events act) (C : Set EventID) : Set EventID :=
  {x | x ∈ C ∧ dependsOn info T x = true ∧ ∀ y ∈ C, dependsOn info T y = true → ¬ Lt T x y}

/-- On a prefix with bottom below everything `history` returns the maximal dependent events under
`maxevs`, each once; there is one, as bottom depends on everything. -/
theorem history_largest (info : EventInfo act) (hT : Causal T) {bot : Event act}
    (hbot : T.lookup botEID = some bot) (hname : bot.name.tid = botID)
    (hle : ∀ e ∈ T, Le T botEID e) {maxevs : EventsID} (hmem : ∀ x ∈ maxevs, x ∈ T)
    (hnd : maxevs.Nodup) (hanti : Antichain T maxevs) :
    ∃ h, history info maxevs T = .ok h ∧ h.Nodup ∧
      {x | x ∈ h} = MaximalDependent info T {x | Under T maxevs x} ∧ (h = [] ↔ maxevs = []) := by
  obtain ⟨h, hok, hh⟩ := history_ok info hT hmem hnd hanti
  refine ⟨h, hok, hh.nodup, Set.ext fun x => hh.mem_iff, fun hnil => ?_, fun hnil => ?_⟩
  · -- bottom is under any event of `maxevs`, so the history is not empty
    subst hnil
    refine List.eq_nil_iff_forall_not_mem.2 fun m hm => ?_
    have hd : dependsOn info T botEID = true := by simp [dependsOn, hbot, isDependent, hname]
    obtain ⟨y, hy, -⟩ := hh.cover botEID ⟨m, hm, hle m (hmem m hm)⟩ hd
    cases hy
  · subst hnil
    refine List.eq_nil_iff_forall_not_mem.2 fun y hy => ?_
    obtain ⟨m, hm, -⟩ := hh.under y hy
    cases hm

/-- The second write of thread 1 of `twoWriters`. -/
def secondWrite : EventInfo (Act Int) :=
  (⟨1, 2, ⟨1⟩⟩, .writeActAddr (.addrs [⟨⟨11⟩, 0, .glob⟩]))

theorem bot_le_twoWriters : ∀ e ∈ twoWriters, Le twoWriters botEID e := by
  have h1 : Lt twoWriters 0 1 := .single (by decide)
  have h2 : Lt twoWriters 0 2 := .single (by decide)
  intro e he
  have hkeys : e ∈ ([0, 1, 2, 3, 4] : EventsID) := he
  simp only [List.mem_cons, List.not_mem_nil, or_false] at hkeys
  rcases hkeys with rfl | rfl | rfl | rfl | rfl
  · exact .inl rfl
  · exact .inr h1
  · exact .inr h2
  · exact .inr (h1.tail (by decide))
  · exact .inr (h1.tail (by decide))

theorem antichain_twoWriters : Antichain twoWriters [1, 2] := by
  have h1 : ∀ x, Lt twoWriters x 1 ↔ x ∈ [0] := fun x =>
    lt_iff_mem_predecessors linked_twoWriters.causal (by decide) rfl
  have h2 : ∀ x, Lt twoWriters x 2 ↔ x ∈ [0] := fun x =>
    lt_iff_mem_predecessors linked_twoWriters.causal (by decide) rfl
  simp [Antichain, h1, h2]

theorem history_largest_twoWriters : ∃ h, history secondWrite [1, 2] twoWriters = .ok h ∧ h.Nodup ∧
    {x | x ∈ h} = MaximalDependent secondWrite twoWriters {x | Under twoWriters [1, 2] x} ∧
    (h = [] ↔ [1, 2] = ([] : EventsID)) :=
  history_largest secondWrite linked_twoWriters.causal rfl rfl bot_le_twoWriters (by decide) (by decide)
    antichain_twoWriters

/-! ## The smaller histories -/

variable (info) in
/-- The events that `histories` never takes out: those of the thread, and the one that creates it. -/
def Protected (T : Events act) (x : EventID) : Prop :=
  ∃ ev, T.lookup x = some ev ∧
    (ev.name.tid = info.1.tid ∨ Action.isCreateOf ⟨info.1.tid⟩ ev.acts = true)

theorem Protected.dependsOn (h : Protected info T x) : dependsOn info T x = true := by
  obtain ⟨ev, hl, hev | hev⟩ := h <;> simp [Poet.dependsOn, hl, isDependent, hev]

theorem replaceable_iff (hx : x ∈ T) : replaceable info T x = true ↔ ¬ Protected info T x := by
  obtain ⟨ev, hl⟩ := Events.lookup_of_mem hx
  simp [replaceable, Protected, hl]

variable (info) in
/-- A configuration under `h0` that enables the event: it has `e`, and what is protected under `h0`. -/
structure Enabling (T : Events act) (e : EventID) (h0 : History) (C : Set EventID) : Prop where
  closed : ∀ x y, y ∈ C → Le T x y → x ∈ C
  under : ∀ x ∈ C, Under T h0 x
  mem : e ∈ C
  keeps : ∀ x, Under T h0 x → Protected info T x → x ∈ C

variable (info) in
/-- What the lists of `histories` have in common: they are the histories of the configurations under
them. -/
structure Smaller (T : Events act) (e : EventID) (h0 h : History) : Prop extends
    GoodHistory T h0 h where
  has : e ∈ h
  dep : ∀ x ∈ h, dependsOn info T x = true
  keeps : ∀ x, Under T h0 x → Protected info T x → Under T h x

namespace Smaller

variable {h : History}

theorem enabling (hh : Smaller info T e h0 h) : Enabling info T e h0 {x | Under T h x} where
  closed _ _ hy hle := Under.of_le hy hle
  under x hx := by
    obtain ⟨m, hm, hxm⟩ := hx
    exact (hh.under m hm).of_le hxm
  mem := under_of_mem hh.has
  keeps := hh.keeps

/-- A history is determined by a configuration with all dependent events under it. -/
theorem maximalDependent (hh : Smaller info T e h0 h) {C : Set EventID}
    (hC : ∀ x, dependsOn info T x = true → (Under T h x ↔ x ∈ C)) :
    {x | x ∈ h} = MaximalDependent info T C := by
  ext x
  constructor
  · intro hx
    refine ⟨(hC x (hh.dep x hx)).1 (under_of_mem hx), hh.dep x hx, fun y hy hd hxy => ?_⟩
    obtain ⟨m, hm, hym⟩ := (hC y hd).2 hy
    exact hh.anti x hx m hm (hxy.trans_le hym)
  · rintro ⟨hx, hd, hmax⟩
    obtain ⟨m, hm, rfl | hlt⟩ := (hC x hd).2 hx
    · exact hm
    · exact absurd hlt (hmax m ((hC m (hh.dep m hm)).1 (under_of_mem hm)) (hh.dep m hm))

end Smaller

/-- One history replaces another in the worklist. -/
def Next (info : EventInfo act) (T : Events act) (e : EventID) (h h' : History) : Prop :=
  ∃ x ∈ h, x ≠ e ∧ ¬ Protected info T x ∧ nextHistory info T h x = .ok h'

section Steps

variable (hT : Causal T) (hpred : ImmediatePred T) {h h' : History}

include hT hpred

theorem Smaller.replace (hh : Smaller info T e h0 h) {x : EventID} (hx : x ∈ h) (hne : x ≠ e)
    (hp : ¬ Protected info T x) : ∃ h', nextHistory info T h x = .ok h' ∧ Replaced info T h x h' ∧
      Smaller info T e h0 h' := by
  obtain ⟨h', hok, hg, hr⟩ := nextHistory_ok hT hpred hh.toGoodHistory hx
  refine ⟨h', hok, hr, hg, hr.keep hh.anti hh.has (Ne.symm hne) (hh.dep e hh.has), hr.dep,
    fun y hy hpy => hr.cover y (hh.keeps y hy hpy) ?_ hpy.dependsOn⟩
  rintro rfl
  exact hp hpy

theorem Smaller.next (hh : Smaller info T e h0 h) (hn : Next info T e h h') :
    ∃ x ∈ h, Replaced info T h x h' ∧ Smaller info T e h0 h' := by
  obtain ⟨x, hx, hne, hp, hok⟩ := hn
  obtain ⟨h'', hok', hr, hs⟩ := hh.replace hT hpred hx hne hp
  obtain rfl : h' = h'' := Except.ok.inj (hok.symm.trans hok')
  exact ⟨x, hx, hr, hs⟩

variable (info e h0) in
/-- With each step the events under the history are fewer. -/
theorem wellFounded_next :
    WellFounded fun h' h => Smaller info T e h0 h ∧ Next info T e h h' := by
  classical
  have hlt : ∀ h' h, Smaller info T e h0 h ∧ Next info T e h h' →
      (T.keys.toFinset.filter (Under T h')).card < (T.keys.toFinset.filter (Under T h)).card := by
    rintro h' h ⟨hh, hn⟩
    obtain ⟨x, hx, hr, -⟩ := hh.next hT hpred hn
    apply Finset.card_lt_card
    have hsub : T.keys.toFinset.filter (Under T h') ⊆ T.keys.toFinset.filter (Under T h) :=
      Finset.monotone_filter_right _ fun y _ => hr.below y
    rw [Finset.ssubset_iff_of_subset hsub]
    refine ⟨x, Finset.mem_filter.2 ⟨List.mem_toFinset.2 (hh.mem x hx), under_of_mem hx⟩, fun h => ?_⟩
    exact hr.notUnder (Finset.mem_filter.1 h).2
  exact Subrelation.wf (fun {h' h} hn => hlt h' h hn) (measure _).wf

/-- Every configuration that enables the event is reached, by taking out what it does not have. -/
theorem Smaller.reaches {C : Set EventID} (hC : Enabling info T e h0 C) {h : History}
    (hh : Smaller info T e h0 h) (hCh : ∀ x ∈ C, dependsOn info T x = true → Under T h x) :
    ∃ h', Relation.ReflTransGen (Next info T e) h h' ∧
      {x | x ∈ h'} = MaximalDependent info T C := by
  induction h using (wellFounded_next info e h0 hT hpred).induction with
  | _ h ih =>
    by_cases hall : ∀ x, dependsOn info T x = true → Under T h x → x ∈ C
    · exact ⟨h, .refl, hh.maximalDependent fun x hd => ⟨hall x hd, fun hx => hCh x hx hd⟩⟩
    · push Not at hall
      obtain ⟨x, hd, ⟨m, hm, hxm⟩, hx⟩ := hall
      -- the event of the history above `x` is not in `C` either
      have hmC : m ∉ C := fun hm => hx (hC.closed x m hm hxm)
      have hne : m ≠ e := fun h => hmC (h ▸ hC.mem)
      have hp : ¬ Protected info T m := fun hp => hmC (hC.keeps m (hh.under m hm) hp)
      obtain ⟨h₁, hok, hr, hh₁⟩ := hh.replace hT hpred hm hne hp
      have hn : Next info T e h h₁ := ⟨m, hm, hne, hp, hok⟩
      obtain ⟨h', hreach, heq⟩ := ih h₁ ⟨hh, hn⟩ hh₁ fun y hy hdy =>
        hr.cover y (hCh y hy hdy) (fun hym => hmC (hym ▸ hy)) hdy
      exact ⟨h', .head hn hreach, heq⟩

/-- A step of the worklist: `chs` are the next histories. -/
theorem histories_step (hh : Smaller info T e h0 h) : ∃ chs : Histories,
    (∀ h', h' ∈ chs ↔ Next info T e h h') ∧ ∀ n hs hists,
      histories info e T (n + 1) (h :: hs) hists =
        histories info e T n ((chs.filter fun h => !decide (h ∈ hs)) ++ hs) (chs ++ hists) := by
  obtain ⟨hc, hhc⟩ : ∃ hc, hc = (h.erase e).filter (replaceable info T) := ⟨_, rfl⟩
  have hmem : ∀ x, x ∈ hc ↔ x ∈ h ∧ x ≠ e ∧ ¬ Protected info T x := by
    intro x
    rw [hhc, List.mem_filter, hh.nodup.mem_erase_iff, and_assoc, and_left_comm]
    refine and_congr_right fun hx => and_congr_right fun _ => ?_
    exact replaceable_iff (hh.mem x hx)
  have hnext : ∀ x ∈ hc, ∃ h', nextHistory info T h x = .ok h' := by
    intro x hx
    obtain ⟨hxh, hne, hp⟩ := (hmem x).1 hx
    obtain ⟨h', hok, -⟩ := hh.replace hT hpred hxh hne hp
    exact ⟨h', hok⟩
  choose! g hg using hnext
  refine ⟨(hc.map g).eraseDups, fun h' => ?_, fun n hs hists => ?_⟩
  · rw [List.mem_eraseDups, List.mem_map]
    constructor
    · rintro ⟨x, hx, rfl⟩
      obtain ⟨hxh, hne, hp⟩ := (hmem x).1 hx
      exact ⟨x, hxh, hne, hp, hg x hx⟩
    · rintro ⟨x, hxh, hne, hp, hok⟩
      have hx := (hmem x).2 ⟨hxh, hne, hp⟩
      exact ⟨x, hx, Except.ok.inj ((hg x hx).symm.trans hok)⟩
  · rw [histories, filterM_replaceable hh.toGoodHistory, ok_bind, ← hhc, mapM'_ok hg, ok_bind]

variable (info e h0) in
/-- The run of the worklist: with enough fuel it returns what can be reached, by at least one step. -/
theorem histories_run : ∃ w : History → Nat, ∀ (n : Nat) (wlist hists : Histories),
    (∀ h ∈ wlist, Smaller info T e h0 h) → (wlist.map fun h => 1 + w h).sum ≤ n →
    ∃ r, histories info e T n wlist hists = .ok r ∧
      ∀ h', h' ∈ r ↔ h' ∈ hists ∨ ∃ h ∈ wlist, Relation.TransGen (Next info T e) h h' := by
  classical
  have hstep : ∀ h, ∃ chs : Histories, Smaller info T e h0 h →
      (∀ h', h' ∈ chs ↔ Next info T e h h') ∧ ∀ n hs hists,
        histories info e T (n + 1) (h :: hs) hists =
          histories info e T n ((chs.filter fun h => !decide (h ∈ hs)) ++ hs) (chs ++ hists) := by
    intro h
    by_cases hh : Smaller info T e h0 h
    · obtain ⟨chs, hchs⟩ := histories_step hT hpred hh
      exact ⟨chs, fun _ => hchs⟩
    · exact ⟨[], fun h => absurd h hh⟩
  choose chs hchs using hstep
  obtain ⟨w, hw⟩ := exists_weight (fun h => if Smaller info T e h0 h then chs h else []) id
    (fun _ => True) (Subrelation.wf (fun {h' h} hn => by
      obtain ⟨_, hmem, -, rfl⟩ := hn
      split at hmem
      · next hh => exact ⟨hh, ((hchs h hh).1 _).1 hmem⟩
      · cases hmem) (wellFounded_next info e h0 hT hpred))
  refine ⟨w, fun n => ?_⟩
  induction n with
  | zero =>
    intro wlist hists _ hn
    cases wlist with
    | nil => exact ⟨hists.eraseDups, rfl, by simp [List.mem_eraseDups]⟩
    | cons h hs =>
      rw [List.map_cons, List.sum_cons] at hn
      lia
  | succ n ih =>
    intro wlist hists hwl hn
    cases wlist with
    | nil => exact ⟨hists.eraseDups, rfl, by simp [List.mem_eraseDups]⟩
    | cons h hs =>
      have hh := hwl h List.mem_cons_self
      obtain ⟨hmem, heq⟩ := hchs h hh
      have hsum : (((chs h).filter fun h => !decide (h ∈ hs)).map fun h => 1 + w h).sum ≤ w h := by
        have hle := (List.filter_sublist (p := fun h => !decide (h ∈ hs)) (l := chs h)).map
          (fun h => 1 + w h) |>.sum_le_sum (by simp)
        rw [hw h, if_pos hh]
        simpa using hle
      obtain ⟨r, hok, hr⟩ := ih (((chs h).filter fun h => !decide (h ∈ hs)) ++ hs) (chs h ++ hists)
        (fun k hk => by
          rcases List.mem_append.1 hk with hk | hk
          · obtain ⟨-, -, -, hs'⟩ := hh.next hT hpred ((hmem k).1 (List.mem_of_mem_filter hk))
            exact hs'
          · exact hwl k (List.mem_cons_of_mem _ hk))
        (by
          rw [List.map_cons, List.sum_cons] at hn
          rw [List.map_append, List.sum_append]
          lia)
      refine ⟨r, by rw [heq, hok], fun h' => ?_⟩
      rw [hr, List.mem_append, hmem]
      -- a history that is left out of the worklist is in it already
      have hwork : ∀ k, k ∈ ((chs h).filter fun h => !decide (h ∈ hs)) ++ hs ↔
          Next info T e h k ∨ k ∈ hs := by
        intro k
        rw [List.mem_append, List.mem_filter, hmem]
        by_cases hk : k ∈ hs <;> simp [hk]
      have hhead : Relation.TransGen (Next info T e) h h' ↔
          ∃ k, Next info T e h k ∧ (h' = k ∨ Relation.TransGen (Next info T e) k h') := by
        rw [Relation.TransGen.head'_iff]
        simp only [Relation.reflTransGen_iff_eq_or_transGen]
      constructor
      · rintro ((hn | hh') | ⟨k, hk, hkh⟩)
        · exact .inr ⟨h, List.mem_cons_self, .single hn⟩
        · exact .inl hh'
        · rcases (hwork k).1 hk with hk | hk
          · exact .inr ⟨h, List.mem_cons_self, hhead.2 ⟨k, hk, .inr hkh⟩⟩
          · exact .inr ⟨k, List.mem_cons_of_mem _ hk, hkh⟩
      · rintro (hh' | ⟨k, hk, hkh⟩)
        · exact .inl (.inr hh')
        · rcases List.mem_cons.1 hk with rfl | hk
          · obtain ⟨k₁, hn, rfl | hk₁⟩ := hhead.1 hkh
            · exact .inl (.inl hn)
            · exact .inr ⟨k₁, (hwork k₁).2 (.inl hn), hk₁⟩
          · exact .inr ⟨k, (hwork k).2 (.inr hk), hkh⟩

theorem Smaller.transGen (hh : Smaller info T e h0 h) (hr : Relation.TransGen (Next info T e) h h') :
    Smaller info T e h0 h' ∧ ∃ x ∈ h, ¬ Under T h' x := by
  induction hr with
  | single hn =>
    obtain ⟨x, hx, hr, hs⟩ := hh.next hT hpred hn
    exact ⟨hs, x, hx, hr.notUnder⟩
  | tail _ hn ih =>
    obtain ⟨hs, x, hx, hnot⟩ := ih
    obtain ⟨_, _, hr, hs'⟩ := hs.next hT hpred hn
    exact ⟨hs', x, hx, fun h => hnot (hr.below x h)⟩

end Steps

/-- With enough fuel `histories` returns, as sets, exactly the histories other than `h0` of the
configurations under `h0` that have `e`, the events of the thread and the one that creates it. -/
theorem histories_exact (info : EventInfo act) (hT : Causal T) (hpred : ImmediatePred T)
    {maxevs : EventsID} (hmem : ∀ x ∈ maxevs, x ∈ T) (hnd : maxevs.Nodup) (hanti : Antichain T maxevs)
    (hh0 : history info maxevs T = .ok h0) (he : e ∈ h0) :
    ∃ N, ∀ n, N ≤ n → ∃ r, histories info e T n [h0] [] = .ok r ∧
      ∀ S : Set EventID, (∃ h ∈ r, {x | x ∈ h} = S) ↔
        S ≠ {x | x ∈ h0} ∧ ∃ C, Enabling info T e h0 C ∧ S = MaximalDependent info T C := by
  obtain ⟨h, hok, hh⟩ := history_ok info hT hmem hnd hanti
  obtain rfl : h = h0 := Except.ok.inj (hok.symm.trans hh0)
  have hg := hh.good hT hmem
  have hs : Smaller info T e h h :=
    ⟨⟨hg.nodup, hg.anti, hg.mem, fun x hx => under_of_mem hx⟩, he, hh.dep, fun x hx _ => hx⟩
  obtain ⟨w, hrun⟩ := histories_run info e h hT hpred
  refine ⟨1 + w h, fun n hn => ?_⟩
  obtain ⟨r, hok, hr⟩ := hrun n [h] [] (by simpa using hs) (by simpa using hn)
  refine ⟨r, hok, fun S => ⟨?_, ?_⟩⟩
  · rintro ⟨h', hh', rfl⟩
    obtain ⟨k, hk, hreach⟩ := ((hr h').1 hh').resolve_left List.not_mem_nil
    obtain rfl : k = h := by simpa using hk
    obtain ⟨hs', x, hx, hnot⟩ := hs.transGen hT hpred hreach
    refine ⟨fun heq => hnot (under_of_mem ?_), _, hs'.enabling, hs'.maximalDependent fun _ _ => Iff.rfl⟩
    exact (Set.ext_iff.1 heq x).2 hx
  · rintro ⟨hne, C, hC, rfl⟩
    obtain ⟨h', hreach, heq⟩ := hs.reaches hT hpred hC fun x hx _ => hC.under x hx
    refine ⟨h', (hr h').2 (.inr ⟨h, List.mem_cons_self, ?_⟩), heq⟩
    rcases Relation.reflTransGen_iff_eq_or_transGen.1 hreach with rfl | hreach
    · exact absurd heq.symm hne
    · exact hreach

theorem immediatePred_twoWriters : ImmediatePred twoWriters := by
  refine ⟨linked_twoWriters.pred_nodup, fun e a ha b hb => ?_⟩
  have hkeys : e ∈ ([0, 1, 2, 3, 4] : EventsID) := Events.mem_of_mem_predOf ha
  have hone : ∀ {y : EventID}, Antichain twoWriters [y] := fun {y} a ha b hb => by
    obtain rfl : a = y := by simpa using ha
    obtain rfl : b = a := by simpa using hb
    exact linked_twoWriters.causal.lt_irrefl
  simp only [List.mem_cons, List.not_mem_nil, or_false] at hkeys
  rcases hkeys with rfl | rfl | rfl | rfl | rfl
  · cases ha
  · exact hone a ha b hb
  · exact hone a ha b hb
  · exact antichain_twoWriters a ha b hb
  · exact hone a ha b hb

theorem histories_exact_twoWriters : ∃ N, ∀ n, N ≤ n → ∃ r,
    histories secondWrite 1 twoWriters n [[2, 1]] [] = .ok r ∧
      ∀ S : Set EventID, (∃ h ∈ r, {x | x ∈ h} = S) ↔ S ≠ {x | x ∈ [2, 1]} ∧
        ∃ C, Enabling secondWrite twoWriters 1 [2, 1] C ∧
          S = MaximalDependent secondWrite twoWriters C :=
  histories_exact secondWrite linked_twoWriters.causal immediatePred_twoWriters
    (by decide) (by decide) antichain_twoWriters rfl (by decide)

-- the write of thread 2 is left out
example : histories secondWrite 1 twoWriters 5 [[2, 1]] [] = .ok [[1]] := by decide +kernel

end Poet
