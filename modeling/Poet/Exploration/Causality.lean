import Mathlib.Data.Finset.Card
import Poet.Exploration.Prefix
import Poet.Exploration.Unfolder

/-!
# Causality in the prefix

`Lt T x e`: the event `x` is a causal predecessor of `e`. On a table whose links agree and have no
cycle (`Causal`) `predecessors` and `successors` return exactly the events below and above. The ids of
such a table need not grow along the causality; what bounds the recursions is the number of events
below an event. Where the ids do grow, that no event is below itself follows (`causal_closures`).
-/

namespace Poet

variable {act : Type} {T : Events act} {e x y z : EventID}

/-- `x` is a causal predecessor of `e`. -/
def Lt (T : Events act) : EventID → EventID → Prop :=
  Relation.TransGen fun p e => p ∈ T.predOf e

/-- `x` is `e` or below it. -/
def Le (T : Events act) (x e : EventID) : Prop := x = e ∨ Lt T x e

theorem Lt.trans (h : Lt T x y) (h' : Lt T y z) : Lt T x z := Relation.TransGen.trans h h'

theorem lt_of_mem_pred (h : x ∈ T.predOf e) : Lt T x e := .single h

theorem Le.trans_lt (h : Le T x y) (h' : Lt T y z) : Lt T x z := by
  rcases h with rfl | h
  · exact h'
  · exact h.trans h'

theorem Lt.trans_le (h : Lt T x y) (h' : Le T y z) : Lt T x z := by
  rcases h' with rfl | h'
  · exact h
  · exact h.trans h'

theorem Le.trans (h : Le T x y) (h' : Le T y z) : Le T x z := by
  rcases h' with rfl | h'
  · exact h
  · exact .inr (h.trans_lt h')

/-- The last step of a causal chain. -/
theorem lt_iff_pred : Lt T x e ↔ ∃ p ∈ T.predOf e, Le T x p := by
  unfold Lt
  rw [Relation.TransGen.tail'_iff]
  constructor
  · rintro ⟨p, hxp, hp⟩
    exact ⟨p, hp, (Relation.reflTransGen_iff_eq_or_transGen.1 hxp).imp Eq.symm id⟩
  · rintro ⟨p, hp, hxp⟩
    exact ⟨p, Relation.reflTransGen_iff_eq_or_transGen.2 (hxp.imp Eq.symm id), hp⟩

theorem Lt.mem (h : Lt T x e) : e ∈ T := by
  obtain ⟨p, hp, -⟩ := lt_iff_pred.1 h
  exact Events.mem_of_mem_predOf hp

/-- `pred` and `succ` are inverse to each other, and no event is below itself. -/
structure Causal (T : Events act) : Prop where
  mem_succ_iff : ∀ {x e}, e ∈ T.succOf x ↔ x ∈ T.predOf e
  lt_irrefl : ∀ {x}, ¬ Lt T x x

namespace Linked

variable (hT : Linked T [])

include hT

theorem id_lt (h : Lt T x e) : x < e := by
  induction h with
  | single h => exact hT.pred_lt h
  | tail _ h ih => exact Nat.lt_trans ih (hT.pred_lt h)

theorem causal : Causal T where
  mem_succ_iff := ⟨fun h => (hT.pred_of_succ h).1, fun h => hT.succ_of_pred List.not_mem_nil h⟩
  lt_irrefl h := Nat.lt_irrefl _ (hT.id_lt h)

end Linked

namespace Causal

variable (hT : Causal T)

include hT

theorem mem_of_pred (h : x ∈ T.predOf e) : x ∈ T :=
  Events.mem_of_mem_succOf (hT.mem_succ_iff.2 h)

theorem mem_of_succ (h : x ∈ T.succOf e) : x ∈ T :=
  Events.mem_of_mem_predOf (hT.mem_succ_iff.1 h)

theorem mem_of_lt (h : Lt T x e) : x ∈ T := by
  induction h with
  | single h => exact hT.mem_of_pred h
  | tail _ _ ih => exact ih

theorem mem_of_le (h : Le T x e) (he : e ∈ T) : x ∈ T := by
  rcases h with rfl | h
  · exact he
  · exact hT.mem_of_lt h

/-- The number of events below is a rank: it grows along the causality, and stays below the bound of
the recursions. -/
theorem exists_rank : ∃ ρ : EventID → Nat, (∀ {x e}, Lt T x e → ρ x < ρ e) ∧
    ∀ e ∈ T, ρ e < T.bound := by
  classical
  have hsub : T.keys.toFinset ⊆ Finset.range T.bound := by
    intro x hx
    exact Finset.mem_range.2 (Events.lt_bound (List.mem_toFinset.1 hx))
  refine ⟨fun e => (T.keys.toFinset.filter (Lt T · e)).card, fun {p e} hlt => ?_, fun e he => ?_⟩
  · apply Finset.card_lt_card
    have hss : T.keys.toFinset.filter (Lt T · p) ⊆ T.keys.toFinset.filter (Lt T · e) :=
      Finset.monotone_filter_right _ fun x _ hx => Lt.trans hx hlt
    rw [Finset.ssubset_iff_of_subset hss]
    refine ⟨p, Finset.mem_filter.2 ⟨List.mem_toFinset.2 (hT.mem_of_lt hlt), hlt⟩, fun h => ?_⟩
    exact hT.lt_irrefl (Finset.mem_filter.1 h).2
  · have hss : T.keys.toFinset.filter (Lt T · e) ⊂ T.keys.toFinset :=
      Finset.filter_ssubset.2 ⟨e, List.mem_toFinset.2 he, hT.lt_irrefl⟩
    calc (T.keys.toFinset.filter (Lt T · e)).card < T.keys.toFinset.card := Finset.card_lt_card hss
      _ ≤ (Finset.range T.bound).card := Finset.card_le_card hsub
      _ = T.bound := Finset.card_range _

/-- The first step of a causal chain. -/
theorem lt_iff_succ : Lt T x e ↔ ∃ s ∈ T.succOf x, Le T s e := by
  unfold Lt
  rw [Relation.TransGen.head'_iff]
  constructor
  · rintro ⟨s, hs, hse⟩
    exact ⟨s, hT.mem_succ_iff.2 hs, (Relation.reflTransGen_iff_eq_or_transGen.1 hse).imp Eq.symm id⟩
  · rintro ⟨s, hs, hse⟩
    exact ⟨s, hT.mem_succ_iff.1 hs, Relation.reflTransGen_iff_eq_or_transGen.2 (hse.imp Eq.symm id)⟩

end Causal

/-! ## `predecessors` and `successors` -/

/-- Appending the results of `f` along a list. -/
theorem foldlM_append_ok {f : EventID → Except Err EventsID} {g : EventID → EventsID} :
    ∀ (l acc : EventsID), (∀ a ∈ l, f a = .ok (g a)) →
      l.foldlM (fun a e => do
        let r ← f e
        pure (a ++ r)) acc = .ok (acc ++ l.flatMap g)
  | [], acc, _ => by simp [pure, Except.pure]
  | a :: l, acc, h => by
    have ha := h a List.mem_cons_self
    have ih := foldlM_append_ok l (acc ++ g a) fun b hb => h b (List.mem_cons_of_mem _ hb)
    simp only [List.foldlM_cons, ha, bind, Except.bind, pure, Except.pure] at ih ⊢
    rw [ih]
    simp

theorem predecessorsAux_ok (hT : Causal T) {ρ : EventID → Nat}
    (hρ : ∀ {x e}, Lt T x e → ρ x < ρ e) : ∀ (n : Nat) (e : EventID), e ∈ T → ρ e < n →
    ∃ l, predecessorsAux T n e = .ok l ∧ ∀ x, x ∈ l ↔ Lt T x e
  | 0, e, _, h => absurd h (Nat.not_lt_zero (ρ e))
  | n + 1, e, he, hn => by
    obtain ⟨ev, hl⟩ := Events.lookup_of_mem he
    have hpred := Events.predOf_of_lookup hl
    have ih : ∀ p ∈ ev.pred, ∃ l, predecessorsAux T n p = .ok l ∧ ∀ x, x ∈ l ↔ Lt T x p := by
      intro p hp
      have hpe : p ∈ T.predOf e := hpred ▸ hp
      have hlt := hρ (lt_of_mem_pred hpe)
      exact predecessorsAux_ok hT hρ n p (hT.mem_of_pred hpe) (by lia)
    choose! g hg hmem using ih
    refine ⟨ev.pred ++ ev.pred.flatMap g, ?_, fun x => ?_⟩
    · rw [predecessorsAux, getEvent, hl]
      exact foldlM_append_ok ev.pred ev.pred hg
    · rw [lt_iff_pred, hpred, List.mem_append, List.mem_flatMap]
      constructor
      · rintro (hx | ⟨p, hp, hx⟩)
        · exact ⟨x, hx, .inl rfl⟩
        · exact ⟨p, hp, .inr ((hmem p hp x).1 hx)⟩
      · rintro ⟨p, hp, rfl | hx⟩
        · exact .inl hp
        · exact .inr ⟨p, hp, (hmem p hp x).2 hx⟩

theorem predecessors_ok (hT : Causal T) (he : e ∈ T) :
    ∃ l, predecessors e T = .ok l ∧ l.Nodup ∧ ∀ x, x ∈ l ↔ Lt T x e := by
  obtain ⟨ρ, hρ, hb⟩ := hT.exists_rank
  obtain ⟨l, hl, hmem⟩ := predecessorsAux_ok hT hρ (T.bound + 1) e he (Nat.lt_succ_of_lt (hb e he))
  refine ⟨l.eraseDups, by simp [predecessors, hl, Functor.map, Except.map], nodup_eraseDups l, ?_⟩
  intro x
  rw [List.mem_eraseDups, hmem]

/-- A run of `predecessors` decides the causality. -/
theorem lt_iff_mem_predecessors (hT : Causal T) {l : EventsID} (he : e ∈ T)
    (hl : predecessors e T = .ok l) : Lt T x e ↔ x ∈ l := by
  obtain ⟨l', hl', -, hmem⟩ := predecessors_ok hT he
  obtain rfl : l = l' := Except.ok.inj (hl.symm.trans hl')
  exact (hmem x).symm

theorem successorsAux_ok (hT : Causal T) {ρ : EventID → Nat}
    (hρ : ∀ {x e}, Lt T x e → ρ x < ρ e) : ∀ (n : Nat) (e : EventID), e ∈ T →
    (∀ k ∈ T, ρ k < n + ρ e) → ∃ l, successorsAux T n e = .ok l ∧ ∀ x, x ∈ l ↔ Lt T e x
  | 0, e, he, h => absurd (h e he) (by lia)
  | n + 1, e, he, hn => by
    obtain ⟨ev, hl⟩ := Events.lookup_of_mem he
    have hsucc := Events.succOf_of_lookup hl
    have ih : ∀ s ∈ ev.succ, ∃ l, successorsAux T n s = .ok l ∧ ∀ x, x ∈ l ↔ Lt T s x := by
      intro s hs
      have hse : s ∈ T.succOf e := hsucc ▸ hs
      have hlt := hρ (lt_of_mem_pred (hT.mem_succ_iff.1 hse))
      refine successorsAux_ok hT hρ n s (hT.mem_of_succ hse) fun k hk => ?_
      have := hn k hk
      lia
    choose! g hg hmem using ih
    refine ⟨ev.succ ++ ev.succ.flatMap g, ?_, fun x => ?_⟩
    · rw [successorsAux, getEvent, hl]
      exact foldlM_append_ok ev.succ ev.succ hg
    · rw [hT.lt_iff_succ, hsucc, List.mem_append, List.mem_flatMap]
      constructor
      · rintro (hx | ⟨s, hs, hx⟩)
        · exact ⟨x, hx, .inl rfl⟩
        · exact ⟨s, hs, .inr ((hmem s hs x).1 hx)⟩
      · rintro ⟨s, hs, rfl | hx⟩
        · exact .inl hs
        · exact .inr ⟨s, hs, (hmem s hs x).2 hx⟩

theorem successors_ok (hT : Causal T) (he : e ∈ T) :
    ∃ l, successors e T = .ok l ∧ l.Nodup ∧ ∀ x, x ∈ l ↔ Lt T e x := by
  obtain ⟨ρ, hρ, hb⟩ := hT.exists_rank
  obtain ⟨l, hl, hmem⟩ := successorsAux_ok hT hρ (T.bound + 1) e he fun k hk => by
    have := hb k hk
    lia
  refine ⟨l.eraseDups, by simp [successors, hl, Functor.map, Except.map], nodup_eraseDups l, ?_⟩
  intro x
  rw [List.mem_eraseDups, hmem]

/-- A run of `successors` decides the causality too. -/
theorem lt_iff_mem_successors (hT : Causal T) {l : EventsID} (he : e ∈ T)
    (hl : successors e T = .ok l) : Lt T e x ↔ x ∈ l := by
  obtain ⟨l', hl', -, hmem⟩ := successors_ok hT he
  obtain rfl : l = l' := Except.ok.inj (hl.symm.trans hl')
  exact (hmem x).symm

theorem DownClosed.of_lt {S : EventID → Prop} (h : DownClosed T S) (he : S e) (hlt : Lt T x e) :
    S x := by
  induction hlt with
  | single hp => exact h.pred _ he _ hp
  | tail _ hp ih => exact ih (h.pred _ he _ hp)

theorem DownClosed.of_le {S : EventID → Prop} (h : DownClosed T S) (he : S e) (hle : Le T x e) :
    S x := by
  rcases hle with rfl | hlt
  · exact he
  · exact h.of_lt he hlt

theorem DownClosed.of_pred {S : EventID → Prop} (h : DownClosed T S) (hpred : ∀ p ∈ T.predOf e, S p)
    (hlt : Lt T x e) : S x := by
  obtain ⟨p, hp, hle⟩ := lt_iff_pred.1 hlt
  exact h.of_le (hpred p hp) hle

/-! ## A small prefix

Thread 1 writes `x`, then `y`; thread 2 writes `y`. The events 3 and 4 are the second write of thread 1,
after the write of thread 2 and before it. -/

def twoWriters : Events (Act Int) :=
  let write (sym : SymId) : Act Int := .writeActAddr (.addrs [⟨sym, 0, .glob⟩])
  ⟨[⟨0, ⟨botName, .bot, [], [2, 1], [], [], []⟩⟩,
    ⟨1, ⟨⟨1, 1, ⟨1⟩⟩, write ⟨10⟩, [0], [4, 3], [], [], []⟩⟩,
    ⟨2, ⟨⟨2, 1, ⟨2⟩⟩, write ⟨11⟩, [0], [3], [4], [], []⟩⟩,
    ⟨3, ⟨⟨1, 2, ⟨1⟩⟩, write ⟨11⟩, [1, 2], [], [], [], []⟩⟩,
    ⟨4, ⟨⟨1, 2, ⟨1⟩⟩, write ⟨11⟩, [1], [], [2], [], []⟩⟩], by simp [List.NodupKeys, List.keys]⟩

/-- The agreement of the lists is a property of the events that are there. -/
theorem linked_of_keys (h : ∀ e ∈ T.keys, (∀ p ∈ T.predOf e, p < e ∧ e ∈ T.succOf p) ∧
    (∀ s ∈ T.succOf e, e ∈ T.predOf s) ∧ (∀ y ∈ T.icnfOf e, e ∈ T.icnfOf y ∧ y ≠ e) ∧
    (T.predOf e).Nodup ∧ (T.succOf e).Nodup ∧ (T.icnfOf e).Nodup) : Linked T [] := by
  have hnodup : ∀ {l : EventsID} {e}, (∀ {x}, x ∈ l → e ∈ T) → (e ∈ T → l.Nodup) → l.Nodup := by
    intro l e hmem hnd
    cases l with
    | nil => exact List.nodup_nil
    | cons a l => exact hnd (hmem List.mem_cons_self)
  refine ⟨fun {e p} hp => ?_, fun e => ?_, fun {e p} _ hp => ?_, fun {e p} _ hp => ?_, fun {e s} hs => ?_,
    fun e => ?_, fun {e y} _ hy => ?_, fun e he => ?_, fun e => ?_⟩
  · exact ((h e (Events.mem_of_mem_predOf hp)).1 p hp).1
  · exact hnodup Events.mem_of_mem_predOf fun he => (h e he).2.2.2.1
  · exact Events.mem_of_mem_succOf ((h e (Events.mem_of_mem_predOf hp)).1 p hp).2
  · exact ((h e (Events.mem_of_mem_predOf hp)).1 p hp).2
  · exact ⟨(h e (Events.mem_of_mem_succOf hs)).2.1 s hs, List.not_mem_nil⟩
  · exact hnodup Events.mem_of_mem_succOf fun he => (h e he).2.2.2.2.1
  · exact ⟨((h e (Events.mem_of_mem_icnfOf hy)).2.2.1 y hy).1, List.not_mem_nil⟩
  · exact ((h e (Events.mem_of_mem_icnfOf he)).2.2.1 e he).2 rfl
  · exact hnodup Events.mem_of_mem_icnfOf fun he => (h e he).2.2.2.2.2

theorem linked_twoWriters : Linked twoWriters [] := linked_of_keys (by decide)

/-! ## Causal closures -/

/-- `e` can be reached from `x` along the `succ` lists. -/
def Events.Reaches (T : Events act) : EventID → EventID → Prop :=
  Relation.ReflTransGen fun x s => s ∈ T.succOf x

/-- Another event is reached exactly if it is above. -/
theorem Causal.reaches_iff_lt (hT : Causal T) : x ≠ e ∧ T.Reaches x e ↔ Lt T x e := by
  have hstep : (fun x s => s ∈ T.succOf x) = fun p e => p ∈ T.predOf e := by
    funext x s
    exact propext hT.mem_succ_iff
  unfold Events.Reaches Lt
  rw [hstep, Relation.reflTransGen_iff_eq_or_transGen]
  constructor
  · rintro ⟨hne, heq | hlt⟩
    · exact absurd heq.symm hne
    · exact hlt
  · intro hlt
    refine ⟨?_, .inr hlt⟩
    rintro rfl
    exact hT.lt_irrefl hlt

/-- Ids that grow along the causality leave no cycle. -/
theorem Causal.of_id_lt (hlt : ∀ e, ∀ p ∈ T.predOf e, p < e)
    (hinv : ∀ x e, e ∈ T.succOf x ↔ x ∈ T.predOf e) : Causal T where
  mem_succ_iff {x e} := hinv x e
  lt_irrefl {x} h := by
    have hid : ∀ {x e}, Lt T x e → x < e := by
      intro x e h
      induction h with
      | single h => exact hlt _ _ h
      | tail _ h ih => exact Nat.lt_trans ih (hlt _ _ h)
    exact Nat.lt_irrefl x (hid h)

/-- `predecessors` and `successors` return, each once, the other events from which `e` can be reached
and those that can be reached from it. -/
theorem causal_closures (hlt : ∀ e, ∀ p ∈ T.predOf e, p < e)
    (hinv : ∀ x e, e ∈ T.succOf x ↔ x ∈ T.predOf e) (he : e ∈ T) :
    (∃ l, predecessors e T = .ok l ∧ l.Nodup ∧ ∀ f, f ∈ l ↔ f ≠ e ∧ T.Reaches f e) ∧
      ∃ l, successors e T = .ok l ∧ l.Nodup ∧ ∀ f, f ∈ l ↔ f ≠ e ∧ T.Reaches e f := by
  have hT := Causal.of_id_lt hlt hinv
  obtain ⟨l, hl, hnd, hmem⟩ := predecessors_ok hT he
  obtain ⟨l', hl', hnd', hmem'⟩ := successors_ok hT he
  refine ⟨⟨l, hl, hnd, fun f => ?_⟩, ⟨l', hl', hnd', fun f => ?_⟩⟩
  · rw [hmem, hT.reaches_iff_lt]
  · rw [hmem', ← hT.reaches_iff_lt, ne_comm]

theorem causal_closures_twoWriters :
    (∃ l, predecessors 3 twoWriters = .ok l ∧ l.Nodup ∧ ∀ f, f ∈ l ↔ f ≠ 3 ∧ twoWriters.Reaches f 3) ∧
      ∃ l, successors 3 twoWriters = .ok l ∧ l.Nodup ∧
        ∀ f, f ∈ l ↔ f ≠ 3 ∧ twoWriters.Reaches 3 f :=
  causal_closures (fun _ _ => linked_twoWriters.pred_lt)
    (fun _ _ => linked_twoWriters.causal.mem_succ_iff) (by decide)

example : predecessors 3 twoWriters = .ok [1, 2, 0] ∧ successors 0 twoWriters = .ok [2, 1, 3, 4] :=
  ⟨rfl, rfl⟩

end Poet
