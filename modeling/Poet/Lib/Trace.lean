import Mathlib.Data.List.Nodup
import Mathlib.Data.Quot
import Mathlib.Logic.Relation

/-!
# Mazurkiewicz traces

A trace is a word up to the exchange of neighbours that are independent. Words without repeated letters
are of one trace if they have the same letters, and the same order of those that are dependent
(`Trace.mk_eq_iff`); `[a, b] <+ w` says that `a` is before `b` in `w`.
-/

namespace Poet

open scoped List

variable {α : Type} {D : α → α → Prop} {u v w w' : List α} {a b c : α}

/-- Two neighbours that are independent are exchanged. -/
inductive Swap (D : α → α → Prop) : List α → List α → Prop where
  | swap (u v : List α) {a b : α} (h : ¬ D a b) : Swap D (u ++ a :: b :: v) (u ++ b :: a :: v)

def Trace (D : α → α → Prop) : Type := Quot (Swap D)

theorem pair_sublist_cons : [a, b] <+ c :: w ↔ [a, b] <+ w ∨ (a = c ∧ b ∈ w) := by
  rw [List.sublist_cons_iff]
  simp [and_comm, eq_comm]

theorem pair_sublist_append :
    [a, b] <+ u ++ v ↔ [a, b] <+ u ∨ (a ∈ u ∧ b ∈ v) ∨ [a, b] <+ v := by
  induction u with
  | nil => simp
  | cons c u ih =>
    rw [List.cons_append, pair_sublist_cons, pair_sublist_cons, ih, List.mem_append, List.mem_cons]
    constructor
    · rintro ((h | h | h) | ⟨hac, h | h⟩)
      · exact .inl (.inl h)
      · exact .inr (.inl ⟨.inr h.1, h.2⟩)
      · exact .inr (.inr h)
      · exact .inl (.inr ⟨hac, h⟩)
      · exact .inr (.inl ⟨.inl hac, h⟩)
    · rintro ((h | h) | ⟨hac | ha, hb⟩ | h)
      · exact .inl (.inl h)
      · exact .inr ⟨h.1, .inl h.2⟩
      · exact .inr ⟨hac, .inr hb⟩
      · exact .inl (.inr (.inl ⟨ha, hb⟩))
      · exact .inl (.inr (.inr h))

theorem Swap.perm (h : Swap D w w') : w.Perm w' := by
  obtain ⟨u, v, -⟩ := h
  exact (List.Perm.swap _ _ _).append_left u

theorem Swap.symm (hD : ∀ a b, D a b → D b a) (h : Swap D w w') : Swap D w' w := by
  obtain ⟨u, v, h⟩ := h
  exact .swap u v fun hba => h (hD _ _ hba)

theorem Swap.before (h : Swap D w w') (hd : D a b) (hab : [a, b] <+ w) : [a, b] <+ w' := by
  cases h with
  | @swap u v x y hxy =>
    have hne : ¬ (a = x ∧ b = y) := by
      rintro ⟨rfl, rfl⟩
      exact hxy hd
    simp only [pair_sublist_append, pair_sublist_cons, List.mem_cons] at hab ⊢
    grind

theorem Swap.append (h : Swap D w w') (u v : List α) : Swap D (u ++ (w ++ v)) (u ++ (w' ++ v)) := by
  obtain ⟨x, y, h⟩ := h
  simpa using Swap.swap (u ++ x) (y ++ v) h

namespace Trace

def mk (D : α → α → Prop) (w : List α) : Trace D := Quot.mk _ w

/-- The trace with one more letter at the front. -/
def cons (a : α) : Trace D → Trace D :=
  Quot.map (a :: ·) fun _ _ ⟨u, v, h⟩ => .swap (a :: u) v h

theorem cons_mk (a : α) (w : List α) : cons a (mk D w) = mk D (a :: w) := rfl

/-- A letter can be moved over letters that it is independent of. -/
theorem mk_move : ∀ (u v : List α), (∀ c ∈ u, ¬ D c a) → mk D (u ++ a :: v) = mk D (a :: (u ++ v))
  | [], _, _ => rfl
  | c :: u, v, h => by
    have ih := mk_move u v fun c hc => h c (List.mem_cons_of_mem _ hc)
    calc mk D (c :: (u ++ a :: v)) = cons c (mk D (u ++ a :: v)) := rfl
      _ = mk D (c :: a :: (u ++ v)) := by rw [ih, cons_mk]
      _ = mk D (a :: c :: (u ++ v)) := Quot.sound (.swap [] _ (h c List.mem_cons_self))

/-- Traces can be put one after the other. -/
theorem mk_append {u' v' : List α} (hu : mk D u = mk D u') (hv : mk D v = mk D v') :
    mk D (u ++ v) = mk D (u' ++ v') := by
  have hmid : ∀ {w w' : List α}, Relation.EqvGen (Swap D) w w' → ∀ x y,
      mk D (x ++ (w ++ y)) = mk D (x ++ (w' ++ y)) := by
    intro w w' h x y
    induction h with
    | rel _ _ h => exact Quot.sound (h.append x y)
    | refl => rfl
    | symm _ _ _ ih => exact ih.symm
    | trans _ _ _ _ _ ih ih' => exact ih.trans ih'
  have hleft := hmid (Quot.eqvGen_exact hu) [] v
  have hright := hmid (Quot.eqvGen_exact hv) u' []
  rw [List.append_nil, List.append_nil] at hright
  exact hleft.trans hright

/-- Words of one trace have the same letters, in the same order as far as they are dependent. -/
theorem same_of_mk_eq (hD : ∀ a b, D a b → D b a) (h : mk D w = mk D w') :
    (∀ a, a ∈ w ↔ a ∈ w') ∧ ∀ a b, D a b → ([a, b] <+ w ↔ [a, b] <+ w') := by
  have hgen := Quot.eqvGen_exact h
  clear h
  induction hgen with
  | rel w w' h =>
    exact ⟨fun _ => h.perm.mem_iff, fun a b hd => ⟨h.before hd, (h.symm hD).before hd⟩⟩
  | refl => exact ⟨fun _ => Iff.rfl, fun _ _ _ => Iff.rfl⟩
  | symm _ _ _ ih => exact ⟨fun a => (ih.1 a).symm, fun a b hd => (ih.2 a b hd).symm⟩
  | trans _ _ _ _ _ ih ih' =>
    exact ⟨fun a => (ih.1 a).trans (ih'.1 a), fun a b hd => (ih.2 a b hd).trans (ih'.2 a b hd)⟩

theorem mk_eq_of_same : ∀ {w w' : List α}, w.Nodup → w'.Nodup →
    (∀ a, a ∈ w ↔ a ∈ w') → (∀ a b, D a b → [a, b] <+ w' → [a, b] <+ w) → mk D w = mk D w'
  | [], w', _, _, hmem, _ => by
    rw [List.eq_nil_iff_forall_not_mem.2 fun a ha => List.not_mem_nil ((hmem a).2 ha)]
  | a :: w, w', hw, hw', hmem, hord => by
    obtain ⟨haw, hw⟩ := List.nodup_cons.1 hw
    obtain ⟨u, v, rfl⟩ := List.append_of_mem ((hmem a).1 List.mem_cons_self)
    -- what is before `a` in `w'` is independent of it, since nothing is before it in `a :: w`
    have hmove : mk D (u ++ a :: v) = mk D (a :: (u ++ v)) := by
      refine mk_move u v fun c hc hd => ?_
      have hca := hord c a hd (pair_sublist_append.2 (.inr (.inl ⟨hc, List.mem_cons_self⟩)))
      rcases pair_sublist_cons.1 hca with hca | ⟨-, ha⟩
      · exact haw (hca.subset (by simp))
      · exact haw ha
    have hperm : (u ++ a :: v).Perm (a :: (u ++ v)) := List.perm_middle
    obtain ⟨hauv, huv⟩ := List.nodup_cons.1 (hperm.nodup_iff.1 hw')
    rw [hmove, ← cons_mk, ← cons_mk]
    refine congrArg (cons a) (mk_eq_of_same hw huv (fun b => ?_) fun b c hd hbc => ?_)
    · have hb := (hmem b).trans (hperm.mem_iff (a := b))
      rw [List.mem_cons, List.mem_cons] at hb
      constructor
      · exact fun hbw => (hb.1 (.inr hbw)).resolve_left fun hba => haw (hba ▸ hbw)
      · exact fun hbu => (hb.2 (.inr hbu)).resolve_left fun hba => hauv (hba ▸ hbu)
    · have hbc' : [b, c] <+ u ++ a :: v :=
        hbc.trans ((List.sublist_cons_self a v).append_left u)
      rcases pair_sublist_cons.1 (hord b c hd hbc') with h | ⟨rfl, -⟩
      · exact h
      · exact absurd (hbc.subset (by simp)) hauv

/-- **Words without repetition are of one trace if they have the same letters and the same order of
dependent letters.** -/
theorem mk_eq_iff (hD : ∀ a b, D a b → D b a) (hw : w.Nodup) (hw' : w'.Nodup) : mk D w = mk D w' ↔
    (∀ a, a ∈ w ↔ a ∈ w') ∧ ∀ a b, D a b → ([a, b] <+ w ↔ [a, b] <+ w') :=
  ⟨same_of_mk_eq hD, fun h => mk_eq_of_same hw hw' h.1 fun a b hd => (h.2 a b hd).2⟩

end Trace

end Poet
