import Poet.Domain.Interval.State
import Poet.Exploration.Unfolder
import Poet.Lib.Simulation

/-!
# What a cutoff means (`Cutoff/McMillan.hs`)

The table keeps every state that `cutoff` was called with, by its control part, next to the initial
state with size `0`. A new state is a cutoff if a recorded state with the same control part and a
smaller size is *below* it (`exists_candidate_of_cutoff`). For the discarded event to lead to nothing
new it would have to be *above* it. So the cutoffs among some states are covered exactly if two of
them with the same control part are only comparable where they are equivalent, or where the initial
state is above both (`cutoff_covered_iff`): on concrete states, where the order is equality, this
is always so.
-/

namespace Poet

variable {st act : Type} [LatticeM st] [Projection st]

/-- The calls `cutoff s si` for the pairs of the list, in this order. -/
def cutoffCalls (calls : List (st × Nat)) : UnfolderOp st act (List Bool) :=
  calls.mapM' fun c => cutoff c.1 c.2

/-- The states recorded for a control part. -/
def recordedAt (u : UnfolderState st act) (locs : Control) : List (st × Nat) :=
  (u.stas.lookup locs).getD []

theorem liftDom_eq_ok {α : Type} {x : Except DomErr α} {a : α} : liftDom x = .ok a ↔ x = .ok a := by
  cases x <;> simp [liftDom]

section Check

variable {s : st} {si : Nat} {l : List (st × Nat)}

omit [Projection st] in
/-- A cutoff has a state below it in a smaller configuration. -/
theorem exists_below_of_cutoffCheck (h : cutoffCheck s si l = .ok true) :
    ∃ p ∈ l, Leq p.1 s ∧ p.2 < si := by
  induction l with
  | nil => cases h
  | cons p l ih =>
    obtain ⟨b, hb, h⟩ := bind_eq_ok.1 h
    split at h
    · next hcond =>
      simp only [Bool.and_eq_true, decide_eq_true_eq] at hcond
      obtain ⟨rfl, hlt⟩ := hcond
      exact ⟨p, List.mem_cons_self, hb, hlt⟩
    · obtain ⟨q, hq, hqs⟩ := ih h
      exact ⟨q, List.mem_cons_of_mem _ hq, hqs⟩

omit [Projection st] in
/-- The check returns if the comparisons do. -/
theorem exists_cutoffCheck (h : ∀ p ∈ l, ∃ b, LatticeM.leq p.1 s = .ok b) :
    ∃ b, cutoffCheck s si l = .ok b := by
  induction l with
  | nil => exact ⟨false, rfl⟩
  | cons p l ih =>
    obtain ⟨b, hb⟩ := h p List.mem_cons_self
    obtain ⟨c, hc⟩ := ih fun q hq => h q (List.mem_cons_of_mem _ hq)
    by_cases hcond : (b && decide (p.2 < si)) = true
    · exact ⟨true, bind_eq_ok.2 ⟨b, hb, if_pos hcond⟩⟩
    · exact ⟨c, bind_eq_ok.2 ⟨b, hb, (if_neg hcond).trans hc⟩⟩

end Check

section Calls

variable {u u' : UnfolderState st act} {s : st} {si : Nat} {b : Bool}

/-- A call compares the state with those recorded for its control part, and records it. -/
theorem cutoff_eq_ok (h : cutoff s si u = (.ok b, u')) :
    cutoffCheck s si (recordedAt u (Projection.controlPart s)) = .ok b ∧
      ∀ locs, recordedAt u' locs =
        if locs = Projection.controlPart s then (s, si) :: recordedAt u locs
        else recordedAt u locs := by
  simp only [cutoff, Op.run_get_bind] at h
  rcases hl : u.stas.lookup (Projection.controlPart s) with _ | l
  · simp only [hl] at h
    obtain ⟨_, _, ⟨⟩, ⟨⟩⟩ := Op.run_bind_eq_ok.1 h
    refine ⟨by simp [recordedAt, hl, cutoffCheck], fun locs => ?_⟩
    by_cases hlocs : locs = Projection.controlPart s
    · simp [recordedAt, hlocs, hl]
    · have hne : (locs == Projection.controlPart s) = false := by simpa using hlocs
      simp [recordedAt, hlocs, List.lookup_cons, hne]
  · simp only [hl] at h
    obtain ⟨c, hc, h⟩ := Op.run_lift_bind_eq_ok.1 h
    obtain ⟨_, _, ⟨⟩, ⟨⟩⟩ := Op.run_bind_eq_ok.1 h
    refine ⟨?_, fun locs => ?_⟩
    · rw [recordedAt, hl]
      exact liftDom_eq_ok.1 hc
    · by_cases hlocs : locs = Projection.controlPart s
      · simp [recordedAt, hlocs, hl]
      · have hne : (locs == Projection.controlPart s) = false := by simpa using hlocs
        unfold recordedAt
        rw [List.lookup_cons, hne, if_neg hlocs]
        simp only [lookup_filter_of_ne hlocs]

theorem exists_cutoff (h : cutoffCheck s si (recordedAt u (Projection.controlPart s)) = .ok b) :
    ∃ u', cutoff s si u = (.ok b, u') := by
  simp only [cutoff, Op.run_get_bind]
  rcases hl : u.stas.lookup (Projection.controlPart s) with _ | l
  · obtain rfl : false = b := by simpa [recordedAt, hl, cutoffCheck] using h
    exact ⟨_, rfl⟩
  · have hl' : recordedAt u (Projection.controlPart s) = l := by simp [recordedAt, hl]
    rw [hl'] at h
    exact ⟨_, Op.run_lift_bind_eq_ok.2 ⟨b, liftDom_eq_ok.2 h, rfl⟩⟩

/-- The table has the states of the calls made so far. -/
theorem mem_recordedAt_cutoffCalls {calls : List (st × Nat)} {bs : List Bool}
    (h : cutoffCalls calls u = (.ok bs, u')) (locs : Control) (p : st × Nat) :
    p ∈ recordedAt u' locs ↔
      p ∈ calls ∧ Projection.controlPart p.1 = locs ∨ p ∈ recordedAt u locs := by
  induction calls generalizing u bs with
  | nil =>
    cases h
    simp
  | cons c calls ih =>
    rw [cutoffCalls, List.mapM'_cons] at h
    obtain ⟨b, u₁, hb, h⟩ := Op.run_bind_eq_ok.1 h
    obtain ⟨bs', u₂, hbs, h⟩ := Op.run_bind_eq_ok.1 h
    cases h
    rw [ih hbs, (cutoff_eq_ok hb).2 locs]
    by_cases hlocs : locs = Projection.controlPart c.1
    · subst hlocs
      rw [if_pos rfl, List.mem_cons, List.mem_cons]
      constructor
      · rintro (⟨hp, hc⟩ | rfl | hp)
        · exact .inl ⟨.inr hp, hc⟩
        · exact .inl ⟨.inl rfl, rfl⟩
        · exact .inr hp
      · rintro (⟨rfl | hp, hc⟩ | hp)
        · exact .inr (.inl rfl)
        · exact .inl ⟨hp, hc⟩
        · exact .inr (.inr hp)
    · rw [if_neg hlocs, List.mem_cons]
      constructor
      · rintro (⟨hp, hc⟩ | hp)
        · exact .inl ⟨.inr hp, hc⟩
        · exact .inr hp
      · rintro (⟨rfl | hp, hc⟩ | hp)
        · exact absurd hc.symm hlocs
        · exact .inl ⟨hp, hc⟩
        · exact .inr hp

end Calls

/-- A recorded state with the control part of `s` and a smaller size: what is recorded after `calls`
from the initial table is the initial state and the calls. -/
def Candidate (syst : System st act) (calls : List (st × Nat)) (s : st) (si : Nat)
    (p : st × Nat) : Prop :=
  p ∈ (syst.gbst, 0) :: calls ∧ Projection.controlPart p.1 = Projection.controlPart s ∧ p.2 < si

section Covered

variable {stl cut : Bool} {wid : Int} {syst : System st act} {calls : List (st × Nat)}
  {u u' : UnfolderState st act} {bs : List Bool} {s : st} {si : Nat}

omit [LatticeM st] in
theorem mem_recordedAt_init {locs : Control} {p : st × Nat} :
    p ∈ recordedAt (iUnfState stl cut wid syst) locs ↔
      p = (syst.gbst, 0) ∧ Projection.controlPart p.1 = locs := by
  unfold recordedAt iUnfState
  by_cases hlocs : locs = Projection.controlPart syst.gbst
  · subst hlocs
    simp only [List.lookup_cons_self, Option.getD_some, List.mem_singleton]
    exact ⟨fun h => ⟨h, by rw [h]⟩, fun h => h.1⟩
  · have hne : (locs == Projection.controlPart syst.gbst) = false := by simpa using hlocs
    simp only [List.lookup_cons, hne, List.lookup_nil, Option.getD_none, List.not_mem_nil,
      false_iff, not_and]
    rintro rfl h
    exact hlocs h.symm

/-- A cutoff has a candidate below it. -/
theorem exists_candidate_of_cutoff
    (hcalls : cutoffCalls calls (iUnfState stl cut wid syst) = (.ok bs, u))
    (h : cutoff s si u = (.ok true, u')) : ∃ p, Candidate syst calls s si p ∧ Leq p.1 s := by
  obtain ⟨p, hp, hle, hlt⟩ := exists_below_of_cutoffCheck (cutoff_eq_ok h).1
  rw [mem_recordedAt_cutoffCalls hcalls, mem_recordedAt_init] at hp
  rcases hp with ⟨hp, hc⟩ | ⟨rfl, hc⟩
  · exact ⟨p, ⟨List.mem_cons_of_mem _ hp, hc, hlt⟩, hle⟩
  · exact ⟨_, ⟨List.mem_cons_self, hc, hlt⟩, hle⟩

end Covered

/-- Every cutoff among the states `S` is covered, whatever was called before, exactly if of two
states with one control part the lower one is above the other as well, or the initial state is. -/
theorem cutoff_covered_iff (stl cut : Bool) (wid : Int) (syst : System st act) {S : st → Prop}
    (hinit : S syst.gbst) (hret : ∀ s s', S s → S s' → ∃ b, LatticeM.leq s s' = .ok b) :
    (∀ calls s si, (∀ c ∈ calls, S c.1) → S s → ∀ bs u u',
      cutoffCalls calls (iUnfState stl cut wid syst) = (.ok bs, u) →
      cutoff s si u = (.ok true, u') → ∃ p, Candidate syst calls s si p ∧ Leq s p.1) ↔
    ∀ s s', S s → S s' → Projection.controlPart s' = Projection.controlPart s → Leq s' s →
      Leq s s' ∨ Projection.controlPart syst.gbst = Projection.controlPart s ∧ Leq s syst.gbst := by
  constructor
  · intro h s s' hs hs' hcontrol hle
    -- the two states one after the other
    obtain ⟨b, hb⟩ : ∃ b, cutoffCheck s' 0 (recordedAt (iUnfState stl cut wid syst)
        (Projection.controlPart s')) = .ok b := by
      refine exists_cutoffCheck fun p hp => ?_
      rw [(mem_recordedAt_init.1 hp).1]
      exact hret _ _ hinit hs'
    obtain ⟨u₁, hu₁⟩ := exists_cutoff hb
    have hcalls : cutoffCalls [(s', 0)] (iUnfState stl cut wid syst) = (.ok [b], u₁) := by
      rw [cutoffCalls, List.mapM'_cons]
      exact Op.run_bind_eq_ok.2 ⟨b, u₁, hu₁, rfl⟩
    have hcheck : cutoffCheck s 1 (recordedAt u₁ (Projection.controlPart s)) = .ok true := by
      rw [(cutoff_eq_ok hu₁).2, if_pos hcontrol.symm]
      exact bind_eq_ok.2 ⟨true, hle, rfl⟩
    obtain ⟨u₂, hu₂⟩ := exists_cutoff hcheck
    obtain ⟨p, ⟨hp, hc, -⟩, hcov⟩ := h [(s', 0)] s 1 (by simpa using hs') hs [b] u₁ u₂ hcalls hu₂
    rcases List.mem_cons.1 hp with rfl | hp
    · exact .inr ⟨hc, hcov⟩
    · obtain rfl := List.mem_singleton.1 hp
      exact .inl hcov
  · intro h calls s si hcalls hs bs u u' hrun hcut
    obtain ⟨p, ⟨hp, hc, hlt⟩, hle⟩ := exists_candidate_of_cutoff hrun hcut
    have hpS : S p.1 := by
      rcases List.mem_cons.1 hp with rfl | hp
      · exact hinit
      · exact hcalls p hp
    rcases h s p.1 hs hpS hc hle with hcov | ⟨hgb, hcov⟩
    · exact ⟨p, ⟨hp, hc, hlt⟩, hcov⟩
    · exact ⟨(syst.gbst, 0), ⟨List.mem_cons_self, hgb, by omega⟩, hcov⟩

/-! ## Cutoffs of interval states -/

section Integers

attribute [local instance] HostInt.word

/-- One thread at position `5`, and one variable between `m` and `n`. -/
def within (m n : Int) : IntState where
  heap := ⟨[(⟨⟨1⟩, .glob⟩, ⟨[(.interVal (.i 0) (.i 0), .interVal (.i m) (.i n))]⟩)]⟩
  thStates := ⟨[(1, ⟨5, ⟨1⟩, .empty⟩)]⟩
  numTh := 1
  isBot := false

def withinSystem (s : IntState) : System IntState IntAct where
  gbst := s
  gbac := Act.bot
  cfgs := []
  symt := []

/-- If the variable is between 0 and 5 in the initial state, every cutoff among that state and the one
with the variable 0 is covered, by the initial state. -/
theorem cutoff_covered_initial :
    let syst := withinSystem (within 0 5)
    ∀ calls s si, (∀ c ∈ calls, c.1 = within 0 5 ∨ c.1 = within 0 0) →
      s = within 0 5 ∨ s = within 0 0 → ∀ bs u u',
      cutoffCalls calls (iUnfState true true 10 syst) = (.ok bs, u) →
      cutoff s si u = (.ok true, u') → ∃ p, Candidate syst calls s si p ∧ Leq s p.1 := by
  refine (cutoff_covered_iff true true 10 (withinSystem (within 0 5))
    (S := fun s => s = within 0 5 ∨ s = within 0 0) (.inl rfl) ?_).2 ?_
  · rintro s s' (rfl | rfl) (rfl | rfl)
    · exact ⟨true, by decide +kernel⟩
    · exact ⟨false, by decide +kernel⟩
    · exact ⟨true, by decide +kernel⟩
    · exact ⟨true, by decide +kernel⟩
  · rintro s s' (rfl | rfl) (rfl | rfl) - hle
    · exact .inl hle
    · exact .inr ⟨rfl, by unfold Leq; decide +kernel⟩
    · exact absurd hle (by unfold Leq; decide +kernel)
    · exact .inl hle

/-- After a state with the variable `0` in a configuration of two events, a state with the same
control part and the variable between `0` and `5` is a cutoff. -/
theorem cutoff_not_covered :
    let syst := withinSystem (within 0 0)
    ∃ bs u u', cutoffCalls [(within 0 0, 2)] (iUnfState true true 10 syst) = (.ok bs, u) ∧
      cutoff (within 0 5) 4 u = (.ok true, u') ∧
      ¬ ∃ p, Candidate syst [(within 0 0, 2)] (within 0 5) 4 p ∧ Leq (within 0 5) p.1 := by
  refine ⟨_, _, _, rfl, Prod.ext (by decide +kernel) rfl, ?_⟩
  rintro ⟨p, ⟨hp, -⟩, hle⟩
  have hnone : ∀ p ∈ [(within 0 0, 0), (within 0 0, 2)],
      LatticeM.leq (within 0 5) p.1 = .ok false := by decide +kernel
  rw [Leq, hnone p hp] at hle
  cases hle

end Integers

end Poet
