import Poet.Locks.Shape

/-!
# What the branches of a call keep

A call enters alternatives only for events that it does not find disabled, and those of an event of its
stack contain what was on the stack before it (`AltesGrow`). Hence the events over the stack that are in
conflict with one of its events are kept by a call in stateless mode as well (`KeepsConflicts`): they
are in no alternative of an event that is pruned.
-/

namespace Poet

variable {P : LockProgram} {s s' s₁ s₂ s₃ s₄ : UnfolderState (LockState P) LockAct}
  {c nc : Configuration (LockState P)} {d : EventsID} {alt v : Alternative} {e ê x y z : EventID}
  {n : Nat} {stl : Bool}

/-- Alternatives that are entered between `s` and `s'` are not of disabled events, and have what is below
their event on the stack. -/
def AltesGrow (d : EventsID) (s s' : UnfolderState (LockState P) LockAct) : Prop :=
  ∀ x, ∀ v ∈ s'.evts.alteOf x, v ∈ s.evts.alteOf x ∨
    (x ∉ d ∧ ∀ A B, s.stak = A ++ x :: B → ∀ y ∈ B, y ∈ v)

theorem MaximalDone.altesGrow (hmax : MaximalDone c.cfevs d (s.called c ê d alt) s')
    (hn : NodeOk P s d) (hcf : ∀ x ∈ c.cfevs, x ∈ s.stak) : AltesGrow d s s' := by
  obtain ⟨s₁, hadd, hevts, -⟩ := hmax.altes
  intro x v hv
  rw [hevts] at hv
  refine (hadd.only x v hv).imp_right ?_
  rintro ⟨hx, hnew⟩
  obtain ⟨y, -, hv, l₁, l₂, hsplit, -, hstay, -⟩ := hnew.source
  refine ⟨fun hxd => (hn.disabled x hxd).2.1 (hcf x hx), fun A B hAB w hw => (hv w).2 (.inr ?_)⟩
  -- an event is on the stack once
  have hnd : (A ++ x :: B).Nodup := hAB ▸ hn.stack.nodup
  obtain ⟨hxB, hxA⟩ := List.nodup_cons.1 (List.nodup_middle.1 hnd)
  rw [List.mem_append, not_or] at hxB
  obtain ⟨-, -, rfl⟩ := (List.append_cons_inj_of_notMem hxB.1 hxB.2).1 (hAB.symm.trans hsplit)
  exact hstay w hw

theorem Adds.altesGrow (h : Adds stl n s c ê d alt e nc s₁)
    (hl : AltesGrow d (s₁.withStack (e :: s₁.stak)) s₂) : AltesGrow d s (s₂.withStack s₁.stak) := by
  intro x v hv
  rcases hl x v hv with hv | ⟨hxd, hbelow⟩
  · exact .inl (h.unfolded.altes x ▸ hv)
  · refine .inr ⟨hxd, fun A B hAB => hbelow (e :: A) B ?_⟩
    change e :: s₁.stak = _
    rw [h.quiet.stak]
    exact congrArg (e :: ·) hAB

theorem AltesGrow.trans (h : AltesGrow d s s₁) (h' : AltesGrow (e :: d) s₁ s₂) (hstak : s₁.stak = s.stak) :
    AltesGrow d s s₂ := by
  intro x v hv
  rcases h' x v hv with hv | ⟨hxd, hbelow⟩
  · exact h x v hv
  · exact .inr ⟨fun hm => hxd (List.mem_cons_of_mem e hm), hstak ▸ hbelow⟩

theorem PruneDone.altesGrow (hp : PruneDone e d s₄ s') (h : AltesGrow d s s₄) : AltesGrow d s s' :=
  fun x v hv => h x v (hp.only x v hv)

theorem Explored.altesGrow {b : Bool} (h : Explored stl b n s c ê d alt s') :
    b = true → AltesGrow d s s' := by
  induction h with
  | cut | inLeft | inRight => intro hb; cases hb
  | leaf h _ hmax => exact fun _ => hmax.altesGrow h.node h.call.cfevs
  | alone h _ _ hprune ih => exact fun _ => hprune.altesGrow (h.altesGrow (ih rfl))
  | both h hl _ _ hprune ihl ihr =>
    exact fun _ => hprune.altesGrow ((h.altesGrow (ihl rfl)).trans (ihr rfl)
      (h.popped (hl.searched rfl)).evolves.stak)

/-! ## Conflicts of the stack -/

namespace Adds

variable (h : Adds stl n s c ê d alt e nc s₁)

include h

theorem keepsConflicts (hl : KeepsConflicts (e :: s₁.stak) s₁.evts s₂.evts) :
    KeepsConflicts s.stak s.evts s₂.evts := by
  have hn := h.search.node
  have hstak : s₁.stak = s.stak := h.quiet.stak
  have hkeeps : ∀ x ∈ s.evts, x ∈ s₁.evts := h.unfolded.grows.keeps
  exact (KeepsConflicts.of_keeps hn.linked hkeeps).trans hl (fun x hx => List.mem_cons_of_mem e (hstak ▸ hx))
    h.unfolded.stable hn.wf fun x hx => ⟨hn.stak_mem hx, hkeeps x (hn.stak_mem hx)⟩

/-- In stateless mode the alternatives of `e` have the stack in them. -/
theorem altes_cover (hstl : stl = true) (hl : AltesGrow d (s₁.withStack (e :: s₁.stak)) s₂)
    (hv : v ∈ s₂.evts.alteOf e) (hy : y ∈ s.stak) : y ∈ v := by
  have hs := h.search
  have hed : e ∉ d := hs.call.chosen_notMem hs.node h.chooses.chosen h.mem
  have hidle := hs.node.idle (hs.mode.trans hstl) e h.canExtend.notMem hed
  rcases hl e v hv with hv | ⟨-, hbelow⟩
  · have hv' : v ∈ s.evts.alteOf e := h.unfolded.altes e ▸ hv
    rw [hidle] at hv'
    cases hv'
  · exact hbelow [] s₁.stak rfl y (h.quiet.stak.symm ▸ hy)

/-- Pruning keeps the conflicts of the stack. -/
theorem prune_keepsConflicts (hp : PruneDone e d s₄ s') (h₄ : Searched stl d (e :: d) s s₄)
    (hk : KeepsConflicts s.stak s.evts s₄.evts)
    (hcover : stl = true → ∀ v ∈ s₄.evts.alteOf e, ∀ y ∈ s.stak, y ∈ v) :
    KeepsConflicts s.stak s.evts s'.evts := by
  have hs := h.search
  have hwf := hs.node.wf
  intro l hl z hz hpred
  have hz₄ := hk l hl z hz hpred
  cases hstl : stl with
  | false =>
    refine hp.evolves.stateful ?_ z hz₄
    rw [h₄.evolves.opts, hs.mode, hstl]
  | true =>
    have hzT := hwf.linked.icnf_mem List.not_mem_nil hz
    have hlT := hs.node.stak_mem hl
    refine hp.kept z hz₄ ?_ (fun v hv hzv => ?_) fun q hq => ?_
    · rintro rfl
      exact h.canExtend.noConflict hs.node.lock hwf.bot hl
        (hwf.linked.icnf_symm List.not_mem_nil hz).1
    · refine (h₄.node.lock.alte e v hv).cf l (hcover hstl v hv l hl) z hzv ?_
      exact h₄.evolves.stable.icnf_kept (hwf.lt_cntr hlT) (hwf.lt_cntr hzT) (h₄.evolves.kept l hl) hz₄ hz
    · rw [h₄.evolves.stable.pred (hwf.lt_cntr hzT) hz₄] at hq
      exact h₄.evolves.stak.symm ▸ hpred q hq

end Adds

/-- **A call keeps the conflicts of its stack.** -/
theorem Explored.keepsConflicts {b : Bool} (h : Explored stl b n s c ê d alt s') :
    b = true → KeepsConflicts s.stak s.evts s'.evts := by
  induction h with
  | cut | inLeft | inRight => intro hb; cases hb
  | leaf h _ hmax =>
    intro _
    obtain ⟨s₁, hadd, hevts, -⟩ := hmax.altes
    rw [hevts]
    exact .of_keeps h.node.linked fun x hx => hadd.steps.links.mem_iff.2 hx
  | alone h hl _ hprune ih =>
    intro _
    exact h.prune_keepsConflicts hprune (h.popped (hl.searched rfl)) (h.keepsConflicts (ih rfl))
      fun hstl v hv y hy => h.altes_cover hstl (hl.altesGrow rfl) hv hy
  | @both n s s₁ s₂ s₄ s' c nc ê e d alt v h hl _ hr hprune ihl ihr =>
    intro _
    have hp := h.popped (hl.searched rfl)
    have hn := h.search.node
    have hk := (h.keepsConflicts (ihl rfl)).trans (ihr rfl) (fun x hx => hp.evolves.stak.symm ▸ hx)
      hp.evolves.stable hn.wf fun x hx => ⟨hn.stak_mem hx, hp.evolves.kept x hx⟩
    refine h.prune_keepsConflicts hprune (h.after (hl.searched rfl) (hr.searched rfl)) hk ?_
    intro hstl w hw y hy
    rcases hr.altesGrow rfl e w hw with hw | ⟨hed, -⟩
    · exact h.altes_cover hstl (hl.altesGrow rfl) hw hy
    · exact absurd List.mem_cons_self hed

end Poet
