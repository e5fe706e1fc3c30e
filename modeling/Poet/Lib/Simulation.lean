import Poet.Lib.Op

/-!
# Two programs side by side

`Sim R Q m m'`: started in states that are related by `R`, if `m` and `m'` both return then their
results are related by `Q` and the states they leave by `R`. Nothing is said when one of them fails.
The rules follow the text of two programs with the same shape over different states.

`Refines Q m m'`: wherever `m` returns, so does `m'` from the same state, and it leaves the same state
with a result related by `Q`. For computations without a state this is `Mirrors`, with the same result.
-/

namespace Poet

/-- Where `x` returns, `y` returns the same. -/
def Mirrors {ε α : Type} (x y : Except ε α) : Prop := ∀ a, x = .ok a → y = .ok a

theorem mirrors_refl {ε α : Type} (x : Except ε α) : Mirrors x x := fun _ h => h

theorem mirrors_bind {ε α β : Type} {x y : Except ε α} {f g : α → Except ε β} (h : Mirrors x y)
    (hf : ∀ a, Mirrors (f a) (g a)) : Mirrors (x >>= f) (y >>= g) := by
  intro b hb
  obtain ⟨a, ha, hb⟩ := bind_eq_ok.1 hb
  exact bind_eq_ok.2 ⟨a, h a ha, hf a b hb⟩

namespace Op

variable {σ τ ε α β α' β' : Type}

def Sim (R : σ → τ → Prop) (Q : α → β → Prop) (m : Op σ ε α) (m' : Op τ ε β) : Prop :=
  ∀ s t, R s t → ∀ a s' b t', m s = (.ok a, s') → m' t = (.ok b, t') → Q a b ∧ R s' t'

variable {R : σ → τ → Prop} {Q : α → β → Prop} {Q' : α' → β' → Prop}

theorem run_bind_eq_ok {m : Op σ ε α} {f : α → Op σ ε α'} {s s'' : σ} {b : α'} :
    (m >>= f) s = (.ok b, s'') ↔ ∃ a s', m s = (.ok a, s') ∧ f a s' = (.ok b, s'') := by
  change Op.bind m f s = _ ↔ _
  unfold Op.bind
  rcases m s with ⟨_ | a, s'⟩ <;> simp

theorem run_monadLift_eq_ok {x : Except ε α} {s s' : σ} {a : α} :
    (monadLift x : Op σ ε α) s = (.ok a, s') ↔ x = .ok a ∧ s = s' := by
  change Op.lift x s = _ ↔ _
  cases x <;> simp [Op.lift, Op.pure, Op.fail]

theorem run_lift_bind_eq_ok {x : Except ε α} {f : α → Op σ ε α'} {s s' : σ} {b : α'} :
    ((monadLift x : Op σ ε α) >>= f) s = (.ok b, s') ↔ ∃ a, x = .ok a ∧ f a s = (.ok b, s') := by
  simp only [run_bind_eq_ok, run_monadLift_eq_ok]
  constructor
  · rintro ⟨a, _, ⟨ha, rfl⟩, hf⟩
    exact ⟨a, ha, hf⟩
  · rintro ⟨a, ha, hf⟩
    exact ⟨a, s, ⟨ha, rfl⟩, hf⟩

theorem length_mapM' {f : α → Op σ ε β} {l : List α} {s s' : σ} {bs : List β}
    (h : l.mapM' f s = (.ok bs, s')) : bs.length = l.length := by
  induction l generalizing s bs with
  | nil =>
    cases h
    rfl
  | cons a l ih =>
    rw [List.mapM'_cons] at h
    obtain ⟨b, s₁, -, h⟩ := run_bind_eq_ok.1 h
    obtain ⟨bs', s₂, hl, h⟩ := run_bind_eq_ok.1 h
    cases h
    rw [List.length_cons, List.length_cons, ih hl]

theorem run_get_bind {f : σ → Op σ ε α} {s : σ} : (get >>= f) s = f s s := rfl

theorem sim_pure {a : α} {b : β} (h : Q a b) : Sim R Q (pure a : Op σ ε α) (pure b) := by
  rintro s t hR _ _ _ _ ⟨⟩ ⟨⟩
  exact ⟨h, hR⟩

theorem sim_bind {m : Op σ ε α} {m' : Op τ ε β} {f : α → Op σ ε α'} {f' : β → Op τ ε β'}
    (h : Sim R Q m m') (hf : ∀ a b, Q a b → Sim R Q' (f a) (f' b)) :
    Sim R Q' (m >>= f) (m' >>= f') := by
  intro s t hR c s'' d t'' hm hm'
  obtain ⟨a, s', ha, hc⟩ := run_bind_eq_ok.1 hm
  obtain ⟨b, t', hb, hd⟩ := run_bind_eq_ok.1 hm'
  obtain ⟨hab, hR'⟩ := h s t hR a s' b t' ha hb
  exact hf a b hab s' t' hR' c s'' d t'' hc hd

theorem sim_get : Sim R R (get : Op σ ε σ) get := by
  rintro s t hR _ _ _ _ ⟨⟩ ⟨⟩
  exact ⟨hR, hR⟩

theorem sim_modify {f : σ → σ} {g : τ → τ} (h : ∀ s t, R s t → R (f s) (g t)) :
    Sim R (fun _ _ => True) (modify f : Op σ ε Unit) (modify g) := by
  rintro s t hR _ _ _ _ ⟨⟩ ⟨⟩
  exact ⟨trivial, h s t hR⟩

theorem sim_monadLift {x : Except ε α} {y : Except ε β} (h : ∀ a b, x = .ok a → y = .ok b → Q a b) :
    Sim R Q (monadLift x : Op σ ε α) (monadLift y) := by
  intro s t hR a s' b t' hx hy
  obtain ⟨ha, rfl⟩ := run_monadLift_eq_ok.1 hx
  obtain ⟨hb, rfl⟩ := run_monadLift_eq_ok.1 hy
  exact ⟨h a b ha hb, hR⟩

theorem sim_fail {e : ε} {m' : Op τ ε β} : Sim R Q (fail e : Op σ ε α) m' := by
  rintro s t _ _ _ _ _ ⟨⟩

def Refines (Q : α → β → Prop) (m : Op σ ε α) (m' : Op σ ε β) : Prop :=
  ∀ s a s', m s = (.ok a, s') → ∃ b, m' s = (.ok b, s') ∧ Q a b

theorem refines_refl (m : Op σ ε α) : Refines Eq m m := fun _ a _ h => ⟨a, h, rfl⟩

theorem refines_pure {a : α} {b : β} (h : Q a b) : Refines Q (pure a : Op σ ε α) (pure b) := by
  rintro s _ _ ⟨⟩
  exact ⟨b, rfl, h⟩

theorem refines_bind {m : Op σ ε α} {m' : Op σ ε β} {f : α → Op σ ε α'} {f' : β → Op σ ε β'}
    (h : Refines Q m m') (hf : ∀ a b, Q a b → Refines Q' (f a) (f' b)) :
    Refines Q' (m >>= f) (m' >>= f') := by
  intro s c s'' hm
  obtain ⟨a, s', ha, hc⟩ := run_bind_eq_ok.1 hm
  obtain ⟨b, hb, hab⟩ := h s a s' ha
  obtain ⟨d, hd, hcd⟩ := hf a b hab s' c s'' hc
  exact ⟨d, run_bind_eq_ok.2 ⟨b, s', hb, hd⟩, hcd⟩

theorem refines_monadLift {x y : Except ε α} (h : Mirrors x y) :
    Refines Eq (monadLift x : Op σ ε α) (monadLift y) := by
  intro s a s' hx
  obtain ⟨ha, rfl⟩ := run_monadLift_eq_ok.1 hx
  exact ⟨a, run_monadLift_eq_ok.2 ⟨h a ha, rfl⟩, rfl⟩

end Op

end Poet
