import Poet.Lib.ListOps

/-!
# Stateful programs that may fail

`Op σ ε α` is a program over a mutable state `σ` that returns an `α` or stops with an `ε`. The
state survives a failure, as a mutable hash table survives an `error` call, so that one can speak
of what a run did before it aborted.

`Sat m s Q E`: run from `s`, `m` either returns with `Q` or fails with `E`. The rules below compute
`Sat` through the program text (`sat_bind` and its companions are equivalences) and carry an
invariant through the list combinators. `Always R m`: however it ends, `m` relates the states before
and after it by `R`; this is for what a program leaves alone. `Keeps I m`: if it returns, `m` keeps the
invariant `I`; this is for what a program that fails may leave half done.
-/

namespace Poet

def Op (σ ε α : Type) : Type := σ → Except ε α × σ

namespace Op

variable {σ ε α β : Type}

protected def pure (a : α) : Op σ ε α := fun s => (.ok a, s)

protected def bind (m : Op σ ε α) (f : α → Op σ ε β) : Op σ ε β := fun s =>
  match m s with
  | (.ok a, s') => f a s'
  | (.error e, s') => (.error e, s')

instance : Monad (Op σ ε) where
  pure := Op.pure
  bind := Op.bind

/-- The current state. -/
def get : Op σ ε σ := fun s => (.ok s, s)

def modify (f : σ → σ) : Op σ ε Unit := fun s => (.ok (), f s)

def fail (e : ε) : Op σ ε α := fun s => (.error e, s)

/-- A computation that only reads what it is given. -/
def lift : Except ε α → Op σ ε α
  | .ok a => Op.pure a
  | .error e => fail e

instance : MonadLift (Except ε) (Op σ ε) where
  monadLift := Op.lift

theorem bind_of_eq_ok {m : Op σ ε α} {f : α → Op σ ε β} {a : α} {s s' : σ}
    (h : m s = (.ok a, s')) : (m >>= f) s = f a s' := by
  show Op.bind m f s = f a s'
  rw [Op.bind, h]

theorem bind_liftM_ok {a : α} {f : α → Op σ ε β} {s : σ} :
    ((liftM (Except.ok a : Except ε α) : Op σ ε α) >>= f) s = f a s := rfl

theorem bind_liftM_error {e : ε} {f : α → Op σ ε β} {s : σ} :
    ((liftM (Except.error e : Except ε α) : Op σ ε α) >>= f) s = (.error e, s) := rfl

def Sat (m : Op σ ε α) (s : σ) (Q : α → σ → Prop) (E : ε → σ → Prop) : Prop :=
  match m s with
  | (.ok a, s') => Q a s'
  | (.error e, s') => E e s'

variable {s : σ} {Q : α → σ → Prop} {R : β → σ → Prop} {E : ε → σ → Prop}

@[simp] theorem sat_pure {a : α} : Sat (pure a : Op σ ε α) s Q E ↔ Q a s := Iff.rfl

@[simp] theorem sat_bind {m : Op σ ε α} {f : α → Op σ ε β} :
    Sat (m >>= f) s R E ↔ Sat m s (fun a s' => Sat (f a) s' R E) E := by
  change Sat (Op.bind m f) s R E ↔ _
  unfold Sat Op.bind
  rcases m s with ⟨_ | a, s'⟩ <;> rfl

@[simp] theorem sat_map {m : Op σ ε α} {f : α → β} :
    Sat (f <$> m) s R E ↔ Sat m s (fun a s' => R (f a) s') E :=
  sat_bind

@[simp] theorem sat_get {Q : σ → σ → Prop} : Sat (get : Op σ ε σ) s Q E ↔ Q s s := Iff.rfl

@[simp] theorem sat_modify {f : σ → σ} {Q : Unit → σ → Prop} :
    Sat (modify f : Op σ ε Unit) s Q E ↔ Q () (f s) := Iff.rfl

@[simp] theorem sat_fail {e : ε} : Sat (fail e : Op σ ε α) s Q E ↔ E e s := Iff.rfl

@[simp] theorem sat_lift_ok {a : α} : Sat (Op.lift (.ok a) : Op σ ε α) s Q E ↔ Q a s := Iff.rfl

@[simp] theorem sat_lift_error {e : ε} : Sat (Op.lift (.error e) : Op σ ε α) s Q E ↔ E e s := Iff.rfl

@[simp] theorem sat_monadLift {x : Except ε α} :
    Sat (monadLift x : Op σ ε α) s Q E ↔
      (∀ a, x = .ok a → Q a s) ∧ (∀ e, x = .error e → E e s) := by
  change Sat (Op.lift x) s Q E ↔ _
  cases x <;> simp

@[simp] theorem sat_ite {p : Prop} [Decidable p] {m m' : Op σ ε α} :
    Sat (if p then m else m') s Q E ↔ (p → Sat m s Q E) ∧ (¬ p → Sat m' s Q E) := by
  by_cases h : p <;> simp [h]

/-- Nothing is asked. -/
@[simp] theorem sat_true {m : Op σ ε α} : Sat m s (fun _ _ => True) fun _ _ => True := by
  unfold Sat
  rcases m s with ⟨_ | a, s'⟩ <;> trivial

/-- Nothing is asked of a failure. -/
theorem sat_of_ok {m : Op σ ε α} (h : ∀ a s', m s = (.ok a, s') → Q a s') :
    Sat m s Q fun _ _ => True := by
  unfold Sat
  rcases hm : m s with ⟨_ | a, s'⟩
  · trivial
  · exact h a s' hm

theorem Sat.mono {m : Op σ ε α} {Q' : α → σ → Prop} {E' : ε → σ → Prop} (h : Sat m s Q E)
    (hQ : ∀ a s', Q a s' → Q' a s') (hE : ∀ e s', E e s' → E' e s') : Sat m s Q' E' := by
  revert h
  unfold Sat
  rcases m s with ⟨_ | a, s'⟩
  · exact hE _ _
  · exact hQ _ _

theorem Sat.and {m : Op σ ε α} {Q' : α → σ → Prop} {E' : ε → σ → Prop} (h : Sat m s Q E)
    (h' : Sat m s Q' E') : Sat m s (fun a t => Q a t ∧ Q' a t) (fun e t => E e t ∧ E' e t) := by
  revert h h'
  unfold Sat
  rcases m s with ⟨_ | a, s'⟩ <;> exact fun h h' => ⟨h, h'⟩

theorem Sat.of_eq_ok {m : Op σ ε α} {a : α} {s' : σ} (h : Sat m s Q E) (hm : m s = (.ok a, s')) :
    Q a s' := by
  simpa [Sat, hm] using h

theorem Sat.of_eq_error {m : Op σ ε α} {e : ε} {s' : σ} (h : Sat m s Q E)
    (hm : m s = (.error e, s')) : E e s' := by
  simpa [Sat, hm] using h

/-- A program that does not fail returns. -/
theorem Sat.exists_ok {m : Op σ ε α} (h : Sat m s Q E) (hE : ∀ e s', ¬ E e s') :
    ∃ a s', m s = (.ok a, s') ∧ Q a s' := by
  rcases hm : m s with ⟨e | a, s'⟩
  · exact absurd (h.of_eq_error hm) (hE e s')
  · exact ⟨a, s', rfl, h.of_eq_ok hm⟩

theorem sat_of_eq_ok {m : Op σ ε α} {a : α} {s' : σ} (hm : m s = (.ok a, s')) :
    Sat m s Q E ↔ Q a s' := by
  simp [Sat, hm]

/-- Invariant rule for `mapM`: `I done bs s` after the elements `done`, with results `bs`. -/
theorem sat_mapM' {f : α → Op σ ε β} (I : List α → List β → σ → Prop) {l : List α}
    (hstep : ∀ done a bs s, done ++ [a] <+: l → I done bs s →
      Sat (f a) s (fun b s' => I (done ++ [a]) (bs ++ [b]) s') E) (h : I [] [] s) :
    Sat (l.mapM' f) s (fun bs s' => I l bs s') E := by
  suffices hgo : ∀ (rest done : List α) (bs : List β) (s : σ), done ++ rest = l → I done bs s →
      Sat (rest.mapM' f) s (fun bs' s' => I (done ++ rest) (bs ++ bs') s') E by
    simpa using hgo l [] [] s rfl h
  intro rest
  induction rest with
  | nil =>
    intro done bs s _ hI
    simpa using hI
  | cons a rest ih =>
    intro done bs s hl hI
    simp only [List.mapM'_cons, sat_bind, sat_pure]
    refine (hstep done a bs s ⟨rest, by simpa using hl⟩ hI).mono (fun b s' hb => ?_) fun _ _ h => h
    refine (ih (done ++ [a]) (bs ++ [b]) s' (by simpa using hl) hb).mono (fun bs' s'' h'' => ?_)
      fun _ _ h => h
    simpa using h''

/-- Invariant rule for `foldM`. -/
theorem sat_foldlM {f : β → α → Op σ ε β} (I : β → σ → Prop) :
    ∀ (l : List α) (b : β) (s : σ), (∀ b, ∀ a ∈ l, ∀ s, I b s → Sat (f b a) s I E) → I b s →
      Sat (l.foldlM f b) s I E
  | [], b, s, _, h => by simpa using h
  | a :: l, b, s, hstep, h => by
    simp only [List.foldlM_cons, sat_bind]
    refine (hstep b a List.mem_cons_self s h).mono (fun b' s' h' => ?_) fun _ _ h => h
    exact sat_foldlM I l b' s' (fun b a ha => hstep b a (List.mem_cons_of_mem _ ha)) h'

/-- Invariant rule for `foldM` that also knows the elements `done`. -/
theorem sat_foldlM_done {f : β → α → Op σ ε β} (I : List α → β → σ → Prop) {l : List α} {b : β}
    (hstep : ∀ done b a s, done ++ [a] <+: l → I done b s →
      Sat (f b a) s (fun b' s' => I (done ++ [a]) b' s') E) (h : I [] b s) :
    Sat (l.foldlM f b) s (fun b' s' => I l b' s') E := by
  suffices hgo : ∀ (rest done : List α) (b : β) (s : σ), done ++ rest = l → I done b s →
      Sat (rest.foldlM f b) s (fun b' s' => I l b' s') E from hgo l [] b s rfl h
  intro rest
  induction rest with
  | nil =>
    intro done b s hl hI
    obtain rfl : done = l := by simpa using hl
    simpa using hI
  | cons a rest ih =>
    intro done b s hl hI
    simp only [List.foldlM_cons, sat_bind]
    refine (hstep done b a s ⟨rest, by simpa using hl⟩ hI).mono (fun b' s' hb => ?_) fun _ _ h => h
    exact ih (done ++ [a]) b' s' (by simpa using hl) hb

/-- What holds however the program ends. -/
theorem Sat.state {m : Op σ ε α} {P : σ → Prop} (h : Sat m s (fun _ => P) fun _ => P) :
    P (m s).2 := by
  revert h
  unfold Sat
  rcases m s with ⟨_ | a, s'⟩ <;> exact fun h => h

/-! ## Frames -/

/-- Whatever `m` returns, it relates the states before and after by `R`. -/
def Always (R : σ → σ → Prop) (m : Op σ ε α) : Prop := ∀ s, R s (m s).2

theorem Sat.always {m : Op σ ε α} {R : σ → σ → Prop} (h : Sat m s Q E) (hm : Always R m) :
    Sat m s (fun a t => Q a t ∧ R s t) (fun e t => E e t ∧ R s t) := by
  have hR := hm s
  revert h hR
  unfold Sat
  rcases m s with ⟨_ | a, s'⟩ <;> exact fun hR h => ⟨hR, h⟩

section Always

variable {R : σ → σ → Prop} (hr : ∀ s, R s s) (ht : ∀ s t u, R s t → R t u → R s u)

include hr

theorem always_pure (a : α) : Always R (pure a : Op σ ε α) := hr

theorem always_get : Always R (get : Op σ ε σ) := hr

theorem always_fail (e : ε) : Always R (fail e : Op σ ε α) := hr

theorem always_monadLift (x : Except ε α) : Always R (monadLift x : Op σ ε α) := by
  intro s
  cases x with
  | error _ => exact hr s
  | ok _ => exact hr s

omit hr

include ht

theorem always_bind {m : Op σ ε α} {f : α → Op σ ε β} (hm : Always R m) (hf : ∀ a, Always R (f a)) :
    Always R (m >>= f) := by
  intro s
  have hs := hm s
  change R s (Op.bind m f s).2
  unfold Op.bind
  rcases hms : m s with ⟨_ | a, s'⟩
  · rwa [hms] at hs
  · rw [hms] at hs
    exact ht _ _ _ hs (hf a s')

include hr

theorem always_map {m : Op σ ε α} {f : α → β} (hm : Always R m) : Always R (f <$> m) :=
  always_bind ht hm fun a => always_pure hr (f a)

theorem always_mapM' {f : α → Op σ ε β} (hf : ∀ a, Always R (f a)) :
    ∀ l : List α, Always R (l.mapM' f)
  | [] => always_pure hr []
  | a :: l => by
    rw [List.mapM'_cons]
    exact always_bind ht (hf a) fun b =>
      always_bind ht (always_mapM' hf l) fun bs => always_pure hr (b :: bs)

theorem always_foldlM {f : β → α → Op σ ε β} (hf : ∀ b a, Always R (f b a)) :
    ∀ (l : List α) (b : β), Always R (l.foldlM f b)
  | [], b => always_pure hr b
  | a :: l, b => by
    rw [List.foldlM_cons]
    exact always_bind ht (hf b a) fun b' => always_foldlM hf l b'

end Always

/-! ## Invariants of the runs that return -/

/-- From a state with `I` the program ends in one, unless it fails. -/
def Keeps (I : σ → Prop) (m : Op σ ε α) : Prop := ∀ s, I s → Sat m s (fun _ => I) fun _ _ => True

namespace Keeps

variable {I : σ → Prop}

theorem of_eq_ok {m : Op σ ε α} {a : α} {s' : σ} (hm : Keeps I m) (h : m s = (.ok a, s')) (hs : I s) :
    I s' :=
  (hm s hs).of_eq_ok h

theorem pure (a : α) : Keeps I (pure a : Op σ ε α) := fun _ hs => hs

theorem get : Keeps I (get : Op σ ε σ) := fun _ hs => hs

theorem modify {f : σ → σ} (hf : ∀ s, I s → I (f s)) : Keeps I (modify f : Op σ ε Unit) := hf

theorem fail (e : ε) : Keeps I (fail e : Op σ ε α) := fun _ _ => trivial

theorem lift (x : Except ε α) : Keeps I (monadLift x : Op σ ε α) := fun _ hs =>
  sat_monadLift.2 ⟨fun _ _ => hs, fun _ _ => trivial⟩

theorem bind {m : Op σ ε α} {f : α → Op σ ε β} (hm : Keeps I m) (hf : ∀ a, Keeps I (f a)) :
    Keeps I (m >>= f) := fun s hs =>
  sat_bind.2 ((hm s hs).mono (fun a s' hs' => hf a s' hs') fun _ _ h => h)

/-- What is read is the state with the invariant. -/
theorem get_bind {f : σ → Op σ ε α} (hf : ∀ s, I s → Sat (f s) s (fun _ => I) fun _ _ => True) :
    Keeps I (Op.get >>= f) := fun s hs => sat_bind.2 (hf s hs)

theorem map {m : Op σ ε α} {f : α → β} (hm : Keeps I m) : Keeps I (f <$> m) := fun s hs =>
  sat_map.2 (hm s hs)

theorem mapM' {f : α → Op σ ε β} (hf : ∀ a, Keeps I (f a)) : ∀ l : List α, Keeps I (l.mapM' f)
  | [] => .pure []
  | a :: l => by
    rw [List.mapM'_cons]
    exact (hf a).bind fun b => (mapM' hf l).bind fun bs => .pure (b :: bs)

theorem foldlM {f : β → α → Op σ ε β} (hf : ∀ b a, Keeps I (f b a)) :
    ∀ (l : List α) (b : β), Keeps I (l.foldlM f b)
  | [], b => .pure b
  | a :: l, b => by
    rw [List.foldlM_cons]
    exact (hf b a).bind fun b' => foldlM hf l b'

end Keeps

/-! ## Properties that compose -/

/-- A property of programs that the combinators keep. -/
structure Closed (P : ∀ {α : Type}, Op σ ε α → Prop) : Prop where
  pure : ∀ {α : Type} (a : α), P (pure a : Op σ ε α)
  fail : ∀ {α : Type} (e : ε), P (fail e : Op σ ε α)
  get : P (get : Op σ ε σ)
  lift : ∀ {α : Type} (x : Except ε α), P (monadLift x : Op σ ε α)
  bind : ∀ {α β : Type} {m : Op σ ε α} {f : α → Op σ ε β}, P m → (∀ a, P (f a)) → P (m >>= f)

theorem Closed.mapM' {P : ∀ {α : Type}, Op σ ε α → Prop} (h : Closed P) {f : α → Op σ ε β}
    (hf : ∀ a, P (f a)) : ∀ l : List α, P (l.mapM' f)
  | [] => h.pure []
  | a :: l => by
    rw [List.mapM'_cons]
    exact h.bind (hf a) fun b => h.bind (h.mapM' hf l) fun bs => h.pure (b :: bs)

theorem Closed.foldlM {P : ∀ {α : Type}, Op σ ε α → Prop} (h : Closed P) {f : β → α → Op σ ε β}
    (hf : ∀ b a, P (f b a)) : ∀ (l : List α) (b : β), P (l.foldlM f b)
  | [], b => h.pure b
  | a :: l, b => by
    rw [List.foldlM_cons]
    exact h.bind (hf b a) fun b' => h.foldlM hf l b'

theorem always_closed {R : σ → σ → Prop} (hr : ∀ s, R s s) (ht : ∀ s t u, R s t → R t u → R s u) :
    Closed (Always R : ∀ {α : Type}, Op σ ε α → Prop) :=
  ⟨always_pure hr, always_fail hr, always_get hr, always_monadLift hr, always_bind ht⟩

theorem keeps_closed (I : σ → Prop) : Closed (Keeps I : ∀ {α : Type}, Op σ ε α → Prop) :=
  ⟨.pure, .fail, .get, .lift, .bind⟩

end Op

end Poet
