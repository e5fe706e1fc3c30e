import Mathlib.Data.List.Nodup
import Mathlib.Data.List.Lattice

/-!
# List operations of `Data.List`

The exploration keeps sets as lists. `Data.List` on the left, what models it on the right:

| there | here |
| --- | --- |
| `nub`        | `List.eraseDups` (keeps the first occurrence) |
| `xs \\ ys`   | `List.diff` (removes one occurrence for each element of `ys`) |
| `delete`     | `List.erase` |
| `intersect`  | `xs ∩ ys` (keeps the elements of `xs` that occur in `ys`) |
| `mapM`       | `List.mapM'` |
| `filterM`    | `filterM` below |
-/

namespace Poet

/-- `Control.Monad.filterM`. -/
def filterM {m : Type → Type} [Monad m] {α : Type} (p : α → m Bool) : List α → m (List α)
  | [] => pure []
  | a :: l => do
    let b ← p a
    let r ← filterM p l
    pure (if b then a :: r else r)

/-- By recursion on a bound of the length. -/
private theorem nodup_eraseDups_of_le {α : Type} [BEq α] [LawfulBEq α] :
    ∀ (n : Nat) (l : List α), l.length ≤ n → l.eraseDups.Nodup
  | _, [], _ => by simp
  | 0, _ :: _, h => by simp at h
  | n + 1, a :: as, h => by
    have hlen : (as.filter fun b => !b == a).length ≤ n := by
      have := List.length_filter_le (fun b => !b == a) as
      simp only [List.length_cons] at h
      omega
    rw [List.eraseDups_cons]
    refine List.nodup_cons.2 ⟨?_, nodup_eraseDups_of_le n _ hlen⟩
    rw [List.mem_eraseDups, List.mem_filter]
    simp

theorem nodup_eraseDups {α : Type} [BEq α] [LawfulBEq α] (l : List α) : l.eraseDups.Nodup :=
  nodup_eraseDups_of_le l.length l (Nat.le_refl _)

theorem exists_ne_of_nodup {α : Type} {l : List α} (hnd : l.Nodup) (hlen : 1 < l.length) :
    ∃ a ∈ l, ∃ b ∈ l, a ≠ b := by
  match l, hnd, hlen with
  | a :: b :: _, hnd, _ =>
    exact ⟨a, by simp, b, by simp, fun h => (List.nodup_cons.1 hnd).1 (by simp [h])⟩

theorem eraseDups_of_nodup {α : Type} [BEq α] [LawfulBEq α] {l : List α} (h : l.Nodup) :
    l.eraseDups = l := by
  induction l with
  | nil => rfl
  | cons a l ih =>
    obtain ⟨ha, hl⟩ := List.nodup_cons.1 h
    have hf : (l.filter fun b => !b == a) = l := by
      refine List.filter_eq_self.2 fun b hb => ?_
      have hne : b ≠ a := fun hba => ha (hba ▸ hb)
      simpa using hne
    rw [List.eraseDups_cons, hf, ih hl]

theorem eraseDups_append_of_subset {α : Type} [BEq α] [LawfulBEq α] {l l' : List α} (h : l.Nodup)
    (hsub : ∀ a ∈ l', a ∈ l) : (l ++ l').eraseDups = l := by
  have hnil : l'.removeAll l = [] := by
    simp only [List.removeAll, List.filter_eq_nil_iff]
    intro a ha
    simp [hsub a ha]
  rw [List.eraseDups_append, eraseDups_of_nodup h, hnil, List.eraseDups_nil, List.append_nil]

private theorem pairwise_eraseDups_of_le {α : Type} [BEq α] [LawfulBEq α] {R : α → α → Prop} :
    ∀ (n : Nat) (l : List α), l.length ≤ n → l.Pairwise R → l.eraseDups.Pairwise R
  | _, [], _, _ => by simp
  | 0, _ :: _, h, _ => by simp at h
  | n + 1, a :: as, h, hp => by
    have hlen : (as.filter fun b => !b == a).length ≤ n := by
      have := List.length_filter_le (fun b => !b == a) as
      simp only [List.length_cons] at h
      omega
    obtain ⟨ha, has⟩ := List.pairwise_cons.1 hp
    rw [List.eraseDups_cons]
    refine List.pairwise_cons.2 ⟨fun b hb => ?_, pairwise_eraseDups_of_le n _ hlen (has.filter _)⟩
    exact ha b (List.mem_filter.1 (List.mem_eraseDups.1 hb)).1

theorem pairwise_eraseDups {α : Type} [BEq α] [LawfulBEq α] {R : α → α → Prop} {l : List α}
    (h : l.Pairwise R) : l.eraseDups.Pairwise R :=
  pairwise_eraseDups_of_le l.length l (Nat.le_refl _) h

/-- `S.fromList xs == S.fromList ys`. -/
def sameElems {α : Type} [DecidableEq α] (xs ys : List α) : Bool :=
  xs.all (· ∈ ys) && ys.all (· ∈ xs)

theorem sameElems_iff {α : Type} [DecidableEq α] {xs ys : List α} :
    sameElems xs ys = true ↔ ∀ x, x ∈ xs ↔ x ∈ ys := by
  simp only [sameElems, Bool.and_eq_true, List.all_eq_true, decide_eq_true_eq]
  exact ⟨fun ⟨h1, h2⟩ x => ⟨h1 x, h2 x⟩, fun h => ⟨fun x => (h x).1, fun x => (h x).2⟩⟩

/-! ## Loops whose steps all succeed -/

section Except

variable {ε α β : Type}

@[simp] theorem ok_bind (a : α) (f : α → Except ε β) : (Except.ok a >>= f) = f a := rfl

@[simp] theorem error_bind (e : ε) (f : α → Except ε β) : (Except.error e >>= f) = .error e := rfl

@[simp] theorem pure_eq_ok (a : α) : (pure a : Except ε α) = .ok a := rfl

@[simp] theorem map_ok (f : α → β) (a : α) : f <$> (Except.ok a : Except ε α) = .ok (f a) := rfl

theorem bind_eq_ok {x : Except ε α} {f : α → Except ε β} {b : β} :
    (x >>= f) = .ok b ↔ ∃ a, x = .ok a ∧ f a = .ok b := by
  cases x <;> simp

/-- An invariant of a loop that can fail. -/
theorem foldlM_inv {f : β → α → Except ε β} {I : β → Prop} {r : β} :
    ∀ {l : List α} {b : β}, (∀ c, ∀ a ∈ l, ∀ d, I c → f c a = .ok d → I d) → I b →
      l.foldlM f b = .ok r → I r
  | [], b, _, hb, h => by
    obtain rfl : b = r := Except.ok.inj h
    exact hb
  | a :: l, b, hf, hb, h => by
    rw [List.foldlM_cons] at h
    obtain ⟨c, hc, h⟩ := bind_eq_ok.1 h
    exact foldlM_inv (fun d e he => hf d e (List.mem_cons_of_mem a he))
      (hf b a List.mem_cons_self c hb hc) h

theorem foldlM_congr {f g : β → α → Except ε β} :
    ∀ {l : List α} {b : β}, (∀ a ∈ l, ∀ b, f b a = g b a) → l.foldlM f b = l.foldlM g b
  | [], _, _ => rfl
  | a :: l, b, h => by
    rw [List.foldlM_cons, List.foldlM_cons, h a List.mem_cons_self]
    exact bind_congr fun _ => foldlM_congr fun a' ha' => h a' (List.mem_cons_of_mem a ha')

/-- A loop that failed did so in one of its rounds. -/
theorem exists_of_foldlM_error {f : β → α → Except ε β} {e : ε} :
    ∀ {l : List α} {b : β}, l.foldlM f b = .error e → ∃ c, ∃ a ∈ l, f c a = .error e
  | [], _, h => by cases h
  | a :: l, b, h => by
    rw [List.foldlM_cons] at h
    cases hb : f b a with
    | error e' =>
      rw [hb] at h
      exact ⟨b, a, List.mem_cons_self, hb.trans h⟩
    | ok c =>
      rw [hb, ok_bind] at h
      obtain ⟨d, a', ha', hd⟩ := exists_of_foldlM_error h
      exact ⟨d, a', List.mem_cons_of_mem a ha', hd⟩

theorem mapM'_ok {f : α → Except ε β} {g : α → β} :
    ∀ {l : List α}, (∀ a ∈ l, f a = .ok (g a)) → l.mapM' f = .ok (l.map g)
  | [], _ => rfl
  | a :: l, h => by
    have ih := mapM'_ok fun b hb => h b (List.mem_cons_of_mem a hb)
    simp [h a List.mem_cons_self, ih]

/-- The elements of a list with what `f` returns for them. -/
theorem mapM'_pairs {f : α → Except ε β} : ∀ {l : List α}, (∀ a ∈ l, ∃ b, f a = .ok b) →
    ∃ ps, l.mapM' (fun a => do
        let b ← f a
        pure (a, b)) = .ok ps ∧ ps.map (·.1) = l ∧ ∀ p, p ∈ ps ↔ p.1 ∈ l ∧ f p.1 = .ok p.2
  | [], _ => ⟨[], rfl, rfl, by simp⟩
  | a :: l, h => by
    obtain ⟨b, hb⟩ := h a List.mem_cons_self
    obtain ⟨ps, hps, hfst, hmem⟩ := mapM'_pairs fun c hc => h c (List.mem_cons_of_mem a hc)
    refine ⟨(a, b) :: ps, ?_, by rw [List.map_cons, hfst], fun p => ?_⟩
    · rw [List.mapM'_cons, hb, ok_bind, pure_eq_ok, ok_bind, hps, ok_bind, pure_eq_ok]
    · rw [List.mem_cons, List.mem_cons, hmem]
      constructor
      · rintro (rfl | ⟨h₁, h₂⟩)
        · exact ⟨.inl rfl, hb⟩
        · exact ⟨.inr h₁, h₂⟩
      · rintro ⟨h₁ | h₁, h₂⟩
        · rw [h₁, hb] at h₂
          exact .inl (Prod.ext h₁ (Except.ok.inj h₂).symm)
        · exact .inr ⟨h₁, h₂⟩

/-- What a successful `mapM` returned. -/
theorem mapM'_mem {f : α → Except ε β} : ∀ {l : List α} {r : List β}, l.mapM' f = .ok r →
    (∀ a ∈ l, ∃ b ∈ r, f a = .ok b) ∧ ∀ b ∈ r, ∃ a ∈ l, f a = .ok b
  | [], r, h => by
    obtain rfl : [] = r := Except.ok.inj h
    simp
  | a :: l, r, h => by
    rw [List.mapM'_cons] at h
    cases ha : f a with
    | error _ => simp [ha] at h
    | ok b =>
      cases hl : l.mapM' f with
      | error _ => simp [ha, hl] at h
      | ok r' =>
        rw [ha, ok_bind, hl, ok_bind, pure_eq_ok] at h
        obtain rfl : b :: r' = r := Except.ok.inj h
        obtain ⟨h₁, h₂⟩ := mapM'_mem hl
        refine ⟨fun x hx => ?_, fun y hy => ?_⟩
        · rcases List.mem_cons.1 hx with rfl | hx
          · exact ⟨b, List.mem_cons_self, ha⟩
          · obtain ⟨y, hy, hf⟩ := h₁ x hx
            exact ⟨y, List.mem_cons_of_mem _ hy, hf⟩
        · rcases List.mem_cons.1 hy with rfl | hy
          · exact ⟨a, List.mem_cons_self, ha⟩
          · obtain ⟨x, hx, hf⟩ := h₂ y hy
            exact ⟨x, List.mem_cons_of_mem _ hx, hf⟩

theorem exists_mapM' {f : α → Except ε β} :
    ∀ {l : List α}, (∀ a ∈ l, ∃ b, f a = .ok b) → ∃ r, l.mapM' f = .ok r
  | [], _ => ⟨[], rfl⟩
  | a :: l, h => by
    obtain ⟨b, hb⟩ := h a List.mem_cons_self
    obtain ⟨r, hr⟩ := exists_mapM' fun c hc => h c (List.mem_cons_of_mem a hc)
    exact ⟨b :: r, by rw [List.mapM'_cons, hb, ok_bind, hr, ok_bind, pure_eq_ok]⟩

theorem exists_filterM {p : α → Except ε Bool} :
    ∀ {l : List α}, (∀ a ∈ l, ∃ b, p a = .ok b) → ∃ r, filterM p l = .ok r
  | [], _ => ⟨[], rfl⟩
  | a :: l, h => by
    obtain ⟨b, hb⟩ := h a List.mem_cons_self
    obtain ⟨r, hr⟩ := exists_filterM fun c hc => h c (List.mem_cons_of_mem a hc)
    exact ⟨if b then a :: r else r, by simp only [filterM, hb, hr, ok_bind, pure_eq_ok]⟩

theorem filterM_ok {p : α → Except ε Bool} {q : α → Bool} :
    ∀ {l : List α}, (∀ a ∈ l, p a = .ok (q a)) → filterM p l = .ok (l.filter q)
  | [], _ => rfl
  | a :: l, h => by
    have ih := filterM_ok fun b hb => h b (List.mem_cons_of_mem a hb)
    simp only [filterM, h a List.mem_cons_self, ih, ok_bind, pure_eq_ok, List.filter_cons]

theorem filterM_sublist {p : α → Except ε Bool} :
    ∀ {l r : List α}, filterM p l = .ok r → r.Sublist l
  | [], r, h => by
    obtain rfl : [] = r := Except.ok.inj h
    exact List.Sublist.refl _
  | a :: l, r, h => by
    simp only [filterM] at h
    cases hp : p a with
    | error e => simp [hp] at h
    | ok b =>
      cases hl : filterM p l with
      | error e => simp [hp, hl] at h
      | ok r' =>
        simp only [hp, hl, ok_bind, pure_eq_ok] at h
        obtain rfl : (if b then a :: r' else r') = r := Except.ok.inj h
        cases b
        · exact (filterM_sublist hl).cons a
        · exact (filterM_sublist hl).cons_cons a

/-- A successful `filterM` tested every element, and kept those that passed. -/
theorem filterM_mem {p : α → Except ε Bool} :
    ∀ {l r : List α}, filterM p l = .ok r → ∀ a ∈ l, ∃ b, p a = .ok b ∧ (b = true → a ∈ r)
  | [], _, _, _, ha => by cases ha
  | c :: l, r, h, a, ha => by
    simp only [filterM] at h
    cases hp : p c with
    | error e => simp [hp] at h
    | ok b =>
      cases hl : filterM p l with
      | error e => simp [hp, hl] at h
      | ok r' =>
        simp only [hp, hl, ok_bind, pure_eq_ok] at h
        obtain rfl : (if b then c :: r' else r') = r := Except.ok.inj h
        rcases List.mem_cons.1 ha with rfl | ha
        · exact ⟨b, hp, fun hb => by simp [hb]⟩
        · obtain ⟨b', hb', hmem⟩ := filterM_mem hl a ha
          refine ⟨b', hb', fun ht => ?_⟩
          split
          · exact List.mem_cons_of_mem _ (hmem ht)
          · exact hmem ht

theorem filterM_true {p : α → Except ε Bool} :
    ∀ {l r : List α}, filterM p l = .ok r → ∀ a ∈ r, p a = .ok true
  | [], r, h, a, ha => by
    obtain rfl : [] = r := Except.ok.inj h
    cases ha
  | b :: l, r, h, a, ha => by
    simp only [filterM] at h
    cases hp : p b with
    | error e => simp [hp] at h
    | ok c =>
      cases hl : filterM p l with
      | error e => simp [hp, hl] at h
      | ok r' =>
        simp only [hp, hl, ok_bind, pure_eq_ok] at h
        obtain rfl : (if c then b :: r' else r') = r := Except.ok.inj h
        cases c
        · exact filterM_true hl a (by simpa using ha)
        · rcases List.mem_cons.1 (by simpa using ha) with rfl | ha
          · exact hp
          · exact filterM_true hl a ha

end Except

theorem lookup_filter_of_ne {α β : Type} [BEq α] [LawfulBEq α] [DecidableEq α] {k j : α}
    (hk : k ≠ j) (l : List (α × β)) : (l.filter (·.1 ≠ j)).lookup k = l.lookup k := by
  induction l with
  | nil => rfl
  | cons p l ih =>
    by_cases hp : p.1 = j
    · have hne : (k == p.1) = false := by simpa [hp] using hk
      rw [List.filter_cons_of_neg (by simpa using hp), ih, List.lookup_cons, hne]
    · rw [List.filter_cons_of_pos (by simpa using hp), List.lookup_cons, List.lookup_cons, ih]

end Poet
