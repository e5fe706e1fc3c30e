import Poet.Exploration.Conflicts
import Poet.Exploration.Invariant

/-!
# Alternatives of the events on the stack

`computeV` takes the conflicts of a conflicting extension `y`, with all that is above them, off the
stack and puts `y` on it. What is left is a configuration (`AltOk`), and it is returned exactly if it has
what was on the stack before the event and justifies the disabled events (`computeV_ok`). So every
alternative that `possibleAltes` stores is valid (`possibleAltes_valid`).
-/

namespace Poet

variable {st act : Type}

namespace Events

def alteOf (T : Events act) (e : EventID) : List Alternative := ((T.lookup e).map (·.alte)).getD []

theorem alteOf_of_lookup {T : Events act} {e : EventID} {ev : Event act} (h : T.lookup e = some ev) :
    T.alteOf e = ev.alte := by simp [alteOf, h]

theorem mem_of_mem_alteOf {T : Events act} {e : EventID} {v : Alternative} (h : v ∈ T.alteOf e) :
    e ∈ T := by
  cases hl : T.lookup e with
  | none => simp [alteOf, hl] at h
  | some _ => exact mem_of_lookup hl

theorem alteOf_insert {T : Events act} {e : EventID} {ev : Event act} (x : EventID) :
    alteOf (T.insert e ev) x = if x = e then ev.alte else T.alteOf x := by
  by_cases hx : x = e
  · subst hx
    simp [alteOf, AList.lookup_insert]
  · rw [if_neg hx, alteOf, alteOf, AList.lookup_insert_ne hx]

theorem actsOf_insert {T : Events act} {e : EventID} {ev : Event act} (x : EventID) :
    actsOf (T.insert e ev) x = if x = e then some ev.acts else T.actsOf x := by
  by_cases hx : x = e
  · subst hx
    simp [actsOf, AList.lookup_insert]
  · rw [if_neg hx, actsOf, actsOf, AList.lookup_insert_ne hx]

def disaOf (T : Events act) (e : EventID) : EventsID := ((T.lookup e).map (·.disa)).getD []

theorem disaOf_of_lookup {T : Events act} {e : EventID} {ev : Event act} (h : T.lookup e = some ev) :
    T.disaOf e = ev.disa := by simp [disaOf, h]

end Events

theorem getAlte_ok {T : Events act} {e : EventID} (h : e ∈ T) : getAlte e T = .ok (T.alteOf e) := by
  obtain ⟨ev, hl⟩ := Events.lookup_of_mem h
  simp [getAlte, getEvent, hl, Events.alteOf]

/-- A stored alternative is a configuration. -/
structure AltOk (T : Events act) (v : Alternative) : Prop where
  nodup : v.Nodup
  closed : DownClosed T (· ∈ v)
  cf : ∀ x ∈ v, ∀ y ∈ v, y ∉ T.icnfOf x

theorem AltOk.of_older {T T' : Events act} {n : Nat} {v : Alternative} (h : AltOk T v)
    (ho : Older n T T') (hlt : ∀ x ∈ v, x < n) (hmem : ∀ x ∈ v, x ∈ T') : AltOk T' v where
  nodup := h.nodup
  closed := ho.downClosed h.closed hlt hmem
  cf x hx y hy hi := h.cf x hx y hy (ho.icnf (hlt x hx) (hlt y hy) hi)

section ComputeV

variable {act : Type} {T : Events act} {stack de : EventsID} {x y z : EventID}

/-- `z` stays when the conflicts of `y` and all that is above them are taken off the stack. -/
def Stays (T : Events act) (stack : EventsID) (y z : EventID) : Prop :=
  z ∈ stack ∧ ∀ c ∈ T.icnfOf y, c ∈ stack → ¬ Le T c z

/-- `v` is the stack without the conflicts of `y` and all that is above them, with `y`. -/
def IsAlt (T : Events act) (stack : EventsID) (y : EventID) (v : Alternative) : Prop :=
  ∀ z, z ∈ v ↔ z = y ∨ Stays T stack y z

/-- The alternative of `x` by `y` is valid: it has all that was on the stack before `x`, and justifies
the disabled events `de`. -/
def ValidAlt (T : Events act) (stack de : EventsID) (x y : EventID) : Prop :=
  ∃ l₁ l₂, stack = l₁ ++ x :: l₂ ∧ (∀ c ∈ T.icnfOf y, c ∉ l₂) ∧ (∀ z ∈ l₂, Stays T stack y z) ∧
    ∀ d ∈ de, ∃ z, (z = y ∨ Stays T stack y z) ∧ d ∈ T.icnfOf z

/-- What `computeV` needs of the stack and of the conflicting extension. -/
structure ConflictingExt (T : Events act) (stack : EventsID) (y : EventID) : Prop where
  nodup : stack.Nodup
  closed : DownClosed T (· ∈ stack)
  cf : ∀ a ∈ stack, ∀ b ∈ stack, b ∉ T.icnfOf a
  mem : y ∈ T
  notMem : y ∉ stack
  pred : ∀ p ∈ T.predOf y, p ∈ stack
  incomp : ∀ c ∈ T.icnfOf y, ¬ Le T c y

theorem IsAlt.altOk {v : Alternative} (hv : IsAlt T stack y v)
    (hsymm : ∀ {a b}, b ∈ T.icnfOf a → a ∈ T.icnfOf b) (hy : ConflictingExt T stack y) (hnd : v.Nodup) : AltOk T v := by
  refine ⟨hnd, ⟨fun z hz => ?_, fun z hz p hp => ?_⟩, fun a ha b hb hi => ?_⟩
  · rcases (hv z).1 hz with rfl | hz
    · exact hy.mem
    · exact hy.closed.mem z hz.1
  · rw [hv]
    rcases (hv z).1 hz with rfl | ⟨hzs, hz⟩
    · refine .inr ⟨hy.pred p hp, fun c hc _ hle => hy.incomp c hc ?_⟩
      exact .inr (hle.trans_lt (lt_of_mem_pred hp))
    · exact .inr ⟨hy.closed.pred z hzs p hp, fun c hc hcs hle =>
        hz c hc hcs (.inr (hle.trans_lt (lt_of_mem_pred hp)))⟩
  · rcases (hv a).1 ha with rfl | ⟨has, ha⟩ <;> rcases (hv b).1 hb with rfl | ⟨hbs, hb⟩
    · exact hy.incomp _ hi (.inl rfl)
    · exact hb b hi hbs (.inl rfl)
    · exact ha a (hsymm hi) has (.inl rfl)
    · exact hy.cf a has b hbs hi

theorem dropWhile_ne {α : Type} [DecidableEq α] {l₁ l₂ : List α} {a : α} (h : a ∉ l₁) :
    (l₁ ++ a :: l₂).dropWhile (· ≠ a) = a :: l₂ := by
  rw [List.dropWhile_append_of_pos]
  · simp
  · intro b hb
    simpa using fun hba : b = a => h (hba ▸ hb)

/-- The events above the conflicts of `y` are taken off the stack. -/
theorem mem_diff_iff_stays (hnd : stack.Nodup) {above : EventID → EventsID}
    (habove : ∀ c ∈ (T.icnfOf y).filter (· ∈ stack), ∀ z, z ∈ above c ↔ Le T c z) (z : EventID) :
    z ∈ stack.diff (((T.icnfOf y).filter (· ∈ stack)).map above).flatten ↔ Stays T stack y z := by
  rw [hnd.mem_sdiff_iff, Stays]
  refine and_congr_right fun _ => ⟨fun h c hc hcs hle => h ?_, fun h hm => ?_⟩
  · have hcf : c ∈ (T.icnfOf y).filter (· ∈ stack) := List.mem_filter.2 ⟨hc, by simpa using hcs⟩
    exact List.mem_flatten.2 ⟨above c, List.mem_map.2 ⟨c, hcf, rfl⟩, (habove c hcf z).2 hle⟩
  · obtain ⟨_, hl, hz⟩ := List.mem_flatten.1 hm
    obtain ⟨c, hc, rfl⟩ := List.mem_map.1 hl
    obtain ⟨hci, hcs⟩ := List.mem_filter.1 hc
    exact h c hci (by simpa using hcs) ((habove c hc z).1 hz)

/-- The three tests that `computeV` makes. -/
structure PassesTests (T : Events act) (stack de rest : EventsID) (y : EventID) (v : Alternative) :
    Prop where
  conflicts : ((T.icnfOf y).filter (· ∈ stack)).any (· ∈ rest) = false
  keeps : rest.all (· ∈ v) = true
  justifies : (de.all fun d => (v.map T.icnfOf).any (d ∈ ·)) = true

/-- The valid alternatives are those that pass the tests. -/
theorem IsAlt.valid_iff {v : Alternative} {l₁ rest : EventsID} (hv : IsAlt T stack y v)
    (hy : ConflictingExt T stack y) (hst : stack = l₁ ++ x :: rest) (hxl : x ∉ l₁) :
    ValidAlt T stack de x y ↔ PassesTests T stack de rest y v := by
  constructor
  · rintro ⟨l₁', rest', hst', hcl, hrest, hde⟩
    have hxl' : x ∉ l₁' := fun hm => (List.nodup_append.1 (hst' ▸ hy.nodup)).2.2 x hm x (by simp) rfl
    obtain rfl : rest = rest' := by
      have hdrop : (l₁' ++ x :: rest').dropWhile (· ≠ x) = x :: rest' := dropWhile_ne hxl'
      rw [← hst', hst, dropWhile_ne hxl] at hdrop
      exact (List.cons.inj hdrop).2
    refine ⟨?_, ?_, ?_⟩
    · rw [List.any_eq_false]
      intro c hc
      simpa using hcl c (List.mem_filter.1 hc).1
    · rw [List.all_eq_true]
      intro z hz
      simpa using (hv z).2 (.inr (hrest z hz))
    · rw [List.all_eq_true]
      intro d hd
      obtain ⟨z, hz, hdz⟩ := hde d hd
      exact List.any_eq_true.2 ⟨_, List.mem_map.2 ⟨z, (hv z).2 hz, rfl⟩, by simpa using hdz⟩
  · rintro ⟨h₁, h₂, h₃⟩
    have hmem : ∀ z ∈ rest, z ∈ stack := fun z hz => hst ▸ by simp [hz]
    refine ⟨l₁, rest, hst, fun c hc hcl => ?_, fun z hz => ?_, fun d hd => ?_⟩
    · refine List.any_eq_false.1 h₁ c (List.mem_filter.2 ⟨hc, ?_⟩) (by simpa using hcl)
      simpa using hmem c hcl
    · have hzv : z ∈ v := by simpa using List.all_eq_true.1 h₂ z hz
      refine ((hv z).1 hzv).resolve_left ?_
      rintro rfl
      exact hy.notMem (hmem z hz)
    · obtain ⟨cs, hcs, hdc⟩ := List.any_eq_true.1 (List.all_eq_true.1 h₃ d hd)
      obtain ⟨z, hz, rfl⟩ := List.mem_map.1 hcs
      exact ⟨z, (hv z).1 hz, by simpa using hdc⟩

theorem computeV_ok (hT : Causal T) (hsymm : ∀ {a b}, b ∈ T.icnfOf a → a ∈ T.icnfOf b)
    (hy : ConflictingExt T stack y) (hx : x ∈ stack) (de : EventsID) : ∃ r, computeV stack de x y T = .ok r ∧
      (∀ v, r = some v → AltOk T v ∧ IsAlt T stack y v ∧ ValidAlt T stack de x y) ∧
      (ValidAlt T stack de x y → r ≠ none) := by
  obtain ⟨l₁, rest, hst, hxl⟩ := List.eq_append_cons_of_mem hx
  have hsucc : ∀ c ∈ (T.icnfOf y).filter (· ∈ stack), ∃ s, (do
      let s ← successors c T
      pure (c :: s)) = .ok s ∧ ∀ z, z ∈ s ↔ Le T c z := by
    intro c hc
    obtain ⟨-, hcs⟩ := List.mem_filter.1 hc
    obtain ⟨s, hs, -, hmem⟩ := successors_ok hT (hy.closed.mem c (by simpa using hcs))
    refine ⟨c :: s, by rw [hs, ok_bind, pure_eq_ok], fun z => ?_⟩
    rw [List.mem_cons, hmem, Le, eq_comm]
  choose! above hok_above habove using hsucc
  obtain ⟨v, hv⟩ : ∃ v, v = stack.diff (((T.icnfOf y).filter (· ∈ stack)).map above).flatten ++ [y] :=
    ⟨_, rfl⟩
  have hvmem : IsAlt T stack y v := by
    intro z
    rw [hv, List.mem_append, mem_diff_iff_stays hy.nodup habove, List.mem_singleton, or_comm]
  have hvnd : v.Nodup := by
    rw [hv]
    refine List.nodup_append.2 ⟨hy.nodup.diff, by simp, fun a ha b hb h => hy.notMem ?_⟩
    obtain rfl : b = y := by simpa using hb
    exact h ▸ List.diff_subset _ _ ha
  have hok := hvmem.altOk hsymm hy hvnd
  have hvcfs : v.mapM' (getIcnf · T) = .ok (v.map T.icnfOf) :=
    mapM'_ok fun z hz => getIcnf_ok (hok.closed.mem z hz)
  have hdrop : stack.dropWhile (· ≠ x) = x :: rest := hst ▸ dropWhile_ne hxl
  have hvalid : ValidAlt T stack de x y ↔ PassesTests T stack de rest y v :=
    hvmem.valid_iff hy hst hxl
  rw [computeV, getIcnf_ok hy.mem, ok_bind, hdrop]
  dsimp only
  rw [mapM'_ok hok_above, ok_bind, ← hv]
  simp only [hvcfs, ok_bind, pure_eq_ok]
  split
  · next h₁ =>
    refine ⟨none, rfl, by simp, fun hval => ?_⟩
    rw [(hvalid.1 hval).conflicts] at h₁
    cases h₁
  next h₁ =>
  split
  · next h₂ =>
    refine ⟨_, rfl, fun v' hv' => ?_, fun hval => ?_⟩
    · split at hv'
      · next h₃ =>
        obtain rfl := Option.some_inj.1 hv'
        exact ⟨hok, hvmem, hvalid.2 ⟨Bool.not_eq_true _ ▸ h₁, h₂, h₃⟩⟩
      · cases hv'
    · rw [if_pos (hvalid.1 hval).justifies]
      simp
  · next h₂ => exact ⟨none, rfl, by simp, fun hval => absurd (hvalid.1 hval).keeps h₂⟩

end ComputeV

section SameLinks

variable {act : Type} {T T' : Events act} {stack de : EventsID} {x y z : EventID} {v : Alternative}
  (h : SameLinks T T')

include h

theorem SameLinks.stays_iff : Stays T' stack y z ↔ Stays T stack y z := by
  simp only [Stays, Le, h.icnfOf, h.lt_iff]

theorem SameLinks.isAlt_iff : IsAlt T' stack y v ↔ IsAlt T stack y v := by
  simp only [IsAlt, h.stays_iff]

theorem SameLinks.validAlt_iff : ValidAlt T' stack de x y ↔ ValidAlt T stack de x y := by
  simp only [ValidAlt, h.stays_iff, h.icnfOf]

theorem SameLinks.altOk (hv : AltOk T v) : AltOk T' v where
  nodup := hv.nodup
  closed := ⟨fun x hx => h.mem_iff.2 (hv.closed.mem x hx),
    fun x hx p hp => hv.closed.pred x hx p (h.predOf x ▸ hp)⟩
  cf x hx y hy hi := hv.cf x hx y hy (h.icnfOf x ▸ hi)

end SameLinks

/-! ## What `possible_altes` stores -/

section Stored

variable {T T' : Events act} {cfl : EventID → EventID → Prop} {stack evs cext : EventsID}
  {e y : EventID} {v : Alternative}

/-- The stack is a configuration, with the newest event first. -/
structure StackConf (T : Events act) (cfl : EventID → EventID → Prop) (stack : EventsID) : Prop where
  nodup : stack.Nodup
  mem : ∀ x ∈ stack, x ∈ T
  order : ∀ l₁ x l₂, stack = l₁ ++ x :: l₂ → ∀ p ∈ T.predOf x, p ∈ l₂
  free : ∀ a ∈ stack, ∀ b ∈ stack, ¬ cfl a b

/-- Everything below an event is further down the stack. -/
theorem StackConf.lt (hst : StackConf T cfl stack) {p : EventID} (hlt : Lt T p e) :
    ∀ {l₁ l₂}, stack = l₁ ++ e :: l₂ → p ∈ l₂ := by
  induction hlt with
  | single hp => exact fun h => hst.order _ _ _ h _ hp
  | tail _ hp ih =>
    intro l₁ l₂ h
    obtain ⟨m₁, m₂, rfl⟩ := List.append_of_mem (hst.order l₁ _ l₂ h _ hp)
    have hb : p ∈ m₂ := @ih (l₁ ++ _ :: m₁) m₂ (by simpa using h)
    simp [hb]

theorem StackConf.closed (hst : StackConf T cfl stack) : DownClosed T (· ∈ stack) where
  mem := hst.mem
  pred x hx p hp := by
    obtain ⟨l₁, l₂, h⟩ := List.append_of_mem hx
    have := hst.order l₁ x l₂ h p hp
    simp [h, this]

/-- `v` is an alternative to `e`: a configuration with all that is below `e` on the stack, with an
immediate conflict of `e` in the place of `e`, and with a conflict of each disabled event. -/
structure Alternate (T : Events act) (cfl : EventID → EventID → Prop) (stack : EventsID) (e : EventID)
    (v : Alternative) : Prop where
  mem : ∀ x ∈ v, x ∈ T
  closed : ∀ x ∈ v, ∀ p, Le T p x → p ∈ v
  free : ∀ a ∈ v, ∀ b ∈ v, ¬ cfl a b
  below : ∀ l₁ l₂, stack = l₁ ++ e :: l₂ → ∀ z ∈ l₂, z ∈ v
  notMem : e ∉ v
  conflict : ∃ y ∈ v, y ∈ T.icnfOf e ∧ ImmediateConflict T cfl e y ∧ ∀ p, Lt T p y → p ∈ stack
  justifies : ∀ d ∈ T.disaOf e, ∃ y ∈ v, d ∈ T.icnfOf y

section Conf

variable (hT : Causal T) (hsymm : ∀ {a b}, b ∈ T.icnfOf a → a ∈ T.icnfOf b) (hcfl : Conflicts T cfl)
  (hst : StackConf T cfl stack)

include hsymm hcfl hst

theorem StackConf.conflictingExt (he : e ∈ stack) (hy : y ∈ T.icnfOf e)
    (hp : ∀ p ∈ T.predOf y, p ∈ stack) : ConflictingExt T stack y where
  nodup := hst.nodup
  closed := hst.closed
  cf a ha b hb hi := hst.free a ha b hb (hcfl.of_icnf hi)
  mem := Events.mem_of_mem_icnfOf (hsymm hy)
  notMem hys := hst.free e he y hys (hcfl.of_icnf hy)
  pred := hp
  incomp _ hc hle := hcfl.irrefl y (hcfl.inherit (hcfl.of_icnf hc) hle)

include hT

theorem ValidAlt.alternate (he : e ∈ stack) (hy : y ∈ T.icnfOf e)
    (hp : ∀ p ∈ T.predOf y, p ∈ stack) (hv : IsAlt T stack y v) (hok : AltOk T v)
    (hvalid : ValidAlt T stack (T.disaOf e) e y) : Alternate T cfl stack e v := by
  obtain ⟨l₁, l₂, hsplit, hcl, hstay, hde⟩ := hvalid
  have hyv : y ∈ v := (hv y).2 (.inl rfl)
  have hpy : ∀ p, Lt T p y → p ∈ stack := by
    intro p hlt
    obtain ⟨q, hq, hpq⟩ := lt_iff_pred.1 hlt
    exact hst.closed.of_le (hp q hq) hpq
  have hext := hst.conflictingExt hsymm hcfl he hy hp
  -- a conflict with `y` comes from an event of the stack that is a conflict of `y` itself
  have hcause : ∀ {a}, a ∈ stack → cfl a y → ∃ a', Le T a' a ∧ ImmediateConflict T cfl a' y := by
    intro a ha hay
    obtain ⟨a', y', ha', hy', hi⟩ := exists_immediateConflict hT hay
    rcases hy' with rfl | hlt
    · exact ⟨a', ha', hi⟩
    · exact absurd hi.1 (hst.free a' (hst.closed.of_le ha ha') y' (hpy y' hlt))
  have hfree : ∀ {a}, Stays T stack y a → ¬ cfl a y := by
    rintro a ⟨has, hstays⟩ hay
    obtain ⟨a', ha', hi⟩ := hcause has hay
    exact hstays a' (hsymm (hcfl.icnf hi)) (hst.closed.of_le has ha') ha'
  refine ⟨hok.closed.mem, fun x hx p hle => hok.closed.of_le hx hle, ?_, ?_, ?_, ⟨y, hyv, hy, ?_, hpy⟩,
    fun d hd => ?_⟩
  · intro a ha b hb hab
    rcases (hv a).1 ha with rfl | ha <;> rcases (hv b).1 hb with rfl | hb
    · exact hcfl.irrefl _ hab
    · exact hfree hb (hcfl.symm hab)
    · exact hfree ha hab
    · exact hst.free a ha.1 b hb.1 hab
  · intro m₁ m₂ hm z hz
    have hnd := hst.nodup
    have hem : e ∉ m₁ := fun h => (List.nodup_append.1 (hm ▸ hnd)).2.2 e h e (by simp) rfl
    have hel : e ∉ l₁ := fun h => (List.nodup_append.1 (hsplit ▸ hnd)).2.2 e h e (by simp) rfl
    have hdrop : (m₁ ++ e :: m₂).dropWhile (· ≠ e) = e :: m₂ := dropWhile_ne hem
    rw [← hm, hsplit, dropWhile_ne hel] at hdrop
    exact (hv z).2 (.inr (hstay z ((List.cons.inj hdrop).2 ▸ hz)))
  · intro hev
    rcases (hv e).1 hev with rfl | ⟨-, hstays⟩
    · exact hext.notMem he
    · exact hstays e (hsymm hy) he (.inl rfl)
  · obtain ⟨a', ha', hi⟩ := hcause he (hcfl.of_icnf hy)
    rcases ha' with rfl | hlt
    · exact hi
    · -- a conflict further down the stack makes `computeV` give up
      exact absurd (hst.lt hlt hsplit) (hcl a' (hsymm (hcfl.icnf hi)))
  · obtain ⟨z, hz, hdz⟩ := hde d hd
    exact ⟨z, (hv z).2 hz, hdz⟩

end Conf

/-- `T'` is `T` with further alternatives, all of them valid. -/
structure Stored (T : Events act) (cfl : EventID → EventID → Prop) (stack : EventsID)
    (T' : Events act) : Prop where
  links : SameLinks T T'
  disa : ∀ x, T'.disaOf x = T.disaOf x
  alte : ∀ x, ∀ v ∈ T'.alteOf x, v ∈ T.alteOf x ∨ (x ∈ stack ∧ Alternate T cfl stack x v)

/-- `computeV` returns only for an event of the stack. -/
theorem mem_of_computeV_eq_ok {de : EventsID} {r : Option Alternative}
    (h : computeV stack de e y T = .ok r) : e ∈ stack := by
  by_contra he
  have hdrop : stack.dropWhile (· ≠ e) = [] := by
    rw [← List.append_nil stack, List.dropWhile_append_of_pos]
    · rfl
    · intro z hz
      simpa using fun hze : z = e => he (hze ▸ hz)
  unfold computeV at h
  cases hi : getIcnf y T with
  | error _ => simp [hi] at h
  | ok _ =>
    rw [hi, ok_bind, hdrop] at h
    cases h

theorem SameLinks.causal (h : SameLinks T T') (hT : Causal T) : Causal T' where
  mem_succ_iff {x e} := by rw [h.succOf, h.predOf, hT.mem_succ_iff]
  lt_irrefl {x} hlt := hT.lt_irrefl (h.lt_iff.1 hlt)

theorem SameLinks.conflictingExt (h : SameLinks T T') (hy : ConflictingExt T stack y) :
    ConflictingExt T' stack y where
  nodup := hy.nodup
  closed := ⟨fun x hx => h.mem_iff.2 (hy.closed.mem x hx),
    fun x hx p hp => hy.closed.pred x hx p (h.predOf x ▸ hp)⟩
  cf a ha b hb hi := hy.cf a ha b hb (h.icnfOf a ▸ hi)
  mem := h.mem_iff.2 hy.mem
  notMem := hy.notMem
  pred p hp := hy.pred p (h.predOf y ▸ hp)
  incomp c hc hle := hy.incomp c (h.icnfOf y ▸ hc) (by rwa [Le, h.lt_iff] at hle)

section Run

variable {s s₁ : UnfolderState st act} (hT : Causal s.evts)
  (hsymm : ∀ {a b}, b ∈ s.evts.icnfOf a → a ∈ s.evts.icnfOf b) (hcfl : Conflicts s.evts cfl)
  (hst : StackConf s.evts cfl s.stak)

include hT hsymm hcfl hst

/-- The alternative by one conflicting extension. -/
theorem addV_stored (h : Stored s.evts cfl s.stak s₁.evts) (hy : y ∈ s.evts.icnfOf e)
    (hp : ∀ p ∈ s.evts.predOf y, p ∈ s.stak) :
    Op.Sat (addV s.stak (s.evts.disaOf e) e y) s₁ (fun _ s' => Stored s.evts cfl s.stak s'.evts)
      (fun _ s' => Stored s.evts cfl s.stak s'.evts) := by
  simp only [addV, Op.sat_bind, Op.sat_get, Op.sat_monadLift]
  refine ⟨fun r hr => ?_, fun _ _ => h⟩
  cases r with
  | none => exact h
  | some v =>
    have he := mem_of_computeV_eq_ok hr
    have hext := hst.conflictingExt hsymm hcfl he hy hp
    have hsymm₁ : ∀ {a b}, b ∈ s₁.evts.icnfOf a → a ∈ s₁.evts.icnfOf b := fun {a b} hi => by
      rw [h.links.icnfOf] at hi ⊢
      exact hsymm hi
    obtain ⟨r, hr', hsome, -⟩ := computeV_ok (h.links.causal hT) hsymm₁ (h.links.conflictingExt hext) he
      (s.evts.disaOf e)
    obtain rfl : r = some v := Except.ok.inj (hr'.symm.trans hr)
    obtain ⟨hok, halt, hvalid⟩ := hsome v rfl
    have halt := h.links.isAlt_iff.1 halt
    have hv : Alternate s.evts cfl s.stak e v := ValidAlt.alternate hT hsymm hcfl hst he hy hp halt
      (halt.altOk hsymm hext hok.nodup) (h.links.validAlt_iff.1 hvalid)
    refine sat_onEvts.2 ⟨fun T' hT' => ?_, fun _ _ => h⟩
    obtain ⟨ev, hev⟩ := Events.lookup_of_mem (h.links.mem_iff.2 (hst.mem e he))
    have hl₂ : SameLinks s₁.evts T' := .addAlte hT'
    rw [addAlte, getEvent_ok _ hev, ok_bind, pure_eq_ok, setEvent] at hT'
    obtain rfl := Except.ok.inj hT'
    refine ⟨h.links.trans hl₂, fun x => ?_, fun x w hw => ?_⟩
    · rw [← h.disa x, Events.disaOf, Events.disaOf]
      by_cases hx : x = e
      · subst hx
        rw [AList.lookup_insert, hev, Option.map_some, Option.map_some]
      · rw [AList.lookup_insert_ne hx]
    · rw [Events.alteOf_insert] at hw
      split at hw
      · next hx =>
        subst hx
        rcases List.mem_cons.1 (List.mem_eraseDups.1 hw) with rfl | hw
        · exact .inr ⟨he, hv⟩
        · exact h.alte x w (Events.alteOf_of_lookup hev ▸ hw)
      · exact h.alte x w hw

/-- The alternatives of one event; `cext` are conflicting extensions. -/
theorem possibleAlte_stored (h : Stored s.evts cfl s.stak s₁.evts)
    (hcext : ∀ y ∈ cext, ∀ p ∈ s.evts.predOf y, p ∈ s.stak) :
    Op.Sat (possibleAlte s.stak cext e) s₁
      (fun cext' s' => Stored s.evts cfl s.stak s'.evts ∧
        ∀ y ∈ cext', ∀ p ∈ s.evts.predOf y, p ∈ s.stak)
      (fun _ s' => Stored s.evts cfl s.stak s'.evts) := by
  simp only [possibleAlte, Op.sat_bind, Op.sat_get, Op.sat_monadLift, Op.sat_pure]
  refine ⟨fun cfle hcfle => ⟨fun ext hext => ⟨fun de hde => ?_, fun _ _ => h⟩, fun _ _ => h⟩,
    fun _ _ => h⟩
  obtain ⟨ev, hev⟩ : ∃ ev, s₁.evts.lookup e = some ev := by
    cases hl : s₁.evts.lookup e with
    | none => simp [getIcnf, getEvent, hl] at hcfle
    | some ev => exact ⟨ev, rfl⟩
  obtain rfl : s.evts.icnfOf e = cfle := by
    rw [getIcnf_ok (Events.mem_of_lookup hev), h.links.icnfOf] at hcfle
    exact Except.ok.inj hcfle
  obtain rfl : s.evts.disaOf e = de := by
    rw [getDisa, getEvent_ok _ hev] at hde
    rw [← h.disa e, Events.disaOf_of_lookup hev]
    exact Except.ok.inj hde
  have hmem : ∀ y ∈ ext, y ∈ s.evts.icnfOf e ∧ ∀ p ∈ s.evts.predOf y, p ∈ s.stak := by
    intro y hy
    have hyi := (filterM_sublist hext).subset hy
    refine ⟨hyi, ?_⟩
    have htrue := filterM_true hext y hy
    unfold isCExtension at htrue
    split at htrue
    · next hc => exact hcext y hc
    · have hyT : y ∈ s₁.evts := h.links.mem_iff.2 (Events.mem_of_mem_icnfOf (hsymm hyi))
      rw [getPred_ok hyT, ok_bind, pure_eq_ok, h.links.predOf] at htrue
      simpa using Except.ok.inj htrue
  refine (Op.sat_mapM' (fun _ _ s₂ => Stored s.evts cfl s.stak s₂.evts)
    (fun ys y _ s₂ hpre h₂ => ?_) h).mono (fun _ s₂ h₂ => ⟨h₂, fun y hy => ?_⟩) fun _ _ h => h
  · obtain ⟨hyi, hyp⟩ := hmem y (hpre.subset (by simp))
    exact addV_stored hT hsymm hcfl hst h₂ hyi hyp
  · rcases List.mem_append.1 hy with hy | hy
    · exact hcext y hy
    · exact (hmem y hy).2

theorem possibleAltes_stored (evs : EventsID) :
    Op.Sat (possibleAltes evs) s (fun _ s' => Stored s.evts cfl s.stak s'.evts)
      (fun _ s' => Stored s.evts cfl s.stak s'.evts) := by
  simp only [possibleAltes, Op.sat_bind, Op.sat_get, Op.sat_pure]
  refine (Op.sat_foldlM (fun cext s₁ => Stored s.evts cfl s.stak s₁.evts ∧
    ∀ y ∈ cext, ∀ p ∈ s.evts.predOf y, p ∈ s.stak) evs [] s (fun cext x _ s₁ h₁ => ?_)
    ⟨⟨.refl _, fun _ => rfl, fun _ _ hv => .inl hv⟩, by simp⟩).mono (fun _ _ h => h.1) fun _ _ h => h
  exact possibleAlte_stored hT hsymm hcfl hst h₁.1 h₁.2

end Run

/-- However `possible_altes` ends, on a prefix with symmetric `icnf` that has all the immediate conflicts
and with a configuration as the stack, the alternatives that it adds are valid. -/
theorem possibleAltes_valid {s : UnfolderState st act} (hT : Causal s.evts)
    (hsymm : ∀ {a b}, b ∈ s.evts.icnfOf a → a ∈ s.evts.icnfOf b) (hcfl : Conflicts s.evts cfl)
    (hst : StackConf s.evts cfl s.stak) (evs : EventsID) (e : EventID) (v : Alternative)
    (hv : v ∈ (possibleAltes evs s).2.evts.alteOf e) (hnew : v ∉ s.evts.alteOf e) :
    e ∈ s.stak ∧ Alternate s.evts cfl s.stak e v :=
  ((possibleAltes_stored hT hsymm hcfl hst evs).state.alte e v hv).resolve_left hnew

/-! ### The alternative in the small prefix

With 3 on the stack, the second write of thread 1 comes after the write of thread 2. The alternative
to the latter has the event 4 in the place of both. -/

def clashTwoWriters (a b : EventID) : Prop := (a, b) ∈ [(2, 4), (4, 2), (3, 4), (4, 3)]

theorem conflicts_twoWriters : Conflicts twoWriters clashTwoWriters := by
  have h2 : ∀ x, Lt twoWriters 2 x ↔ x ∈ [3] := fun x =>
    lt_iff_mem_successors linked_twoWriters.causal (by decide) rfl
  have h3 : ∀ x, Lt twoWriters 3 x ↔ x ∈ [] := fun x =>
    lt_iff_mem_successors linked_twoWriters.causal (by decide) rfl
  have h4 : ∀ x, Lt twoWriters 4 x ↔ x ∈ [] := fun x =>
    lt_iff_mem_successors linked_twoWriters.causal (by decide) rfl
  refine ⟨fun {a b} h => ?_, fun a h => ?_, fun {a b c} h hle => ?_, fun {a b} hi => ?_, fun {a b} h => ?_⟩
  · simp only [clashTwoWriters, List.mem_cons, List.not_mem_nil, or_false, Prod.mk.injEq] at h ⊢
    rcases h with ⟨rfl, rfl⟩ | ⟨rfl, rfl⟩ | ⟨rfl, rfl⟩ | ⟨rfl, rfl⟩ <;> simp
  · simp only [clashTwoWriters, List.mem_cons, List.not_mem_nil, or_false, Prod.mk.injEq] at h
    lia
  · simp only [clashTwoWriters, List.mem_cons, List.not_mem_nil, or_false, Prod.mk.injEq] at h ⊢
    rcases hle with rfl | hlt
    · exact h
    · rcases h with ⟨rfl, rfl⟩ | ⟨rfl, rfl⟩ | ⟨rfl, rfl⟩ | ⟨rfl, rfl⟩
      · simp [h4] at hlt
      · obtain rfl : c = 3 := by simpa [h2] using hlt
        simp
      · simp [h4] at hlt
      · simp [h3] at hlt
  · have hall : ∀ e ∈ twoWriters.keys, ∀ y ∈ twoWriters.icnfOf e,
        (e, y) ∈ [(2, 4), (4, 2), (3, 4), (4, 3)] := by decide
    exact hall a (Events.mem_of_mem_icnfOf hi) b hi
  · obtain ⟨hab, hmin⟩ := h
    have hle : Le twoWriters 2 3 := .inr ((h2 3).2 (by simp))
    simp only [clashTwoWriters, List.mem_cons, List.not_mem_nil, or_false, Prod.mk.injEq] at hab
    rcases hab with ⟨rfl, rfl⟩ | ⟨rfl, rfl⟩ | ⟨rfl, rfl⟩ | ⟨rfl, rfl⟩
    · decide
    · decide
    · -- the conflict of 3 is inherited from 2
      exact absurd (hmin 2 4 hle (.inl rfl) (by simp [clashTwoWriters])).1 (by decide)
    · exact absurd (hmin 4 2 (.inl rfl) hle (by simp [clashTwoWriters])).2 (by decide)

def stateTwoWriters : UnfolderState Unit (Act Int) where
  syst := ⟨(), .bot, [], []⟩
  evts := twoWriters
  stak := [3, 2, 1, 0]
  cntr := 5
  stas := []
  opts := ⟨false, false, 0⟩
  stats := defaultUnfStats
  calls := []
  seen := []

theorem stackConf_twoWriters : StackConf twoWriters clashTwoWriters [3, 2, 1, 0] where
  nodup := by decide
  mem := by decide
  order l₁ x l₂ h := by
    rcases l₁ with _ | ⟨_, _ | ⟨_, _ | ⟨_, _ | ⟨_, l₁⟩⟩⟩⟩ <;>
      simp only [List.nil_append, List.cons_append, List.cons.injEq] at h
    · obtain ⟨rfl, rfl⟩ := h
      decide
    · obtain ⟨-, rfl, rfl⟩ := h
      decide
    · obtain ⟨-, -, rfl, rfl⟩ := h
      decide
    · obtain ⟨-, -, -, rfl, rfl⟩ := h
      decide
    · simp at h
  free a ha b hb h := by
    simp only [clashTwoWriters, List.mem_cons, List.not_mem_nil, or_false, Prod.mk.injEq] at ha hb h
    lia

theorem possibleAltes_valid_twoWriters : (2 : EventID) ∈ stateTwoWriters.stak ∧
    Alternate stateTwoWriters.evts clashTwoWriters stateTwoWriters.stak 2 [1, 0, 4] :=
  possibleAltes_valid (s := stateTwoWriters) linked_twoWriters.causal
    (fun hi => (linked_twoWriters.icnf_symm List.not_mem_nil hi).1) conflicts_twoWriters
    stackConf_twoWriters [2] 2 [1, 0, 4] (by decide +kernel) (by decide)

end Stored

end Poet
