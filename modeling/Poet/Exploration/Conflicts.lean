import Poet.Exploration.AddEvent
import Poet.Exploration.Delete
import Poet.Lib.Search

/-!
# Immediate conflicts of a new event

The immediate conflicts of a new event with local history `lh` are the dependent events outside `lh`
that could have come next to `lh`: with what is below them and with `lh` they are free of conflicts, and
nothing below them outside `lh` is dependent with the new event (`ImmediateConflicts`).

`compute_conflicts` finds all of these. It rejects a candidate when a conflict that it has found is below
it, so a candidate with a dependent event below it is rejected only if that event comes first in the
breadth-first order of the prefix. When it comes later, the candidate is returned though it is in
conflict with the new event by inheritance only (`computeConflicts_early`). The result is exact if and
only if no candidate comes too early in this sense (`computeConflicts_exact_iff`).
-/

namespace Poet

variable {act : Type} {T : Events act} {e x y : EventID}

/-! ## Conflicts -/

/-- A conflict with no other conflict below it. -/
def ImmediateConflict (T : Events act) (cfl : EventID → EventID → Prop) (a b : EventID) : Prop :=
  cfl a b ∧ ∀ a' b', Le T a' a → Le T b' b → cfl a' b' → a' = a ∧ b' = b

/-- Below every conflict there is an immediate one. -/
theorem exists_immediateConflict {cfl : EventID → EventID → Prop} (hT : Causal T) {a b : EventID}
    (hab : cfl a b) :
    ∃ a' b', Le T a' a ∧ Le T b' b ∧ ImmediateConflict T cfl a' b' := by
  obtain ⟨ρ, hρ, -⟩ := hT.exists_rank
  induction hn : ρ a + ρ b using Nat.strong_induction_on generalizing a b with
  | _ n ih =>
    by_cases hmin : ∀ a' b', Le T a' a → Le T b' b → cfl a' b' → a' = a ∧ b' = b
    · exact ⟨a, b, .inl rfl, .inl rfl, hab, hmin⟩
    · push Not at hmin
      obtain ⟨a', b', ha, hb, hab', hne⟩ := hmin
      have hle : ∀ {x y}, Le T x y → ρ x ≤ ρ y := fun hxy => by
        rcases hxy with rfl | hlt
        · exact Nat.le_refl _
        · exact Nat.le_of_lt (hρ hlt)
      have hlt : ρ a' + ρ b' < n := by
        have ha' := hle ha
        have hb' := hle hb
        rcases ha with rfl | ha
        · rcases hb with rfl | hb
          · exact absurd rfl (hne rfl)
          · have := hρ hb
            lia
        · have := hρ ha
          lia
      obtain ⟨a₁, b₁, h₁, h₂, h₃⟩ := ih _ hlt hab' rfl
      exact ⟨a₁, b₁, h₁.trans ha, h₂.trans hb, h₃⟩

/-- `cfl` is a conflict relation on the prefix: symmetric, inherited along the causality, and no event
is in conflict with itself. The lists `icnf` hold conflicts, among them all the immediate ones. -/
structure Conflicts (T : Events act) (cfl : EventID → EventID → Prop) : Prop where
  symm : ∀ {a b}, cfl a b → cfl b a
  irrefl : ∀ a, ¬ cfl a a
  inherit : ∀ {a b c}, cfl a b → Le T b c → cfl a c
  of_icnf : ∀ {a b}, b ∈ T.icnfOf a → cfl a b
  icnf : ∀ {a b}, ImmediateConflict T cfl a b → b ∈ T.icnfOf a

/-- The lists `icnf` are exactly the immediate conflicts. -/
structure ExactConflicts (T : Events act) (cfl : EventID → EventID → Prop) : Prop extends
    Conflicts T cfl where
  immediate : ∀ {a b}, b ∈ T.icnfOf a → ImmediateConflict T cfl a b

/-- No two events at or below one event are in conflict. -/
theorem Conflicts.not_cfl_of_le {cfl : EventID → EventID → Prop} (h : Conflicts T cfl) {a b : EventID}
    (ha : Le T a y) (hb : Le T b y) : ¬ cfl a b := fun hab =>
  h.irrefl y (h.inherit (h.symm (h.inherit hab hb)) ha)

variable [Action act] (info : EventInfo act)

/-- The event `d` is outside the local history and dependent with the new event. -/
def Stops (T : Events act) (lh : EventsID) (d : EventID) : Prop := d ∉ lh ∧ dependsOn info T d = true

/-- The immediate conflicts of a new event with local history `lh`. -/
def ImmediateConflicts (T : Events act) (cfl : EventID → EventID → Prop) (lh : EventsID) :
    Set EventID :=
  {e | e ∈ T ∧ Stops info T lh e ∧
    (∀ a b, (a ∈ lh ∨ Lt T a e) → (b ∈ lh ∨ Lt T b e) → ¬ cfl a b) ∧
    (∀ d, Lt T d e → ¬ Stops info T lh d) ∧
    ∀ a, (a ∈ lh ∨ Lt T a e) → ¬ cfl a e}

variable {info}

theorem exposed_iff {cfl : EventID → EventID → Prop} (hT : Causal T) (hcfl : Conflicts T cfl)
    {lh : EventsID} (hclosed : ∀ x y, y ∈ lh → Le T x y → x ∈ lh)
    (hfree : ∀ a ∈ lh, ∀ b ∈ lh, ¬ cfl a b) :
    Exposed info T lh y ↔ y ∈ ImmediateConflicts info T cfl lh := by
  constructor
  · intro hx
    -- a conflict with the local history would show in the lists
    have hlh : ∀ {a}, a ∈ lh → ∀ {b}, Le T b y → ¬ cfl a b := by
      intro a ha b hb hab
      obtain ⟨a', b', ha', hb', hi⟩ := exists_immediateConflict hT hab
      exact hx.noCnfl b' (hb'.trans hb) a' (hclosed a' a ha ha') (hcfl.icnf hi)
    refine ⟨hx.mem, ⟨hx.notMem, hx.dep⟩, ?_, fun d hd hs => ?_, ?_⟩
    · rintro a b (ha | ha) (hb | hb) hab
      · exact hfree a ha b hb hab
      · exact hlh ha (.inr hb) hab
      · exact hlh hb (.inr ha) (hcfl.symm hab)
      · exact hcfl.not_cfl_of_le (.inr ha) (.inr hb) hab
    · rcases hx.below d hd with h | h
      · exact hs.1 h
      · rw [hs.2] at h
        cases h
    · rintro a (ha | ha) hab
      · exact hlh ha (.inl rfl) hab
      · exact hcfl.not_cfl_of_le (.inr ha) (.inl rfl) hab
  · rintro ⟨hm, ⟨hlh, hd⟩, hfree', hbelow, hno⟩
    refine ⟨⟨hm, hlh, hd, fun z hz x hx hzx => ?_⟩, fun z hz => ?_⟩
    · have hxz := hcfl.of_icnf hzx
      rcases hz with rfl | hz
      · exact hno x (.inl hx) hxz
      · exact hfree' x z (.inl hx) (.inr hz) hxz
    · by_cases hzl : z ∈ lh
      · exact .inl hzl
      · exact .inr (by simpa [Stops, hzl] using hbelow z hz)

/-! ## The order of the search -/

variable (info) in
/-- Where the search goes on from `e`: nowhere from a conflict of the local history and from a
dependent event outside it. -/
def searchNext (lh lhCnfls : EventsID) (T : Events act) (e : EventID) : EventsID :=
  if e ∈ lhCnfls ∨ (e ∉ lh ∧ dependsOn info T e = true) then [] else T.succOf e

variable (info) in
/-- The events that are reached from bottom, in breadth-first order. -/
def searchOrder (lh lhCnfls : EventsID) (T : Events act) : EventsID :=
  bfs (searchNext info lh lhCnfls T) ((T.bound + 1) * (T.bound + 1)) [] (T.succOf botEID)

variable (info) in
/-- A candidate of the order with no event to stop at before it and below it. -/
def Admitted (T : Events act) (lh order : EventsID) (y : EventID) : Prop :=
  Conflicting info T lh y ∧
    ∃ l₁ l₂, order = l₁ ++ y :: l₂ ∧ ∀ d ∈ l₁, Lt T d y → ¬ Stops info T lh d

theorem admitted_cons {lh order : EventsID} : Admitted info T lh (e :: order) y ↔
    (Conflicting info T lh y ∧ y = e) ∨
      (Admitted info T lh order y ∧ (Lt T e y → ¬ Stops info T lh e)) := by
  constructor
  · rintro ⟨hy, l₁, l₂, heq, hbefore⟩
    cases l₁ with
    | nil => exact .inl ⟨hy, (List.cons.inj heq).1.symm⟩
    | cons d l₁ =>
      obtain ⟨rfl, htail⟩ := List.cons.inj heq
      exact .inr ⟨⟨hy, l₁, l₂, htail, fun d hd => hbefore d (List.mem_cons_of_mem _ hd)⟩,
        hbefore e List.mem_cons_self⟩
  · rintro (⟨hy, rfl⟩ | ⟨⟨hy, l₁, l₂, rfl, hbefore⟩, he⟩)
    · exact ⟨hy, [], order, rfl, by simp⟩
    · exact ⟨hy, e :: l₁, l₂, rfl, List.forall_mem_cons.2 ⟨he, hbefore⟩⟩

/-- The search from a frontier adds what its order admits and no conflict found before is below. -/
theorem computeConflict_order (hT : Causal T) {lh lhCnfls : EventsID}
    (hcl : ∀ x, x ∈ lhCnfls ↔ ∃ z ∈ lh, x ∈ T.icnfOf z) :
    ∀ (n : Nat) (seen rest cfls r : EventsID), rest.Nodup → (∀ y ∈ rest, y ∈ T) →
      computeConflict info lh lhCnfls T n seen rest cfls = .ok r →
      ∀ y, y ∈ r ↔ y ∈ cfls ∨ (∀ c ∈ cfls, ¬ Lt T c y) ∧
        Admitted info T lh (bfs (searchNext info lh lhCnfls T) n seen rest) y
  | n, seen, [], cfls, r, _, _, hr, y => by
    obtain rfl : cfls = r := by cases n <;> exact Except.ok.inj hr
    simp [Admitted]
  | 0, seen, e :: rest, cfls, r, _, _, hr, y => by cases hr
  | n + 1, seen, e :: rest, cfls, r, hnd, hmem, hr, y => by
    obtain ⟨-, hnd'⟩ := List.nodup_cons.1 hnd
    have hmem' : ∀ y ∈ rest, y ∈ T := fun y hy => hmem y (List.mem_cons_of_mem _ hy)
    obtain ⟨hseen, heq⟩ | ⟨hseen, ⟨⟨z, hz, hez⟩, heq⟩ | ⟨⟨hlh, hd, z, hzlt, hzc⟩, heq⟩ |
      ⟨⟨hcon, hno⟩, heq⟩ | ⟨⟨hexp, hno⟩, heq⟩⟩ :=
      computeConflict_cons info hT hcl n seen rest cfls (hmem e List.mem_cons_self) rfl rfl
    · rw [bfs_skip hseen]
      exact computeConflict_order hT hcl n seen rest cfls r hnd' hmem' (heq ▸ hr) y
    · -- nothing with a conflict of the local history below it is a candidate
      have hleaf : searchNext info lh lhCnfls T e = [] :=
        if_pos (.inl ((hcl e).2 ⟨z, hz, hez⟩))
      rw [bfs_leaf hseen hnd' hleaf, admitted_cons,
        computeConflict_order hT hcl n _ rest cfls r hnd' hmem' (heq ▸ hr) y]
      refine or_congr_right (and_congr_right fun _ => ⟨fun h => .inr ⟨h, fun hlt => ?_⟩, ?_⟩)
      · exact absurd hez (h.1.noCnfl e (.inr hlt) z hz)
      · rintro (⟨h, rfl⟩ | ⟨h, -⟩)
        · exact absurd hez (h.noCnfl y (.inl rfl) z hz)
        · exact h
    · -- what is below the head is below everything above the head
      have hleaf : searchNext info lh lhCnfls T e = [] := if_pos (.inr ⟨hlh, hd⟩)
      rw [bfs_leaf hseen hnd' hleaf, admitted_cons,
        computeConflict_order hT hcl n _ rest cfls r hnd' hmem' (heq ▸ hr) y]
      have hnot : Conflicting info T lh y → (∀ c ∈ cfls, ¬ Lt T c y) → ¬ Le T e y := by
        intro h hc hle
        have hzy := hzlt.trans_le hle
        rcases hzc with ⟨x, hx, hzx⟩ | hzc
        · exact h.noCnfl z (.inr hzy) x hx hzx
        · exact hc z hzc hzy
      refine or_congr_right (and_congr_right fun hc => ⟨fun h => .inr ⟨h, fun hlt => ?_⟩, ?_⟩)
      · exact absurd (.inr hlt) (hnot h.1 hc)
      · rintro (⟨h, rfl⟩ | ⟨h, -⟩)
        · exact absurd (.inl rfl) (hnot h hc)
        · exact h
    · have hstop : Stops info T lh e := ⟨hcon.notMem, hcon.dep⟩
      have hleaf : searchNext info lh lhCnfls T e = [] := if_pos (.inr hstop)
      rw [bfs_leaf hseen hnd' hleaf, admitted_cons,
        computeConflict_order hT hcl n _ rest (e :: cfls) r hnd' hmem' (heq ▸ hr) y,
        List.mem_cons, List.forall_mem_cons]
      constructor
      · rintro ((rfl | h) | ⟨⟨hlt, hc⟩, h⟩)
        · exact .inr ⟨hno, .inl ⟨hcon, rfl⟩⟩
        · exact .inl h
        · exact .inr ⟨hc, .inr ⟨h, fun h => absurd h hlt⟩⟩
      · rintro (h | ⟨hc, ⟨-, rfl⟩ | ⟨h, hlt⟩⟩)
        · exact .inl (.inr h)
        · exact .inl (.inl rfl)
        · exact .inr ⟨⟨fun h => hlt h hstop, hc⟩, h⟩
    · have hgo : ¬ Stops info T lh e := by
        rintro ⟨hlh, hd⟩
        rcases hexp with h | h
        · exact hlh h
        · rw [hd] at h
          cases h
      have hnext : searchNext info lh lhCnfls T e = T.succOf e := by
        refine if_neg (not_or.2 ⟨fun h => ?_, hgo⟩)
        obtain ⟨z, hz, hez⟩ := (hcl e).1 h
        exact hno z hz hez
      rw [bfs_visit hseen, hnext, admitted_cons, computeConflict_order hT hcl n _ _ cfls r
        (nodup_eraseDups _) (fun y hy => ?_) (heq ▸ hr) y]
      · refine or_congr_right (and_congr_right fun _ => ⟨fun h => .inr ⟨h, fun _ => hgo⟩, ?_⟩)
        rintro (⟨h, rfl⟩ | ⟨h, -⟩)
        · exact absurd ⟨h.notMem, h.dep⟩ hgo
        · exact h
      · rcases List.mem_append.1 (List.mem_eraseDups.1 hy) with hy | hy
        · exact hmem' y hy
        · exact hT.mem_of_succ hy

/-! ## Exactness -/

/-- On a prefix with exact conflicts, for a new event with this history, the result is the set of the
immediate conflicts if and only if every candidate of the order with an event to stop at below it comes
after one of these. -/
theorem computeConflicts_exact_iff (info : EventInfo act) {cfl : EventID → EventID → Prop}
    (hT : Causal T) (hnd : (T.succOf botEID).Nodup) (hbot : ∀ e ∈ T, Le T botEID e)
    (hcfl : ExactConflicts T cfl) {history lh lhCnfls : EventsID} (hne : history ≠ [])
    (hmem : ∀ x ∈ history, x ∈ T) (hlh : ∀ x, x ∈ lh ↔ Under T history x)
    (hfree : ∀ a ∈ lh, ∀ b ∈ lh, ¬ cfl a b)
    (hcl : ∀ x, x ∈ lhCnfls ↔ ∃ z ∈ lh, x ∈ T.icnfOf z) :
    ∃ r, computeConflicts info lh lhCnfls T = .ok r ∧
      ({x | x ∈ r} = ImmediateConflicts info T cfl lh ↔
        ∀ l₁ y l₂, searchOrder info lh lhCnfls T = l₁ ++ y :: l₂ → Conflicting info T lh y →
          (∃ d, Lt T d y ∧ Stops info T lh d) → ∃ d ∈ l₁, Lt T d y ∧ Stops info T lh d) := by
  have hclosed : ∀ x y, y ∈ lh → Le T x y → x ∈ lh := fun x y hy hle =>
    (hlh x).2 (((hlh y).1 hy).of_le hle)
  have hbotlh : botEID ∈ lh := by
    obtain ⟨m, hm⟩ := List.exists_mem_of_ne_nil _ hne
    exact (hlh botEID).2 ⟨m, hm, hbot m (hmem m hm)⟩
  have hbotT : botEID ∈ T := by
    obtain ⟨m, hm⟩ := List.exists_mem_of_ne_nil _ hne
    exact hT.mem_of_le (hbot m (hmem m hm)) (hmem m hm)
  obtain ⟨r, hr, -, hcompl⟩ := computeConflicts_ok info hT hbotT hnd lh lhCnfls hcl
  have horder : ∀ y, y ∈ r ↔ Admitted info T lh (searchOrder info lh lhCnfls T) y := by
    obtain ⟨ev, hl⟩ := Events.lookup_of_mem hbotT
    have hsucc := Events.succOf_of_lookup hl
    have hr' := hr
    rw [computeConflicts, getEvent_ok _ hl, ok_bind, ← hsucc] at hr'
    intro y
    have h := computeConflict_order hT hcl _ [] (T.succOf botEID) [] r hnd
      (fun y hy => hT.mem_of_succ hy) hr' y
    simpa [searchOrder] using h
  have hexposed : ∀ y, y ∈ ImmediateConflicts info T cfl lh → y ∈ r := by
    intro y hy
    have hx := (exposed_iff hT hcfl.toConflicts hclosed hfree).2 hy
    refine hcompl y hx ((hbot y hx.mem).resolve_left ?_)
    rintro rfl
    exact hx.notMem hbotlh
  refine ⟨r, hr, fun heq l₁ y l₂ hsplit hcon hbelow => ?_,
    fun hcond => Set.ext fun y => ⟨fun hy => ?_, hexposed y⟩⟩
  · by_contra hno
    have hy : y ∈ r := (horder y).2 ⟨hcon, l₁, l₂, hsplit, fun d hd hlt hs => hno ⟨d, hd, hlt, hs⟩⟩
    obtain ⟨d, hlt, hs⟩ := hbelow
    obtain ⟨-, -, -, hstop, -⟩ := (Set.ext_iff.1 heq y).1 hy
    exact hstop d hlt hs
  · obtain ⟨hcon, l₁, l₂, hsplit, hbefore⟩ := (horder y).1 hy
    refine (exposed_iff hT hcfl.toConflicts hclosed hfree).1 ⟨hcon, fun z hz => ?_⟩
    by_cases hzl : z ∈ lh
    · exact .inl hzl
    · refine .inr ?_
      by_contra hd
      rw [Bool.not_eq_false] at hd
      obtain ⟨d, hd₁, hlt, hs⟩ := hcond l₁ y l₂ hsplit hcon ⟨z, hz, hzl, hd⟩
      exact hbefore d hd₁ hlt hs

/-! ### A candidate that comes too early

Thread 1 writes `y`, then `x`; thread 2 writes `z`, then `x` after the write of thread 1. -/

def earlyCandidate : Events (Act Int) :=
  let write (sym : SymId) : Act Int := .writeActAddr (.addrs [⟨sym, 0, .glob⟩])
  ⟨[⟨0, ⟨botName, .bot, [], [2, 1], [], [], []⟩⟩,
    ⟨1, ⟨⟨1, 1, ⟨1⟩⟩, write ⟨11⟩, [0], [3], [], [], []⟩⟩,
    ⟨2, ⟨⟨2, 1, ⟨2⟩⟩, write ⟨12⟩, [0], [4], [], [], []⟩⟩,
    ⟨3, ⟨⟨1, 2, ⟨1⟩⟩, write ⟨10⟩, [1], [4], [], [], []⟩⟩,
    ⟨4, ⟨⟨2, 2, ⟨2⟩⟩, write ⟨10⟩, [2, 3], [], [], [], []⟩⟩], by simp [List.NodupKeys, List.keys]⟩

/-- A write of `x` by thread 3. -/
def thirdWrite : EventInfo (Act Int) := (⟨3, 1, ⟨3⟩⟩, .writeActAddr (.addrs [⟨⟨10⟩, 0, .glob⟩]))

theorem linked_earlyCandidate : Linked earlyCandidate [] := linked_of_keys (by decide)

theorem bot_le_earlyCandidate : ∀ e ∈ earlyCandidate, Le earlyCandidate botEID e := by
  have h1 : Lt earlyCandidate 0 1 := .single (by decide)
  have h2 : Lt earlyCandidate 0 2 := .single (by decide)
  intro e he
  have hkeys : e ∈ ([0, 1, 2, 3, 4] : EventsID) := he
  simp only [List.mem_cons, List.not_mem_nil, or_false] at hkeys
  rcases hkeys with rfl | rfl | rfl | rfl | rfl
  · exact .inl rfl
  · exact .inr h1
  · exact .inr h2
  · exact .inr (h1.tail (by decide))
  · exact .inr (h2.tail (by decide))

theorem icnfOf_earlyCandidate (a : EventID) : earlyCandidate.icnfOf a = [] := by
  have hnil : ∀ e ∈ earlyCandidate.keys, earlyCandidate.icnfOf e = [] := by decide
  refine List.eq_nil_iff_forall_not_mem.2 fun b hb => ?_
  rw [hnil a (Events.mem_of_mem_icnfOf hb)] at hb
  cases hb

/-- No two events of this prefix are in conflict. -/
theorem exactConflicts_earlyCandidate : ExactConflicts earlyCandidate fun _ _ => False where
  symm h := h
  irrefl _ h := h
  inherit h _ := h
  of_icnf h := by simp [icnfOf_earlyCandidate] at h
  icnf h := h.1.elim
  immediate h := by simp [icnfOf_earlyCandidate] at h

/-- The write of thread 2 is returned beside the one of thread 1 below it. -/
theorem computeConflicts_early : Linked earlyCandidate [] ∧
    (∀ e ∈ earlyCandidate, Le earlyCandidate botEID e) ∧
    ExactConflicts earlyCandidate (fun _ _ => False) ∧
    computeConflicts thirdWrite [0] [] earlyCandidate = .ok [3, 4] ∧
    4 ∉ ImmediateConflicts thirdWrite earlyCandidate (fun _ _ => False) [0] := by
  have hlt : Lt earlyCandidate 3 4 := .single (by decide)
  have hs : Stops thirdWrite earlyCandidate [0] 3 := ⟨by decide, by decide⟩
  exact ⟨linked_earlyCandidate, bot_le_earlyCandidate, exactConflicts_earlyCandidate,
    by decide +kernel, fun h => h.2.2.2.1 3 hlt hs⟩

/-- The order is 2, 1, 4, 3: there is an event to stop at below 4, but none before it. -/
theorem computeConflicts_exact_iff_early : ∃ r,
    computeConflicts thirdWrite [0] [] earlyCandidate = .ok r ∧
      {x | x ∈ r} ≠ ImmediateConflicts thirdWrite earlyCandidate (fun _ _ => False) [0] := by
  have hno : ∀ x, ¬ Lt earlyCandidate x 0 := fun x h => by
    obtain ⟨p, hp, -⟩ := lt_iff_pred.1 h
    cases hp
  have hlh : ∀ x, x ∈ [0] ↔ Under earlyCandidate [0] x := by simp [Under, Le, hno]
  have hcl : ∀ x, x ∈ [] ↔ ∃ z ∈ [0], x ∈ earlyCandidate.icnfOf z := by simp [icnfOf_earlyCandidate]
  obtain ⟨r, hr, hiff⟩ := computeConflicts_exact_iff thirdWrite linked_earlyCandidate.causal (by decide)
    bot_le_earlyCandidate exactConflicts_earlyCandidate (List.cons_ne_nil 0 []) (by decide) hlh
    (fun _ _ _ _ h => h) hcl
  refine ⟨r, hr, fun heq => ?_⟩
  have horder : searchOrder thirdWrite [0] [] earlyCandidate = [2, 1] ++ 4 :: [3] := by decide +kernel
  have hlt : Lt earlyCandidate 3 4 := .single (by decide)
  have hcon : Conflicting thirdWrite earlyCandidate [0] 4 := by
    refine ⟨by decide, by decide, by decide, fun z hz => ?_⟩
    simp [icnfOf_earlyCandidate]
  obtain ⟨d, hd, -, -, hdep⟩ := hiff.1 heq [2, 1] 4 [3] horder hcon ⟨3, hlt, by decide, by decide⟩
  have hnone : ∀ d ∈ [2, 1], dependsOn thirdWrite earlyCandidate d = false := by decide
  rw [hnone d hd] at hdep
  cases hdep

end Poet
