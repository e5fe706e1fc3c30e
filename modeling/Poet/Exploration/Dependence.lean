import Poet.Exploration.API

/-!
# Dependence (`Domain/Action.hs`, `is_dependent` of `API.hs`)

Two actions interfere when the meet of their address sets is not bottom. That test is symmetric, and
it distributes over the join of two sets, top included: a set that contains everything meets every
set but the empty one. So the action of a block of edges, which is the join of the actions of its
edges, interferes exactly with what one of the edges interferes with
(`dependence_symmetric_additive`).
-/

namespace Poet

namespace MemAddrs

variable {v : Type} [DecidableEq v]

/-- The meet is not bottom. -/
def meets (a b : MemAddrs v) : Bool := !Lattice.isBot (a.meet b)

theorem meets_iff {a b : MemAddrs v} : a.meets b = true ↔ a.meet b ≠ .addrs [] := by
  simp [meets, Lattice.isBot]

theorem meets_addrs {l m : List (MemAddr v)} :
    (MemAddrs.addrs l).meets (.addrs m) = true ↔ ∃ x ∈ l, x ∈ m := by
  rw [meets_iff]
  simp only [meet, ne_eq, addrs.injEq, List.eq_nil_iff_forall_not_mem, not_forall, not_not,
    List.mem_inter_iff]

theorem top_meets {b : MemAddrs v} : MemAddrs.top.meets b = true ↔ b ≠ .addrs [] := meets_iff

theorem meets_top {a : MemAddrs v} : a.meets .top = true ↔ a ≠ .addrs [] := by
  rw [meets_iff]
  cases a <;> rfl

theorem meets_comm (a b : MemAddrs v) : a.meets b = b.meets a := by
  rw [Bool.eq_iff_iff]
  cases a with
  | top => rw [top_meets, meets_top]
  | addrs l =>
    cases b with
    | top => rw [top_meets, meets_top]
    | addrs m =>
      simp only [meets_addrs]
      exact exists_congr fun x => and_comm

@[simp] theorem nil_meets (b : MemAddrs v) : (MemAddrs.addrs []).meets b = false := by
  cases b with
  | top => simp [← Bool.not_eq_true, meets_top]
  | addrs m => simp [← Bool.not_eq_true, meets_addrs]

/-- A set that meets another has an element, or is everything. -/
theorem ne_nil_of_meets {a b : MemAddrs v} (h : a.meets b = true) : b ≠ .addrs [] := by
  rintro rfl
  rw [meets_comm, nil_meets] at h
  exact Bool.false_ne_true h

theorem join_meets (a b c : MemAddrs v) : (a.join b).meets c = (a.meets c || b.meets c) := by
  rw [Bool.eq_iff_iff, Bool.or_eq_true]
  cases a with
  | top => exact ⟨.inl, fun h => h.elim id fun hb => top_meets.2 (ne_nil_of_meets hb)⟩
  | addrs l =>
    cases b with
    | top => exact ⟨.inr, fun h => h.elim (fun ha => top_meets.2 (ne_nil_of_meets ha)) id⟩
    | addrs m =>
      cases c with
      | top =>
        simp only [meets_top, join, ne_eq, addrs.injEq, List.eq_nil_iff_forall_not_mem, not_forall,
          not_not, List.mem_eraseDups, List.mem_append, exists_or]
      | addrs n =>
        simp only [meets_addrs, join, List.mem_eraseDups, List.mem_append, or_and_right, exists_or]

theorem foldr_join_meets (l : List (MemAddrs v)) (c : MemAddrs v) :
    (l.foldr join (.addrs [])).meets c = l.any (·.meets c) := by
  induction l with
  | nil => exact nil_meets c
  | cons a l ih => rw [List.foldr_cons, join_meets, ih, List.any_cons]

end MemAddrs

namespace Act

variable {v : Type} [DecidableEq v] [ToValue v]

theorem interferes_comm (a b : Act v) : Action.interferes a b = Action.interferes b a :=
  MemAddrs.meets_comm a.actAddrs b.actAddrs

omit [ToValue v] in
/-- The fields meet another set one by one. -/
theorem join_actAddrs_meets (a b : Act v) (c : MemAddrs v) :
    (a.join b).actAddrs.meets c = (a.actAddrs.meets c || b.actAddrs.meets c) := by
  simp only [actAddrs, MemAddrs.foldr_join_meets, join, List.any_cons, List.any_nil,
    MemAddrs.join_meets, Bool.or_false]
  ac_rfl

theorem interferes_join (a b c : Act v) :
    Action.interferes (a.join b) c = (Action.interferes a c || Action.interferes b c) :=
  join_actAddrs_meets a b c.actAddrs

theorem interferes_bot (c : Act v) : Action.interferes (bot : Act v) c = false :=
  MemAddrs.nil_meets c.actAddrs

/-- The action of a block, collected along its edges. -/
theorem interferes_foldl_join (as : List (Act v)) (a c : Act v) :
    Action.interferes (as.foldl join a) c =
      (Action.interferes a c || as.any (Action.interferes · c)) := by
  induction as generalizing a with
  | nil => simp
  | cons b as ih => rw [List.foldl_cons, ih, interferes_join, List.any_cons, Bool.or_assoc]

end Act

/-- The other tests of `is_dependent` come in pairs. -/
theorem isDependent_comm {act : Type} [Action act] {a b : EventInfo act}
    (h : Action.interferes a.2 b.2 = Action.interferes b.2 a.2) :
    isDependent a b = isDependent b a := by
  have htid : decide (a.1.tid = b.1.tid) = decide (b.1.tid = a.1.tid) := by simp only [eq_comm]
  simp only [isDependent, h, htid]
  ac_rfl

/-- `interferes` and `is_dependent` are symmetric, and a join interferes with what one of the two
interferes with; so does the action of a whole block. -/
theorem dependence_symmetric_additive {v : Type} [DecidableEq v] [ToValue v] :
    (∀ a b : Act v, Action.interferes a b = Action.interferes b a) ∧
    (∀ a b c : Act v, Action.interferes (a.join b) c =
      (Action.interferes a c || Action.interferes b c)) ∧
    (∀ a b : EventInfo (Act v), isDependent a b = isDependent b a) ∧
    ∀ (as : List (Act v)) (c : Act v),
      Action.interferes (as.foldl Act.join .bot) c = as.any (Action.interferes · c) := by
  refine ⟨Act.interferes_comm, Act.interferes_join,
    fun a b => isDependent_comm (Act.interferes_comm a.2 b.2), fun as c => ?_⟩
  rw [Act.interferes_foldl_join, Act.interferes_bot, Bool.false_or]

-- a top field meets every action that touches anything, and nothing else
example : Action.interferes ({ Act.bot with tjoin := .top } : Act Int)
    (.writeActAddr (.addrs [⟨⟨1⟩, 0, .glob⟩])) = true ∧
    Action.interferes ({ Act.bot with tjoin := .top } : Act Int) .bot = false := by decide

end Poet
