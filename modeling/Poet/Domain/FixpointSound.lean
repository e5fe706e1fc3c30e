import Poet.Domain.FixpointStep

/-!
# The fixpoint on states

When the worklist is empty the table is a post-fixpoint: along every edge that is not an end of the
collapse, the result is below the state of the target. The invariant is that an edge out of a node
with a state is on the worklist or satisfied. An update by join or widening raises the state of its
node, which keeps the other edges into it satisfied. A strong update replaces it: there the node
must have no other edge into it.
-/

namespace Poet

/-- `Leq` is a preorder; a join is an upper bound, and so is what a state is widened to. -/
structure UpperBounds (st : Type) [LatticeM st] : Prop where
  refl : ∀ s : st, Leq s s
  trans : ∀ {s t u : st}, Leq s t → Leq t u → Leq s u
  join_left : ∀ {s t u : st}, LatticeM.join s t = .ok u → Leq s u
  join_right : ∀ {s t u : st}, LatticeM.join s t = .ok u → Leq t u
  widen_left : ∀ {s x u : st}, LatticeM.widen s x = .ok u → Leq s u
  widen_right : ∀ {s x u : st}, LatticeM.widen s x = .ok u → Leq x u

/-- A node with more than one edge into it, the start being one, is entered only by edges that join
or widen. -/
def EntersByJoin (cfg : Graph) (pos : Pos) : Prop :=
  ∀ v, (v ≠ pos ∧ ∀ it it' : WItem, it ∈ outItems cfg it.1 → it' ∈ outItems cfg it'.1 →
      it.2.2 = v → it'.2.2 = v → it = it') ∨
    ∀ it : WItem, it ∈ outItems cfg it.1 → it.2.2 = v →
      (cfg.edgeInfo it.2.1).tags ∈ [[.loopHead], [.ifJoin]]

variable {st act : Type} [DecidableEq st] [LatticeM st] [Lattice act]

section NextState

variable {env : FixEnv} {tags : List EdgeTag} {c : Int} {s s' s₁ : st}

omit [DecidableEq st] in
/-- The incoming state is below the new one, whatever the update. -/
theorem UpperBounds.leq_nextState (h : UpperBounds st)
    (hn : nextState env tags c s s' = .ok s₁) : Leq s s₁ := by
  unfold nextState at hn
  split at hn
  · split at hn
    · exact h.widen_right hn
    · exact h.join_left hn
  · exact h.join_left hn
  · exact Except.ok.inj hn ▸ h.refl s

omit [DecidableEq st] in
/-- So is the old one, unless it was replaced. -/
theorem UpperBounds.leq_nextState_old (h : UpperBounds st)
    (htags : tags ∈ [[.loopHead], [EdgeTag.ifJoin]]) (hn : nextState env tags c s s' = .ok s₁) :
    Leq s' s₁ := by
  simp only [List.mem_cons, List.not_mem_nil, or_false] at htags
  obtain rfl | rfl := htags
  · simp only [nextState] at hn
    split at hn
    · exact h.widen_left hn
    · exact h.join_right hn
  · exact h.join_right hn

end NextState

variable [Collapse st act] [Action act]

/-- If the edge is not an end of the collapse, its result is below the state of its target. -/
def Satisfied (env : FixEnv) (table : NodeTable st act) (it : WItem) : Prop :=
  ∀ preActs postActs ns, Transfer env table it preActs postActs ns →
    IsLocal env it preActs postActs ns →
    ∃ s a, table.lookup it.2.2 = some [(s, a)] ∧ Leq ns s

structure EdgesInv (env : FixEnv) (wl : List WItem) (fs : FixState st act) : Prop where
  items : ∀ it ∈ wl, it ∈ outItems env.cfg it.1
  edges : ∀ u p, fs.table.lookup u = some [p] → ∀ it ∈ outItems env.cfg u,
    it ∈ wl ∨ Satisfied env fs.table it

variable {env : FixEnv} {pos : Pos} {it it' : WItem} {wl wl' : List WItem}
  {fs fs' : FixState st act} {table : NodeTable st act} {node : NodeId} {s₁ : st} {a₁ : act}

/-- A new entry at the target of an edge keeps it satisfied if it is above the old one. -/
theorem Satisfied.insert (hub : UpperBounds st) (h : Satisfied env table it)
    (hsrc : it.1 ≠ node)
    (hold : it.2.2 = node → ∀ s a, table.lookup node = some [(s, a)] → Leq s s₁) :
    Satisfied env (table.insert node [(s₁, a₁)]) it := by
  intro preActs postActs ns ht hloc
  have ht' : Transfer env table it preActs postActs ns :=
    ht.congr (AList.lookup_insert_ne hsrc).symm
  obtain ⟨s, a, hl, hle⟩ := h _ _ _ ht' hloc
  by_cases hnode : it.2.2 = node
  · refine ⟨s₁, a₁, by rw [hnode, AList.lookup_insert], ?_⟩
    exact hub.trans hle (hold hnode s a (hnode ▸ hl))
  · exact ⟨s, a, by rw [AList.lookup_insert_ne hnode, hl], hle⟩

/-- The item that was processed is satisfied by what it left at its target. -/
theorem satisfied_self {preActs postActs : act} {ns s : st} {a : act}
    (ht : Transfer env table it preActs postActs ns) (hl : table.lookup it.2.2 = some [(s, a)])
    (hle : Leq ns s) : Satisfied env table it := by
  intro a' b' ns' ht' _
  obtain ⟨-, -, rfl⟩ := ht.unique ht'
  exact ⟨s, a, hl, hle⟩

/-- Processing an item that leaves the table as it is. -/
theorem EdgesInv.of_table_eq (hinv : EdgesInv env (it :: wl) fs) (htab : fs'.table = fs.table)
    (hsat : Satisfied env fs.table it) : EdgesInv env wl fs' := by
  refine ⟨fun x hx => hinv.items x (List.mem_cons_of_mem _ hx), fun u p hu x hx => ?_⟩
  rw [htab] at hu ⊢
  obtain hmem | hx := hinv.edges u p hu x hx
  · obtain rfl | hmem := List.mem_cons.1 hmem
    · exact .inr hsat
    · exact .inl hmem
  · exact .inr hx

/-- Processing an item that changes the entry of its target. The edges out of the target are back on
the worklist; the other edges into it stay satisfied. -/
theorem EdgesInv.of_insert (hub : UpperBounds st) (hinv : EdgesInv env (it :: wl) fs)
    {preActs postActs : act} {ns : st} (ht : Transfer env fs.table it preActs postActs ns)
    (htab : fs'.table = fs.table.insert it.2.2 [(s₁, a₁)]) (hle : Leq ns s₁)
    (hold : ∀ x : WItem, x ∈ outItems env.cfg x.1 → x ≠ it → x.2.2 = it.2.2 →
      ∀ s a, fs.table.lookup it.2.2 = some [(s, a)] → Leq s s₁) :
    EdgesInv env (wl ++ outItems env.cfg it.2.2).eraseDups fs' := by
  refine ⟨fun x hx => ?_, fun u p hu x hx => ?_⟩
  · rw [List.mem_eraseDups, List.mem_append] at hx
    obtain hx | hx := hx
    · exact hinv.items x (List.mem_cons_of_mem _ hx)
    · exact (fst_of_mem_outItems hx).symm ▸ hx
  · rw [List.mem_eraseDups, List.mem_append]
    by_cases hnode : u = it.2.2
    · exact .inl (.inr (hnode ▸ hx))
    have hsrc : x.1 ≠ it.2.2 := fst_of_mem_outItems hx ▸ hnode
    rw [htab, AList.lookup_insert_ne hnode] at hu
    by_cases hit : x = it
    · subst hit
      right
      rw [htab]
      exact satisfied_self (ht.congr (AList.lookup_insert_ne hsrc)) (AList.lookup_insert _) hle
    · obtain hmem | hsat := hinv.edges u p hu x hx
      · exact .inl (.inl ((List.mem_cons.1 hmem).resolve_left hit))
      · right
        rw [htab]
        exact hsat.insert hub hsrc (hold x ((fst_of_mem_outItems hx).symm ▸ hx) hit)

theorem EdgesInv.step (hub : UpperBounds st) (hcfg : EntersByJoin env.cfg pos)
    (hinv : EdgesInv env (it :: wl) fs) (hstep : Stepped env it wl fs wl' fs') :
    EdgesInv env wl' fs' := by
  have hit : it ∈ outItems env.cfg it.1 := hinv.items it List.mem_cons_self
  cases hstep with
  | @skip _ preActs postActs ns ht hnot htab _ =>
    apply hinv.of_table_eq htab
    intro a b ns' ht' hloc
    obtain ⟨rfl, rfl, rfl⟩ := ht.unique ht'
    exact absurd hloc hnot
  | @update _ preActs postActs ns isFix ht hloc hrev _ =>
    generalize htab : fs'.table = table' at hrev
    cases hrev with
    | @fixed s' a' hl hn =>
      apply hinv.of_table_eq htab
      exact satisfied_self ht hl (hub.leq_nextState hn)
    | fresh hl =>
      apply hinv.of_insert hub ht htab (hub.refl ns)
      intro x _ _ _ s a hs
      exact absurd hs (hl (s, a))
    | @changed s' a' s₁ hl hn =>
      apply hinv.of_insert hub ht htab (hub.leq_nextState hn)
      intro x hx hne hpost s a hs
      obtain ⟨rfl, rfl⟩ : s' = s ∧ a' = a := by simpa [hl] using hs
      -- a strong update of a node with two edges into it is excluded
      obtain ⟨-, honly⟩ | htags := hcfg it.2.2
      · exact absurd (honly x it hx hit hpost rfl) hne
      · exact hub.leq_nextState_old (htags it hit rfl) hn

theorem edgesInv_init (env : FixEnv) (pos : Pos) (s : st) :
    EdgesInv env (outItems env.cfg pos) (initFixState env.cfg pos s : FixState st act) := by
  refine ⟨fun x hx => (fst_of_mem_outItems hx).symm ▸ hx, fun u p hu x hx => .inl ?_⟩
  by_cases hne : u = pos
  · exact hne ▸ hx
  · exact absurd hu (lookup_initTable_of_ne hne p)

/-- **The table is a post-fixpoint** when the worklist is empty. -/
theorem fixpt_postfixpoint (hdef : UsesDefaults st act) (hub : UpperBounds st) (env : FixEnv)
    (pos : Pos) (s : st) (hcfg : EntersByJoin env.cfg pos) (fuel : Nat) (fs : FixState st act)
    (hrun : loop env fuel (outItems env.cfg pos) (initFixState env.cfg pos s) = (.ok (), fs)) :
    ∀ u p, fs.table.lookup u = some [p] → ∀ it ∈ outItems env.cfg u,
      Satisfied env fs.table it := by
  have hinv : EdgesInv env [] fs :=
    loop_induction hdef (fun _ _ _ _ _ hinv hstep => hinv.step hub hcfg hstep) fuel _ _ fs
      (edgesInv_init env pos s) hrun
  intro u p hu it hit
  exact (hinv.edges u p hu it hit).resolve_left List.not_mem_nil

/-! ## A loop that counts

The states are `0`, `1` and everything from `2` on; the body of the loop adds one. -/

section Level

structure Level where
  val : Fin 3
deriving DecidableEq, Repr

instance : LatticeM Level where
  join a b := .ok ⟨max a.val b.val⟩
  leq a b := .ok (a.val ≤ b.val)
  isBot _ := false
  widen a b := .ok (if b.val ≤ a.val then a else ⟨2⟩)

/-- Calls add one, up to `2`. -/
instance : Collapse Level (Act Int) where
  codeTransformer _ _ _ info s :=
    match info.code with
    | .E (.call _ _) => .ok (Act.bot, ⟨if s.val = 0 then 1 else 2⟩, [])
    | _ => .ok (Act.bot, s, [])

theorem level_usesDefaults : UsesDefaults Level (Act Int) := ⟨rfl, rfl, rfl⟩

theorem level_upperBounds : UpperBounds Level where
  refl s := by simp [Leq, LatticeM.leq]
  trans h h' := by
    simp only [Leq, LatticeM.leq, Except.ok.injEq, decide_eq_true_eq] at *
    exact h.trans h'
  join_left h := by simp [← Except.ok.inj h, Leq, LatticeM.leq]
  join_right h := by simp [← Except.ok.inj h, Leq, LatticeM.leq]
  widen_left {s x u} h := by
    obtain ⟨s⟩ := s
    obtain ⟨x⟩ := x
    obtain rfl := Except.ok.inj h
    clear h
    unfold Leq
    revert s x
    decide
  widen_right {s x u} h := by
    obtain ⟨s⟩ := s
    obtain ⟨x⟩ := x
    obtain rfl := Except.ok.inj h
    clear h
    unfold Leq
    revert s x
    decide

/-- `while (..) { f(); }`: the loop head is `1`, its body the edge from `2` back to it, and `3` is
the end. -/
def countGraph : Graph where
  entryNode := 0
  nodes := [0, 1, 2, 3]
  succs n :=
    if n = 0 then [(0, 1)] else if n = 1 then [(1, 2), (3, 3)] else if n = 2 then [(2, 1)] else []
  edgeInfo e :=
    if e = 0 then ⟨[.loopHead], .E .skip⟩
    else if e = 2 then ⟨[.loopHead], .E (.call .skip [])⟩
    else ⟨[], .E .skip⟩
  parameters := []

def countEnv : FixEnv := ⟨false, 1, [], [], countGraph, 1⟩

/-- The edges of the graph. -/
theorem mem_outItems_countGraph {it : WItem} (h : it ∈ outItems countGraph it.1) :
    it ∈ [((0, 0, 1) : WItem), (1, 1, 2), (1, 3, 3), (2, 2, 1)] := by
  obtain ⟨u, e, v⟩ := it
  simp only [outItems, countGraph] at h
  split_ifs at h with h0 h1 h2 <;> simp_all

theorem countGraph_entersByJoin : EntersByJoin countGraph 0 := by
  intro v
  by_cases hv : v = 0 ∨ v = 1
  · right
    intro it hit hpost
    have hmem := mem_outItems_countGraph hit
    simp only [List.mem_cons, List.not_mem_nil, or_false] at hmem
    obtain rfl | rfl | rfl | rfl := hmem
    · decide
    · subst hpost
      simp at hv
    · subst hpost
      simp at hv
    · decide
  · left
    refine ⟨fun h => hv (.inl h), fun it it' hit hit' hpost hpost' => ?_⟩
    -- away from the loop head the target determines the edge
    have hedge : ∀ x ∈ [((0, 0, 1) : WItem), (1, 1, 2), (1, 3, 3), (2, 2, 1)], x.2.2 ≠ 1 →
        x = (1, if x.2.2 = 2 then 1 else 3, x.2.2) := by decide
    rw [hedge it (mem_outItems_countGraph hit) (fun h => hv (.inr (hpost ▸ h))),
      hedge it' (mem_outItems_countGraph hit') (fun h => hv (.inr (hpost' ▸ h))), hpost, hpost']

/-- The state of the engine when the worklist is empty: the loop head was widened. -/
def countEnd : FixState Level (Act Int) :=
  (loop countEnv 10 (outItems countGraph 0) (initFixState countGraph 0 ⟨0⟩)).2

theorem count_postfixpoint :
    countEnd.table.lookup 1 = some [(⟨2⟩, Act.bot)] ∧
      ∀ u p, countEnd.table.lookup u = some [p] → ∀ it ∈ outItems countGraph u,
        Satisfied countEnv countEnd.table it :=
  ⟨by decide +kernel, fixpt_postfixpoint level_usesDefaults level_upperBounds countEnv 0 ⟨0⟩
    countGraph_entersByJoin 10 countEnd rfl⟩

end Level

end Poet
