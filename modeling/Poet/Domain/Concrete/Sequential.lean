import Poet.Domain.Concrete.Waiting

/-!
# The collapse and sequential execution

If at every node at most one edge can be taken, the thread runs from node to node (`SeqRun`) up to the
first edge that ends the collapse. The worklist follows this run: the table has the last visit of
each node, and of the items that are left only those of the current node can be taken (`Tracks`). No
node is visited twice with the same state, because the run ends. The last edge is handled by
`handleMark`, and its target may have the state after it already, from its last visit or as the start:
then the result has the actions of that visit, and those of the edges since are lost.
-/

namespace Poet

/-! ## Sequential runs -/

section Sequential

variable [SimpleC]

/-- The edge of the item can not be taken in `s`. -/
def BottomEdge (env : FixEnv) (it : WItem) (s : ConState) : Prop :=
  ∃ b s' warns, itemTransformer env it s = .ok (b, s', warns) ∧ s'.isBot = true

/-- Of the edges out of the node only `p` gives a state that is not bottom. -/
structure OnlyEdge (env : FixEnv) (n : NodeId) (s : ConState) (p : EdgeId × NodeId) (b : ConAct)
    (s' : ConState) : Prop where
  mem : p ∈ env.cfg.succs n
  gives : ∃ warns, itemTransformer env (n, p) s = .ok (b, s', warns)
  live : s'.isBot = false
  others : ∀ q ∈ env.cfg.succs n, q ≠ p → BottomEdge env (n, q) s

/-- A node on the way, with the state there and the actions since the start. -/
structure Visit where
  node : NodeId
  st : ConState
  acts : ConAct

/-- The visits of a sequential execution from `pos`, the last one first. -/
inductive SeqRun (env : FixEnv) (pos : Pos) (s₀ : ConState) : List Visit → Prop where
  | start : SeqRun env pos s₀ [⟨pos, s₀, Act.bot⟩]
  | step {v vs p b s'} (h : SeqRun env pos s₀ (v :: vs)) (he : OnlyEdge env v.node v.st p b s')
      (hf : isFinal env (env.cfg.edgeInfo p.1) p.2 (v.acts.join b) = false) :
      SeqRun env pos s₀ (⟨p.2, s', v.acts.join b⟩ :: v :: vs)

/-- The execution comes to the visit `v` and ends with the edge `p`, which leads to `s'`. -/
structure SeqEnd (env : FixEnv) (pos : Pos) (s₀ : ConState) (v : Visit) (vs : List Visit)
    (p : EdgeId × NodeId) (b : ConAct) (s' : ConState) : Prop where
  run : SeqRun env pos s₀ (v :: vs)
  edge : OnlyEdge env v.node v.st p b s'
  final : isFinal env (env.cfg.edgeInfo p.1) p.2 (v.acts.join b) = true

/-- The actions of the result: an exit edge, or one after which nothing follows, adds the exit. -/
def endActs (env : FixEnv) (p : EdgeId × NodeId) (a : ConAct) : ConAct :=
  if decide (.exit ∈ (env.cfg.edgeInfo p.1).tags) || (outItems env.cfg p.2).isEmpty then
    a.join (Act.exitThreadAct ⟨env.tid⟩)
  else a

def lastVisit (vs : List Visit) (n : NodeId) : Option Visit := vs.find? (·.node = n)

section Runs

variable {env : FixEnv} {pos : Pos} {s₀ : ConState} {v u : Visit} {vs : List Visit} {n : NodeId}

theorem OnlyEdge.not_bottom {s s' : ConState} {p : EdgeId × NodeId} {b : ConAct}
    (h : OnlyEdge env n s p b s') : ¬ BottomEdge env (n, p) s := by
  rintro ⟨b', s'', warns', hok, hbot⟩
  obtain ⟨warns, hgives⟩ := h.gives
  obtain ⟨-, rfl, -⟩ : b' = b ∧ s'' = s' ∧ warns' = warns := by
    simpa using hok.symm.trans hgives
  simp [h.live] at hbot

theorem OnlyEdge.unique {s s₁ s₂ : ConState} {p q : EdgeId × NodeId} {b c : ConAct}
    (h : OnlyEdge env n s p b s₁) (h' : OnlyEdge env n s q c s₂) : p = q ∧ b = c ∧ s₁ = s₂ := by
  obtain rfl : p = q := by
    by_contra hne
    exact h.not_bottom (h'.others p h.mem hne)
  obtain ⟨warns, hgives⟩ := h.gives
  obtain ⟨warns', hgives'⟩ := h'.gives
  obtain ⟨rfl, rfl, -⟩ : b = c ∧ s₁ = s₂ ∧ warns = warns' := by
    simpa using hgives.symm.trans hgives'
  exact ⟨rfl, rfl, rfl⟩

theorem SeqRun.isGlobal (h : SeqRun env pos s₀ (v :: vs)) : Action.isGlobal v.acts = false := by
  cases h with
  | start => rfl
  | step h he hf =>
    simp only [isFinal, Bool.or_eq_false_iff] at hf
    exact hf.1.1

/-- After `k` edges comes the last one. -/
def StepsLeft (env : FixEnv) : Nat → NodeId → ConState → Prop
  | 0, n, s => ∃ p b s', OnlyEdge env n s p b s' ∧
      isFinal env (env.cfg.edgeInfo p.1) p.2 b = true
  | k + 1, n, s => ∃ p b s', OnlyEdge env n s p b s' ∧
      isFinal env (env.cfg.edgeInfo p.1) p.2 b = false ∧ StepsLeft env k p.2 s'

theorem StepsLeft.unique : ∀ {k j : Nat} {n : NodeId} {s : ConState}, StepsLeft env k n s →
    StepsLeft env j n s → k = j
  | 0, 0, _, _, _, _ => rfl
  | 0, j + 1, n, s, ⟨p, b, s', he, hf⟩, ⟨q, c, s'', he', hf', _⟩ => by
    obtain ⟨rfl, rfl, rfl⟩ := he.unique he'
    simp [hf] at hf'
  | k + 1, 0, n, s, ⟨p, b, s', he, hf, _⟩, ⟨q, c, s'', he', hf'⟩ => by
    obtain ⟨rfl, rfl, rfl⟩ := he.unique he'
    simp [hf] at hf'
  | k + 1, j + 1, n, s, ⟨p, b, s', he, _, h⟩, ⟨q, c, s'', he', _, h'⟩ => by
    obtain ⟨rfl, rfl, rfl⟩ := he.unique he'
    rw [h.unique h']

theorem SeqEnd.stepsLeft {p : EdgeId × NodeId} {b : ConAct} {s' : ConState}
    (h : SeqEnd env pos s₀ v vs p b s') : StepsLeft env 0 v.node v.st :=
  ⟨p, b, s', h.edge, by rw [← globalParts_act.isFinal_join h.run.isGlobal]; exact h.final⟩

/-- Before an edge that is not the last one there is one edge more to go. -/
theorem SeqRun.stepsLeft_succ (h : SeqRun env pos s₀ (v :: vs)) {p : EdgeId × NodeId} {b : ConAct}
    {s' : ConState} (he : OnlyEdge env v.node v.st p b s')
    (hf : isFinal env (env.cfg.edgeInfo p.1) p.2 (v.acts.join b) = false) {k : Nat}
    (hk : StepsLeft env k p.2 s') : StepsLeft env (k + 1) v.node v.st :=
  ⟨p, b, s', he, by rw [← globalParts_act.isFinal_join h.isGlobal]; exact hf, hk⟩

theorem SeqRun.stepsLeft (h : SeqRun env pos s₀ (v :: vs)) {k : Nat}
    (hk : StepsLeft env k v.node v.st) : ∀ u ∈ vs, ∃ j, k < j ∧ StepsLeft env j u.node u.st := by
  generalize hV : v :: vs = V at h
  induction h generalizing v vs k with
  | start =>
    obtain ⟨rfl, rfl⟩ := List.cons.inj hV
    simp
  | @step w ws p b s' h he hf ih =>
    obtain ⟨rfl, rfl⟩ := List.cons.inj hV
    have hw := h.stepsLeft_succ he hf hk
    intro u hu
    rcases List.mem_cons.1 hu with rfl | hu
    · exact ⟨k + 1, Nat.lt_succ_self k, hw⟩
    · obtain ⟨j, hj, hleft⟩ := ih hw rfl u hu
      exact ⟨j, by omega, hleft⟩

/-- A run that ends does not come back to a node with the same state. -/
theorem SeqRun.st_ne (h : SeqRun env pos s₀ (v :: vs)) {k : Nat}
    (hk : StepsLeft env k v.node v.st) (hu : u ∈ vs) (hn : u.node = v.node) : u.st ≠ v.st := by
  intro hst
  obtain ⟨j, hj, hleft⟩ := h.stepsLeft hk u hu
  rw [hn, hst] at hleft
  have := hk.unique hleft
  omega

theorem SeqRun.acts_below (h : SeqRun env pos s₀ (v :: vs)) : ∀ u ∈ v :: vs, u.acts.Below v.acts := by
  generalize hV : v :: vs = V at h
  induction h generalizing v vs with
  | start =>
    obtain ⟨rfl, rfl⟩ := List.cons.inj hV
    simpa using Act.below_refl _
  | @step w ws p b s' h he hf ih =>
    obtain ⟨rfl, rfl⟩ := List.cons.inj hV
    intro u hu
    rcases List.mem_cons.1 hu with rfl | hu
    · exact Act.below_refl _
    · exact (ih rfl u hu).trans (Act.below_join_left _ _)

omit [SimpleC] in
theorem lastVisit_eq_some (h : lastVisit vs n = some u) : u ∈ vs ∧ u.node = n :=
  ⟨List.mem_of_find?_eq_some h, by simpa using List.find?_some h⟩

omit [SimpleC] in
theorem lastVisit_cons_self : lastVisit (v :: vs) v.node = some v := by simp [lastVisit]

omit [SimpleC] in
theorem lastVisit_cons_ne (h : v.node ≠ n) : lastVisit (v :: vs) n = lastVisit vs n := by
  simp [lastVisit, h]

end Runs

/-! ## Actions that are there already -/

omit [SimpleC] in
theorem MemAddrs.join_join_of_le {v : Type} [DecidableEq v] {x y z : MemAddrs v}
    (h : z.le (x.join y) = true) : (x.join y).join z = x.join y := by
  cases hxy : x.join y with
  | top => cases z <;> rfl
  | addrs l =>
    have hnd : l.Nodup := by
      cases x with
      | top => cases hxy
      | addrs lx =>
        cases y with
        | top => cases hxy
        | addrs ly =>
          obtain rfl := MemAddrs.addrs.inj hxy
          exact nodup_eraseDups _
    cases z with
    | top => simp [hxy, MemAddrs.le] at h
    | addrs lz =>
      have hsub : ∀ a ∈ lz, a ∈ l := by simpa [hxy, MemAddrs.le] using h
      rw [MemAddrs.join, eraseDups_append_of_subset hnd hsub]

omit [SimpleC] in
theorem Act.join_join_of_below {a b c : ConAct} (h : c.Below (a.join b)) :
    (a.join b).join c = a.join b := by
  simp only [Act.join, MemAddrs.join_join_of_le h.rds, MemAddrs.join_join_of_le h.wrs,
    MemAddrs.join_join_of_le h.locks, MemAddrs.join_join_of_le h.unlocks,
    MemAddrs.join_join_of_le h.tcreate, MemAddrs.join_join_of_le h.tjoin,
    MemAddrs.join_join_of_le h.texit]

omit [SimpleC] in
/-- A node that is visited again has no other actions than those since the start. -/
theorem join_lastVisit_acts {v u : Visit} {vs : List Visit} {n : NodeId} {b : ConAct}
    (hbelow : ∀ u ∈ v :: vs, u.acts.Below v.acts) (hu : lastVisit (v :: vs) n = some u) :
    (v.acts.join b).join u.acts = v.acts.join b :=
  Act.join_join_of_below ((hbelow u (lastVisit_eq_some hu).1).trans (Act.below_join_left _ _))

/-! ## The worklist -/

/-- The worklist comes from `wl` to `wl'`. -/
def Reaches (env : FixEnv) (wl : List WItem) (fs : FixState ConState ConAct) (wl' : List WItem)
    (fs' : FixState ConState ConAct) : Prop :=
  ∃ k, ∀ fuel, loop env (k + fuel) wl fs = loop env fuel wl' fs'

/-- What the table has for a node, if `o` is its last visit. -/
def EntryOf (table : NodeTable ConState ConAct) (n : NodeId) : Option Visit → Prop
  | some u => table.lookup n = some [(u.st, u.acts)]
  | none => ∀ p l, table.lookup n ≠ some (p :: l)

/-- The table has the last visits of `V`. -/
def TableOf (V : List Visit) (table : NodeTable ConState ConAct) : Prop :=
  ∀ n, EntryOf table n (lastVisit V n)

/-- The item changes nothing: its edge can not be taken, or it leads to the state that its target has
already. -/
def Idle (env : FixEnv) (V : List Visit) (it : WItem) : Prop :=
  ∃ u, lastVisit V it.1 = some u ∧ (BottomEdge env it u.st ∨
    ∃ w b warns, lastVisit V it.2.2 = some w ∧ itemTransformer env it u.st = .ok (b, w.st, warns) ∧
      w.st.isBot = false ∧ isFinal env (env.cfg.edgeInfo it.2.1) it.2.2 (u.acts.join b) = false)

section Worklist

variable {env : FixEnv} {V : List Visit} {n : NodeId} {u : Visit} {it : WItem}
  {wl wl' wl'' : List WItem} {fs fs' fs'' : FixState ConState ConAct}

theorem Reaches.trans (h : Reaches env wl fs wl' fs') (h' : Reaches env wl' fs' wl'' fs'') :
    Reaches env wl fs wl'' fs'' := by
  obtain ⟨k, hk⟩ := h
  obtain ⟨j, hj⟩ := h'
  exact ⟨k + j, fun fuel => by rw [Nat.add_assoc, hk, hj]⟩

theorem reaches_refl : Reaches env wl fs wl fs := ⟨0, fun fuel => by rw [Nat.zero_add]⟩

theorem reaches_of_item (h : processItem env it wl fs = (.ok wl', fs')) :
    Reaches env (it :: wl) fs wl' fs' :=
  ⟨1, fun fuel => by rw [Nat.add_comm, loop_cons, h]⟩

omit [SimpleC] in
theorem mem_outItems : it ∈ outItems env.cfg n ↔ it.1 = n ∧ it.2 ∈ env.cfg.succs n := by
  obtain ⟨m, eId, post⟩ := it
  constructor
  · intro h
    obtain ⟨q, hq, heq⟩ := List.mem_map.1 h
    obtain ⟨rfl, rfl⟩ : n = m ∧ q = (eId, post) := by simpa [Prod.ext_iff] using heq
    exact ⟨rfl, hq⟩
  · rintro ⟨rfl, hmem⟩
    exact List.mem_map.2 ⟨(eId, post), hmem, rfl⟩

omit [SimpleC] in
theorem TableOf.lookup (h : TableOf V fs.table) (hu : lastVisit V n = some u) :
    fs.table.lookup n = some [(u.st, u.acts)] := by
  have he := h n
  rwa [hu] at he

omit [SimpleC] in
/-- A state in the table is that of a visit. -/
theorem TableOf.visit (h : TableOf V fs.table) {q : ConState × ConAct}
    {l : List (ConState × ConAct)} (hl : fs.table.lookup n = some (q :: l)) :
    ∃ u, lastVisit V n = some u ∧ q = (u.st, u.acts) ∧ l = [] := by
  have he := h n
  cases hu : lastVisit V n with
  | none =>
    rw [hu] at he
    exact absurd hl (he q l)
  | some u =>
    rw [hu] at he
    obtain ⟨rfl, rfl⟩ : q = (u.st, u.acts) ∧ l = [] := by simpa using hl.symm.trans he
    exact ⟨u, rfl, rfl, rfl⟩

/-- An item whose edge gives a state. -/
theorem TableOf.process (h : TableOf V fs.table) (it : WItem) (wl : List WItem) {b : ConAct} {s' : ConState}
    {warns : List Int} (hu : lastVisit V it.1 = some u)
    (hok : itemTransformer env it u.st = .ok (b, s', warns)) :
    ∃ wl' fs', processItem env it wl fs = (.ok wl', fs') ∧ ConStepped env it wl fs wl' fs' ∧
      Transfer env fs.table it u.acts b s' := by
  have hentry := h.lookup hu
  have hno : ¬ Fails env it fs.table := by
    rintro (hnone | ⟨p, q, l, htwo⟩ | ⟨s, a, e, hs, he⟩)
    · exact hnone _ hentry
    · obtain ⟨-, -, -, hnil⟩ := h.visit htwo
      cases hnil
    · obtain ⟨rfl, rfl⟩ : u.st = s ∧ u.acts = a := by simpa [hentry] using hs
      rw [hok] at he
      cases he
  obtain ⟨wl', fs', hrun, hstep⟩ := (processItem_con env it wl fs).exists_ok fun _ _ => hno
  exact ⟨wl', fs', hrun, hstep, ⟨u.st, warns, hentry, hok⟩⟩

theorem TableOf.skip (h : TableOf V fs.table) (hidle : Idle env V it) (wl : List WItem) :
    ∃ fs', Reaches env (it :: wl) fs wl fs' ∧ fs'.table = fs.table ∧ fs'.marks = fs.marks := by
  obtain ⟨u, hu, ⟨b, s', warns, hok, hs'⟩ | ⟨w, b, warns, hw, hok, hs', hf⟩⟩ := hidle
  · obtain ⟨wl', fs', hrun, hstep, ht⟩ := h.process it wl hu hok
    obtain ⟨rfl, htab, hmarks⟩ := hstep.of_bottom ht hs'
    exact ⟨fs', reaches_of_item hrun, htab, hmarks⟩
  · obtain ⟨wl', fs', hrun, hstep, ht⟩ := h.process it wl hu hok
    obtain ⟨hmarks, isFix, hrev, rfl⟩ := hstep.of_local ht ⟨hs', hf⟩
    have hentry := h.lookup hw
    generalize htab : fs'.table = table at hrev
    cases hrev with
    | fresh hl => exact absurd hentry (hl _)
    | fixed hl hn => exact ⟨fs', reaches_of_item hrun, htab, hmarks⟩
    | changed hl hn hne =>
      obtain ⟨rfl, -⟩ : w.st = _ ∧ w.acts = _ := by simpa [hentry] using hl
      exact absurd (Except.ok.inj hn).symm hne

/-- Items that change nothing are dropped. -/
theorem TableOf.skip_all (h : TableOf V fs.table) {stale : List WItem}
    (hidle : ∀ it ∈ stale, Idle env V it) (wl : List WItem) :
    ∃ fs', Reaches env (stale ++ wl) fs wl fs' ∧ fs'.table = fs.table ∧ fs'.marks = fs.marks := by
  induction stale generalizing fs with
  | nil => exact ⟨fs, reaches_refl, rfl, rfl⟩
  | cons it stale ih =>
    obtain ⟨fs₁, hreach, htab, hmarks⟩ := h.skip (hidle it List.mem_cons_self) (stale ++ wl)
    have htable : TableOf V fs₁.table := htab ▸ h
    obtain ⟨fs₂, hreach₂, htab₂, hmarks₂⟩ := ih htable
      fun it' hit' => hidle it' (List.mem_cons_of_mem _ hit')
    exact ⟨fs₂, hreach.trans hreach₂, htab₂.trans htab, hmarks₂.trans hmarks⟩

end Worklist

/-! ## One edge of the run -/

section Edge

variable {env : FixEnv} {s' : ConState} {v : Visit} {vs : List Visit} {p : EdgeId × NodeId}
  {b : ConAct} {it : WItem} {wl : List WItem} {fs : FixState ConState ConAct}

/-- The other edges out of the node can not be taken. -/
theorem OnlyEdge.idle (he : OnlyEdge env v.node v.st p b s') {V : List Visit}
    (hv : lastVisit V v.node = some v) (hit : it ∈ outItems env.cfg v.node)
    (hne : it ≠ (v.node, p)) : Idle env V it := by
  obtain ⟨hsrc, hmem⟩ := mem_outItems.1 hit
  have heq : it = (v.node, it.2) := by rw [← hsrc]
  refine ⟨v, by rw [hsrc, hv], .inl ?_⟩
  rw [heq]
  exact he.others it.2 hmem fun hp => hne (by rw [heq, hp])

/-- The worklist comes to the edge that can be taken. -/
theorem TableOf.reach_edge (h : TableOf (v :: vs) fs.table) (he : OnlyEdge env v.node v.st p b s')
    (hsub : ∀ it ∈ wl, it ∈ outItems env.cfg v.node) (hmem : (v.node, p) ∈ wl) :
    ∃ wl' fs', Reaches env wl fs ((v.node, p) :: wl') fs' ∧ fs'.table = fs.table ∧
      fs'.marks = fs.marks ∧ ∀ it ∈ wl', it ∈ outItems env.cfg v.node := by
  induction wl generalizing fs with
  | nil => cases hmem
  | cons it wl ih =>
    have hsub' : ∀ it ∈ wl, it ∈ outItems env.cfg v.node := fun it' hit' =>
      hsub it' (List.mem_cons_of_mem _ hit')
    by_cases hit : it = (v.node, p)
    · subst hit
      exact ⟨wl, fs, reaches_refl, rfl, rfl, hsub'⟩
    · obtain ⟨fs₁, hreach, htab, hmarks⟩ :=
        h.skip (he.idle lastVisit_cons_self (hsub it List.mem_cons_self) hit) wl
      have htable : TableOf (v :: vs) fs₁.table := htab ▸ h
      obtain ⟨wl', fs₂, hreach₂, htab₂, hmarks₂, hsub₂⟩ := ih htable hsub'
        ((List.mem_cons.1 hmem).resolve_left fun heq => hit heq.symm)
      exact ⟨wl', fs₂, hreach.trans hreach₂, htab₂.trans htab, hmarks₂.trans hmarks, hsub₂⟩

/-- The target of the edge gets the new visit, and its edges come to the end of the worklist. -/
theorem TableOf.update (h : TableOf (v :: vs) fs.table) (he : OnlyEdge env v.node v.st p b s')
    (hf : isFinal env (env.cfg.edgeInfo p.1) p.2 (v.acts.join b) = false)
    (hnew : ∀ u, lastVisit (v :: vs) p.2 = some u → u.st ≠ s')
    (hbelow : ∀ u ∈ v :: vs, u.acts.Below v.acts) (wl : List WItem) :
    ∃ fs', Reaches env ((v.node, p) :: wl) fs (wl ++ outItems env.cfg p.2).eraseDups fs' ∧
      fs'.table = fs.table.insert p.2 [(s', v.acts.join b)] ∧ fs'.marks = fs.marks := by
  obtain ⟨warns, hgives⟩ := he.gives
  obtain ⟨wl', fs', hrun, hstep, ht⟩ :=
    h.process (v.node, p) wl lastVisit_cons_self hgives
  obtain ⟨hmarks, isFix, hrev, rfl⟩ := hstep.of_local ht ⟨he.live, hf⟩
  generalize htab : fs'.table = table at hrev
  cases hrev with
  | fresh hl => exact ⟨fs', reaches_of_item hrun, htab, hmarks⟩
  | fixed hl hn =>
    obtain ⟨u, hu, heq, -⟩ := h.visit hl
    obtain ⟨rfl, rfl⟩ := Prod.mk.inj heq
    exact absurd (Except.ok.inj hn).symm (hnew u hu)
  | changed hl hn =>
    obtain rfl := Except.ok.inj hn
    obtain ⟨u, hu, heq, -⟩ := h.visit hl
    obtain ⟨rfl, rfl⟩ := Prod.mk.inj heq
    refine ⟨fs', reaches_of_item hrun, ?_, hmarks⟩
    rw [htab]
    exact congrArg (fun a => fs.table.insert p.2 [(s', a)]) (join_lastVisit_acts hbelow hu)

omit [SimpleC] in
theorem TableOf.insert (h : TableOf (v :: vs) fs.table) {w : Visit} :
    TableOf (w :: v :: vs) (fs.table.insert w.node [(w.st, w.acts)]) := by
  intro n
  by_cases hn : w.node = n
  · subst hn
    rw [lastVisit_cons_self]
    exact AList.lookup_insert _
  · rw [lastVisit_cons_ne hn]
    have he := h n
    have hlook : (fs.table.insert w.node [(w.st, w.acts)]).lookup n = fs.table.lookup n :=
      AList.lookup_insert_ne (Ne.symm hn)
    unfold EntryOf at he ⊢
    rwa [hlook]

/-- What is left of the node that the run has left can be dropped. -/
theorem OnlyEdge.split_worklist (he : OnlyEdge env v.node v.st p b s')
    (hf : isFinal env (env.cfg.edgeInfo p.1) p.2 (v.acts.join b) = false)
    (hsub : ∀ it ∈ wl, it ∈ outItems env.cfg v.node) :
    ∃ stale cur, (wl ++ outItems env.cfg p.2).eraseDups = stale ++ cur ∧
      (∀ it ∈ stale, Idle env (⟨p.2, s', v.acts.join b⟩ :: v :: vs) it) ∧
      ∀ it, it ∈ cur ↔ it ∈ outItems env.cfg p.2 := by
  by_cases hloop : p.2 = v.node
  · -- a loop of one edge: the items that are left belong to the new visit
    refine ⟨[], (wl ++ outItems env.cfg p.2).eraseDups, rfl, by simp, fun it => ?_⟩
    rw [List.mem_eraseDups, List.mem_append, hloop]
    exact ⟨fun h => h.elim (hsub it) id, .inr⟩
  · refine ⟨wl.eraseDups, ((outItems env.cfg p.2).removeAll wl).eraseDups, List.eraseDups_append,
      fun it hit => ?_, fun it => ?_⟩
    · have hout := hsub it (List.mem_eraseDups.1 hit)
      have hv : lastVisit (⟨p.2, s', v.acts.join b⟩ :: v :: vs) v.node = some v := by
        rw [lastVisit_cons_ne hloop, lastVisit_cons_self]
      by_cases heq : it = (v.node, p)
      · obtain ⟨warns, hgives⟩ := he.gives
        subst heq
        exact ⟨v, hv, .inr ⟨_, b, warns, lastVisit_cons_self, hgives, he.live, hf⟩⟩
      · exact he.idle hv hout heq
    · have hnot : it ∈ outItems env.cfg p.2 → it ∉ wl := fun hout hwl =>
        hloop ((mem_outItems.1 hout).1.symm.trans (mem_outItems.1 (hsub it hwl)).1)
      simp only [List.mem_eraseDups, List.removeAll, List.mem_filter]
      exact ⟨fun h => h.1, fun hout => ⟨hout, by simpa using hnot hout⟩⟩

end Edge

/-! ## The run -/

/-- The run has come to the visit `v`: all edges out of its node are in the worklist, after some items
that change nothing. -/
structure Arrived (env : FixEnv) (v : Visit) (vs : List Visit) (wl : List WItem)
    (fs : FixState ConState ConAct) : Prop where
  table : TableOf (v :: vs) fs.table
  marks : fs.marks = []
  items : ∃ stale cur, wl = stale ++ cur ∧ (∀ it ∈ stale, Idle env (v :: vs) it) ∧
    ∀ it, it ∈ cur ↔ it ∈ outItems env.cfg v.node

section Follow

variable {env : FixEnv} {pos : Pos} {s₀ s' : ConState} {v : Visit} {vs : List Visit}
  {p : EdgeId × NodeId} {b : ConAct} {wl : List WItem} {fs : FixState ConState ConAct}

theorem arrived_start : Arrived env ⟨pos, s₀, Act.bot⟩ [] (outItems env.cfg pos)
    (initFixState env.cfg pos s₀) := by
  refine ⟨fun n => ?_, rfl, [], outItems env.cfg pos, rfl, by simp, fun it => Iff.rfl⟩
  by_cases hn : n = pos
  · subst hn
    rw [lastVisit_cons_self]
    exact AList.lookup_insert _
  · rw [lastVisit_cons_ne (Ne.symm hn)]
    intro q l hl
    cases eq_nil_of_lookup_initTable hn hl

/-- The worklist comes to the edge that is taken next. -/
theorem Arrived.reach_edge (h : Arrived env v vs wl fs) (he : OnlyEdge env v.node v.st p b s') :
    ∃ wl' fs', Reaches env wl fs ((v.node, p) :: wl') fs' ∧ fs'.table = fs.table ∧
      fs'.marks = fs.marks ∧ ∀ it ∈ wl', it ∈ outItems env.cfg v.node := by
  obtain ⟨stale, cur, rfl, hidle, hcur⟩ := h.items
  obtain ⟨fs₁, hreach₁, htab₁, hmarks₁⟩ := h.table.skip_all hidle cur
  have htable : TableOf (v :: vs) fs₁.table := htab₁ ▸ h.table
  have hmem : (v.node, p) ∈ cur := (hcur _).2 (mem_outItems.2 ⟨rfl, he.mem⟩)
  obtain ⟨wl', fs₂, hreach₂, htab₂, hmarks₂, hsub⟩ :=
    htable.reach_edge he (fun it hit => (hcur it).1 hit) hmem
  exact ⟨wl', fs₂, hreach₁.trans hreach₂, htab₂.trans htab₁, hmarks₂.trans hmarks₁, hsub⟩

theorem SeqRun.arrives (h : SeqRun env pos s₀ (v :: vs)) {k : Nat}
    (hk : StepsLeft env k v.node v.st) :
    ∃ wl fs, Reaches env (outItems env.cfg pos) (initFixState env.cfg pos s₀) wl fs ∧
      Arrived env v vs wl fs := by
  have hrun := h
  generalize hV : v :: vs = V at h
  induction h generalizing v vs k with
  | start =>
    obtain ⟨rfl, rfl⟩ := List.cons.inj hV
    exact ⟨_, _, reaches_refl, arrived_start⟩
  | @step w ws p b s' h he hf ih =>
    obtain ⟨rfl, rfl⟩ := List.cons.inj hV
    obtain ⟨wl, fs, hreach, harr⟩ := ih (h.stepsLeft_succ he hf hk) h rfl
    obtain ⟨wl₁, fs₁, hreach₁, htab₁, hmarks₁, hsub⟩ := harr.reach_edge he
    have htable : TableOf (w :: ws) fs₁.table := htab₁ ▸ harr.table
    have hnew : ∀ u, lastVisit (w :: ws) p.2 = some u → u.st ≠ s' := fun u hu =>
      hrun.st_ne hk (lastVisit_eq_some hu).1 (lastVisit_eq_some hu).2
    obtain ⟨fs₂, hreach₂, htab₂, hmarks₂⟩ := htable.update he hf hnew h.acts_below wl₁
    refine ⟨_, fs₂, hreach.trans (hreach₁.trans hreach₂), ?_, ?_, he.split_worklist hf hsub⟩
    · rw [htab₂]
      exact htable.insert (w := ⟨p.2, s', w.acts.join b⟩)
    · rw [hmarks₂, hmarks₁, harr.marks]

/-- The last edge is marked once, also if the graph lists it more than once. -/
theorem TableOf.mark (h : TableOf (v :: vs) fs.table) (he : OnlyEdge env v.node v.st p b s')
    (hf : isFinal env (env.cfg.edgeInfo p.1) p.2 (v.acts.join b) = true)
    (hmarks : fs.marks = [] ∨ fs.marks = [(v.node, p)]) (wl : List WItem) :
    ∃ fs', Reaches env ((v.node, p) :: wl) fs wl fs' ∧ fs'.table = fs.table ∧
      fs'.marks = [(v.node, p)] := by
  obtain ⟨warns, hgives⟩ := he.gives
  obtain ⟨wl', fs', hrun, hstep, ht⟩ :=
    h.process (v.node, p) wl lastVisit_cons_self hgives
  obtain ⟨rfl, htab, hmarks'⟩ := hstep.of_final ht he.live hf
  refine ⟨fs', reaches_of_item hrun, htab, ?_⟩
  rw [hmarks']
  rcases hmarks with hnil | hone
  · rw [hnil]
    rfl
  · rw [hone, insertMark, if_pos List.mem_cons_self]

/-- After the last edge the worklist gets empty. -/
theorem TableOf.drain (h : TableOf (v :: vs) fs.table) (he : OnlyEdge env v.node v.st p b s')
    (hf : isFinal env (env.cfg.edgeInfo p.1) p.2 (v.acts.join b) = true)
    (hmarks : fs.marks = [(v.node, p)]) (hsub : ∀ it ∈ wl, it ∈ outItems env.cfg v.node) :
    ∃ fs', Reaches env wl fs [] fs' ∧ fs'.table = fs.table ∧ fs'.marks = [(v.node, p)] := by
  induction wl generalizing fs with
  | nil => exact ⟨fs, reaches_refl, rfl, hmarks⟩
  | cons it wl ih =>
    have hone : ∃ fs', Reaches env (it :: wl) fs wl fs' ∧ fs'.table = fs.table ∧
        fs'.marks = [(v.node, p)] := by
      by_cases hit : it = (v.node, p)
      · subst hit
        exact h.mark he hf (.inr hmarks) wl
      · obtain ⟨fs₁, hreach, htab, hm⟩ :=
          h.skip (he.idle lastVisit_cons_self (hsub it List.mem_cons_self) hit) wl
        exact ⟨fs₁, hreach, htab, hm.trans hmarks⟩
    obtain ⟨fs₁, hreach₁, htab₁, hmarks₁⟩ := hone
    have htable : TableOf (v :: vs) fs₁.table := htab₁ ▸ h
    obtain ⟨fs₂, hreach₂, htab₂, hmarks₂⟩ := ih htable hmarks₁
      fun it' hit' => hsub it' (List.mem_cons_of_mem _ hit')
    exact ⟨fs₂, hreach₁.trans hreach₂, htab₂.trans htab₁, hmarks₂⟩

/-- The worklist of a run that ends gets empty, with one mark. -/
theorem SeqEnd.reaches (h : SeqEnd env pos s₀ v vs p b s') :
    ∃ fs, Reaches env (outItems env.cfg pos) (initFixState env.cfg pos s₀) [] fs ∧
      TableOf (v :: vs) fs.table ∧ fs.marks = [(v.node, p)] := by
  obtain ⟨wl, fs, hreach, harr⟩ := h.run.arrives h.stepsLeft
  obtain ⟨wl₁, fs₁, hreach₁, htab₁, hmarks₁, hsub⟩ := harr.reach_edge h.edge
  have htable₁ : TableOf (v :: vs) fs₁.table := htab₁ ▸ harr.table
  obtain ⟨fs₂, hreach₂, htab₂, hmarks₂⟩ :=
    htable₁.mark h.edge h.final (.inl (hmarks₁.trans harr.marks)) wl₁
  obtain ⟨fs₃, hreach₃, htab₃, hmarks₃⟩ :=
    TableOf.drain (htab₂ ▸ htable₁) h.edge h.final hmarks₂ hsub
  refine ⟨fs₃, hreach.trans (hreach₁.trans (hreach₂.trans hreach₃)), ?_, hmarks₃⟩
  rw [htab₃, htab₂]
  exact htable₁

/-! ## The result -/

/-- The actions of the result: those of the last visit of the target, if it had the state `s'`. -/
def keptActs (V : List Visit) (n : NodeId) (s' : ConState) (a : ConAct) : ConAct :=
  match lastVisit V n with
  | some u => if u.st = s' then u.acts else a
  | none => a

omit [SimpleC] in
theorem TableOf.strongUpdate (h : TableOf (v :: vs) fs.table)
    (hbelow : ∀ u ∈ v :: vs, u.acts.Below v.acts) (env : FixEnv) (p : EdgeId × NodeId) (b : ConAct)
    (s' : ConState) :
    ∃ isFix table, strongUpdate env fs.table p.2 (s', v.acts.join b) fs = (.ok (isFix, table), fs) ∧
      table.lookup p.2 = some [(s', keptActs (v :: vs) p.2 s' (v.acts.join b))] := by
  have hno : ∀ (_ : FixErr) (_ : FixState ConState ConAct),
      ¬ ∃ q r l, fs.table.lookup p.2 = some (q :: r :: l) := by
    rintro - - ⟨q, r, l, htwo⟩
    obtain ⟨-, -, -, hnil⟩ := h.visit htwo
    cases hnil
  obtain ⟨⟨isFix, table⟩, fs', hrun, rfl, hrev⟩ :=
    (strongUpdate_revised env fs.table p.2 s' (v.acts.join b) fs).exists_ok hno
  refine ⟨isFix, table, hrun, ?_⟩
  cases hrev with
  | fresh hl =>
    have hnone : lastVisit (v :: vs) p.2 = none := by
      cases hu : lastVisit (v :: vs) p.2 with
      | none => rfl
      | some u => exact absurd (h.lookup hu) (hl _)
    rw [keptActs, hnone]
    exact AList.lookup_insert _
  | fixed hl hn =>
    obtain ⟨u, hu, heq, -⟩ := h.visit hl
    obtain ⟨rfl, rfl⟩ := Prod.mk.inj heq
    simp [keptActs, hu, hl, Except.ok.inj hn]
  | changed hl hn hne =>
    obtain rfl := Except.ok.inj hn
    obtain ⟨u, hu, heq, -⟩ := h.visit hl
    obtain ⟨rfl, rfl⟩ := Prod.mk.inj heq
    simp only [keptActs, hu, if_neg (Ne.symm hne)]
    exact (AList.lookup_insert _).trans
      (congrArg (fun a => some [(s', a)]) (join_lastVisit_acts hbelow hu))

theorem SeqEnd.handleMark (h : SeqEnd env pos s₀ v vs p b s') (htable : TableOf (v :: vs) fs.table) :
    ∃ warns fs', handleMark env (v.node, p) fs = (.ok (warns, (s', p.2,
      endActs env p (keptActs (v :: vs) p.2 s' (v.acts.join b)))), fs') := by
  obtain ⟨warns, hgives⟩ := h.edge.gives
  obtain ⟨isFix, table, hupd, hl⟩ := htable.strongUpdate h.run.acts_below env p b s'
  have hin : markInput env (v.node, p) fs.table = .ok (v.acts.join b, s', warns) := by
    have hok : Collapse.codeTransformer env v.node p.2 (env.cfg.edgeInfo p.1) v.st =
        .ok (b, s', warns) := hgives
    simp only [markInput, getNodeInfo, htable.lookup lastVisit_cons_self, ok_bind, hok, liftFix]
    rfl
  refine ⟨warns, _, handleMark_ok.2 ⟨_, s', warns, isFix, table, fs, hin, ?_, ?_, rfl⟩⟩
  · rw [updateFor_con]
    exact hupd
  · show markOutput env (v.node, p) warns (table.lookup p.2) = _
    rw [hl]
    rfl

/-- The collapse of a run that ends. -/
theorem SeqEnd.fixpt (h : SeqEnd env pos s₀ v vs p b s') (hmode : env.mode = false) :
    ∃ N warns, (fixpt N env pos s₀).1 = .ok (warns, [(s', p.2,
      endActs env p (keptActs (v :: vs) p.2 s' (v.acts.join b)))]) := by
  obtain ⟨fs, ⟨N, hloop⟩, htable, hmarks⟩ := h.reaches
  obtain ⟨warns, fs', hmark⟩ := h.handleMark htable
  have hall : fs.marks.mapM' (Poet.handleMark env) fs = (.ok [(warns, (s', p.2,
      endActs env p (keptActs (v :: vs) p.2 s' (v.acts.join b))))], fs') := by
    simp only [hmarks, List.mapM'_cons, List.mapM'_nil, Op.bind_of_eq_ok hmark]
    rfl
  obtain ⟨w, rest, hres, hrest⟩ := fixptResult_of_ok fs hall
  obtain rfl := hrest hmode
  refine ⟨N, w, ?_⟩
  have hrun : loop env N (outItems env.cfg pos) (initFixState env.cfg pos s₀) = (.ok (), fs) := hloop 0
  show (Op.bind (loop env N (outItems env.cfg pos)) (fun _ => fixptResult env)
    (initFixState env.cfg pos s₀ : FixState ConState ConAct)).1 = _
  rw [Op.bind, hrun]
  exact hres

end Follow

/-- The constant part of the engine's state in `run_con False`. -/
def runEnv (syst : System ConState ConAct) (tid : TId) (cfg : Graph) (wid : Int) : FixEnv :=
  ⟨false, tid, syst.cfgs, syst.symt, cfg, wid⟩

/-- The collapse is the sequential execution, exactly if the target of the last edge had another state
at its last visit, or the same actions. -/
theorem runCon_eq_sequential_iff {syst : System ConState ConAct} {st s' : ConState} {tid : TId}
    {wid : Int} {th : ThState ConValue} {cfg : Graph} (hth : st.thStates.lookup tid = some th)
    (hcfg : syst.cfgs.lookup th.thCfgId = some cfg) {v : Visit} {vs : List Visit}
    {p : EdgeId × NodeId} {b : ConAct}
    (hend : SeqEnd (runEnv syst tid cfg wid) th.thPos st v vs p b s') :
    (∃ N, ∀ fuel, N ≤ fuel → ∃ warns, runCon fuel false wid syst st tid =
        .ok (warns, [(s', p.2, endActs (runEnv syst tid cfg wid) p (v.acts.join b))])) ↔
      ∀ u, lastVisit (v :: vs) p.2 = some u → u.st = s' →
        endActs (runEnv syst tid cfg wid) p u.acts =
          endActs (runEnv syst tid cfg wid) p (v.acts.join b) := by
  have hrun : ∀ fuel, runCon fuel false wid syst st tid =
      (fixpt fuel (runEnv syst tid cfg wid) th.thPos st).1 := fun fuel => by
    simp only [runCon, runProg, hth, hcfg]
    rfl
  obtain ⟨N, warns, hfix⟩ := hend.fixpt rfl
  have hmore : ∀ fuel, N ≤ fuel → runCon fuel false wid syst st tid = .ok (warns, [(s', p.2,
      endActs (runEnv syst tid cfg wid) p (keptActs (v :: vs) p.2 s' (v.acts.join b)))]) :=
    fun fuel hle => (hrun fuel).trans (fixpt_more hle hfix)
  constructor
  · rintro ⟨M, hM⟩ u hu hst
    obtain ⟨warns', hres⟩ := hM (max N M) (Nat.le_max_right N M)
    have heq := (hmore (max N M) (Nat.le_max_left N M)).symm.trans hres
    simp only [keptActs, hu, hst, if_true, Except.ok.injEq, Prod.mk.injEq, List.cons.injEq, true_and,
      and_true] at heq
    exact heq.2
  · intro hkept
    refine ⟨N, fun fuel hle => ⟨warns, ?_⟩⟩
    rw [hmore fuel hle]
    have hacts : endActs (runEnv syst tid cfg wid) p (keptActs (v :: vs) p.2 s' (v.acts.join b)) =
        endActs (runEnv syst tid cfg wid) p (v.acts.join b) := by
      unfold keptActs
      split
      · next u hu =>
        split
        · next hst => exact hkept u hu hst
        · rfl
      · rfl
    rw [hacts]

end Sequential

/-! ## A loop that unlocks -/

/-- `while (1) pthread_mutex_unlock(&m);` -/
def unlockLoopGraph : Graph where
  entryNode := 0
  nodes := [0, 1, 2]
  succs n := if n = 0 then [(0, 1), (1, 2)] else if n = 1 then [(2, 0)] else []
  edgeInfo e :=
    if e = 0 then ⟨[.cond], .E (.const ⟨.int 1⟩)⟩
    else if e = 1 then ⟨[.cond], .E (.unary .neg (.const ⟨.int 1⟩))⟩
    else ⟨[], .E (.call (.var ⟨30⟩) [.unary .adr (.var ⟨10⟩)])⟩
  parameters := []

def unlockLoopFront : FrontEnd where
  decls := [.decl (some ⟨some ⟨10⟩, []⟩) none]
  cfgs := [(⟨1⟩, unlockLoopGraph)]
  symt := [(⟨1⟩, "main"), (⟨10⟩, "m"), (⟨30⟩, "pthread_mutex_unlock")]

/-- `main` is at `pos`, and the mutex has the value `m`. -/
def unlockLoopState (pos : Pos) (m : Int) : ConState :=
  ⟨⟨[(⟨⟨10⟩, .glob⟩, ⟨[(ToValue.zero, ToValue.kVal m)]⟩)]⟩, ⟨[(1, ⟨pos, ⟨1⟩, ⟨[]⟩⟩)]⟩, 1, false⟩

def unlockLoopSystem : System ConState ConAct where
  gbst := unlockLoopState 0 0
  gbac := Act.writeActAddr (.addrs [⟨⟨10⟩, ToValue.zero, .glob⟩])
  cfgs := unlockLoopFront.cfgs
  symt := unlockLoopFront.symt

def unlockLoopEnv : FixEnv := runEnv unlockLoopSystem 1 unlockLoopGraph 10000

def unlockLoopAct : ConAct := Act.unlockActAddr (.addrs [⟨⟨10⟩, ToValue.zero, .glob⟩])

section Integers

attribute [local instance] SimpleC.integers

/-- The condition holds, and the unlock ends the run where it began. -/
theorem unlockLoop_seqEnd (m : Int) : SeqEnd unlockLoopEnv 0 (unlockLoopState 0 m)
    ⟨1, unlockLoopState 1 m, Act.bot⟩ [⟨0, unlockLoopState 0 m, Act.bot⟩] (2, 0) unlockLoopAct
    (unlockLoopState 0 0) := by
  have hcond : OnlyEdge unlockLoopEnv 0 (unlockLoopState 0 m) (0, 1) Act.bot (unlockLoopState 1 m) := by
    refine ⟨List.mem_cons_self, ⟨_, rfl⟩, rfl, fun q hq hne => ?_⟩
    obtain rfl : q = (1, 2) := by
      rcases List.mem_cons.1 hq with rfl | hq
      · exact absurd rfl hne
      · exact List.mem_singleton.1 hq
    exact ⟨_, _, _, rfl, rfl⟩
  refine ⟨.step .start hcond rfl, ⟨List.mem_cons_self, ⟨_, rfl⟩, rfl, fun q hq hne => ?_⟩, rfl⟩
  exact absurd (List.mem_singleton.1 hq) hne

/-- The mutex is locked: the state after the unlock is another one, and the result has its action. -/
theorem runCon_eq_sequential_locked :
    ∃ N, ∀ fuel, N ≤ fuel → ∃ warns,
      runCon fuel false 10000 unlockLoopSystem (unlockLoopState 0 1) 1 =
        .ok (warns, [(unlockLoopState 0 0, 0,
          endActs unlockLoopEnv (2, 0) (Act.bot.join unlockLoopAct))]) := by
  have hth : (unlockLoopState 0 1).thStates.lookup 1 = some ⟨0, ⟨1⟩, ⟨[]⟩⟩ := rfl
  refine (runCon_eq_sequential_iff hth rfl (unlockLoop_seqEnd 1)).2 fun u hu hst => ?_
  obtain rfl : ⟨0, unlockLoopState 0 1, Act.bot⟩ = u := Option.some.inj hu
  exact absurd hst (by decide)

/-- The mutex is not locked, and the result has no action. -/
theorem runCon_ne_sequential_unlocked : ∃ syst, convert unlockLoopFront = .ok syst ∧
    SeqEnd (runEnv syst 1 unlockLoopGraph 10000) 0 syst.gbst ⟨1, unlockLoopState 1 0, Act.bot⟩
      [⟨0, syst.gbst, Act.bot⟩] (2, 0) unlockLoopAct syst.gbst ∧
    endActs (runEnv syst 1 unlockLoopGraph 10000) (2, 0) (Act.bot.join unlockLoopAct) = unlockLoopAct ∧
    ∀ fuel, 3 ≤ fuel →
      runCon fuel false 10000 syst syst.gbst 1 = .ok ([], [(syst.gbst, 0, Act.bot)]) := by
  refine ⟨unlockLoopSystem, rfl, unlockLoop_seqEnd 0, rfl, fun fuel hle => ?_⟩
  show (fixpt fuel unlockLoopEnv 0 (unlockLoopState 0 0)).1 = _
  exact fixpt_more hle rfl

end Integers

end Poet
