import Poet.Domain.Fixpoint

/-!
# The actions that the fixpoint engine records

When the worklist is empty, every edge out of a node of the table has been processed with the state
and the actions that the node has at the end (`Done`, kept by `processItem` in `step_inv`). Whether
the actions of a path reach the node at its end then depends on the updates: an update that finds
the incoming state absorbed leaves the table alone and loses the incoming actions, unless the node
has them already (`KeepsActs`).
-/

namespace Poet

variable {st act : Type} [LatticeM st] [Lattice act]

/-- `le` is an order of actions in which `join` is an upper bound. -/
structure JoinUpper (le : act → act → Prop) : Prop where
  refl : ∀ a, le a a
  trans : ∀ {a b c}, le a b → le b c → le a c
  left : ∀ a b, le a (Lattice.join a b)
  right : ∀ a b, le b (Lattice.join a b)

/-- The state `s` coming to a node adds nothing to the state `s'` that it has. -/
def Absorbed (s s' : st) : Prop :=
  s = s' ∨ LatticeM.join s s' = .ok s' ∨ LatticeM.widen s' s = .ok s'

/-- What an update does to the table. -/
inductive Updated (le : act → act → Prop) (table : NodeTable st act) (node : NodeId) (s : st)
    (a : act) : Bool → NodeTable st act → Prop where
  | fixed {s' a'} (h : table.lookup node = some [(s', a')]) (habs : Absorbed s s') :
      Updated le table node s a true table
  | changed {s₁ a₁} (ha : le a a₁)
      (hold : ∀ s' a', table.lookup node = some [(s', a')] → le a' a₁) :
      Updated le table node s a false (table.insert node [(s₁, a₁)])

/-- The update leaves the state of the engine alone, but for the counters of the loop heads, and
returns a table as `Updated` says. -/
def UpdateSpec (le : act → act → Prop) (upd : Update st act) : Prop :=
  ∀ env table node s a fs, Op.Sat (upd env table node (s, a)) fs
    (fun r fs' => fs'.table = fs.table ∧ fs'.marks = fs.marks ∧
      Updated le table node s a r.1 r.2) (fun _ _ => True)

section Updated

variable {st act : Type} [LatticeM st] {le : act → act → Prop} {table table' : NodeTable st act}
  {node n : NodeId} {s s₁ : st} {a a₁ : act} {isFix : Bool}

theorem Updated.lookup_ne (h : Updated le table node s a isFix table') (hne : n ≠ node) :
    table'.lookup n = table.lookup n := by
  cases h with
  | fixed => rfl
  | changed => exact AList.lookup_insert_ne hne

/-- The entry after an update has the incoming actions, if an absorbed state does not lose them. -/
theorem Updated.le_acts (h : Updated le table node s a isFix table')
    (hkeep : ∀ s' a', table.lookup node = some [(s', a')] → Absorbed s s' → le a a')
    (hl : table'.lookup node = some [(s₁, a₁)]) : le a a₁ := by
  cases h with
  | @fixed s' a' h habs =>
    obtain ⟨rfl, rfl⟩ : s' = s₁ ∧ a' = a₁ := by simpa [h] using hl
    exact hkeep _ _ h habs
  | @changed s₂ a₂ ha _ =>
    rw [AList.lookup_insert] at hl
    obtain ⟨-, rfl⟩ : s₂ = s₁ ∧ a₂ = a₁ := by simpa using hl
    exact ha

end Updated

/-! ## The three updates -/

section Updates

variable {le : act → act → Prop} {table : NodeTable st act} {node : NodeId} {s s₁ s' : st}
  {a a' : act}

/-- A node that had no state gets the incoming one. -/
theorem updated_fresh (hle : JoinUpper le) (h : ∀ s' a', table.lookup node ≠ some [(s', a')]) :
    Updated le table node s a false (table.insert node [(s, a)]) :=
  .changed (hle.refl a) fun s' a' h' => absurd h' (h s' a')

/-- A new state comes with the actions of the old one. -/
theorem updated_join (hle : JoinUpper le) (h : table.lookup node = some [(s', a')]) :
    Updated le table node s a false (table.insert node [(s₁, Lattice.join a a')]) := by
  refine .changed (hle.left _ _) fun s₂ a₂ h₂ => ?_
  obtain ⟨rfl, rfl⟩ : s' = s₂ ∧ a' = a₂ := by simpa [h] using h₂
  exact hle.right _ _

variable [DecidableEq st]

theorem weakUpdate_spec (hle : JoinUpper le) : UpdateSpec le (weakUpdate : Update st act) := by
  intro env table node s a fs
  dsimp only [weakUpdate]
  split
  · next h => exact ⟨rfl, rfl, updated_fresh hle (by simp [h])⟩
  · next h => exact ⟨rfl, rfl, updated_fresh hle (by simp [h])⟩
  · next s' a' h =>
    simp only [Op.sat_bind, Op.sat_monadLift, Op.sat_ite, Op.sat_pure, true_and]
    refine ⟨fun s₁ hj => ⟨?_, fun _ => updated_join hle h⟩, fun _ _ => trivial⟩
    rintro rfl
    exact .fixed h (.inr (.inl (liftFix_eq_ok.1 hj)))
  · trivial

theorem strongUpdate_spec (hle : JoinUpper le) : UpdateSpec le (strongUpdate : Update st act) := by
  intro env table node s a fs
  dsimp only [strongUpdate]
  split
  · next h => exact ⟨rfl, rfl, updated_fresh hle (by simp [h])⟩
  · next h => exact ⟨rfl, rfl, updated_fresh hle (by simp [h])⟩
  · next s' a' h =>
    simp only [Op.sat_ite, Op.sat_pure, true_and]
    exact ⟨fun hs => .fixed h (.inl hs), fun _ => updated_join hle h⟩
  · trivial

theorem loopHeadUpdate_spec (hle : JoinUpper le) :
    UpdateSpec le (loopHeadUpdate : Update st act) := by
  intro env table node s a fs
  simp only [loopHeadUpdate, getWideNode, incWideNode, Op.sat_bind, Op.sat_get, Op.sat_pure,
    Op.sat_modify, Op.sat_ite]
  refine ⟨fun _ => ?_, fun _ => ?_⟩
  · split
    · next h => exact ⟨rfl, rfl, updated_fresh hle (by simp [h])⟩
    · trivial
    · next s' a' h =>
      simp only [Op.sat_bind, Op.sat_monadLift, Op.sat_ite, Op.sat_pure, true_and]
      refine ⟨fun s₁ hw => ⟨?_, fun _ => updated_join hle h⟩, fun _ _ => trivial⟩
      rintro rfl
      exact .fixed h (.inr (.inr (liftFix_eq_ok.1 hw)))
    · trivial
  · -- below the widening level the counters are all that changed
    exact weakUpdate_spec hle env table node s a _

end Updates

/-- At the start only the start node has a state. -/
theorem eq_nil_of_lookup_initTable {st act : Type} [Lattice act] {cfg : Graph} {pos u : NodeId}
    {s : st} {l : List (st × act)} (hne : u ≠ pos)
    (h : (initTable cfg pos s : NodeTable st act).lookup u = some l) : l = [] := by
  unfold initTable at h
  rw [AList.lookup_insert_ne hne] at h
  revert h
  induction cfg.nodes with
  | nil => simp
  | cons n ns ih =>
    rw [List.foldr_cons]
    by_cases hn : u = n
    · subst hn
      rw [AList.lookup_insert]
      exact fun h => (Option.some.inj h).symm
    · rwa [AList.lookup_insert_ne hn]

theorem lookup_initTable_of_ne {st act : Type} [Lattice act] {cfg : Graph} {pos u : NodeId} {s : st}
    (hne : u ≠ pos) (p : st × act) :
    (initTable cfg pos s : NodeTable st act).lookup u ≠ some [p] := fun h => by
  cases eq_nil_of_lookup_initTable hne h

/-! ## One item of the worklist -/

variable [DecidableEq st] [Collapse st act]

/-- Each update of the domain is one of the three of the class. -/
structure DefaultUpdates (st act : Type) [DecidableEq st] [LatticeM st] [Lattice act]
    [Collapse st act] : Prop where
  weak : (Collapse.weak : Update st act) ∈ [weakUpdate, strongUpdate, loopHeadUpdate]
  strong : (Collapse.strong : Update st act) ∈ [weakUpdate, strongUpdate, loopHeadUpdate]
  loopHead : (Collapse.loopHead : Update st act) ∈ [weakUpdate, strongUpdate, loopHeadUpdate]

/-- The domain has the updates of the class. -/
structure UsesDefaults (st act : Type) [DecidableEq st] [LatticeM st] [Lattice act]
    [Collapse st act] : Prop where
  weak : (Collapse.weak : Update st act) = weakUpdate
  strong : (Collapse.strong : Update st act) = strongUpdate
  loopHead : (Collapse.loopHead : Update st act) = loopHeadUpdate

theorem UsesDefaults.defaultUpdates (h : UsesDefaults st act) : DefaultUpdates st act :=
  ⟨by simp [h.weak], by simp [h.strong], by simp [h.loopHead]⟩

variable {le : act → act → Prop}

theorem updateFor_spec (hle : JoinUpper le) (hdef : DefaultUpdates st act) (tags : List EdgeTag) :
    UpdateSpec le (updateFor tags : Update st act) := by
  have hmem : ∀ u : Update st act, u ∈ [weakUpdate, strongUpdate, loopHeadUpdate] →
      UpdateSpec le u := by
    intro u hu
    simp only [List.mem_cons, List.not_mem_nil, or_false] at hu
    rcases hu with rfl | rfl | rfl
    · exact weakUpdate_spec hle
    · exact strongUpdate_spec hle
    · exact loopHeadUpdate_spec hle
  unfold updateFor
  split
  · exact hmem _ hdef.loopHead
  · exact hmem _ hdef.weak
  · exact hmem _ hdef.strong

/-- The transfer along `it` from the table: state and actions at its source, then actions and state
of the edge. -/
structure Transfer (env : FixEnv) (table : NodeTable st act) (it : WItem) (preActs postActs : act)
    (ns : st) : Prop where
  out : ∃ nodeSt warns, table.lookup it.1 = some [(nodeSt, preActs)] ∧
    Collapse.codeTransformer env it.1 it.2.2 (env.cfg.edgeInfo it.2.1) nodeSt =
      .ok (postActs, ns, warns)

/-- The source of an item determines its transfer. -/
theorem Transfer.unique {env : FixEnv} {table : NodeTable st act} {it : WItem}
    {a₁ a₂ b₁ b₂ : act} {s₁ s₂ : st} (h₁ : Transfer env table it a₁ b₁ s₁)
    (h₂ : Transfer env table it a₂ b₂ s₂) : a₁ = a₂ ∧ b₁ = b₂ ∧ s₁ = s₂ := by
  obtain ⟨n₁, w₁, hl₁, ht₁⟩ := h₁.out
  obtain ⟨n₂, w₂, hl₂, ht₂⟩ := h₂.out
  obtain ⟨rfl, rfl⟩ : n₁ = n₂ ∧ a₁ = a₂ := by simpa [hl₁] using hl₂
  obtain ⟨rfl, rfl, -⟩ : b₁ = b₂ ∧ s₁ = s₂ ∧ w₁ = w₂ := by simpa [ht₁] using ht₂
  exact ⟨rfl, rfl, rfl⟩

/-- The transfer depends on the entry of the source only. -/
theorem Transfer.congr {env : FixEnv} {table table' : NodeTable st act} {it : WItem} {a b : act}
    {s : st} (h : Transfer env table it a b s) (heq : table'.lookup it.1 = table.lookup it.1) :
    Transfer env table' it a b s := by
  obtain ⟨n, w, hl, ht⟩ := h.out
  exact ⟨n, w, heq.trans hl, ht⟩

/-- The two reads at the head of `processItem` and of `handleMark`. -/
theorem transfer_of_eq {env : FixEnv} {table : NodeTable st act} {fn : String} {pre post : NodeId}
    {eId : EdgeId} {nodeSt ns : st} {preActs postActs : act} {warns : List Int}
    (hinfo : getNodeInfo fn table pre = .ok (nodeSt, preActs))
    (htr : liftFix (Collapse.codeTransformer env pre post (env.cfg.edgeInfo eId) nodeSt) =
      .ok (postActs, ns, warns)) :
    Transfer env table (pre, eId, post) preActs postActs ns := by
  refine ⟨nodeSt, warns, ?_, ?_⟩
  · unfold getNodeInfo at hinfo
    split at hinfo
    · next h => simpa [h] using hinfo
    · cases hinfo
  · exact liftFix_eq_ok.1 htr

/-- The incoming actions are not lost when the state that comes with them is absorbed. -/
def KeepsActs (le : act → act → Prop) (env : FixEnv) (table : NodeTable st act) (it : WItem) :
    Prop :=
  ∀ preActs postActs ns s' a', Transfer env table it preActs postActs ns →
    table.lookup it.2.2 = some [(s', a')] → Absorbed ns s' → le (Lattice.join preActs postActs) a'

variable [Action act]

/-- The edge is not an end of the collapse, and its state is not bottom. -/
def IsLocal (env : FixEnv) (it : WItem) (preActs postActs : act) (ns : st) : Prop :=
  LatticeM.isBot ns = false ∧
    isFinal env (env.cfg.edgeInfo it.2.1) it.2.2 (Lattice.join preActs postActs) = false

/-- What `processItem` can do. -/
inductive Processed (le : act → act → Prop) (env : FixEnv) (it : WItem) (wl : List WItem)
    (fs : FixState st act) : List WItem → FixState st act → Prop where
  | bottom {fs' preActs postActs ns} (ht : Transfer env fs.table it preActs postActs ns)
      (hb : LatticeM.isBot ns = true) (htab : fs'.table = fs.table) (hmarks : fs'.marks = fs.marks) :
      Processed le env it wl fs wl fs'
  | mark {fs' preActs postActs ns} (ht : Transfer env fs.table it preActs postActs ns)
      (hfin : isFinal env (env.cfg.edgeInfo it.2.1) it.2.2 (Lattice.join preActs postActs) = true)
      (htab : fs'.table = fs.table) (hmarks : fs'.marks = insertMark it fs.marks) :
      Processed le env it wl fs wl fs'
  | update {fs' preActs postActs ns isFix} (ht : Transfer env fs.table it preActs postActs ns)
      (hloc : IsLocal env it preActs postActs ns) (hmarks : fs'.marks = fs.marks)
      (hupd : Updated le fs.table it.2.2 ns (Lattice.join preActs postActs) isFix fs'.table) :
      Processed le env it wl fs
        (if isFix then wl else (wl ++ outItems env.cfg it.2.2).eraseDups) fs'

theorem processItem_spec (hle : JoinUpper le) (hdef : DefaultUpdates st act) (env : FixEnv)
    (it : WItem) (wl : List WItem) (fs : FixState st act) :
    Op.Sat (processItem env it wl) fs (Processed le env it wl fs) (fun _ _ => True) := by
  obtain ⟨pre, eId, post⟩ := it
  simp only [processItem, Op.sat_bind, Op.sat_get, Op.sat_monadLift, implies_true, and_true]
  rintro ⟨nodeSt, preActs⟩ hinfo ⟨postActs, ns, warns⟩ htr
  have ht := transfer_of_eq hinfo htr
  simp only [addFixWarns, Op.sat_modify, Op.sat_ite, Op.sat_pure, Op.sat_bind, addMark]
  refine ⟨fun hb => .bottom ht hb rfl rfl, fun hb => ⟨fun hf => .mark ht hf rfl rfl, fun hf => ?_⟩⟩
  refine (updateFor_spec hle hdef _ env fs.table post ns _ _).mono ?_ fun _ _ _ => trivial
  rintro ⟨isFix, table⟩ fs' ⟨-, hm, hupd⟩
  exact .update ht ⟨by simpa using hb, by simpa using hf⟩ hm hupd

/-! ## The worklist -/

/-- The item has been processed with the state and actions that its source has now. -/
def Done (le : act → act → Prop) (env : FixEnv) (fs : FixState st act) (it : WItem) : Prop :=
  ∀ preActs postActs ns, Transfer env fs.table it preActs postActs ns → LatticeM.isBot ns = false →
    (isFinal env (env.cfg.edgeInfo it.2.1) it.2.2 (Lattice.join preActs postActs) = true →
      it ∈ fs.marks) ∧
    (isFinal env (env.cfg.edgeInfo it.2.1) it.2.2 (Lattice.join preActs postActs) = false →
      ∃ s a, fs.table.lookup it.2.2 = some [(s, a)] ∧ le (Lattice.join preActs postActs) a)

structure Inv (le : act → act → Prop) (env : FixEnv) (pos : NodeId) (wl : List WItem)
    (fs : FixState st act) : Prop where
  start : ∃ p, fs.table.lookup pos = some [p]
  done : ∀ u p, fs.table.lookup u = some [p] → ∀ it ∈ outItems env.cfg u, it ∈ wl ∨ Done le env fs it

theorem fst_of_mem_outItems {cfg : Graph} {u : NodeId} {it : WItem} (h : it ∈ outItems cfg u) :
    it.1 = u := by
  obtain ⟨p, -, rfl⟩ := List.mem_map.1 h
  rfl

theorem mem_insertMark {it it' : WItem} {marks : List WItem} :
    it ∈ insertMark it' marks ↔ it = it' ∨ it ∈ marks := by
  unfold insertMark
  split
  · next h => exact ⟨.inr, fun h' => h'.elim (fun e => e ▸ h) id⟩
  · simp

/-- More marks, the same table. -/
theorem Done.of_table_eq {env : FixEnv} {fs fs' : FixState st act} {it : WItem}
    (h : Done le env fs it) (htab : fs'.table = fs.table) (hm : fs.marks ⊆ fs'.marks) :
    Done le env fs' it := by
  intro a b ns ht hb
  rw [htab] at ht ⊢
  exact ⟨fun hf => hm ((h a b ns ht hb).1 hf), (h a b ns ht hb).2⟩

/-- An entry with more actions at `node` keeps the items done whose source it is not. -/
theorem Done.of_insert (hle : JoinUpper le) {env : FixEnv} {fs fs' : FixState st act} {it : WItem}
    {node : NodeId} {s₁ : st} {a₁ : act} (h : Done le env fs it)
    (htab : fs'.table = fs.table.insert node [(s₁, a₁)]) (hm : fs'.marks = fs.marks)
    (hold : ∀ s' a', fs.table.lookup node = some [(s', a')] → le a' a₁) (hne : it.1 ≠ node) :
    Done le env fs' it := by
  intro a b ns ht hb
  have ht' : Transfer env fs.table it a b ns :=
    ht.congr (by rw [htab, AList.lookup_insert_ne hne])
  obtain ⟨hmark, hlocal⟩ := h a b ns ht' hb
  refine ⟨fun hf => hm ▸ hmark hf, fun hf => ?_⟩
  obtain ⟨s, c, hl, hc⟩ := hlocal hf
  by_cases hpost : it.2.2 = node
  · refine ⟨s₁, a₁, by rw [htab, hpost, AList.lookup_insert], hle.trans hc (hold s c ?_)⟩
    rwa [← hpost]
  · exact ⟨s, c, by rw [htab, AList.lookup_insert_ne hpost, hl], hc⟩

/-- The condition on one item before it is processed: a local edge whose state is absorbed brings no
new actions. -/
def KeepsLocal (le : act → act → Prop) (env : FixEnv) (table : NodeTable st act) (it : WItem) :
    Prop :=
  ∀ preActs postActs ns, Transfer env table it preActs postActs ns →
    IsLocal env it preActs postActs ns → KeepsActs le env table it

theorem step_inv (hle : JoinUpper le) {env : FixEnv} {pos : NodeId} {it : WItem}
    {wl wl' : List WItem} {fs fs' : FixState st act} (hinv : Inv le env pos (it :: wl) fs)
    (hkeep : KeepsLocal le env fs.table it) (hproc : Processed le env it wl fs wl' fs') :
    Inv le env pos wl' fs' := by
  cases hproc with
  | bottom ht hb htab hm =>
    refine ⟨htab ▸ hinv.start, fun u p hu it' hit' => ?_⟩
    rw [htab] at hu
    rcases hinv.done u p hu it' hit' with hmem | hdone
    · rcases List.mem_cons.1 hmem with rfl | hmem
      · refine .inr fun a b ns ht' hb' => ?_
        obtain ⟨-, -, rfl⟩ := ht.unique (htab ▸ ht')
        simp [hb] at hb'
      · exact .inl hmem
    · exact .inr (hdone.of_table_eq htab (by simp [hm]))
  | mark ht hfin htab hm =>
    refine ⟨htab ▸ hinv.start, fun u p hu it' hit' => ?_⟩
    rw [htab] at hu
    rcases hinv.done u p hu it' hit' with hmem | hdone
    · rcases List.mem_cons.1 hmem with rfl | hmem
      · refine .inr fun a b ns ht' _ => ?_
        obtain ⟨rfl, rfl, -⟩ := ht.unique (htab ▸ ht')
        exact ⟨fun _ => hm ▸ mem_insertMark.2 (.inl rfl), fun hf => by simp [hfin] at hf⟩
      · exact .inl hmem
    · exact .inr (hdone.of_table_eq htab fun x hx => hm ▸ mem_insertMark.2 (.inr hx))
  | @update _ preActs postActs ns isFix ht hloc hm hupd =>
    generalize htab : fs'.table = table' at hupd
    cases hupd with
    | @fixed s' a' hl habs =>
      refine ⟨htab ▸ hinv.start, fun u p hu it' hit' => ?_⟩
      rw [htab] at hu
      rcases hinv.done u p hu it' hit' with hmem | hdone
      · rcases List.mem_cons.1 hmem with rfl | hmem
        · refine .inr fun a b ns' ht' _ => ?_
          obtain ⟨rfl, rfl, rfl⟩ := ht.unique (htab ▸ ht')
          refine ⟨fun hf => by simp [hloc.2] at hf, fun _ => ⟨s', a', htab ▸ hl, ?_⟩⟩
          exact hkeep _ _ _ ht hloc _ _ _ _ _ ht hl habs
        · exact .inl hmem
      · exact .inr (hdone.of_table_eq htab (by simp [hm]))
    | @changed s₁ a₁ ha hold =>
      have hstart : ∃ p, fs'.table.lookup pos = some [p] := by
        rw [htab]
        by_cases hpos : pos = it.2.2
        · exact ⟨(s₁, a₁), by rw [hpos, AList.lookup_insert]⟩
        · rw [AList.lookup_insert_ne hpos]
          exact hinv.start
      refine ⟨hstart, fun u p hu it' hit' => ?_⟩
      simp only [Bool.false_eq_true, if_false, List.mem_eraseDups, List.mem_append]
      -- the edges out of the changed node are back in the worklist
      by_cases hnode : u = it.2.2
      · exact .inl (.inr (hnode ▸ hit'))
      have hne : it'.1 ≠ it.2.2 := fst_of_mem_outItems hit' ▸ hnode
      rw [htab, AList.lookup_insert_ne hnode] at hu
      rcases hinv.done u p hu it' hit' with hmem | hdone
      · rcases List.mem_cons.1 hmem with rfl | hmem
        · refine .inr fun a b ns' ht' _ => ?_
          have ht'' : Transfer env fs.table it' a b ns' :=
            ht'.congr (by rw [htab, AList.lookup_insert_ne hne])
          obtain ⟨rfl, rfl, -⟩ := ht.unique ht''
          exact ⟨fun hf => by simp [hloc.2] at hf,
            fun _ => ⟨s₁, a₁, by rw [htab, AList.lookup_insert], ha⟩⟩
        · exact .inl (.inl hmem)
      · exact .inr (hdone.of_insert hle htab hm hold hne)

/-- Every item of the run meets `KeepsLocal` before it is processed. -/
def LoopKeeps (le : act → act → Prop) (env : FixEnv) :
    Nat → List WItem → FixState st act → Prop
  | 0, _, _ => True
  | _ + 1, [], _ => True
  | n + 1, it :: wl, fs => KeepsLocal le env fs.table it ∧
    match processItem env it wl fs with
    | (.ok wl', fs') => LoopKeeps le env n wl' fs'
    | (.error _, _) => True

theorem loop_inv (hle : JoinUpper le) (hdef : DefaultUpdates st act) {env : FixEnv} {pos : NodeId} :
    ∀ (n : Nat) (wl : List WItem) (fs fs' : FixState st act), Inv le env pos wl fs →
      LoopKeeps le env n wl fs → loop env n wl fs = (.ok (), fs') → Inv le env pos [] fs'
  | n, [], fs, fs', hinv, _, hrun => by
    have hfs : fs = fs' := by cases n <;> exact congrArg Prod.snd hrun
    exact hfs ▸ hinv
  | 0, it :: wl, fs, fs', _, _, hrun => by cases hrun
  | n + 1, it :: wl, fs, fs', hinv, ⟨hkeep, hrest⟩, hrun => by
    have hspec := processItem_spec hle hdef env it wl fs
    change Op.bind (processItem env it wl) (loop env n) fs = _ at hrun
    unfold Op.bind at hrun
    rcases hp : processItem env it wl fs with ⟨_ | wl₁, fs₁⟩
    · simp [hp] at hrun
    · simp only [hp] at hrun hrest
      exact loop_inv hle hdef n wl₁ fs₁ fs'
        (step_inv hle hinv hkeep (hspec.of_eq_ok hp)) hrest hrun

theorem init_inv (env : FixEnv) (pos : NodeId) (s : st) :
    Inv le env pos (outItems env.cfg pos) (initFixState env.cfg pos s : FixState st act) := by
  refine ⟨⟨(s, Lattice.bot), AList.lookup_insert _⟩, fun u p hu it hit => .inl ?_⟩
  by_cases hne : u = pos
  · exact hne ▸ hit
  · exact absurd hu (lookup_initTable_of_ne hne p)

/-! ## Paths -/

/-- A path of local edges from `pos` in the table, with the actions of its edges. -/
inductive LocalPath (env : FixEnv) (table : NodeTable st act) (pos : NodeId) :
    List act → NodeId → Prop where
  | nil : LocalPath env table pos [] pos
  | snoc {as it preActs postActs ns} (h : LocalPath env table pos as it.1)
      (hout : it ∈ outItems env.cfg it.1) (ht : Transfer env table it preActs postActs ns)
      (hloc : IsLocal env it preActs postActs ns) :
      LocalPath env table pos (as ++ [postActs]) it.2.2

/-- At a fixpoint the node at the end of a local path has the actions of all its edges. -/
theorem LocalPath.acts_le (hle : JoinUpper le) {env : FixEnv} {pos u : NodeId}
    {fs : FixState st act} {as : List act} (hinv : Inv le env pos [] fs)
    (h : LocalPath env fs.table pos as u) :
    ∃ s a, fs.table.lookup u = some [(s, a)] ∧ ∀ b ∈ as, le b a := by
  induction h with
  | nil =>
    obtain ⟨⟨s, a⟩, hp⟩ := hinv.start
    exact ⟨s, a, hp, by simp⟩
  | @snoc as it preActs postActs ns _ hout ht hloc ih =>
    obtain ⟨s, a, hl, has⟩ := ih
    obtain ⟨n, w, hl', -⟩ := ht.out
    obtain ⟨rfl, rfl⟩ : s = n ∧ a = preActs := by simpa [hl] using hl'
    have hdone := (hinv.done _ _ hl it hout).resolve_left (List.not_mem_nil)
    obtain ⟨s', a', hl', hle'⟩ := (hdone _ _ _ ht hloc.1).2 hloc.2
    refine ⟨s', a', hl', fun b hb => ?_⟩
    rcases List.mem_append.1 hb with hb | hb
    · exact hle.trans (has b hb) (hle.trans (hle.left _ _) hle')
    · obtain rfl := List.mem_singleton.1 hb
      exact hle.trans (hle.right _ _) hle'

/-! ## The marked edges -/

/-- A handled mark changes the entry of its target only, and returns the actions of its source
and of the edge. -/
def Handled (le : act → act → Prop) (env : FixEnv) (it : WItem) (fs : FixState st act)
    (r : List Int × (st × Pos × act)) (fs' : FixState st act) : Prop :=
  (∀ n, n ≠ it.2.2 → fs'.table.lookup n = fs.table.lookup n) ∧ r.2.2.1 = it.2.2 ∧
    ∃ preActs postActs ns, Transfer env fs.table it preActs postActs ns ∧
      le (Lattice.join preActs postActs) r.2.2.2

/-- The condition on the marks, before each is handled. -/
def MarksKeep (le : act → act → Prop) (env : FixEnv) : List WItem → FixState st act → Prop
  | [], _ => True
  | it :: marks, fs => KeepsActs le env fs.table it ∧
    match handleMark env it fs with
    | (.ok _, fs') => MarksKeep le env marks fs'
    | (.error _, _) => True

theorem handleMark_spec (hle : JoinUpper le) (hdef : DefaultUpdates st act) (env : FixEnv)
    (it : WItem) (fs : FixState st act) (hkeep : KeepsActs le env fs.table it) :
    Op.Sat (handleMark env it) fs (Handled le env it fs) (fun _ _ => True) := by
  obtain ⟨pre, eId, post⟩ := it
  simp only [handleMark, Op.sat_bind, Op.sat_get, Op.sat_monadLift, implies_true, and_true]
  rintro ⟨nodeSt, preActs⟩ hinfo ⟨postActs, ns, warns⟩ htr
  have ht := transfer_of_eq hinfo htr
  refine (updateFor_spec hle hdef _ env fs.table post ns _ _).mono ?_ fun _ _ _ => trivial
  rintro ⟨isFix, table⟩ fs₁ ⟨htab₁, -, hupd⟩
  simp only [updateNodeTable, Op.sat_modify]
  split
  · next resSt resAct hl =>
    have hres : le (Lattice.join preActs postActs) resAct :=
      hupd.le_acts (fun s' a' h habs => hkeep _ _ _ s' a' ht h habs) hl
    have hother : ∀ n, n ≠ post → table.lookup n = fs.table.lookup n := fun n hn => hupd.lookup_ne hn
    simp only [Op.sat_ite, Op.sat_pure]
    exact ⟨fun _ => ⟨hother, rfl, _, _, _, ht, hle.trans hres (hle.left _ _)⟩,
      fun _ => ⟨hother, rfl, _, _, _, ht, hres⟩⟩
  · trivial

/-- Every mark has its result, with the actions of its transfer in the table `table` that the marks
start from. A mark may end at the source of an earlier one only. -/
theorem marks_spec (hle : JoinUpper le) (hdef : DefaultUpdates st act) {env : FixEnv}
    (table : NodeTable st act) :
    ∀ (marks : List WItem) (fs fs' : FixState st act) (rs : List (List Int × (st × Pos × act))),
      (∀ it ∈ marks, fs.table.lookup it.1 = table.lookup it.1) →
      marks.Pairwise (fun a b => a.2.2 ≠ b.1) → MarksKeep le env marks fs →
      marks.mapM' (handleMark env) fs = (.ok rs, fs') →
      marks.length = rs.length ∧ ∀ p ∈ marks.zip rs, p.2.2.2.1 = p.1.2.2 ∧
        ∃ preActs postActs ns, Transfer env table p.1 preActs postActs ns ∧
          le (Lattice.join preActs postActs) p.2.2.2.2
  | [], fs, fs', rs, _, _, _, hrun => by
    obtain rfl : [] = rs := by
      have := congrArg Prod.fst hrun
      exact Except.ok.inj this
    simp
  | it :: marks, fs, fs', rs, hsrc, hapart, ⟨hkeep, hrest⟩, hrun => by
    have hspec := handleMark_spec hle hdef env it fs hkeep
    obtain ⟨hpost, hapart⟩ := List.pairwise_cons.1 hapart
    rw [List.mapM'_cons] at hrun
    change Op.bind (handleMark env it) _ fs = _ at hrun
    unfold Op.bind at hrun
    rcases hh : handleMark env it fs with ⟨_ | r, fs₁⟩
    · simp [hh] at hrun
    simp only [hh] at hrun hrest
    change Op.bind (marks.mapM' (handleMark env)) _ fs₁ = _ at hrun
    unfold Op.bind at hrun
    rcases hm : marks.mapM' (handleMark env) fs₁ with ⟨_ | rs₁, fs₂⟩
    · simp [hm] at hrun
    simp only [hm] at hrun
    obtain rfl : r :: rs₁ = rs := Except.ok.inj (congrArg Prod.fst hrun)
    obtain ⟨hother, hpos, a, b, ns, ht, hle'⟩ := hspec.of_eq_ok hh
    -- the handled mark ends at the source of none that is left
    have hsrc₁ : ∀ x ∈ marks, fs₁.table.lookup x.1 = table.lookup x.1 := by
      intro x hx
      rw [hother x.1 (hpost x hx).symm]
      exact hsrc x (List.mem_cons_of_mem _ hx)
    obtain ⟨hlen, hall⟩ := marks_spec hle hdef table marks fs₁ fs₂ rs₁ hsrc₁ hapart hrest hm
    refine ⟨by simp [hlen], fun p hp => ?_⟩
    rcases List.mem_cons.1 hp with rfl | hp
    · exact ⟨hpos, a, b, ns, ht.congr (hsrc it List.mem_cons_self).symm, hle'⟩
    · exact hall p hp

/-- The results of a run begin with those of the marks. -/
theorem fixptResult_marks {env : FixEnv} {fs fs' : FixState st act} {ws : List Int}
    {res : ResultList st act} (h : fixptResult env fs = (.ok (ws, res), fs')) :
    ∃ rs fs₁ extra, fs.marks.mapM' (handleMark env) fs = (.ok rs, fs₁) ∧
      res = rs.map (·.2) ++ extra := by
  change Op.bind (fs.marks.mapM' (handleMark env)) _ fs = _ at h
  unfold Op.bind at h
  rcases hm : fs.marks.mapM' (handleMark env) fs with ⟨_ | rs, fs₁⟩
  · simp [hm] at h
  · simp only [hm] at h
    refine ⟨rs, fs₁, ?_⟩
    by_cases hmode : env.mode = true
    · simp only [hmode, if_true] at h
      exact ⟨_, rfl, (Prod.ext_iff.1 (Except.ok.inj (congrArg Prod.fst h))).2.symm⟩
    · simp only [hmode] at h
      exact ⟨[], rfl, by simpa using (Prod.ext_iff.1 (Except.ok.inj (congrArg Prod.fst h))).2.symm⟩

/-- Suppose that no update of the run loses actions (`LoopKeeps`, `MarksKeep`) and that no marked
edge ends at the source of one handled later. Then the result of a marked edge has the actions of
every local path to it, and its own. -/
theorem fixpt_acts_above (hle : JoinUpper le) (hdef : DefaultUpdates st act) {fuel : Nat}
    {env : FixEnv} {pos : NodeId} {s : st} {ws : List Int} {res : ResultList st act}
    {fs fs' : FixState st act}
    (hloop : loop env fuel (outItems env.cfg pos) (initFixState env.cfg pos s) = (.ok (), fs))
    (hrun : fixpt fuel env pos s = (.ok (ws, res), fs'))
    (hkeep : LoopKeeps le env fuel (outItems env.cfg pos) (initFixState env.cfg pos s))
    (hmarks : MarksKeep le env fs.marks fs)
    (hapart : fs.marks.Pairwise fun a b => a.2.2 ≠ b.1)
    {as : List act} {it : WItem} {preActs postActs : act} {ns : st}
    (hpath : LocalPath env fs.table pos as it.1) (hout : it ∈ outItems env.cfg it.1)
    (ht : Transfer env fs.table it preActs postActs ns) (hb : LatticeM.isBot ns = false)
    (hmark : it ∈ fs.marks ∨
      isFinal env (env.cfg.edgeInfo it.2.1) it.2.2 (Lattice.join preActs postActs) = true) :
    ∃ r, (it, r) ∈ fs.marks.zip res ∧ r.2.1 = it.2.2 ∧ ∀ a ∈ as ++ [postActs], le a r.2.2 := by
  have hinv := loop_inv hle hdef fuel _ _ fs (init_inv env pos s) hkeep hloop
  obtain ⟨s', a, hl, has⟩ := hpath.acts_le hle hinv
  have hmem : it ∈ fs.marks := by
    refine hmark.elim id fun hf => ?_
    have hdone := (hinv.done _ _ hl it hout).resolve_left List.not_mem_nil
    exact (hdone _ _ _ ht hb).1 hf
  -- the run is the loop, then the marks
  obtain ⟨rs, fs₁, extra, hrs, hres⟩ :
      ∃ rs fs₁ extra, fs.marks.mapM' (handleMark env) fs = (.ok rs, fs₁) ∧
        res = rs.map (·.2) ++ extra := by
    change Op.bind (loop env fuel _) _ _ = _ at hrun
    simp only [Op.bind, hloop] at hrun
    exact fixptResult_marks hrun
  obtain ⟨hlen, hall⟩ :=
    marks_spec hle hdef fs.table fs.marks fs fs₁ rs (fun _ _ => rfl) hapart hmarks hrs
  obtain ⟨i, hi, hget⟩ := List.getElem_of_mem hmem
  have hir : i < rs.length := hlen ▸ hi
  have hzip : (it, rs[i]) ∈ fs.marks.zip rs :=
    List.mem_iff_getElem.2 ⟨i, by simp [hi, hir], by simp [hget]⟩
  obtain ⟨hpos, a', b', ns', ht', hle'⟩ := hall _ hzip
  obtain ⟨rfl, rfl, -⟩ := ht.unique ht'
  refine ⟨rs[i].2, ?_, hpos, fun b hbm => ?_⟩
  · refine List.mem_iff_getElem.2 ⟨i, by simp [hres, hi]; omega, ?_⟩
    simp [hres, hget, hir]
  · have hpre : a = preActs := by
      obtain ⟨n, w, hl', -⟩ := ht.out
      simpa [hl] using (by simpa [hl] using hl' : s' = n ∧ a = preActs).2
    rcases List.mem_append.1 hbm with hbm | hbm
    · exact hle.trans (hpre ▸ has b hbm) (hle.trans (hle.left _ _) hle')
    · obtain rfl := List.mem_singleton.1 hbm
      exact hle.trans (hle.right _ _) hle'

/-! ## A join point that loses actions

Two branches read different variables and meet with equal states. The domain has one state, so the
second branch to arrive is absorbed and its read is lost. -/

section OneState

inductive OneState where
  | only
deriving DecidableEq, Repr

instance : LatticeM OneState where
  join _ _ := .ok .only
  leq _ _ := .ok true
  isBot _ := false
  widen _ _ := .ok .only

/-- Variables are read, calls lock the mutex `9`, and nothing else acts. -/
def oneStateAct : EdgeCode → Act Int
  | .E (.var id) => Act.readActAddr (.addrs [⟨id, 0, .glob⟩])
  | .E (.call _ _) => Act.lockActAddr (.addrs [⟨⟨9⟩, 0, .glob⟩])
  | _ => Act.bot

instance : Collapse OneState (Act Int) where
  codeTransformer _ _ _ info s := .ok (oneStateAct info.code, s, [])

theorem oneState_updates : DefaultUpdates OneState (Act Int) :=
  UsesDefaults.defaultUpdates ⟨rfl, rfl, rfl⟩

/-- `if (..) x; else y; lock(9);`: both branches go from `0` to `1`, the lock from `1` to `2`. -/
def branchGraph : Graph where
  entryNode := 0
  nodes := [0, 1, 2]
  succs n := if n = 0 then [(0, 1), (1, 1)] else if n = 1 then [(2, 2)] else []
  edgeInfo e :=
    if e = 0 then ⟨[.ifJoin], .E (.var ⟨1⟩)⟩
    else if e = 1 then ⟨[.ifJoin], .E (.var ⟨2⟩)⟩
    else ⟨[], .E (.call .skip [])⟩
  parameters := []

def branchEnv : FixEnv := ⟨false, 1, [], [], branchGraph, 10⟩

theorem act_joinUpper {v : Type} [DecidableEq v] : JoinUpper (Act.Below (v := v)) where
  refl := Act.below_refl
  trans := Act.Below.trans
  left := Act.below_join_left
  right := Act.below_join_right

def readVar (x : Int) : Act Int := Act.readActAddr (.addrs [⟨⟨x⟩, 0, .glob⟩])

def lockNine : Act Int := Act.lockActAddr (.addrs [⟨⟨9⟩, 0, .glob⟩])

/-- The state of the engine when the worklist is empty. -/
def branchEnd : FixState OneState (Act Int) :=
  (loop branchEnv 10 (outItems branchGraph 0) (initFixState branchGraph 0 .only)).2

theorem branch_path : LocalPath branchEnv branchEnd.table 0 [readVar 2] 1 := by
  have ht : Transfer branchEnv branchEnd.table (0, 1, 1) Act.bot (readVar 2) OneState.only :=
    ⟨.only, [], by decide +kernel, rfl⟩
  have hout : ((0, 1, 1) : WItem) ∈ outItems branchGraph 0 := by decide +kernel
  exact LocalPath.nil.snoc hout ht ⟨rfl, by decide +kernel⟩

/-- The read of the second branch is not among the actions of the only result. -/
theorem fixpt_loses_acts :
    JoinUpper (Act.Below (v := Int)) ∧ DefaultUpdates OneState (Act Int) ∧
    loop branchEnv 10 (outItems branchGraph 0) (initFixState branchGraph 0 .only) =
      (.ok (), branchEnd) ∧
    LocalPath branchEnv branchEnd.table 0 [readVar 2] 1 ∧ branchEnd.marks = [(1, 2, 2)] ∧
    ∃ r : OneState × Pos × Act Int,
      (fixpt 10 branchEnv 0 OneState.only).1 = .ok ([], [r]) ∧ r.2.1 = 2 ∧
        ¬ (readVar 2).Below r.2.2 := by
  refine ⟨act_joinUpper, oneState_updates, rfl, branch_path, by decide +kernel,
    (.only, 2, ((Act.bot.join (readVar 1)).join lockNine).join (Act.exitThreadAct ⟨1⟩)),
    rfl, rfl, fun h => ?_⟩
  exact absurd h.rds (by decide +kernel)

/-- `x; lock(9);`, with nothing to lose. -/
def straightGraph : Graph where
  entryNode := 0
  nodes := [0, 1, 2]
  succs n := if n = 0 then [(0, 1)] else if n = 1 then [(1, 2)] else []
  edgeInfo e := if e = 0 then ⟨[], .E (.var ⟨1⟩)⟩ else ⟨[], .E (.call .skip [])⟩
  parameters := []

def straightEnv : FixEnv := ⟨false, 1, [], [], straightGraph, 10⟩

def straightEnd : FixState OneState (Act Int) :=
  (loop straightEnv 3 (outItems straightGraph 0) (initFixState straightGraph 0 .only)).2

theorem straight_loopKeeps :
    LoopKeeps (Act.Below (v := Int)) straightEnv 3 (outItems straightGraph 0)
      (initFixState straightGraph 0 OneState.only) := by
  refine ⟨?_, ?_, trivial⟩
  · -- node `1` has no state yet
    intro _ _ _ _ _ _ _ _ s' a' _ hl
    have hnone : (initTable straightGraph 0 OneState.only : NodeTable _ (Act Int)).lookup 1 =
        some [] := by decide +kernel
    exact absurd (hnone.symm.trans hl) (by simp)
  · -- the lock is not local: node `2` has no successor
    intro a b _ _ hloc
    exact absurd hloc.2 (by simp [isFinal, outItems, straightEnv, straightGraph])

theorem straight_marksKeep : MarksKeep (Act.Below (v := Int)) straightEnv straightEnd.marks
    straightEnd := by
  refine ⟨?_, trivial⟩
  intro _ _ _ s' a' _ hl
  have hnone : straightEnd.table.lookup 2 = some [] := by decide +kernel
  exact absurd (hnone.symm.trans hl) (by simp)

theorem straight_path : LocalPath straightEnv straightEnd.table 0 [readVar 1] 1 := by
  have ht : Transfer straightEnv straightEnd.table (0, 0, 1) Act.bot (readVar 1) OneState.only :=
    ⟨.only, [], by decide +kernel, rfl⟩
  have hout : ((0, 0, 1) : WItem) ∈ outItems straightGraph 0 := by decide +kernel
  exact LocalPath.nil.snoc hout ht ⟨rfl, by decide +kernel⟩

def straightResult : OneState × Pos × Act Int :=
  (.only, 2, ((Act.bot.join (readVar 1)).join lockNine).join (Act.exitThreadAct ⟨1⟩))

/-- On the straight graph the result of the lock has the read and the lock. -/
theorem straight_acts_above :
    ∃ r, (((1, 1, 2) : WItem), r) ∈ straightEnd.marks.zip [straightResult] ∧ r.2.1 = 2 ∧
      ∀ a ∈ [readVar 1] ++ [lockNine], a.Below r.2.2 := by
  have hloop : loop straightEnv 3 (outItems straightGraph 0)
      (initFixState straightGraph 0 OneState.only) = (.ok (), straightEnd) := rfl
  have hrun : fixpt 3 straightEnv 0 OneState.only =
      (.ok ([], [straightResult]), (fixpt 3 straightEnv 0 OneState.only).2) := rfl
  have hout : ((1, 1, 2) : WItem) ∈ outItems straightGraph 1 := by decide +kernel
  have ht : Transfer straightEnv straightEnd.table (1, 1, 2) (readVar 1) lockNine OneState.only :=
    ⟨.only, [], by decide +kernel, rfl⟩
  exact fixpt_acts_above act_joinUpper oneState_updates hloop hrun straight_loopKeeps
    straight_marksKeep (by decide +kernel) straight_path hout ht rfl (.inl (by decide +kernel))

end OneState

end Poet
