import Poet.Domain.FixpointSound
import Poet.Lib.Measure

/-!
# Termination of the fixpoint engine

The measure has two parts. Each loop head has the number of updates before it is widened and its
state, which then changes only along a chain of widenings. An update of another node, and one that
changes nothing, leaves this alone and lowers the weight of the worklist: an edge weighs more than
the edges out of its target together, but for an edge to a loop head, which weighs one.
-/

namespace Poet

/-- No infinite sequence of widenings keeps changing. -/
def WideningEnds (st : Type) [LatticeM st] : Prop :=
  ∀ f x : Nat → st, (∀ k, LatticeM.widen (f k) (x k) = .ok (f (k + 1))) → ∃ k, f (k + 1) = f k

/-- An edge from `u` to `v` that is not an edge to a loop head. -/
def Flow (cfg : Graph) (u v : NodeId) : Prop :=
  ∃ it ∈ outItems cfg u, (cfg.edgeInfo it.2.1).tags ≠ [.loopHead] ∧ it.2.2 = v

/-- The nodes are finitely many, every cycle has an edge to a loop head, and a node with one such
edge into it has no others. -/
structure LoopsByHead (cfg : Graph) : Prop where
  nodes : ∀ u, u ∉ cfg.nodes → cfg.succs u = []
  cycles : ∀ v, ¬ Relation.TransGen (Flow cfg) v v
  heads : ∀ it it' : WItem, it ∈ outItems cfg it.1 → it' ∈ outItems cfg it'.1 → it.2.2 = it'.2.2 →
    (cfg.edgeInfo it.2.1).tags = [.loopHead] → (cfg.edgeInfo it'.2.1).tags = [.loopHead]

def IsHead (cfg : Graph) (v : NodeId) : Prop :=
  v ∈ cfg.nodes ∧ ∃ it : WItem, it ∈ outItems cfg it.1 ∧ it.2.2 = v ∧
    (cfg.edgeInfo it.2.1).tags = [.loopHead]

instance (cfg : Graph) : Finite { v // IsHead cfg v } :=
  Set.Finite.subset (List.finite_toSet cfg.nodes) fun _ h => h.1

theorem LoopsByHead.flow_wf {cfg : Graph} (h : LoopsByHead cfg) :
    WellFounded fun v u => Flow cfg u v := by
  apply wellFounded_of_acyclic cfg.nodes.toFinset _ h.cycles
  rintro u v ⟨it, hit, -⟩
  rw [List.mem_toFinset]
  by_contra hu
  simp [outItems, h.nodes u hu] at hit

variable {st act : Type} [LatticeM st]

theorem WideningEnds.wf (h : WideningEnds st) :
    WellFounded fun s' s : st => (∃ x, LatticeM.widen s x = .ok s') ∧ s' ≠ s := by
  rw [wellFounded_iff_isEmpty_descending_chain]
  refine ⟨fun ⟨f, hf⟩ => ?_⟩
  choose x hx using fun k => (hf k).1
  obtain ⟨k, hk⟩ := h f x hx
  exact (hf k).2 hk

/-! ## What every step keeps -/

variable [DecidableEq st] [Lattice act]

/-- The sources of the items have a state, no node has two, and a loop head that was updated has
one. -/
structure TableInv (env : FixEnv) (wl : List WItem) (fs : FixState st act) : Prop where
  items : ∀ it ∈ wl, it ∈ outItems env.cfg it.1 ∧ ∃ p, fs.table.lookup it.1 = some [p]
  entries : ∀ v p q l, fs.table.lookup v ≠ some (p :: q :: l)
  counts : ∀ v, 0 ≤ fs.count v ∧ (0 < fs.count v → ∃ p, fs.table.lookup v = some [p])

omit [LatticeM st] [DecidableEq st] [Lattice act] in
/-- With a widening level of at least one no update is stuck. -/
theorem TableInv.not_stuck {env : FixEnv} {wl : List WItem}
    {fs : FixState st act} (hinv : TableInv env wl fs) (hwid : 1 ≤ env.wid)
    (tags : List EdgeTag) (node : NodeId) : ¬ Stuck env tags fs fs.table node := by
  rintro (⟨p, q, l, hl⟩ | ⟨-, hc, hl⟩)
  · exact hinv.entries node p q l hl
  · obtain ⟨p, hp⟩ := (hinv.counts node).2 (by omega)
    simp [hp] at hl

variable [Collapse st act] [Action act] {env : FixEnv} {pos : Pos} {it : WItem}
  {wl wl' : List WItem} {fs fs' : FixState st act}

theorem TableInv.step (hinv : TableInv env (it :: wl) fs) (hstep : Stepped env it wl fs wl' fs') :
    TableInv env wl' fs' := by
  have hrest : ∀ x ∈ wl, x ∈ outItems env.cfg x.1 ∧ ∃ p, fs.table.lookup x.1 = some [p] :=
    fun x hx => hinv.items x (List.mem_cons_of_mem _ hx)
  cases hstep with
  | skip ht hnot htab hcount =>
    refine ⟨fun x hx => ?_, fun v => ?_, fun v => ?_⟩
    · rw [htab]
      exact hrest x hx
    · rw [htab]
      exact hinv.entries v
    · rw [htab, hcount]
      exact hinv.counts v
  | @update _ preActs postActs ns isFix ht hloc hrev hcount =>
    refine ⟨fun x hx => ?_, fun v p q l hl => ?_, fun v => ⟨?_, fun hpos => ?_⟩⟩
    · have hx' : x ∈ wl ∨ x ∈ outItems env.cfg it.2.2 := by
        cases isFix with
        | true => exact .inl hx
        | false => simpa using hx
      obtain hx | hx := hx'
      · exact ⟨(hrest x hx).1, hrev.stored (hrest x hx).2⟩
      · have hsrc := fst_of_mem_outItems hx
        exact ⟨hsrc.symm ▸ hx, hsrc.symm ▸ hrev.lookup_self⟩
    · by_cases hv : v = it.2.2
      · obtain ⟨r, hr⟩ := hrev.lookup_self
        subst hv
        simp [hr] at hl
      · rw [hrev.lookup_ne hv] at hl
        exact hinv.entries v p q l hl
    · have := (hinv.counts v).1
      rw [hcount]
      split <;> omega
    · by_cases hv : v = it.2.2
      · exact hv ▸ hrev.lookup_self
      · rw [hcount, if_neg (fun h => hv h.2), Int.add_zero] at hpos
        exact hrev.stored ((hinv.counts v).2 hpos)

omit [LatticeM st] [DecidableEq st] [Collapse st act] [Action act] in
theorem tableInv_init (env : FixEnv) (pos : Pos) (s : st) :
    TableInv env (outItems env.cfg pos) (initFixState env.cfg pos s : FixState st act) := by
  have hpos : (initTable env.cfg pos s : NodeTable st act).lookup pos = some [(s, Lattice.bot)] :=
    AList.lookup_insert _
  refine ⟨fun x hx => ?_, fun v p q l hl => ?_, fun v => ⟨Int.le_refl 0, fun h => ?_⟩⟩
  · have hsrc := fst_of_mem_outItems hx
    exact ⟨hsrc.symm ▸ hx, hsrc.symm ▸ ⟨_, hpos⟩⟩
  · by_cases hv : v = pos
    · subst hv
      simp [initFixState, hpos] at hl
    · cases eq_nil_of_lookup_initTable hv hl
  · exact absurd h (Int.lt_irrefl 0)

/-! ## The measure -/

section HeadPart

variable {st act : Type} [LatticeM st] {env : FixEnv} {fs fs' : FixState st act} {it : WItem}

/-- The state of a node, or `s₀`. -/
def stateAt (s₀ : st) (fs : FixState st act) (v : NodeId) : st :=
  match fs.table.lookup v with
  | some [(s, _)] => s
  | _ => s₀

/-- For each loop head: the updates before it is widened, and its state. -/
def headPart (env : FixEnv) (s₀ : st) (fs : FixState st act) (v : { v // IsHead env.cfg v }) :
    Nat × st :=
  ((env.wid - fs.count v).toNat, stateAt s₀ fs v)

/-- The updates before widening get fewer, or their number stays and the state is widened. -/
def HeadLt : Nat × st → Nat × st → Prop :=
  Prod.Lex (· < ·) fun s' s => (∃ x, LatticeM.widen s x = .ok s') ∧ s' ≠ s

/-- The part of one loop head gets smaller, the others stay. -/
def HeadsLt (cfg : Graph) (f g : { v // IsHead cfg v } → Nat × st) : Prop :=
  ∃ v, HeadLt (f v) (g v) ∧ ∀ v', v' ≠ v → f v' = g v'

theorem headsLt_wf (cfg : Graph) (h : WideningEnds st) :
    WellFounded (HeadsLt cfg : ({ v // IsHead cfg v } → Nat × st) → _ → Prop) :=
  wellFounded_component (WellFounded.prod_lex wellFounded_lt h.wf)

omit [LatticeM st] in
theorem stateAt_of_lookup {s₀ s : st} {a : act} {v : NodeId}
    (h : fs.table.lookup v = some [(s, a)]) : stateAt s₀ fs v = s := by
  simp [stateAt, h]

variable [Lattice act] {s₀ ns : st} {a : act} {isFix : Bool}
  {next : st → Except DomErr st}

omit [LatticeM st] in
/-- Only the part of the target changes. -/
theorem headPart_eq_of_ne (hrev : Revised fs.table it.2.2 next ns a isFix fs'.table)
    (hcount : ∀ v, fs'.count v = fs.count v +
      if (env.cfg.edgeInfo it.2.1).tags = [.loopHead] ∧ v = it.2.2 then 1 else 0)
    (v : { v // IsHead env.cfg v }) (hv : v.1 ≠ it.2.2) :
    headPart env s₀ fs' v = headPart env s₀ fs v := by
  unfold headPart stateAt
  rw [hrev.lookup_ne hv, hcount, if_neg (fun h => hv h.2), Int.add_zero]

/-- An update of a loop head makes its part smaller, or finds a fixpoint. -/
theorem headsLt_of_head {wl : List WItem} (hinv : TableInv env wl fs) (hwid : 1 ≤ env.wid)
    (hhead : IsHead env.cfg it.2.2) (htags : (env.cfg.edgeInfo it.2.1).tags = [.loopHead])
    (hrev : Revised fs.table it.2.2
      (nextState env (env.cfg.edgeInfo it.2.1).tags (fs.count it.2.2) ns) ns a isFix fs'.table)
    (hcount : ∀ v, fs'.count v = fs.count v +
      if (env.cfg.edgeInfo it.2.1).tags = [.loopHead] ∧ v = it.2.2 then 1 else 0) :
    HeadsLt env.cfg (headPart env s₀ fs') (headPart env s₀ fs) ∨
      headPart env s₀ fs' = headPart env s₀ fs ∧ isFix = true := by
  have hother : ∀ v' : { v // IsHead env.cfg v }, v' ≠ ⟨it.2.2, hhead⟩ →
      headPart env s₀ fs' v' = headPart env s₀ fs v' := fun v' hv' =>
    headPart_eq_of_ne hrev hcount v' fun h => hv' (Subtype.ext h)
  have hself : fs'.count it.2.2 = fs.count it.2.2 + 1 := by
    rw [hcount, if_pos ⟨htags, rfl⟩]
  by_cases hc : env.wid ≤ fs.count it.2.2
  · -- it was updated before, so it has a state, which is widened
    obtain ⟨⟨s', a'⟩, hl⟩ := (hinv.counts it.2.2).2 (by omega)
    have hzero : (env.wid - fs'.count it.2.2).toNat = (env.wid - fs.count it.2.2).toNat := by omega
    generalize htab : fs'.table = table' at hrev
    cases hrev with
    | fresh h => exact absurd hl (h _)
    | fixed h hn =>
      right
      refine ⟨?_, rfl⟩
      funext v
      by_cases hv : v = ⟨it.2.2, hhead⟩
      · subst hv
        simp only [headPart, stateAt, hzero, htab]
      · exact hother v hv
    | @changed s₁ a₁ s₂ h hn hne =>
      left
      refine ⟨⟨it.2.2, hhead⟩, ?_, hother⟩
      have hnew : fs'.table.lookup it.2.2 = some [(s₂, Lattice.join a a₁)] := by
        rw [htab, AList.lookup_insert]
      unfold HeadLt headPart
      rw [stateAt_of_lookup hnew, stateAt_of_lookup h, hzero]
      apply Prod.Lex.right
      exact ⟨⟨ns, by simpa [nextState, htags, hc] using hn⟩, hne⟩
  · left
    refine ⟨⟨it.2.2, hhead⟩, ?_, hother⟩
    apply Prod.Lex.left
    show (env.wid - fs'.count it.2.2).toNat < (env.wid - fs.count it.2.2).toNat
    omega

end HeadPart

/-- The weight of an edge, if its target weighs `w v`. -/
def itemWeight (cfg : Graph) (w : NodeId → Nat) (it : WItem) : Nat :=
  if (cfg.edgeInfo it.2.1).tags ≠ [.loopHead] then 1 + w it.2.2 else 1

def listWeight (cfg : Graph) (w : NodeId → Nat) (wl : List WItem) : Nat :=
  (wl.map (itemWeight cfg w)).sum

theorem exists_itemWeight {cfg : Graph} (h : LoopsByHead cfg) :
    ∃ w : NodeId → Nat, ∀ v, w v = listWeight cfg w (outItems cfg v) :=
  exists_weight (outItems cfg) (·.2.2) (fun it => (cfg.edgeInfo it.2.1).tags ≠ [.loopHead])
    h.flow_wf

theorem listWeight_lt_cons (cfg : Graph) (w : NodeId → Nat) (it : WItem) (wl : List WItem) :
    listWeight cfg w wl < listWeight cfg w (it :: wl) := by
  have hpos : 0 < itemWeight cfg w it := by
    unfold itemWeight
    split <;> omega
  simp only [listWeight, List.map_cons, List.sum_cons]
  omega

/-- The edges out of the target weigh less than an edge that is not to a loop head. -/
theorem listWeight_outItems_lt {cfg : Graph} {w : NodeId → Nat}
    (hw : ∀ v, w v = listWeight cfg w (outItems cfg v)) {it : WItem}
    (htags : (cfg.edgeInfo it.2.1).tags ≠ [.loopHead]) (wl : List WItem) :
    listWeight cfg w (wl ++ outItems cfg it.2.2).eraseDups < listWeight cfg w (it :: wl) := by
  have hdup : listWeight cfg w (wl ++ outItems cfg it.2.2).eraseDups ≤
      listWeight cfg w (wl ++ outItems cfg it.2.2) := sum_map_eraseDups_le _ _
  have happ : listWeight cfg w (wl ++ outItems cfg it.2.2) = listWeight cfg w wl + w it.2.2 := by
    rw [hw it.2.2]
    simp [listWeight]
  have hcons : listWeight cfg w (it :: wl) = 1 + w it.2.2 + listWeight cfg w wl := by
    simp [listWeight, itemWeight, htags]
  omega

/-- One step lowers the measure. -/
theorem Stepped.lowers (hcfg : LoopsByHead env.cfg) (hwid : 1 ≤ env.wid) (s₀ : st)
    {w : NodeId → Nat} (hw : ∀ v, w v = listWeight env.cfg w (outItems env.cfg v))
    (hinv : TableInv env (it :: wl) fs) (hstep : Stepped env it wl fs wl' fs') :
    HeadsLt env.cfg (headPart env s₀ fs') (headPart env s₀ fs) ∨
      headPart env s₀ fs' = headPart env s₀ fs ∧
        listWeight env.cfg w wl' < listWeight env.cfg w (it :: wl) := by
  cases hstep with
  | skip ht hnot htab hcount =>
    right
    refine ⟨?_, listWeight_lt_cons _ w it wl⟩
    funext v
    simp only [headPart, stateAt, hcount, htab]
  | @update _ preActs postActs ns isFix ht hloc hrev hcount =>
    have hit := (hinv.items it List.mem_cons_self).1
    have hnode : it.2.2 ∈ env.cfg.nodes := by
      by_contra hn
      have hfin := hloc.2
      simp [isFinal, outItems, hcfg.nodes _ hn] at hfin
    by_cases htags : (env.cfg.edgeInfo it.2.1).tags = [.loopHead]
    · obtain hlt | ⟨heq, rfl⟩ :=
        headsLt_of_head hinv hwid ⟨hnode, it, hit, rfl, htags⟩ htags hrev hcount
      · exact .inl hlt
      · exact .inr ⟨heq, listWeight_lt_cons _ w it wl⟩
    · -- the target is not a loop head
      have hne : ∀ v : { v // IsHead env.cfg v }, v.1 ≠ it.2.2 := by
        rintro ⟨v, -, it', hit', hv, htags'⟩ rfl
        exact htags (hcfg.heads it' it hit' hit hv htags')
      right
      refine ⟨funext fun v => headPart_eq_of_ne hrev hcount v (hne v), ?_⟩
      cases isFix with
      | true => exact listWeight_lt_cons _ w it wl
      | false => exact listWeight_outItems_lt hw htags wl

/-- The worklist gets empty, or the transformer of an edge stops with an error of its own. -/
theorem loop_ends (hdef : UsesDefaults st act) (hcfg : LoopsByHead env.cfg) (hwid : 1 ≤ env.wid)
    (hwiden : WideningEnds st) (s₀ : st) (wl : List WItem) (fs : FixState st act)
    (hinv : TableInv env wl fs) :
    ∃ N, ∀ n, N ≤ n → (loop env n wl fs).1 = .ok () ∨
      ∃ e, (loop env n wl fs).1 = .error (.domain e) := by
  obtain ⟨w, hw⟩ := exists_itemWeight hcfg
  have hwf := WellFounded.prod_lex (headsLt_wf env.cfg hwiden) Nat.lt_wfRel.wf
  induction hm : (headPart env s₀ fs, listWeight env.cfg w wl) using hwf.induction
    generalizing wl fs with
  | _ m ih =>
    subst hm
    cases wl with
    | nil =>
      refine ⟨0, fun n _ => .inl ?_⟩
      cases n <;> rfl
    | cons it wl =>
      have hspec := processItem_step hdef env it wl fs
      rcases hp : processItem env it wl fs with ⟨e | wl₁, fs₁⟩
      · -- the only error left is one of the domain
        obtain ⟨d, rfl⟩ : ∃ d, e = .domain d := by
          obtain hd | hpre | hstuck := hspec.of_eq_error hp
          · exact hd
          · obtain ⟨p, hl⟩ := (hinv.items it List.mem_cons_self).2
            exact absurd hl (hpre p)
          · exact absurd hstuck (hinv.not_stuck hwid _ _)
        refine ⟨1, fun n hn => .inr ⟨d, ?_⟩⟩
        obtain ⟨m, rfl⟩ : ∃ m, n = m + 1 := ⟨n - 1, by omega⟩
        rw [loop_cons, hp]
      · have hstep := hspec.of_eq_ok hp
        have hlt : Prod.Lex (HeadsLt env.cfg) (· < ·)
            (headPart env s₀ fs₁, listWeight env.cfg w wl₁)
            (headPart env s₀ fs, listWeight env.cfg w (it :: wl)) := by
          obtain hlt | ⟨heq, hlt⟩ := hstep.lowers hcfg hwid s₀ hw hinv
          · exact .left _ _ hlt
          · rw [heq]
            exact .right _ hlt
        obtain ⟨N, hN⟩ := ih _ hlt wl₁ fs₁ (hinv.step hstep) rfl
        refine ⟨N + 1, fun n hn => ?_⟩
        obtain ⟨m, rfl⟩ : ∃ m, n = m + 1 := ⟨n - 1, by omega⟩
        rw [loop_cons, hp]
        exact hN m (by omega)

/-- **The fixpoint is reached**: from some bound on, the worklist gets empty, if no transformer
stops with an error. -/
theorem fixpt_terminates (hdef : UsesDefaults st act) (hwiden : WideningEnds st) (env : FixEnv)
    (hwid : 1 ≤ env.wid) (hcfg : LoopsByHead env.cfg) (pos : Pos) (s : st) :
    ∃ N, ∀ n, N ≤ n →
      (loop env n (outItems env.cfg pos) (initFixState env.cfg pos s : FixState st act)).1 = .ok () ∨
        ∃ e, (loop env n (outItems env.cfg pos)
          (initFixState env.cfg pos s : FixState st act)).1 = .error (.domain e) :=
  loop_ends hdef hcfg hwid hwiden s _ _ (tableInv_init env pos s)

theorem level_wideningEnds : WideningEnds Level := by
  intro f x hf
  by_contra hne
  rw [not_exists] at hne
  -- a widening that changes the state goes to `2`, and nothing changes that
  have htop : ∀ s y t : Level, LatticeM.widen s y = .ok t → t ≠ s → t = ⟨2⟩ := by
    rintro ⟨s⟩ ⟨y⟩ ⟨t⟩
    revert s y t
    decide
  have hstay : ∀ y t : Level, LatticeM.widen ⟨2⟩ y = .ok t → t = (⟨2⟩ : Level) := by
    rintro ⟨y⟩ ⟨t⟩
    revert y t
    decide
  have h1 : f 1 = ⟨2⟩ := htop _ _ _ (hf 0) (hne 0)
  have h2 : f 2 = ⟨2⟩ := hstay (x 1) _ (h1 ▸ hf 1)
  exact hne 1 (h2.trans h1.symm)

theorem countGraph_loopsByHead : LoopsByHead countGraph where
  nodes u hu := by
    simp only [countGraph, List.mem_cons, List.not_mem_nil, or_false, not_or] at hu ⊢
    simp [hu]
  cycles v hv := by
    -- the only other edges go up
    have hup : ∀ a b, Relation.TransGen (Flow countGraph) a b → a < b := by
      intro a b hab
      have hedge : ∀ a b, Flow countGraph a b → a < b := by
        rintro a b ⟨it, hit, htags, rfl⟩
        have hsrc := fst_of_mem_outItems hit
        subst hsrc
        have hmem := mem_outItems_countGraph hit
        simp only [List.mem_cons, List.not_mem_nil, or_false] at hmem
        obtain rfl | rfl | rfl | rfl := hmem <;> first | decide | exact absurd rfl htags
      induction hab with
      | single h => exact hedge _ _ h
      | tail _ h ih => exact ih.trans (hedge _ _ h)
    exact lt_irrefl v (hup v v hv)
  heads it it' hit hit' hpost htags := by
    have hmem := mem_outItems_countGraph hit
    have hmem' := mem_outItems_countGraph hit'
    simp only [List.mem_cons, List.not_mem_nil, or_false] at hmem hmem'
    obtain rfl | rfl | rfl | rfl := hmem <;> obtain rfl | rfl | rfl | rfl := hmem' <;>
      first | decide | exact absurd hpost (by decide) | exact absurd htags (by decide)

theorem count_terminates :
    ∃ N, ∀ n, N ≤ n →
      (loop countEnv n (outItems countGraph 0)
        (initFixState countGraph 0 ⟨0⟩ : FixState Level (Act Int))).1 = .ok () ∨
      ∃ e, (loop countEnv n (outItems countGraph 0)
        (initFixState countGraph 0 ⟨0⟩ : FixState Level (Act Int))).1 = .error (.domain e) :=
  fixpt_terminates level_usesDefaults level_wideningEnds countEnv (by decide)
    countGraph_loopsByHead 0 ⟨0⟩

end Poet
