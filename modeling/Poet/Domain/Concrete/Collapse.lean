import Poet.Domain.Concrete.Transformers
import Poet.Domain.Effects
import Poet.Domain.FixpointMarks

/-!
# The collapse in the concrete semantics

Every update of the concrete domain is `strongUpdate`: a node has the state of the last edge that
reached it. `EdgeEffect` is what an edge does. A property of the states and actions in the table
that local edges keep, and what it says about the last edge, hold of the result if there is one:
`CollapseRule`, the only rule by which the steps of a thread are reasoned about.
-/

namespace Poet

variable [SimpleC]

/-! ## Edges -/

section Edges

variable {sym : List (SymId × String)} {cfgs : List (SymId × Graph)}

theorem hasEffect_applyLogic (op : BinaryOp) (lhs rhs : SExpression) :
    HasEffect sym cfgs (prims ConValue sym (.binary op lhs rhs)) (applyLogic op lhs rhs) := by
  intro t hsym hcfgs
  simp only [applyLogic, Op.sat_bind]
  refine (transformer_effect sym cfgs lhs t hsym hcfgs).mono ?_ fun _ _ _ => trivial
  rintro ⟨lval, lacts⟩ t₁ ⟨he₁, henv₁⟩
  refine (transformer_effect sym cfgs rhs t₁ (henv₁.sym.trans hsym)
    (henv₁.cfgs.trans hcfgs)).mono ?_ fun _ _ _ => trivial
  rintro ⟨rval, racts⟩ t₂ ⟨he₂, henv₂⟩
  rw [henv₁.scope] at he₂
  exact ⟨he₁.seq he₂, henv₁.trans henv₂⟩

theorem boolTransformerExpr_effect : ∀ e : SExpression,
    HasEffect sym cfgs (prims ConValue sym e) (boolTransformerExpr e)
  | .binary op lhs rhs => hasEffect_applyLogic op lhs rhs
  | .unary op e => by
    cases op with
    | neg =>
      intro t hsym hcfgs
      simp only [boolTransformerExpr, Op.sat_bind, Op.sat_pure]
      exact boolTransformerExpr_effect e t hsym hcfgs
    | _ => exact hasEffect_fail _ _
  | .const k => hasEffect_pure quiet_bot
  | .assign _ _ _ | .call _ _ | .cast _ | .cond _ _ _ | .index _ _ | .skip | .var _
  | .unsupported _ => hasEffect_fail _ _

/-- The operations in the code of an edge. -/
def EdgeCode.prims (sym : List (SymId × String)) : EdgeCode → List Prim
  | .E e => Poet.prims ConValue sym e
  | .D (.decl _ (some (.initExpr e))) => Poet.prims ConValue sym e
  | .D _ => []

/-- What an edge to `post` with the given code does. -/
inductive EdgeEffect (tid : TId) (sym : List (SymId × String)) (cfgs : List (SymId × Graph))
    (post : NodeId) : EdgeCode → ConState → ConAct → ConState → Prop where
  | expr {e s a s'} (he : Effect (.loc tid) cfgs (prims ConValue sym e) s a s') :
      EdgeEffect tid sym cfgs post (.E e) s a (s'.updatePc tid post)
  /-- A condition that does not hold. -/
  | stop {e s a s'} (he : Effect (.loc tid) cfgs (prims ConValue sym e) s a s') :
      EdgeEffect tid sym cfgs post (.E e) s a ProgState.bot
  | decl {d s a s'} (hd : DeclEffect (.loc tid) sym cfgs d s a s') :
      EdgeEffect tid sym cfgs post (.D d) s a (s'.updatePc tid post)

theorem transformerExprCon_effect (e : SExpression) (t : TState ConValue)
    (hsym : t.sym = some sym) (hcfgs : t.cfgs = some cfgs) :
    Op.Sat (transformerExprCon e) t (fun a t' => ∃ s', Effect t.scope cfgs (prims ConValue sym e)
      t.st a s' ∧ (t'.st = s' ∨ t'.st = ProgState.bot)) fun _ _ => True := by
  simp only [transformerExprCon, Op.sat_bind, Op.sat_get, Op.sat_ite]
  refine ⟨fun _ => ?_, fun _ => ?_⟩
  · refine (boolTransformerExpr_effect e t hsym hcfgs).mono ?_ fun _ _ _ => trivial
    rintro ⟨val, acts⟩ t' ⟨he, -⟩
    simp only [setState, Op.sat_monadLift, Op.sat_modify, Op.sat_pure, implies_true, and_true]
    intro x _
    refine ⟨_, he, ?_⟩
    split
    · exact .inl rfl
    · exact .inr rfl
  · refine (transformer_effect sym cfgs e t hsym hcfgs).mono ?_ fun _ _ _ => trivial
    rintro ⟨val, acts⟩ t' ⟨he, -⟩
    exact ⟨_, he, .inl rfl⟩

theorem codeTransformer_effect {env : FixEnv} {pre post : NodeId} {info : EdgeInfo}
    {s s' : ConState} {a : ConAct} {warns : List Int}
    (h : Collapse.codeTransformer env pre post info s = .ok (a, s', warns)) :
    EdgeEffect env.tid env.symt env.cfgs post info.code s a s' := by
  obtain ⟨tags, code⟩ := info
  simp only [Collapse.codeTransformer, edgeTransformer] at h
  split at h
  · cases h
  · next acts t hop =>
    obtain ⟨rfl, rfl, -⟩ : acts = a ∧ t.st.updatePc env.tid post = s' ∧ t.warns = warns := by
      simpa using h
    cases code with
    | D d => exact .decl ((transformerDecl_effect env.symt env.cfgs d _ rfl rfl).of_eq_ok hop).1
    | E e =>
      obtain ⟨s₁, he, hst⟩ := (transformerExprCon_effect e _ rfl rfl).of_eq_ok hop
      rcases hst with hst | hst
      · rw [hst]
        exact .expr he
      · rw [hst]
        exact .stop he

end Edges

/-! ## One item of the worklist -/

theorem updateFor_con (tags : List EdgeTag) :
    (updateFor tags : Update ConState ConAct) = strongUpdate := by
  unfold updateFor
  split <;> rfl

/-- What holds of every domain whose updates are among those of the class holds of the concrete
one. -/
theorem defaultUpdates_con : DefaultUpdates ConState ConAct := by
  have hmem : (strongUpdate : Update ConState ConAct) ∈ [weakUpdate, strongUpdate, loopHeadUpdate] :=
    List.mem_cons_of_mem _ List.mem_cons_self
  exact ⟨hmem, hmem, hmem⟩

/-- The results of separate marks are independent in the concrete semantics. -/
theorem nodeUpdates_con : NodeUpdates ConState ConAct :=
  ⟨strongUpdate_local, rfl, strongUpdate_local⟩

/-- What one item of the worklist does. -/
inductive ConStepped (env : FixEnv) (it : WItem) (wl : List WItem)
    (fs : FixState ConState ConAct) : List WItem → FixState ConState ConAct → Prop where
  | bottom {fs' preActs postActs ns} (ht : Transfer env fs.table it preActs postActs ns)
      (hb : ns.isBot = true) (htab : fs'.table = fs.table) (hmarks : fs'.marks = fs.marks) :
      ConStepped env it wl fs wl fs'
  | mark {fs' preActs postActs ns} (ht : Transfer env fs.table it preActs postActs ns)
      (hb : ns.isBot = false)
      (hfin : isFinal env (env.cfg.edgeInfo it.2.1) it.2.2 (Lattice.join preActs postActs) = true)
      (htab : fs'.table = fs.table) (hmarks : fs'.marks = insertMark it fs.marks) :
      ConStepped env it wl fs wl fs'
  | update {fs' preActs postActs ns isFix} (ht : Transfer env fs.table it preActs postActs ns)
      (hloc : IsLocal env it preActs postActs ns) (hmarks : fs'.marks = fs.marks)
      (hrev : Revised fs.table it.2.2 (fun _ => .ok ns) ns (Lattice.join preActs postActs) isFix
        fs'.table) :
      ConStepped env it wl fs
        (if isFix then wl else (wl ++ outItems env.cfg it.2.2).eraseDups) fs'

/-! The state that the edge gives decides which of the three it is. -/

section Stepped

variable {env : FixEnv} {it : WItem} {wl wl' : List WItem} {fs fs' : FixState ConState ConAct}
  {a b : ConAct} {s : ConState}

theorem ConStepped.of_bottom (h : ConStepped env it wl fs wl' fs')
    (ht : Transfer env fs.table it a b s) (hs : s.isBot = true) :
    wl' = wl ∧ fs'.table = fs.table ∧ fs'.marks = fs.marks := by
  cases h with
  | bottom ht' hb htab hmarks => exact ⟨rfl, htab, hmarks⟩
  | mark ht' hb hfin htab hmarks =>
    obtain ⟨-, -, rfl⟩ := ht.unique ht'
    simp [hs] at hb
  | update ht' hloc hmarks hrev =>
    obtain ⟨-, -, rfl⟩ := ht.unique ht'
    have hb : s.isBot = false := hloc.1
    simp [hs] at hb

theorem ConStepped.of_final (h : ConStepped env it wl fs wl' fs')
    (ht : Transfer env fs.table it a b s) (hs : s.isBot = false)
    (hf : isFinal env (env.cfg.edgeInfo it.2.1) it.2.2 (Lattice.join a b) = true) :
    wl' = wl ∧ fs'.table = fs.table ∧ fs'.marks = insertMark it fs.marks := by
  cases h with
  | bottom ht' hb htab hmarks =>
    obtain ⟨-, -, rfl⟩ := ht.unique ht'
    simp [hs] at hb
  | mark ht' hb hfin htab hmarks => exact ⟨rfl, htab, hmarks⟩
  | update ht' hloc hmarks hrev =>
    obtain ⟨rfl, rfl, -⟩ := ht.unique ht'
    exact absurd (hf.symm.trans hloc.2) (by decide)

theorem ConStepped.of_local (h : ConStepped env it wl fs wl' fs')
    (ht : Transfer env fs.table it a b s) (hloc : IsLocal env it a b s) :
    fs'.marks = fs.marks ∧ ∃ isFix,
      Revised fs.table it.2.2 (fun _ => .ok s) s (Lattice.join a b) isFix fs'.table ∧
      wl' = if isFix then wl else (wl ++ outItems env.cfg it.2.2).eraseDups := by
  obtain ⟨hs, hf⟩ := hloc
  cases h with
  | bottom ht' hb htab hmarks =>
    obtain ⟨-, -, rfl⟩ := ht.unique ht'
    exact absurd (hb.symm.trans hs) (by decide)
  | mark ht' hb hfin htab hmarks =>
    obtain ⟨rfl, rfl, -⟩ := ht.unique ht'
    exact absurd (hfin.symm.trans hf) (by decide)
  | update ht' hloc hmarks hrev =>
    obtain ⟨rfl, rfl, rfl⟩ := ht.unique ht'
    exact ⟨hmarks, _, hrev, rfl⟩

end Stepped

/-- The transformer of the edge of an item. -/
def itemTransformer (env : FixEnv) (it : WItem) (s : ConState) :
    Except DomErr (ConAct × ConState × List Int) :=
  Collapse.codeTransformer env it.1 it.2.2 (env.cfg.edgeInfo it.2.1) s

/-- The item fails: its edge does, or the table is not well formed. -/
def Fails (env : FixEnv) (it : WItem) (table : NodeTable ConState ConAct) : Prop :=
  (∀ p, table.lookup it.1 ≠ some [p]) ∨ (∃ p q l, table.lookup it.2.2 = some (p :: q :: l)) ∨
    ∃ s a e, table.lookup it.1 = some [(s, a)] ∧ itemTransformer env it s = .error e

omit [SimpleC] in
theorem getNodeInfo_eq_ok {fn : String} {table : NodeTable ConState ConAct} {n : NodeId}
    {p : ConState × ConAct} (h : getNodeInfo fn table n = .ok p) : table.lookup n = some [p] := by
  unfold getNodeInfo at h
  split at h
  · next q hq => rw [hq, Except.ok.inj h]
  · cases h

theorem processItem_con (env : FixEnv) (it : WItem) (wl : List WItem)
    (fs : FixState ConState ConAct) :
    Op.Sat (processItem env it wl) fs (ConStepped env it wl fs)
      fun _ _ => Fails env it fs.table := by
  obtain ⟨pre, eId, post⟩ := it
  simp only [processItem, Op.sat_bind, Op.sat_get, Op.sat_monadLift]
  refine ⟨?_, ?_⟩
  · rintro ⟨nodeSt, preActs⟩ hinfo
    refine ⟨?_, ?_⟩
    · rintro ⟨postActs, ns, warns⟩ htr
      have ht := transfer_of_eq hinfo htr
      simp only [addFixWarns, Op.sat_modify, Op.sat_ite, Op.sat_pure, Op.sat_bind, addMark]
      refine ⟨fun hb => .bottom ht hb rfl rfl, fun hb =>
        ⟨fun hf => .mark ht (eq_false_of_ne_true hb) hf rfl rfl, fun hf => ?_⟩⟩
      rw [updateFor_con]
      refine (strongUpdate_revised env fs.table post ns _ _).mono ?_ ?_
      · rintro ⟨isFix, table⟩ fs' ⟨rfl, hrev⟩
        exact .update ht ⟨by simpa using hb, by simpa using hf⟩ rfl hrev
      · intro e fs' h
        exact .inr (.inl h)
    · intro e he
      obtain ⟨d, -, hd⟩ := liftFix_eq_error he
      exact .inr (.inr ⟨nodeSt, preActs, d, getNodeInfo_eq_ok hinfo, hd⟩)
  · intro e he
    left
    intro p hp
    simp [getNodeInfo, hp] at he

/-! ## The rule -/

/-- `P` holds of the state and the actions of every node. -/
def AllEntries (P : ConState → ConAct → Prop) (table : NodeTable ConState ConAct) : Prop :=
  ∀ n s a, table.lookup n = some [(s, a)] → P s a

/-- `P` is a property of the states and actions that a thread goes through with local edges, `Q` one
of its results. -/
structure CollapseRule (env : FixEnv) (P Q : ConState → ConAct → Prop) : Prop where
  /-- A local edge. -/
  edge : ∀ {post eId s a b s'}, P s a →
    EdgeEffect env.tid env.symt env.cfgs post (env.cfg.edgeInfo eId).code s b s' →
    s'.isBot = false → Action.isGlobal (a.join b) = false → P s' (a.join b)
  /-- A node that had another state before keeps the actions of it. -/
  merge : ∀ {s a s' a'}, P s a → P s' a' → P s (a.join a')
  /-- The last edge. -/
  last : ∀ {post eId s a b s'}, P s a →
    EdgeEffect env.tid env.symt env.cfgs post (env.cfg.edgeInfo eId).code s b s' → Q s' (a.join b)
  lastMerge : ∀ {s a s' a'}, Q s a → P s' a' → Q s (a.join a')
  /-- The last edge leads to a state that the node has already, and its actions are lost. -/
  stays : ∀ {s a}, P s a → Q s a
  exit : ∀ {s a}, Q s a → Q s (a.join (Act.exitThreadAct ⟨env.tid⟩))

section Rule

variable {env : FixEnv} {P Q : ConState → ConAct → Prop}

omit [SimpleC] in
theorem Revised.allEntries {table table' : NodeTable ConState ConAct} {node : NodeId} {s : ConState}
    {a : ConAct} {isFix : Bool} (hrev : Revised table node (fun _ => .ok s) s a isFix table')
    (hmerge : ∀ {s a s' a'}, P s a → P s' a' → P s (a.join a')) (hall : AllEntries P table)
    (hP : P s a) : AllEntries P table' := by
  -- every entry but the one of `node` is an old one
  have hinsert (b : ConAct) (hb : P s b) : AllEntries P (table.insert node [(s, b)]) := by
    intro n s₁ a₁ hn
    by_cases hne : n = node
    · rw [hne, AList.lookup_insert] at hn
      obtain ⟨rfl, rfl⟩ : s = s₁ ∧ b = a₁ := by simpa using hn
      exact hb
    · rw [AList.lookup_insert_ne hne] at hn
      exact hall n s₁ a₁ hn
  cases hrev with
  | fresh h => exact hinsert a hP
  | fixed h hn => exact hall
  | changed h hn =>
    obtain rfl := Except.ok.inj hn
    exact hinsert _ (hmerge hP (hall _ _ _ h))

omit [SimpleC] in
/-- The entry of the node itself. -/
theorem Revised.entry {table table' : NodeTable ConState ConAct} {node : NodeId} {s s' : ConState}
    {a a' : ConAct} {isFix : Bool} (hrev : Revised table node (fun _ => .ok s) s a isFix table')
    (h : table'.lookup node = some [(s', a')]) :
    s' = s ∧ a' = a ∨ (∃ s₁ a₁, table.lookup node = some [(s₁, a₁)] ∧ s' = s ∧ a' = a.join a₁) ∨
      table.lookup node = some [(s', a')] := by
  cases hrev with
  | fresh _ =>
    rw [AList.lookup_insert] at h
    obtain ⟨rfl, rfl⟩ : s = s' ∧ a = a' := by simpa using h
    exact .inl ⟨rfl, rfl⟩
  | fixed _ _ => exact .inr (.inr h)
  | @changed s₁ a₁ _ hold hn =>
    obtain rfl := Except.ok.inj hn
    rw [AList.lookup_insert] at h
    obtain ⟨rfl, rfl⟩ : s = s' ∧ a.join a₁ = a' := by simpa [Lattice.join] using h
    exact .inr (.inl ⟨s₁, a₁, hold, rfl, rfl⟩)

omit [SimpleC] in
/-- Actions that are not global have no locks, unlocks and creates. -/
theorem not_mem_of_isGlobal {a : ConAct} (h : Action.isGlobal a = false) (x : MemAddr ConValue) :
    x ∉ a.locks ∧ x ∉ a.unlocks ∧ x ∉ a.tcreate := by
  have hempty : a.locks = .addrs [] ∧ a.unlocks = .addrs [] ∧ a.tcreate = .addrs [] := by
    simp only [Action.isGlobal, Lattice.isBot] at h
    simp_all
  rw [hempty.1, hempty.2.1, hempty.2.2]
  exact ⟨List.not_mem_nil, List.not_mem_nil, List.not_mem_nil⟩

theorem Transfer.edgeEffect {table : NodeTable ConState ConAct} {it : WItem}
    {preActs postActs : ConAct} {ns : ConState} (h : Transfer env table it preActs postActs ns) :
    ∃ s, table.lookup it.1 = some [(s, preActs)] ∧ EdgeEffect env.tid env.symt env.cfgs it.2.2
      (env.cfg.edgeInfo it.2.1).code s postActs ns := by
  obtain ⟨s, warns, hl, htr⟩ := h.out
  exact ⟨s, hl, codeTransformer_effect htr⟩

theorem ConStepped.allEntries (rule : CollapseRule env P Q) {it : WItem} {wl wl' : List WItem}
    {fs fs' : FixState ConState ConAct} (h : ConStepped env it wl fs wl' fs')
    (hall : AllEntries P fs.table) : AllEntries P fs'.table := by
  cases h with
  | bottom ht hb htab _ => rwa [htab]
  | mark ht hb hfin htab _ => rwa [htab]
  | update ht hloc hmarks hrev =>
    obtain ⟨s, hl, he⟩ := ht.edgeEffect
    obtain ⟨hb, hfin⟩ := hloc
    simp only [isFinal, Bool.or_eq_false_iff] at hfin
    exact hrev.allEntries rule.merge hall (rule.edge (hall _ _ _ hl) he hb hfin.1.1)

theorem handleMark_con (rule : CollapseRule env P Q) (it : WItem) (fs : FixState ConState ConAct)
    (hall : AllEntries P fs.table) :
    Op.Sat (handleMark env it) fs (fun r _ => Q r.2.1 r.2.2.2) fun _ _ => True := by
  obtain ⟨pre, eId, post⟩ := it
  simp only [handleMark, Op.sat_bind, Op.sat_get, Op.sat_monadLift, implies_true, and_true]
  rintro ⟨nodeSt, preActs⟩ hinfo ⟨postActs, ns, warns⟩ htr
  obtain ⟨s, hl, he⟩ := (transfer_of_eq hinfo htr).edgeEffect
  have hQ : Q ns (preActs.join postActs) := rule.last (hall _ _ _ hl) he
  rw [updateFor_con]
  refine (strongUpdate_revised env fs.table post ns _ _).mono ?_ fun _ _ _ => trivial
  rintro ⟨isFix, table⟩ fs' ⟨-, hrev⟩
  simp only [updateNodeTable, Op.sat_modify]
  have hres : ∀ s' a', table.lookup post = some [(s', a')] → Q s' a' := by
    intro s' a' h
    rcases hrev.entry h with ⟨rfl, rfl⟩ | ⟨s₁, a₁, hold, rfl, rfl⟩ | hold
    · exact hQ
    · exact rule.lastMerge hQ (hall _ _ _ hold)
    · exact rule.stays (hall _ _ _ hold)
  split
  · next resSt resAct h =>
    simp only [Op.sat_ite, Op.sat_pure]
    exact ⟨fun _ => rule.exit (hres _ _ h), fun _ => hres _ _ h⟩
  · trivial

/-- If there is one result, there was one mark, and the table is the one that the worklist left. -/
theorem fixptResult_con (rule : CollapseRule env P Q) (hmode : env.mode = false)
    (fs : FixState ConState ConAct) (hall : AllEntries P fs.table) :
    Op.Sat (fixptResult env) fs (fun r _ => ∀ s' pos acts, r.2 = [(s', pos, acts)] → Q s' acts)
      fun _ _ => True := by
  simp only [fixptResult, hmode, Op.sat_bind, Op.sat_get, Bool.false_eq_true, if_false, Op.sat_pure]
  rcases fs.marks with _ | ⟨it, _ | ⟨it', l⟩⟩
  · simp [List.mapM']
  · simp only [List.mapM', Op.sat_bind, Op.sat_pure]
    refine (handleMark_con rule it fs hall).mono ?_ fun _ _ _ => trivial
    rintro ⟨warns, res⟩ _ hQ s' pos acts h
    obtain rfl : res = (s', pos, acts) := by simpa using h
    exact hQ
  · simp only [List.mapM', Op.sat_bind, Op.sat_pure]
    refine Op.sat_true.mono (fun r _ _ => ?_) fun _ _ _ => trivial
    refine Op.sat_true.mono (fun r' _ _ => ?_) fun _ _ _ => trivial
    refine Op.sat_true.mono (fun rs _ _ => ?_) fun _ _ _ => trivial
    simp

/-- One result of a run from a state with `P` has `Q`. -/
theorem fixpt_con (rule : CollapseRule env P Q) (hmode : env.mode = false) {fuel : Nat} {pos : Pos}
    {s s' : ConState} {warns : List Int} {pos' : Pos} {acts : ConAct} (h₀ : P s Act.bot)
    (h : (fixpt fuel env pos s).1 = .ok (warns, [(s', pos', acts)])) : Q s' acts := by
  have hinit : AllEntries P (initTable env.cfg pos s) := by
    intro n s₁ a₁ hn
    by_cases hne : n = pos
    · rw [hne, initTable, AList.lookup_insert] at hn
      obtain ⟨rfl, rfl⟩ : s = s₁ ∧ Lattice.bot = a₁ := by simpa using hn
      exact h₀
    · exact absurd hn (lookup_initTable_of_ne hne _)
  have hitem : ∀ it wl (fs : FixState ConState ConAct), AllEntries P fs.table →
      Op.Sat (processItem env it wl) fs (fun _ fs' => AllEntries P fs'.table) fun _ _ => True :=
    fun it wl fs hall => (processItem_con env it wl fs).mono
      (fun _ _ hstep => hstep.allEntries rule hall) fun _ _ _ => trivial
  have hsat : Op.Sat (worklist env fuel (outItems env.cfg pos)) (initFixState env.cfg pos s)
      (fun r _ => ∀ s' pos acts, r.2 = [(s', pos, acts)] → Q s' acts) fun _ _ => True := by
    simp only [worklist, Op.sat_bind]
    refine (loop_sat (P := fun _ fs => AllEntries P fs.table) hitem fuel _ _ hinit).mono ?_
      fun _ _ _ => trivial
    exact fun _ fs hall => fixptResult_con rule hmode fs hall
  exact hsat.of_eq_ok (Prod.ext h rfl) s' pos' acts rfl

end Rule

/-! ## Steps of a thread -/

/-- The thread is enabled in `s`, and the actions of its next step, which leads to `s'`. -/
def ConStep (syst : System ConState ConAct) (s : ConState) (tid : TId) (acts : ConAct)
    (s' : ConState) : Prop :=
  ∃ fuel warns pos, runCon fuel false 10000 syst s tid = .ok (warns, [(s', pos, acts)])

/-- The constant part of the engine's state in a step. -/
def stepEnv (syst : System ConState ConAct) (tid : TId) (cfg : Graph) : FixEnv :=
  ⟨false, tid, syst.cfgs, syst.symt, cfg, 10000⟩

/-- A thread takes a step in the graph of its code. -/
theorem ConStep.run {syst : System ConState ConAct} {s s' : ConState} {tid : TId} {acts : ConAct}
    (h : ConStep syst s tid acts s') :
    ∃ th cfg fuel warns pos, s.thStates.lookup tid = some th ∧
      syst.cfgs.lookup th.thCfgId = some cfg ∧
      (fixpt fuel (stepEnv syst tid cfg) th.thPos s).1 = .ok (warns, [(s', pos, acts)]) := by
  obtain ⟨fuel, warns, pos, hrun⟩ := h
  simp only [runCon, runProg] at hrun
  split at hrun
  · cases hrun
  · next th hth =>
    split at hrun
    · cases hrun
    · next cfg hcfg => exact ⟨th, cfg, fuel, warns, pos, hth, hcfg, hrun⟩

theorem ConStep.rule {syst : System ConState ConAct} {s s' : ConState} {tid : TId} {acts : ConAct}
    {P Q : ConState → ConAct → Prop} (h : ConStep syst s tid acts s') (h₀ : P s Act.bot)
    (rule : ∀ sym cfg, syst.cfgs.lookup sym = some cfg →
      CollapseRule (stepEnv syst tid cfg) P Q) : Q s' acts := by
  obtain ⟨th, cfg, fuel, warns, pos, -, hcfg, hrun⟩ := h.run
  exact fixpt_con (rule _ cfg hcfg) rfl h₀ hrun

/-- The states that the initial state leads to by steps of any threads. -/
inductive ConReach (syst : System ConState ConAct) : ConState → Prop where
  | init : ConReach syst syst.gbst
  | step {s tid acts s'} (h : ConReach syst s) (hs : ConStep syst s tid acts s') : ConReach syst s'

end Poet
