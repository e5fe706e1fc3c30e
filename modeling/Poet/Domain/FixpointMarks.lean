import Mathlib.Data.List.Forall2
import Poet.Domain.FixpointStep

/-!
# Marked edges and the table they share

`fixptResult` handles the marks one after the other, and each `handleMark` writes its result back
into the table before the next mark is read. What a mark gives depends on the entries of its two
nodes only (`handleMark_congr`), and it changes the entry of its target only (`handleMark_frame`).
So a mark is not disturbed by those before it if none of them ends where it starts and none ends
where it ends, except for copies of the same edge that overwrite. The converse is shown in a domain
made for it: states count the edges they went through, actions remember one edge.

| here | there |
| --- | --- |
| `MarksIndependent` | the results of `fixpt_result` (`Class.hs:231`), for all marks and for one |
| `LocalUpdate`      | what the three updates of `Class.hs:74-117` have in common |
-/

namespace Poet

theorem forall₂_getElem? {α β : Type} {R : α → β → Prop} {l : List α} {l' : List β}
    (h : List.Forall₂ R l l') {j : Nat} {a : α} (hj : l[j]? = some a) :
    ∃ b, l'[j]? = some b ∧ R a b := by
  induction h generalizing j with
  | nil => simp at hj
  | cons hab _ ih =>
    cases j with
    | zero =>
      obtain rfl : _ = a := by simpa using hj
      exact ⟨_, rfl, hab⟩
    | succ j => exact ih (by simpa using hj)

section Independence

variable {st act : Type} [DecidableEq st] [LatticeM st] [Lattice act]

/-- Two outcomes of an update with the same entry of `node`, or the same error. -/
def SameEntry (node : NodeId) :
    Except FixErr (Bool × NodeTable st act) → Except FixErr (Bool × NodeTable st act) → Prop
  | .ok r, .ok r' => r.2.lookup node = r'.2.lookup node
  | .error e, .error e' => e = e'
  | _, _ => False

/-- Of all nodes an update only reads and writes the one it is for: its entry and its counter. -/
structure LocalUpdate (upd : Update st act) : Prop where
  congr : ∀ env table table' node p fs fs', table.lookup node = table'.lookup node →
    fs.count node = fs'.count node →
    SameEntry node (upd env table node p fs).1 (upd env table' node p fs').1
  frame : ∀ env table node p fs, Op.Sat (upd env table node p) fs
    (fun r fs' => (∀ v ≠ node, r.2.lookup v = table.lookup v) ∧
      ∀ v ≠ node, fs'.count v = fs.count v) fun _ _ => True

/-- A domain may have its own weak and loop head updates, as long as they are local. -/
structure NodeUpdates (st act : Type) [DecidableEq st] [LatticeM st] [Lattice act]
    [Collapse st act] : Prop where
  weak : LocalUpdate (Collapse.weak : Update st act)
  strong : (Collapse.strong : Update st act) = strongUpdate
  loopHead : LocalUpdate (Collapse.loopHead : Update st act)

omit [DecidableEq st] [LatticeM st] [Lattice act] in
/-- An update ends by leaving the table as it is, or by a new entry for its node. -/
theorem sameEntry_ite {node : NodeId} {table table' : NodeTable st act} {q : List (st × act)}
    {fs fs' : FixState st act} {c : Prop} [Decidable c]
    (h : table.lookup node = table'.lookup node) :
    SameEntry node
      ((if c then pure (true, table) else pure (false, table.insert node q) : FixOp st act _) fs).1
      ((if c then pure (true, table') else pure (false, table'.insert node q) : FixOp st act _) fs').1 := by
  by_cases hc : c
  · simpa [SameEntry, pure, Op.pure, hc] using h
  · simp [SameEntry, pure, Op.pure, hc]

theorem weakUpdate_local : LocalUpdate (weakUpdate : Update st act) where
  congr env table table' node p fs fs' h _ := by
    simp only [weakUpdate, ← h]
    rcases hl : table.lookup node with _ | _ | ⟨⟨s', a'⟩, _ | _⟩
    · simp [SameEntry, pure, Op.pure]
    · simp [SameEntry, pure, Op.pure]
    · dsimp only
      rcases LatticeM.join p.1 s' with d | s₁
      · exact rfl
      · exact sameEntry_ite h
    · simp [SameEntry, Op.fail]
  frame env table node p fs := by
    refine (weakUpdate_revised env table node p.1 p.2 fs).mono ?_ fun _ _ _ => trivial
    rintro r fs' ⟨rfl, hrev⟩
    exact ⟨fun v hv => hrev.lookup_ne hv, fun _ _ => rfl⟩

omit [LatticeM st] in
theorem strongUpdate_local : LocalUpdate (strongUpdate : Update st act) where
  congr env table table' node p fs fs' h _ := by
    simp only [strongUpdate, ← h]
    rcases hl : table.lookup node with _ | _ | ⟨⟨s', a'⟩, _ | _⟩
    · simp [SameEntry, pure, Op.pure]
    · simp [SameEntry, pure, Op.pure]
    · exact sameEntry_ite h
    · simp [SameEntry, Op.fail]
  frame env table node p fs := by
    refine (strongUpdate_revised env table node p.1 p.2 fs).mono ?_ fun _ _ _ => trivial
    rintro r fs' ⟨rfl, hrev⟩
    exact ⟨fun v hv => hrev.lookup_ne hv, fun _ _ => rfl⟩

theorem loopHeadUpdate_local : LocalUpdate (loopHeadUpdate : Update st act) where
  congr env table table' node p fs fs' h hc := by
    simp only [loopHeadUpdate, getWideNode, incWideNode, bind, Op.bind, Op.get, Op.modify, pure,
      Op.pure, ← h]
    have hc' : (fs.wide.lookup node).getD 0 = (fs'.wide.lookup node).getD 0 := hc
    rw [← hc']
    by_cases hw : env.wid ≤ (fs.wide.lookup node).getD 0
    · simp only [hw, if_true]
      rcases hl : table.lookup node with _ | _ | ⟨⟨s', a'⟩, _ | _⟩
      · simp [SameEntry, Op.pure]
      · simp [SameEntry, Op.fail]
      · dsimp only
        rcases LatticeM.widen s' p.1 with d | s₁
        · exact rfl
        · exact sameEntry_ite h
      · simp [SameEntry, Op.fail]
    · simp only [hw, if_false]
      refine weakUpdate_local.congr _ _ _ _ _ _ _ h ?_
      simp [FixState.count]
  frame env table node p fs := by
    refine (loopHeadUpdate_revised env table node p.1 p.2 fs).mono ?_ fun _ _ _ => trivial
    rintro r fs' ⟨⟨-, -, hcount⟩, hrev⟩
    exact ⟨fun v hv => hrev.lookup_ne hv, fun v hv => by simp [hcount, hv]⟩

variable [Collapse st act]

theorem UsesDefaults.nodeUpdates (h : UsesDefaults st act) : NodeUpdates st act :=
  ⟨h.weak ▸ weakUpdate_local, h.strong, h.loopHead ▸ loopHeadUpdate_local⟩

theorem updateFor_local (hupd : NodeUpdates st act) (tags : List EdgeTag) :
    LocalUpdate (updateFor tags : Update st act) := by
  unfold updateFor
  split
  · exact hupd.loopHead
  · exact hupd.weak
  · exact hupd.strong ▸ strongUpdate_local

/-- The tags ask for the update that overwrites. -/
def Overwrites (tags : List EdgeTag) : Prop := tags ≠ [.loopHead] ∧ tags ≠ [.ifJoin]

theorem updateFor_overwrites (hupd : NodeUpdates st act) {tags : List EdgeTag}
    (ht : Overwrites tags) : (updateFor tags : Update st act) = strongUpdate := by
  unfold updateFor
  split
  · exact absurd rfl ht.1
  · exact absurd rfl ht.2
  · exact hupd.strong

variable [Action act] {env : FixEnv}

/-! ## One mark -/

/-- What a mark brings to its target: actions, state and warnings. -/
def markInput (env : FixEnv) (it : WItem) (table : NodeTable st act) :
    Except FixErr (act × st × List Int) := do
  let (nodeSt, preActs) ← getNodeInfo "handle_mark" table it.1
  let (postActs, s, warns) ←
    liftFix (Collapse.codeTransformer env it.1 it.2.2 (env.cfg.edgeInfo it.2.1) nodeSt)
  return (Lattice.join preActs postActs, s, warns)

/-- What a mark returns, from the entry of its target. -/
def markOutput (env : FixEnv) (it : WItem) (warns : List Int) :
    Option (List (st × act)) → Except FixErr (List Int × (st × Pos × act))
  | some [(resSt, resAct)] =>
    .ok (warns, (resSt, it.2.2,
      if decide (.exit ∈ (env.cfg.edgeInfo it.2.1).tags) || (outItems env.cfg it.2.2).isEmpty
      then Lattice.join resAct (Action.exitAct ⟨env.tid⟩) else resAct))
  | _ => .error .noFinalValue

theorem handleMark_eq (it : WItem) (fs : FixState st act) :
    handleMark env it fs =
      match markInput env it fs.table with
      | .error e => (.error e, fs)
      | .ok (acts, s, warns) =>
        match updateFor (env.cfg.edgeInfo it.2.1).tags env fs.table it.2.2 (s, acts) fs with
        | (.error e, fs') => (.error e, fs')
        | (.ok (_, table), fs') =>
          (markOutput env it warns (table.lookup it.2.2), { fs' with table := table }) := by
  obtain ⟨pre, eId, post⟩ := it
  have hget : ∀ k : FixState st act → FixOp st act (List Int × (st × Pos × act)),
      (Op.get >>= k) fs = k fs fs := fun _ => rfl
  unfold handleMark markInput
  simp only [hget]
  rcases getNodeInfo "handle_mark" fs.table pre with e | ⟨nodeSt, preActs⟩
  · rfl
  generalize hx : (liftFix (Collapse.codeTransformer env pre post (env.cfg.edgeInfo eId) nodeSt) :
    Except FixErr (act × st × List Int)) = x
  rcases x with e | ⟨postActs, s, warns⟩
  · simp only [Op.bind_liftM_ok, hx, Op.bind_liftM_error, ok_bind, error_bind]
  simp only [Op.bind_liftM_ok, hx, ok_bind, pure_eq_ok]
  show Op.bind (updateFor _ env fs.table post (s, Lattice.join preActs postActs)) _ fs = _
  unfold Op.bind
  rcases updateFor _ env fs.table post (s, Lattice.join preActs postActs) fs with
    ⟨e | ⟨isFix, table⟩, fs'⟩
  · rfl
  show (match table.lookup post with
    | some [(resSt, resAct)] => _
    | _ => Op.fail .noFinalValue : FixOp st act _) { fs' with table := table } =
      (markOutput env (pre, eId, post) warns (table.lookup post), _)
  rcases table.lookup post with _ | _ | ⟨⟨resSt, resAct⟩, _ | _⟩
  · rfl
  · rfl
  · by_cases hexit : (decide (EdgeTag.exit ∈ (env.cfg.edgeInfo eId).tags) ||
        (outItems env.cfg post).isEmpty) = true
    · simp only [markOutput, hexit, if_true]
      rfl
    · simp only [markOutput, hexit]
      rfl
  · rfl

/-- What a mark does, if it returns. -/
theorem handleMark_ok {it : WItem} {fs fs₁ : FixState st act} {r : List Int × (st × Pos × act)} :
    handleMark env it fs = (.ok r, fs₁) ↔ ∃ acts s warns isFix table fs₂,
      markInput env it fs.table = .ok (acts, s, warns) ∧
      updateFor (env.cfg.edgeInfo it.2.1).tags env fs.table it.2.2 (s, acts) fs =
        (.ok (isFix, table), fs₂) ∧
      markOutput env it warns (table.lookup it.2.2) = .ok r ∧ { fs₂ with table := table } = fs₁ := by
  rw [handleMark_eq]
  constructor
  · intro h
    split at h
    · simp at h
    · next acts s warns hin =>
      split at h
      · simp at h
      · next isFix table fs₂ hu =>
        simp only [Prod.mk.injEq] at h
        exact ⟨acts, s, warns, isFix, table, fs₂, hin, hu, h⟩
  · rintro ⟨acts, s, warns, isFix, table, fs₂, hin, hu, hout, rfl⟩
    simp only [hin, hu, hout]

/-- The entries and the counter that the mark reads are the same. -/
structure SameView (it : WItem) (fs fs' : FixState st act) : Prop where
  pre : fs.table.lookup it.1 = fs'.table.lookup it.1
  post : fs.table.lookup it.2.2 = fs'.table.lookup it.2.2
  count : fs.count it.2.2 = fs'.count it.2.2

omit [Action act] in
theorem markInput_congr {it : WItem} {table table' : NodeTable st act}
    (h : table.lookup it.1 = table'.lookup it.1) :
    markInput env it table = markInput env it table' := by
  simp only [markInput, getNodeInfo, h]

/-- A mark returns the same and leaves the same entry of its target. -/
theorem handleMark_congr (hupd : NodeUpdates st act) {it : WItem} {fs fs' fs₁ : FixState st act}
    {r : List Int × (st × Pos × act)} (hv : SameView it fs fs')
    (h : handleMark env it fs = (.ok r, fs₁)) :
    ∃ fs₁', handleMark env it fs' = (.ok r, fs₁') ∧
      fs₁'.table.lookup it.2.2 = fs₁.table.lookup it.2.2 := by
  obtain ⟨acts, s, warns, isFix, table, fs₂, hin, hu, hout, rfl⟩ := handleMark_ok.1 h
  have hsame := (updateFor_local hupd (env.cfg.edgeInfo it.2.1).tags).congr env fs.table fs'.table
    it.2.2 (s, acts) fs fs' hv.post hv.count
  rcases hu' : updateFor (env.cfg.edgeInfo it.2.1).tags env fs'.table it.2.2 (s, acts) fs' with
    ⟨e | ⟨isFix', table'⟩, fs₂'⟩
  · simp [hu, hu', SameEntry] at hsame
  have htab : table.lookup it.2.2 = table'.lookup it.2.2 := by
    simpa [hu, hu', SameEntry] using hsame
  refine ⟨_, handleMark_ok.2 ⟨acts, s, warns, isFix', table', fs₂', ?_, hu', ?_, rfl⟩, htab.symm⟩
  · rw [← hin, markInput_congr hv.pre]
  · rw [← htab, hout]

/-- A mark changes nothing but its target. -/
theorem handleMark_frame (hupd : NodeUpdates st act) {it : WItem} {fs fs₁ : FixState st act}
    {r : List Int × (st × Pos × act)} (h : handleMark env it fs = (.ok r, fs₁)) {v : NodeId}
    (hv : v ≠ it.2.2) :
    fs₁.table.lookup v = fs.table.lookup v ∧ fs₁.count v = fs.count v := by
  obtain ⟨acts, s, warns, isFix, table, fs₂, -, hu, -, rfl⟩ := handleMark_ok.1 h
  have hframe := ((updateFor_local hupd (env.cfg.edgeInfo it.2.1).tags).frame env fs.table it.2.2
    (s, acts) fs).of_eq_ok hu
  exact ⟨hframe.1 v hv, hframe.2 v hv⟩

omit [LatticeM st] [Collapse st act] [Action act] in
/-- The update that overwrites leaves the incoming state. -/
theorem strongUpdate_lookup {table table' : NodeTable st act} {node : NodeId} {s : st} {a : act}
    {fs fs' : FixState st act} {isFix : Bool}
    (h : strongUpdate env table node (s, a) fs = (.ok (isFix, table'), fs')) :
    ∃ a', table'.lookup node = some [(s, a')] := by
  obtain ⟨-, hrev⟩ := (strongUpdate_revised env table node s a fs).of_eq_ok h
  cases hrev with
  | fresh => exact ⟨_, AList.lookup_insert _⟩
  | fixed hl hs => exact ⟨_, Except.ok.inj hs ▸ hl⟩
  | changed hl hs =>
    obtain rfl := Except.ok.inj hs
    exact ⟨_, AList.lookup_insert _⟩

/-- A mark that overwrites finds a fixpoint when it is handled again. -/
theorem handleMark_again (hupd : NodeUpdates st act) {it : WItem}
    (ht : Overwrites (env.cfg.edgeInfo it.2.1).tags) {fs fs₁ fs' : FixState st act}
    {r : List Int × (st × Pos × act)} (h : handleMark env it fs = (.ok r, fs₁))
    (hpre : fs.table.lookup it.1 = fs'.table.lookup it.1)
    (hpost : fs'.table.lookup it.2.2 = fs₁.table.lookup it.2.2) :
    handleMark env it fs' = (.ok r, fs') := by
  obtain ⟨acts, s, warns, isFix, table, fs₂, hin, hu, hout, rfl⟩ := handleMark_ok.1 h
  rw [updateFor_overwrites hupd ht] at hu
  obtain ⟨a', hl⟩ := strongUpdate_lookup hu
  have hl' : fs'.table.lookup it.2.2 = some [(s, a')] := hpost.trans hl
  refine handleMark_ok.2 ⟨acts, s, warns, true, fs'.table, fs', ?_, ?_, ?_, rfl⟩
  · rw [← hin, markInput_congr hpre]
  · rw [updateFor_overwrites hupd ht]
    simp [strongUpdate, hl', pure, Op.pure]
  · rw [hl', ← hl, hout]

/-! ## All marks -/

/-- Two edges with the same ends and the same code. -/
structure Parallel (cfg : Graph) (it it' : WItem) : Prop where
  pre : it.1 = it'.1
  post : it.2.2 = it'.2.2
  info : cfg.edgeInfo it.2.1 = cfg.edgeInfo it'.2.1

theorem handleMark_parallel {it it' : WItem} (h : Parallel env.cfg it it') :
    (handleMark env it : FixOp st act _) = handleMark env it' := by
  obtain ⟨pre, eId, post⟩ := it
  obtain ⟨pre', eId', post'⟩ := it'
  obtain ⟨rfl, rfl, hinfo⟩ := h
  have hinfo' : env.cfg.edgeInfo eId = env.cfg.edgeInfo eId' := hinfo
  unfold handleMark
  simp only [hinfo']

/-- The mark `it`, handled before `it'`, does not disturb it. -/
structure Undisturbed (cfg : Graph) (it it' : WItem) : Prop where
  start : it.2.2 ≠ it'.1
  target : it.2.2 = it'.2.2 → Parallel cfg it it' ∧ Overwrites (cfg.edgeInfo it'.2.1).tags

/-- After the marks `done`: nodes that are not a target are as at the start, and the entry of a
target is the one that each of its marks would have left at the start. -/
structure MarksDone (env : FixEnv) (fs₀ : FixState st act) (done : List WItem)
    (fs : FixState st act) : Prop where
  other : ∀ v, (∀ it ∈ done, it.2.2 ≠ v) →
    fs.table.lookup v = fs₀.table.lookup v ∧ fs.count v = fs₀.count v
  target : ∀ it ∈ done, ∃ r fs₁, handleMark env it fs₀ = (.ok r, fs₁) ∧
    fs.table.lookup it.2.2 = fs₁.table.lookup it.2.2

theorem MarksDone.step (hupd : NodeUpdates st act) {fs₀ fs fs' : FixState st act}
    {done : List WItem} {it : WItem} {r : List Int × (st × Pos × act)}
    (hinv : MarksDone env fs₀ done fs) (hund : ∀ it' ∈ done, Undisturbed env.cfg it' it)
    (h : handleMark env it fs = (.ok r, fs')) :
    (∃ fs₁, handleMark env it fs₀ = (.ok r, fs₁)) ∧ MarksDone env fs₀ (done ++ [it]) fs' := by
  have hpre := (hinv.other it.1 fun it' hit' => (hund it' hit').start).1
  by_cases hpost : ∃ it' ∈ done, it'.2.2 = it.2.2
  · obtain ⟨it', hit', heq⟩ := hpost
    obtain ⟨hpar, hover⟩ := (hund it' hit').target heq
    obtain ⟨r', fs₁, hr', hl⟩ := hinv.target it' hit'
    rw [handleMark_parallel hpar] at hr'
    rw [heq] at hl
    have hagain := handleMark_again hupd hover hr' hpre.symm hl
    obtain ⟨rfl, rfl⟩ : r' = r ∧ fs = fs' := by simpa [hagain] using h
    refine ⟨⟨fs₁, hr'⟩, ⟨fun v hv => hinv.other v fun i hi => hv i (by simp [hi]), ?_⟩⟩
    intro i hi
    rcases List.mem_append.1 hi with hi | hi
    · exact hinv.target i hi
    · obtain rfl : i = it := by simpa using hi
      exact ⟨r', fs₁, hr', hl⟩
  · have hnew : ∀ it' ∈ done, it'.2.2 ≠ it.2.2 := fun it' hit' heq => hpost ⟨it', hit', heq⟩
    have hview : SameView it fs fs₀ := ⟨hpre, (hinv.other _ hnew).1, (hinv.other _ hnew).2⟩
    obtain ⟨fs₁, hr, hl⟩ := handleMark_congr hupd hview h
    refine ⟨⟨fs₁, hr⟩, ⟨fun v hv => ?_, ?_⟩⟩
    · have hframe := handleMark_frame hupd h (v := v) (fun heq => hv it (by simp) heq.symm)
      have hother := hinv.other v fun i hi => hv i (by simp [hi])
      exact ⟨hframe.1.trans hother.1, hframe.2.trans hother.2⟩
    · intro i hi
      rcases List.mem_append.1 hi with hi | hi
      · obtain ⟨r', fs₂, hr', hl'⟩ := hinv.target i hi
        exact ⟨r', fs₂, hr', (handleMark_frame hupd h (hnew i hi)).1.trans hl'⟩
      · obtain rfl : i = it := by simpa using hi
        exact ⟨r, fs₁, hr, hl.symm⟩

/-- No mark is disturbed by those handled before it. -/
def SeparateMarks (cfg : Graph) (marks : List WItem) : Prop := marks.Pairwise (Undisturbed cfg)

theorem mapM'_handleMark (hupd : NodeUpdates st act) {marks : List WItem}
    (hsep : SeparateMarks env.cfg marks) (fs : FixState st act) :
    Op.Sat (marks.mapM' (handleMark env)) fs
      (fun rs _ => List.Forall₂ (fun it r => ∃ fs₁, handleMark env it fs = (.ok r, fs₁)) marks rs)
      fun _ _ => True := by
  have hrun := Op.sat_mapM' (f := handleMark env) (l := marks) (s := fs) (E := fun _ _ => True)
    (fun done rs fs' => MarksDone env fs done fs' ∧
      List.Forall₂ (fun it r => ∃ fs₁, handleMark env it fs = (.ok r, fs₁)) done rs) ?_ ?_
  · exact hrun.mono (fun _ _ h => h.2) fun _ _ h => h
  · intro done it rs fs' hpre ⟨hinv, hall⟩
    refine Op.sat_of_ok fun r fs'' h => ?_
    have hund : ∀ it' ∈ done, Undisturbed env.cfg it' it := by
      have hpw := hsep.sublist hpre.sublist
      intro it' hit'
      exact (List.pairwise_append.1 hpw).2.2 it' hit' it (by simp)
    obtain ⟨hone, hinv'⟩ := hinv.step hupd hund h
    exact ⟨hinv', List.rel_append hall (.cons hone .nil)⟩
  · exact ⟨⟨fun _ _ => ⟨rfl, rfl⟩, by simp⟩, .nil⟩

theorem fixptResult_of_ok (fs : FixState st act) {fs' : FixState st act}
    {rs : List (List Int × (st × Pos × act))}
    (h : fs.marks.mapM' (handleMark env) fs = (.ok rs, fs')) :
    ∃ w rest, (fixptResult env fs).1 = .ok (w, rs.map (·.2) ++ rest) ∧
      (env.mode = false → rest = []) := by
  have hres : Op.Sat (fixptResult env) fs (fun r _ => ∃ rest, r.2 = rs.map (·.2) ++ rest ∧
      (env.mode = false → rest = [])) fun _ _ => False := by
    simp only [fixptResult, Op.sat_bind, Op.sat_get]
    rw [Op.sat_of_eq_ok h]
    simp only [Op.sat_ite, Op.sat_bind, Op.sat_get, Op.sat_pure]
    exact ⟨fun hmode => ⟨_, rfl, fun hno => by simp [hmode] at hno⟩,
      fun _ => ⟨[], by simp, fun _ => rfl⟩⟩
  obtain ⟨⟨w, res⟩, fs₁, hr, rest, hrest, hmode⟩ := hres.exists_ok fun _ _ h => h
  exact ⟨w, rest, by rw [hr, ← hrest], hmode⟩

theorem fixptResult_of_error {fs fs' : FixState st act} {e : FixErr}
    (h : fs.marks.mapM' (handleMark env) fs = (.error e, fs')) :
    (fixptResult env fs).1 = .error e := by
  show (Op.bind (fs.marks.mapM' (handleMark env)) _ fs).1 = _
  rw [Op.bind, h]

/-- The list of marks is not read when a mark is handled. -/
theorem fixptResult_single (hupd : NodeUpdates st act) {it : WItem} {fs fs₁ : FixState st act}
    {r : List Int × (st × Pos × act)} (h : handleMark env it fs = (.ok r, fs₁)) :
    ∃ w rest, (fixptResult env { fs with marks := [it] }).1 = .ok (w, r.2 :: rest) := by
  have hview : SameView it fs { fs with marks := [it] } := ⟨rfl, rfl, rfl⟩
  obtain ⟨fs₂, halone, -⟩ := handleMark_congr hupd hview h
  have hrun : ([it] : List WItem).mapM' (handleMark env) { fs with marks := [it] } =
      (.ok [r], fs₂) := by
    simp only [List.mapM'_cons, List.mapM'_nil, Op.bind_of_eq_ok halone]
    rfl
  obtain ⟨w, rest, hres, -⟩ := fixptResult_of_ok { fs with marks := [it] } hrun
  exact ⟨w, rest, hres⟩

/-- The result of each mark is the one that it has as the only mark. -/
def MarksIndependent (env : FixEnv) (fs : FixState st act) : Prop :=
  ∀ warns res, (fixptResult env fs).1 = .ok (warns, res) → ∀ (j : Nat) (it : WItem),
    fs.marks[j]? = some it → ∃ w r rest,
      (fixptResult env { fs with marks := [it] }).1 = .ok (w, r :: rest) ∧ res[j]? = some r

theorem marksIndependent_of_separate (hupd : NodeUpdates st act) {fs : FixState st act}
    (hsep : SeparateMarks env.cfg fs.marks) : MarksIndependent env fs := by
  intro warns res hres j it hj
  rcases hrun : fs.marks.mapM' (handleMark env) fs with ⟨e | rs, fs'⟩
  · rw [fixptResult_of_error hrun] at hres
    cases hres
  obtain ⟨w, rest, hall, -⟩ := fixptResult_of_ok fs hrun
  obtain ⟨-, rfl⟩ : w = warns ∧ rs.map (·.2) ++ rest = res := by simpa [hall] using hres
  have hrel := (mapM'_handleMark hupd hsep fs).of_eq_ok hrun
  obtain ⟨r, hr, fs₁, hone⟩ := forall₂_getElem? hrel hj
  obtain ⟨w', rest', hres'⟩ := fixptResult_single hupd hone
  refine ⟨w', r.2, rest', hres', ?_⟩
  have hjlt : j < (rs.map (·.2)).length := by
    simpa using (List.getElem?_eq_some_iff.1 hr).1
  rw [List.getElem?_append_left hjlt, List.getElem?_map, hr]
  rfl

end Independence

/-! ## A domain that shows every disturbance -/

/-- A state of the probe for the edges from `pre` with `info`: how many edges lead here, and whether
the last of them was one of those. -/
structure Probe (pre : NodeId) (info : EdgeInfo) where
  edges : Nat
  hit : Bool
deriving DecidableEq

/-- How many of the edges of the probe were followed. -/
structure ProbeAct where
  hits : Nat

section Probe

variable {pre : NodeId} {info : EdgeInfo}

instance : LatticeM (Probe pre info) where
  join s s' := .ok ⟨s.edges + s'.edges, s.hit || s'.hit⟩
  leq s s' := .ok (s.edges ≤ s'.edges)
  isBot _ := false
  widen s s' := .ok ⟨s.edges + s'.edges, s.hit || s'.hit⟩

instance : Lattice ProbeAct where
  bot := ⟨0⟩
  join a a' := ⟨a.hits + a'.hits⟩
  meet a _ := a
  leq a a' := a.hits ≤ a'.hits
  isBot a := a.hits = 0
  widen a _ := a

instance : Action ProbeAct where
  isLock _ := false
  isUnlock _ := false
  isJoin _ := false
  isUnlockOf _ _ := false
  isLockOf _ _ := false
  isCreateOf _ _ := false
  interferes _ _ := false
  isGlobal _ := false
  exitAct _ := ⟨0⟩

open Classical in
noncomputable instance : Collapse (Probe pre info) ProbeAct where
  codeTransformer _ pre' _ info' s :=
    let hit : Bool := decide (pre' = pre ∧ info' = info)
    .ok (⟨hit.toNat⟩, ⟨s.edges + 1, hit⟩, [])

theorem probe_usesDefaults : UsesDefaults (Probe pre info) ProbeAct := ⟨rfl, rfl, rfl⟩

theorem probe_nodeUpdates : NodeUpdates (Probe pre info) ProbeAct := probe_usesDefaults.nodeUpdates

abbrev ProbeState (pre : NodeId) (info : EdgeInfo) := FixState (Probe pre info) ProbeAct

theorem nextState_overwrites (env : FixEnv) {tags : List EdgeTag} (ht : Overwrites tags) (c : Int)
    (s s' : Probe pre info) : nextState env tags c s s' = .ok s := by
  unfold nextState
  split
  · exact absurd rfl ht.1
  · exact absurd rfl ht.2
  · rfl

/-- An update that does not overwrite adds up the edges. -/
theorem nextState_probe (env : FixEnv) (tags : List EdgeTag) (c : Int) (s s' : Probe pre info) :
    ∃ s₁, nextState env tags c s s' = .ok s₁ ∧
      (s.edges ≤ s₁.edges ∧ s₁.edges ≤ s.edges + s'.edges) ∧
      (¬ Overwrites tags → s.edges + s'.edges ≤ s₁.edges) ∧
      (s₁.hit = true → s.hit = true ∨ s'.hit = true) := by
  by_cases hover : Overwrites tags
  · rw [nextState_overwrites env hover]
    exact ⟨s, rfl, ⟨le_rfl, by simp⟩, fun h => absurd hover h, .inl⟩
  · unfold nextState
    split
    · split
      · exact ⟨_, rfl, by simp [Nat.add_comm, or_comm]⟩
      · exact ⟨_, rfl, by simp⟩
    · exact ⟨_, rfl, by simp⟩
    · next h₁ h₂ => exact absurd ⟨h₁, h₂⟩ hover

/-- What a mark makes of the entries `p` of its source and `q` of its target; `hit` says that it is
an edge of the probe. -/
structure Counted (tags : List EdgeTag) (hit : Prop) (p q q' : Probe pre info × ProbeAct) :
    Prop where
  edges : p.1.edges + 1 ≤ q'.1.edges ∧ q'.1.edges ≤ p.1.edges + 1 + q.1.edges
  adds : ¬ Overwrites tags → p.1.edges + 1 + q.1.edges ≤ q'.1.edges
  lower : q.2.hits ≤ q'.2.hits
  upper : ¬ hit → q'.2.hits ≤ p.2.hits + q.2.hits
  hit : hit → (q.1.hit = true → 1 ≤ q.2.hits) → 1 ≤ q'.2.hits
  sound : (q.1.hit = true → 1 ≤ q.2.hits) → q'.1.hit = true → 1 ≤ q'.2.hits

theorem counted_of_revised {env : FixEnv} {tags : List EdgeTag} {c : Int} {hit : Bool}
    {p q : Probe pre info × ProbeAct} {table table' : NodeTable (Probe pre info) ProbeAct}
    {node : NodeId} {isFix : Bool} (hq : table.lookup node = some [q])
    (hrev : Revised table node (nextState env tags c ⟨p.1.edges + 1, hit⟩) ⟨p.1.edges + 1, hit⟩
      (Lattice.join p.2 ⟨hit.toNat⟩) isFix table') :
    ∃ q', table'.lookup node = some [q'] ∧ Counted tags (hit = true) p q q' := by
  cases hrev with
  | fresh h => exact absurd hq (h q)
  | @fixed s' a' h hn =>
    obtain rfl : q = (s', a') := by simpa [hq] using h
    -- an update that adds does not leave the state as it is
    have hover : Overwrites tags := by
      by_contra hno
      obtain ⟨s₁, hs₁, -, hadd, -⟩ := nextState_probe env tags c ⟨p.1.edges + 1, hit⟩ s'
      obtain rfl : s' = s₁ := Except.ok.inj (hn.symm.trans hs₁)
      have hadd := hadd hno
      dsimp only at hadd
      omega
    obtain rfl : _ = s' := Except.ok.inj ((nextState_overwrites env hover c _ _).symm.trans hn)
    refine ⟨_, hq, ⟨by simp, fun h => absurd hover h, le_rfl, fun _ => by simp, ?_, fun h => h⟩⟩
    intro hhit hq1
    exact hq1 hhit
  | @changed s' a' s₁ h hn _ =>
    obtain rfl : q = (s', a') := by simpa [hq] using h
    obtain ⟨s₂, hs₂, hedges, hadd, hor⟩ := nextState_probe env tags c ⟨p.1.edges + 1, hit⟩ s'
    obtain rfl : s₁ = s₂ := Except.ok.inj (hn.symm.trans hs₂)
    refine ⟨_, AList.lookup_insert _, ⟨hedges, hadd, ?_, ?_, ?_, ?_⟩⟩
    · show a'.hits ≤ p.2.hits + hit.toNat + a'.hits
      omega
    · intro hno
      show p.2.hits + hit.toNat + a'.hits ≤ p.2.hits + a'.hits
      simp [Bool.eq_false_iff.2 hno]
    · intro hhit _
      show 1 ≤ p.2.hits + hit.toNat + a'.hits
      simp only [hhit, Bool.toNat_true]
      omega
    · intro hq1 hhit
      show 1 ≤ p.2.hits + hit.toNat + a'.hits
      rcases hor hhit with hhit' | hhit'
      · have htrue : hit = true := hhit'
        simp only [htrue, Bool.toNat_true]
        omega
      · have hle : 1 ≤ a'.hits := hq1 hhit'
        omega

theorem handleMark_probe (env : FixEnv) {it : WItem} {fs : ProbeState pre info}
    {p q : Probe pre info × ProbeAct} (hp : fs.table.lookup it.1 = some [p])
    (hq : fs.table.lookup it.2.2 = some [q]) :
    ∃ r fs' q', handleMark env it fs = (.ok r, fs') ∧ fs'.table.lookup it.2.2 = some [q'] ∧
      r.2.1 = q'.1 ∧ r.2.2.2.hits = q'.2.hits ∧
      Counted (env.cfg.edgeInfo it.2.1).tags (it.1 = pre ∧ env.cfg.edgeInfo it.2.1 = info) p q q' := by
  classical
  let hit : Bool := decide (it.1 = pre ∧ env.cfg.edgeInfo it.2.1 = info)
  have hin : markInput env it fs.table =
      .ok (Lattice.join p.2 ⟨hit.toNat⟩, ⟨p.1.edges + 1, hit⟩, []) := by
    simp only [markInput, getNodeInfo, hp, ok_bind]
    rfl
  have hstuck : ¬ Stuck env (env.cfg.edgeInfo it.2.1).tags fs fs.table it.2.2 := by
    simp [Stuck, hq]
  have herr : ∀ d s', nextState env (env.cfg.edgeInfo it.2.1).tags (fs.count it.2.2)
      (⟨p.1.edges + 1, hit⟩ : Probe pre info) s' ≠ .error d := by
    intro d s' h
    obtain ⟨s₁, hs₁, -⟩ := nextState_probe env (env.cfg.edgeInfo it.2.1).tags (fs.count it.2.2)
      (⟨p.1.edges + 1, hit⟩ : Probe pre info) s'
    rw [hs₁] at h
    cases h
  obtain ⟨⟨isFix, table⟩, fs₂, hu, -, hrev⟩ := (updateFor_revised probe_usesDefaults
    (env.cfg.edgeInfo it.2.1).tags env fs.table it.2.2 ⟨p.1.edges + 1, hit⟩
    (Lattice.join p.2 ⟨hit.toNat⟩) fs).exists_ok <| by
      rintro _ _ (⟨d, s', -, hd⟩ | h)
      · exact herr d s' hd
      · exact hstuck h
  obtain ⟨q', hq', hcount⟩ := counted_of_revised hq hrev
  obtain ⟨r, hout, hst, hhits⟩ : ∃ r, markOutput env it [] (table.lookup it.2.2) = .ok r ∧
      r.2.1 = q'.1 ∧ r.2.2.2.hits = q'.2.hits := by
    rw [hq']
    refine ⟨_, rfl, rfl, ?_⟩
    dsimp only
    split
    · exact Nat.add_zero _
    · rfl
  refine ⟨r, _, q', handleMark_ok.2 ⟨_, _, _, isFix, table, fs₂, hin, hu, hout, rfl⟩, hq', hst,
    hhits, ?_⟩
  simpa [hit] using hcount

/-! ### Runs of the probe -/

/-- The nodes of the marks. -/
def markNodes (marks : List WItem) : List NodeId := marks.flatMap fun it => [it.1, it.2.2]

/-- Every node of the marks has an entry that counts nothing. -/
def probeTable (nodes : List NodeId) : NodeTable (Probe pre info) ProbeAct :=
  nodes.foldr (fun v t => t.insert v [(⟨0, false⟩, ⟨0⟩)]) ∅

theorem lookup_probeTable {v : NodeId} :
    ∀ {nodes : List NodeId}, v ∈ nodes →
      (probeTable nodes : NodeTable (Probe pre info) ProbeAct).lookup v = some [(⟨0, false⟩, ⟨0⟩)]
  | w :: nodes, hv => by
    by_cases hvw : v = w
    · subst hvw
      exact AList.lookup_insert _
    · have hv' : v ∈ nodes := by simpa [hvw] using hv
      exact (AList.lookup_insert_ne hvw).trans (lookup_probeTable hv')

/-- After the marks `done`: where the last edge was one of the probe there are hits, and if `m` is
one of the marks, its target has edges and hits. -/
structure Probed (m : WItem) (nodes : List NodeId) (done : List WItem) (fs : ProbeState pre info) :
    Prop where
  entries : ∀ v ∈ nodes, ∃ p, fs.table.lookup v = some [p] ∧ (p.1.hit = true → 1 ≤ p.2.hits)
  reached : m ∈ done → ∀ p, fs.table.lookup m.2.2 = some [p] → 1 ≤ p.1.edges ∧ 1 ≤ p.2.hits

/-- The result of a mark that comes after `m` shows it. -/
structure Shows (cfg : Graph) (m it : WItem) (r : List Int × (Probe pre info × Pos × ProbeAct)) :
    Prop where
  start : m.2.2 = it.1 → 2 ≤ r.2.1.edges
  adds : m.2.2 = it.2.2 → ¬ Overwrites (cfg.edgeInfo it.2.1).tags → 2 ≤ r.2.1.edges
  hits : m.2.2 = it.2.2 → 1 ≤ r.2.2.2.hits

theorem Probed.step {env : FixEnv} {m : WItem} {nodes : List NodeId} {done : List WItem}
    {it : WItem} {fs : ProbeState m.1 (env.cfg.edgeInfo m.2.1)}
    (hinv : Probed m nodes done fs) (hpre : it.1 ∈ nodes) (hpost : it.2.2 ∈ nodes) :
    ∃ r fs', handleMark env it fs = (.ok r, fs') ∧ Probed m nodes (done ++ [it]) fs' ∧
      (m ∈ done → Shows env.cfg m it r) := by
  obtain ⟨p, hp, -⟩ := hinv.entries it.1 hpre
  obtain ⟨q, hq, hqs⟩ := hinv.entries it.2.2 hpost
  obtain ⟨r, fs', q', hr, hq', hst, hhits, hc⟩ := handleMark_probe env hp hq
  have hframe : ∀ v, v ≠ it.2.2 → fs'.table.lookup v = fs.table.lookup v := fun v hv =>
    (handleMark_frame probe_nodeUpdates hr hv).1
  refine ⟨r, fs', hr, ⟨fun v hv => ?_, fun hm p' hp' => ?_⟩, fun hm => ⟨fun h => ?_, ?_, fun h => ?_⟩⟩
  · by_cases hvit : v = it.2.2
    · exact ⟨q', hvit ▸ hq', hc.sound hqs⟩
    · rw [hframe v hvit]
      exact hinv.entries v hv
  · by_cases hmit : m.2.2 = it.2.2
    · rw [hmit, hq'] at hp'
      obtain rfl : q' = p' := by simpa using hp'
      refine ⟨by have := hc.edges.1; omega, ?_⟩
      rcases List.mem_append.1 hm with hm | hm
      · have := (hinv.reached hm q (hmit ▸ hq)).2
        exact this.trans hc.lower
      · obtain rfl : m = it := by simpa using hm
        exact hc.hit ⟨rfl, rfl⟩ hqs
    · have hm' : m ∈ done := by
        rcases List.mem_append.1 hm with hm | hm
        · exact hm
        · obtain rfl : m = it := by simpa using hm
          exact absurd rfl hmit
      exact hinv.reached hm' p' (by rw [← hframe _ hmit, hp'])
  · have := (hinv.reached hm p (h ▸ hp)).1
    have := hc.edges.1
    rw [hst]
    omega
  · intro h hno
    have := (hinv.reached hm q (h ▸ hq)).1
    have := hc.adds hno
    rw [hst]
    omega
  · rw [hhits]
    exact ((hinv.reached hm q (h ▸ hq)).2).trans hc.lower

theorem mapM'_probe {env : FixEnv} {m : WItem} {marks : List WItem}
    {fs : ProbeState m.1 (env.cfg.edgeInfo m.2.1)} (hinv : Probed m (markNodes marks) [] fs) :
    ∃ rs fs', marks.mapM' (handleMark env) fs = (.ok rs, fs') ∧
      ∀ done it, done ++ [it] <+: marks → m ∈ done →
        ∃ r, rs[done.length]? = some r ∧ Shows env.cfg m it r := by
  have hrun := Op.sat_mapM' (f := handleMark env) (l := marks) (s := fs) (E := fun _ _ => False)
    (fun done rs fs' => Probed m (markNodes marks) done fs' ∧ rs.length = done.length ∧
      ∀ done' it, done' ++ [it] <+: done → m ∈ done' →
        ∃ r, rs[done'.length]? = some r ∧ Shows env.cfg m it r) ?_ ?_
  · obtain ⟨rs, fs', hrs, -, -, hshow⟩ := hrun.exists_ok fun _ _ h => h
    exact ⟨rs, fs', hrs, hshow⟩
  · intro done it rs fs' hl ⟨hP, hlen, hshow⟩
    have hit : it ∈ marks := hl.subset (by simp)
    have hpre : it.1 ∈ markNodes marks := List.mem_flatMap.2 ⟨it, hit, by simp⟩
    have hpost : it.2.2 ∈ markNodes marks := List.mem_flatMap.2 ⟨it, hit, by simp⟩
    obtain ⟨r, fs'', hr, hP', hone⟩ := hP.step hpre hpost
    rw [Op.sat_of_eq_ok hr]
    refine ⟨hP', by simp [hlen], ?_⟩
    intro done' it' hpre' hm
    rcases List.prefix_concat_iff.1 hpre' with heq | hpre'
    · obtain ⟨rfl, rfl⟩ : done' = done ∧ it' = it := by simpa using heq
      exact ⟨r, by simp [← hlen], hone hm⟩
    · obtain ⟨r', hr', hsh⟩ := hshow done' it' hpre' hm
      refine ⟨r', ?_, hsh⟩
      rw [List.getElem?_append_left (List.getElem?_eq_some_iff.1 hr').1, hr']
  · exact ⟨hinv, rfl, by simp⟩

/-- As the only mark, an edge counts itself, and it has hits only if it is an edge of the probe. -/
theorem handleMark_alone (env : FixEnv) {it : WItem} {fs : ProbeState pre info}
    (hpre : fs.table.lookup it.1 = some [(⟨0, false⟩, ⟨0⟩)])
    (hpost : fs.table.lookup it.2.2 = some [(⟨0, false⟩, ⟨0⟩)]) :
    ∃ r fs', handleMark env it fs = (.ok r, fs') ∧ r.2.1.edges = 1 ∧
      (1 ≤ r.2.2.2.hits → it.1 = pre ∧ env.cfg.edgeInfo it.2.1 = info) := by
  obtain ⟨r, fs', q', hr, -, hst, hhits, hc⟩ := handleMark_probe env hpre hpost
  refine ⟨r, fs', hr, ?_, fun h => ?_⟩
  · have hle := hc.edges
    simp only [Nat.zero_add, Nat.add_zero] at hle
    rw [hst]
    omega
  · by_contra hno
    have hle := hc.upper hno
    simp only [Nat.zero_add] at hle
    omega

end Probe

/-- Marks whose results agree in every domain with those they have alone are separate. -/
theorem undisturbed_of_independent {env : FixEnv} {marks : List WItem} {i j : Nat}
    (hi : i < marks.length) (hj : j < marks.length) (hij : i < j)
    (hind : MarksIndependent env (⟨probeTable (markNodes marks), marks, [], []⟩ :
      ProbeState marks[i].1 (env.cfg.edgeInfo marks[i].2.1))) :
    Undisturbed env.cfg marks[i] marks[j] := by
  set m := marks[i] with hm
  set it := marks[j] with hit
  set fs : ProbeState m.1 (env.cfg.edgeInfo m.2.1) :=
    ⟨probeTable (markNodes marks), marks, [], []⟩ with hfs
  have hzero : ∀ v ∈ markNodes marks, fs.table.lookup v = some [(⟨0, false⟩, ⟨0⟩)] :=
    fun v hv => lookup_probeTable hv
  have hinit : Probed m (markNodes marks) [] fs :=
    ⟨fun v hv => ⟨_, hzero v hv, by simp⟩, by simp⟩
  -- the result with all marks
  obtain ⟨rs, fs', hrun, hshow⟩ := mapM'_probe hinit
  obtain ⟨w, rest, hall, -⟩ := fixptResult_of_ok fs hrun
  have hprefix : marks.take j ++ [it] <+: marks := by
    rw [hit, List.take_append_getElem hj]
    exact List.take_prefix _ _
  have hmem : m ∈ marks.take j := List.mem_take_iff_getElem.2 ⟨i, by omega, rfl⟩
  obtain ⟨r, hr, hsh⟩ := hshow _ it hprefix hmem
  rw [List.length_take_of_le hj.le] at hr
  -- the result with one
  have hmark : it ∈ marks := List.getElem_mem hj
  obtain ⟨r', fs₁, hr', hedges, hhits⟩ := handleMark_alone env
    (hzero it.1 (List.mem_flatMap.2 ⟨it, hmark, by simp⟩))
    (hzero it.2.2 (List.mem_flatMap.2 ⟨it, hmark, by simp⟩))
  obtain ⟨w', rest', hone⟩ := fixptResult_single probe_nodeUpdates hr'
  obtain ⟨w'', r'', rest'', hone', hres⟩ := hind _ _ hall j it (List.getElem?_eq_getElem hj)
  obtain rfl : r'.2 = r'' := by
    rw [hone] at hone'
    simp only [Except.ok.injEq, Prod.mk.injEq, List.cons.injEq] at hone'
    exact hone'.2.1
  have heq : r.2 = r'.2 := by
    have hjlt : j < (rs.map (·.2)).length := by
      simpa using (List.getElem?_eq_some_iff.1 hr).1
    rw [List.getElem?_append_left hjlt, List.getElem?_map, hr] at hres
    simpa using hres
  rw [← heq] at hedges hhits
  constructor
  · intro h
    have := hsh.start h
    omega
  · intro h
    have hpar := hhits (hsh.hits h)
    refine ⟨⟨hpar.1.symm, h, hpar.2.symm⟩, ?_⟩
    by_contra hno
    have := hsh.adds h hno
    omega

/-- The results of the marks do not depend on each other, whatever the domain, exactly if no mark
ends where a later one starts and those with the same target are copies of one edge that
overwrites. -/
theorem marks_independent_iff (env : FixEnv) (marks : List WItem) :
    (∀ (st act : Type) [DecidableEq st] [LatticeM st] [Lattice act] [Action act] [Collapse st act],
      NodeUpdates st act → ∀ fs : FixState st act, fs.marks = marks → MarksIndependent env fs) ↔
      SeparateMarks env.cfg marks := by
  constructor
  · intro h
    refine List.pairwise_iff_getElem.2 fun i j hi hj hij => ?_
    exact undisturbed_of_independent hi hj hij (h _ _ probe_nodeUpdates _ rfl)
  · intro hsep st act _ _ _ _ _ hupd fs hfs
    exact marksIndependent_of_separate hupd (hfs ▸ hsep)


end Poet
