import Poet.Domain.FixpointMarks
import Poet.Lib.Simulation

/-!
# The ends of a collapse

A run has one result for each marked edge. `Brings` has the states that edges can bring to a node from
the start of the collapse: along edges that are not ends of it, and by the update of a node that has
a state already, in any order. The worklist works through some of them, so it marks only edges that
are ends in one of these states (`EndsInv`), and a code that can come to one end only has at most one
result (`results_le_one`).
-/

namespace Poet

variable {st act : Type} [DecidableEq st] [LatticeM st] [Lattice act] [Action act] [Collapse st act]

/-- The edge leads from `s` on to `s'`. -/
def Flows (act : Type) [Lattice act] [Action act] [Collapse st act] (env : FixEnv) (it : WItem)
    (s s' : st) : Prop :=
  ∃ (b : act) (w : List Int),
    Collapse.codeTransformer env it.1 it.2.2 (env.cfg.edgeInfo it.2.1) s = .ok (b, s', w) ∧
      LatticeM.isBot s' = false ∧ isFinal env (env.cfg.edgeInfo it.2.1) it.2.2 b = false

/-- The edge can be taken in `s` and is an end of the collapse: its own action is global, it is an exit
or nothing follows. -/
def EndsIn (act : Type) [Lattice act] [Action act] [Collapse st act] (env : FixEnv) (it : WItem) (s : st) :
    Prop :=
  ∃ (b : act) (s' : st) (w : List Int),
    Collapse.codeTransformer env it.1 it.2.2 (env.cfg.edgeInfo it.2.1) s = .ok (b, s', w) ∧
      LatticeM.isBot s' = false ∧ isFinal env (env.cfg.edgeInfo it.2.1) it.2.2 b = true

/-- The states that the collapse of `s₀` from `pos` can bring to a node. -/
inductive Brings (act : Type) [Lattice act] [Action act] [Collapse st act] (env : FixEnv)
    (pos : NodeId) (s₀ : st) : NodeId → st → Prop where
  | start : Brings act env pos s₀ pos s₀
  | flow {it : WItem} {s s' : st} (h : Brings act env pos s₀ it.1 s)
      (hit : it ∈ outItems env.cfg it.1) (hf : Flows act env it s s') :
      Brings act env pos s₀ it.2.2 s'
  | merge {it : WItem} {s s' old new : st} {c : Int} (h : Brings act env pos s₀ it.1 s)
      (hit : it ∈ outItems env.cfg it.1) (hf : Flows act env it s s')
      (hold : Brings act env pos s₀ it.2.2 old)
      (hn : nextState env (env.cfg.edgeInfo it.2.1).tags c s' old = .ok new) :
      Brings act env pos s₀ it.2.2 new

/-- The edge is an end in a state that the collapse can bring to its source. -/
def EndReached (act : Type) [Lattice act] [Action act] [Collapse st act] (env : FixEnv) (pos : NodeId)
    (s₀ : st) (it : WItem) : Prop :=
  it ∈ outItems env.cfg it.1 ∧ ∃ s, Brings act env pos s₀ it.1 s ∧ EndsIn act env it s

/-- At most one edge is an end that can be reached. -/
def OneEnd (act : Type) [Lattice act] [Action act] [Collapse st act] (env : FixEnv) (pos : NodeId)
    (s₀ : st) : Prop :=
  ∀ it it', EndReached act env pos s₀ it → EndReached act env pos s₀ it' → it = it'

/-- Actions are global if one of their parts is. -/
structure GlobalParts (act : Type) [Lattice act] [Action act] : Prop where
  bot : Action.isGlobal (Lattice.bot : act) = false
  join : ∀ a b : act, Action.isGlobal (Lattice.join a b) = (Action.isGlobal a || Action.isGlobal b)

omit [DecidableEq st] [LatticeM st] [Collapse st act] in
/-- Local actions before an edge do not make it final. -/
theorem GlobalParts.isFinal_join (hg : GlobalParts act) {env : FixEnv} {info : EdgeInfo}
    {post : NodeId} {a b : act} (ha : Action.isGlobal a = false) :
    isFinal env info post (Lattice.join a b) = isFinal env info post b := by
  unfold isFinal
  rw [hg.join, ha, Bool.false_or]

theorem isBot_join {v : Type} [DecidableEq v] (x y : MemAddrs v) :
    Lattice.isBot (x.join y) = (Lattice.isBot x && Lattice.isBot y) := by
  cases x with
  | top => rfl
  | addrs l =>
    cases y with
    | top => simp [MemAddrs.join, Lattice.isBot]
    | addrs m =>
      cases l <;> cases m <;> simp [MemAddrs.join, Lattice.isBot, List.eraseDups_cons]

theorem globalParts_act {v : Type} [DecidableEq v] [ToValue v] : GlobalParts (Act v) where
  bot := rfl
  join a b := by
    simp only [Action.isGlobal, Lattice.join, Act.join, List.all_cons, List.all_nil, Bool.and_true]
    have hb := isBot_join (v := v)
    simp only [Lattice.isBot] at hb ⊢
    simp only [hb, Bool.not_and, Bool.or_assoc]
    ac_rfl

section Worklist

variable {env : FixEnv} {pos : NodeId} {s₀ : st} {it : WItem} {wl wl' : List WItem}
  {fs fs' : FixState st act}

/-- What the worklist keeps. -/
structure EndsInv (env : FixEnv) (pos : NodeId) (s₀ : st) (wl : List WItem) (fs : FixState st act) :
    Prop where
  items : ∀ it ∈ wl, it ∈ outItems env.cfg it.1
  entries : ∀ n s a, fs.table.lookup n = some [(s, a)] →
    Brings act env pos s₀ n s ∧ Action.isGlobal a = false
  marks : ∀ it ∈ fs.marks, EndReached act env pos s₀ it
  nodup : fs.marks.Nodup

omit [DecidableEq st] [LatticeM st] [Lattice act] [Action act] [Collapse st act] in
theorem nodup_insertMark {marks : List WItem} (h : marks.Nodup) : (insertMark it marks).Nodup := by
  unfold insertMark
  split
  · exact h
  · next hnot =>
    exact (List.perm_orderedInsert _ it marks).nodup_iff.2 (List.nodup_cons.2 ⟨hnot, h⟩)

/-- An update brings a state that can be reached, with local actions. -/
theorem EndsInv.entries_of_revised (hg : GlobalParts act) (h : EndsInv env pos s₀ (it :: wl) fs)
    {s s' : st} {a b : act} (hs : Brings act env pos s₀ it.1 s) (hf : Flows act env it s s')
    (ha : Action.isGlobal (Lattice.join a b) = false) {isFix : Bool} {table : NodeTable st act}
    (hrev : Revised fs.table it.2.2 (nextState env (env.cfg.edgeInfo it.2.1).tags
      (fs.count it.2.2) s') s' (Lattice.join a b) isFix table) :
    ∀ n s a, table.lookup n = some [(s, a)] →
      Brings act env pos s₀ n s ∧ Action.isGlobal a = false := by
  have hit := h.items it List.mem_cons_self
  intro n s₁ a₁ hl
  by_cases hn : n = it.2.2
  · subst hn
    cases hrev with
    | fresh _ =>
      rw [AList.lookup_insert] at hl
      obtain ⟨rfl, rfl⟩ : s' = s₁ ∧ Lattice.join a b = a₁ := by simpa using hl
      exact ⟨.flow hs hit hf, ha⟩
    | fixed _ _ => exact h.entries _ _ _ hl
    | changed hold hn _ =>
      rw [AList.lookup_insert] at hl
      obtain ⟨rfl, rfl⟩ := Prod.mk.inj (List.cons.inj (Option.some.inj hl)).1
      obtain ⟨hr, ha'⟩ := h.entries _ _ _ hold
      exact ⟨.merge hs hit hf hr hn, by rw [hg.join, ha, ha']; rfl⟩
  · rw [hrev.lookup_ne hn] at hl
    exact h.entries n s₁ a₁ hl

theorem EndsInv.step (hdef : UsesDefaults st act) (hg : GlobalParts act)
    (h : EndsInv env pos s₀ (it :: wl) fs) :
    Op.Sat (processItem env it wl) fs (EndsInv env pos s₀) fun _ _ => True := by
  obtain ⟨pre, eId, post⟩ := it
  have hitems : ∀ x ∈ wl, x ∈ outItems env.cfg x.1 := fun x hx =>
    h.items x (List.mem_cons_of_mem _ hx)
  simp only [processItem, Op.sat_bind, Op.sat_get, Op.sat_monadLift, implies_true, and_true]
  rintro ⟨s, a⟩ hinfo ⟨b, s', warns⟩ htr
  obtain ⟨_, w, hl, ht⟩ := (transfer_of_eq hinfo htr).out
  obtain ⟨hs, ha⟩ := h.entries pre _ a hl
  have hfin : isFinal env (env.cfg.edgeInfo eId) post (Lattice.join a b) =
      isFinal env (env.cfg.edgeInfo eId) post b := hg.isFinal_join ha
  simp only [addFixWarns, Op.sat_modify, Op.sat_ite, Op.sat_pure, Op.sat_bind, addMark, hfin]
  refine ⟨fun _ => ⟨hitems, h.entries, h.marks, h.nodup⟩, fun hb => ⟨fun hf => ?_, fun hf => ?_⟩⟩
  · -- the edge is marked
    refine ⟨hitems, h.entries, fun x hx => ?_, nodup_insertMark h.nodup⟩
    rcases mem_insertMark.1 hx with rfl | hx
    · exact ⟨h.items _ List.mem_cons_self, _, hs, b, s', w, ht, by simpa using hb, hf⟩
    · exact h.marks x hx
  · refine (updateFor_revised hdef _ env fs.table post s' _ _).mono ?_ fun _ _ _ => trivial
    rintro ⟨isFix, table⟩ fs' ⟨⟨-, hm, -⟩, hrev⟩
    have hf' : isFinal env (env.cfg.edgeInfo eId) post b = false := by simpa using hf
    have hflow : Flows act env (pre, eId, post) _ s' := ⟨b, w, ht, by simpa using hb, hf'⟩
    have hlocal : Action.isGlobal (Lattice.join a b) = false := by
      rw [← hfin] at hf'
      simp only [isFinal, Bool.or_eq_false_iff] at hf'
      exact hf'.1.1
    refine ⟨fun x hx => ?_, h.entries_of_revised hg hs hflow hlocal hrev, ?_, ?_⟩
    · have hx' : x ∈ wl ∨ x ∈ outItems env.cfg post := by
        cases isFix with
        | true => exact .inl hx
        | false => simpa using hx
      rcases hx' with hx | hx
      · exact hitems x hx
      · exact fst_of_mem_outItems hx ▸ hx
    · show ∀ x ∈ fs'.marks, _
      rw [hm]
      exact h.marks
    · show fs'.marks.Nodup
      rw [hm]
      exact h.nodup

theorem endsInv_init (hg : GlobalParts act) (env : FixEnv) (pos : NodeId) (s₀ : st) :
    EndsInv env pos s₀ (outItems env.cfg pos) (initFixState env.cfg pos s₀ : FixState st act) := by
  refine ⟨fun x hx => fst_of_mem_outItems hx ▸ hx, fun n s a hl => ?_, by simp [initFixState],
    by simp [initFixState]⟩
  by_cases hn : n = pos
  · subst hn
    have hpos : (initTable env.cfg n s₀ : NodeTable st act).lookup n = some [(s₀, Lattice.bot)] :=
      AList.lookup_insert _
    obtain ⟨rfl, rfl⟩ : s₀ = s ∧ Lattice.bot = a := by simpa [initFixState, hpos] using hl
    exact ⟨.start, hg.bot⟩
  · cases eq_nil_of_lookup_initTable hn hl

/-- The marks of a run are ends that can be reached, each once. -/
theorem loop_marks (hdef : UsesDefaults st act) (hg : GlobalParts act) {fuel : Nat}
    (h : loop env fuel (outItems env.cfg pos) (initFixState env.cfg pos s₀) = (.ok (), fs)) :
    (∀ it ∈ fs.marks, EndReached act env pos s₀ it) ∧ fs.marks.Nodup := by
  have hinv := (loop_sat (fun it wl fs h => h.step hdef hg) fuel _ _
    (endsInv_init hg env pos s₀)).of_eq_ok h
  exact ⟨hinv.marks, hinv.nodup⟩

end Worklist

/-- A code that can come to one end only has at most one result. -/
theorem results_le_one (hdef : UsesDefaults st act) (hg : GlobalParts act) {env : FixEnv}
    {pos : NodeId} {s₀ : st} (hmode : env.mode = false) (hone : OneEnd act env pos s₀) {fuel : Nat}
    {w : List Int} {res : ResultList st act} (h : (fixpt fuel env pos s₀).1 = .ok (w, res)) :
    res.length ≤ 1 := by
  obtain ⟨⟨⟩, fs, hloop, hres⟩ := Op.run_bind_eq_ok.1
    (show (loop env fuel (outItems env.cfg pos) >>= fun _ => fixptResult env)
      (initFixState env.cfg pos s₀) = (.ok (w, res), (fixpt fuel env pos s₀).2) from Prod.ext h rfl)
  obtain ⟨rs, fs₁, _, hrs, -⟩ := fixptResult_marks hres
  -- the results are those of the marks, and there are no two
  obtain ⟨w', rest, hres', hrest⟩ := fixptResult_of_ok fs hrs
  rw [hres] at hres'
  obtain ⟨-, rfl⟩ := Prod.mk.inj (Except.ok.inj hres')
  obtain ⟨hends, hnodup⟩ := loop_marks hdef hg hloop
  rw [hrest hmode, List.append_nil, List.length_map, Op.length_mapM' hrs]
  match hm : fs.marks with
  | [] => exact Nat.zero_le 1
  | [_] => exact Nat.le_refl 1
  | it :: it' :: l =>
    rw [hm] at hends hnodup
    have heq := hone it it' (hends _ (by simp)) (hends _ (by simp))
    simp [heq] at hnodup

end Poet
