import Poet.Domain.Concrete.Collapse
import Poet.Domain.FixpointEnds
import Poet.Lib.Measure

/-!
# Threads that wait

A thread waits if every way on from its position comes, after some local edges, to an edge that can
not be taken: a lock of a locked mutex, a join with a thread that has not ended, or a condition that
does not hold. The worklist then ends without a mark, and `enabled` does not report the thread. The
worklist ends because the number of local edges that are left decreases along every way, and so does
the multiset of these numbers over the items that are left.
-/

namespace Poet

variable [SimpleC]

/-- Every way on from the node ends in fewer than `k` local edges at edges that can not be taken. -/
def WaitsIn (env : FixEnv) : Nat → NodeId → ConState → Prop
  | 0, _, _ => False
  | k + 1, n, s => ∀ it ∈ outItems env.cfg n, ∃ a s' warns,
      itemTransformer env it s = .ok (a, s', warns) ∧ (s'.isBot = true ∨
        isFinal env (env.cfg.edgeInfo it.2.1) it.2.2 a = false ∧ WaitsIn env k it.2.2 s')

/-- The table of a thread that waits: `rank` bounds the local edges that are left at a node. -/
structure WaitTable (env : FixEnv) (rank : NodeId → Nat) (wl : List WItem)
    (fs : FixState ConState ConAct) : Prop where
  entries : ∀ n s a, fs.table.lookup n = some [(s, a)] →
    Action.isGlobal a = false ∧ WaitsIn env (rank n) n s
  single : ∀ n p q l, fs.table.lookup n ≠ some (p :: q :: l)
  items : ∀ it ∈ wl, it ∈ outItems env.cfg it.1 ∧ ∃ p, fs.table.lookup it.1 = some [p]
  marks : fs.marks = []

section Table

variable {env : FixEnv} {rank : NodeId → Nat} {it : WItem} {wl wl' : List WItem}
  {fs fs' : FixState ConState ConAct}

theorem WaitTable.not_fails (h : WaitTable env rank (it :: wl) fs) : ¬ Fails env it fs.table := by
  obtain ⟨hmem, p, hp⟩ := h.items it List.mem_cons_self
  rintro (hnone | ⟨p, q, l, htwo⟩ | ⟨s, a, e, hs, he⟩)
  · exact hnone p hp
  · exact h.single _ p q l htwo
  · have hw := (h.entries _ s a hs).2
    cases hr : rank it.1 with
    | zero =>
      rw [hr] at hw
      exact hw
    | succ k =>
      rw [hr] at hw
      obtain ⟨a', s', warns, hok, -⟩ := hw it hmem
      rw [hok] at he
      cases he

/-- The edge of an item can not be taken, or it is local and one edge less is left after it. -/
theorem WaitTable.transfer (h : WaitTable env rank (it :: wl) fs) {preActs postActs : ConAct}
    {ns : ConState} (ht : Transfer env fs.table it preActs postActs ns) :
    Action.isGlobal preActs = false ∧ (ns.isBot = true ∨
      isFinal env (env.cfg.edgeInfo it.2.1) it.2.2 (Lattice.join preActs postActs) = false ∧
        ∃ k, k < rank it.1 ∧ WaitsIn env k it.2.2 ns) := by
  obtain ⟨hmem, -⟩ := h.items it List.mem_cons_self
  obtain ⟨s, warns, hs, hok⟩ := ht.out
  obtain ⟨hg, hw⟩ := h.entries _ s preActs hs
  refine ⟨hg, ?_⟩
  cases hr : rank it.1 with
  | zero =>
    rw [hr] at hw
    exact hw.elim
  | succ k =>
    rw [hr] at hw
    obtain ⟨a, s', warns', hok', hcase⟩ := hw it hmem
    obtain ⟨rfl, rfl, -⟩ : a = postActs ∧ s' = ns ∧ warns' = warns := by
      have heq := hok'.symm.trans hok
      simpa using heq
    rw [globalParts_act.isFinal_join hg]
    exact hcase.imp id fun ⟨hf, hk⟩ => ⟨hf, k, Nat.lt_succ_self k, hk⟩

/-- The sum over the items that are left is a multiset of ranks. -/
def ranks (rank : NodeId → Nat) (wl : List WItem) : Multiset Nat :=
  (wl : Multiset WItem).map fun it => rank it.1

/-- An item that leaves the table. -/
theorem WaitTable.skip (h : WaitTable env rank (it :: wl) fs) (htab : fs'.table = fs.table)
    (hmarks : fs'.marks = fs.marks) :
    WaitTable env rank wl fs' ∧
      Multiset.IsDershowitzMannaLT (ranks rank wl) (ranks rank (it :: wl)) := by
  refine ⟨⟨?_, ?_, ?_, hmarks.trans h.marks⟩, isDershowitzMannaLT_cons _ _⟩
  · rw [htab]
    exact h.entries
  · rw [htab]
    exact h.single
  · rw [htab]
    exact fun it' hit' => h.items it' (List.mem_cons_of_mem _ hit')

/-- The target of the item gets a new state, with fewer edges left. -/
theorem WaitTable.update (h : WaitTable env rank (it :: wl) fs) {ns : ConState} {a : ConAct}
    {k : Nat} (hk : k < rank it.1) (hw : WaitsIn env k it.2.2 ns)
    (hg : Action.isGlobal a = false) (hmarks : fs'.marks = fs.marks)
    (htab : fs'.table = fs.table.insert it.2.2 [(ns, a)]) :
    ∃ rank', WaitTable env rank' (wl ++ outItems env.cfg it.2.2).eraseDups fs' ∧
      Multiset.IsDershowitzMannaLT (ranks rank' (wl ++ outItems env.cfg it.2.2).eraseDups)
        (ranks rank (it :: wl)) := by
  let rank' : NodeId → Nat := fun n => if n = it.2.2 then k else rank n
  have hself : rank' it.2.2 = k := if_pos rfl
  have hlook (n : NodeId) (hn : n ≠ it.2.2) : fs'.table.lookup n = fs.table.lookup n := by
    rw [htab, AList.lookup_insert_ne hn]
  have hpost : fs'.table.lookup it.2.2 = some [(ns, a)] := by
    rw [htab, AList.lookup_insert]
  refine ⟨rank', ⟨fun n s b hn => ?_, fun n p q l hn => ?_, fun it' hit' => ?_,
    hmarks.trans h.marks⟩, isDershowitzMannaLT_worklist (a := it)
      (f := fun it : WItem => rank it.1) (g := fun it : WItem => rank' it.1) (fun b hb => ?_) fun b hb => ?_⟩
  · by_cases hne : n = it.2.2
    · subst hne
      obtain ⟨rfl, rfl⟩ : ns = s ∧ a = b := by simpa [hpost] using hn
      rw [hself]
      exact ⟨hg, hw⟩
    · rw [hlook n hne] at hn
      rw [show rank' n = rank n from if_neg hne]
      exact h.entries n s b hn
  · by_cases hne : n = it.2.2
    · rw [hne, hpost] at hn
      simp at hn
    · rw [hlook n hne] at hn
      exact h.single n p q l hn
  · rcases List.mem_append.1 (List.mem_eraseDups.1 hit') with hmem | hmem
    · obtain ⟨hout, p, hp⟩ := h.items it' (List.mem_cons_of_mem _ hmem)
      refine ⟨hout, ?_⟩
      by_cases hne : it'.1 = it.2.2
      · exact ⟨_, hne ▸ hpost⟩
      · exact ⟨p, (hlook _ hne).trans hp⟩
    · have hsrc := fst_of_mem_outItems hmem
      exact ⟨hsrc ▸ hmem, _, hsrc ▸ hpost⟩
  · show rank' b.1 < rank it.1
    rw [fst_of_mem_outItems hb, hself]
    exact hk
  · show rank' b.1 = rank b.1 ∨ rank' b.1 < rank it.1
    by_cases hne : b.1 = it.2.2
    · right
      rw [hne, hself]
      exact hk
    · exact .inl (if_neg hne)

/-- An item either leaves the table, or its target gets a lower rank. -/
theorem WaitTable.step (h : WaitTable env rank (it :: wl) fs)
    (hstep : ConStepped env it wl fs wl' fs') :
    ∃ rank', WaitTable env rank' wl' fs' ∧
      Multiset.IsDershowitzMannaLT (ranks rank' wl') (ranks rank (it :: wl)) := by
  cases hstep with
  | bottom ht hb htab hmarks => exact ⟨rank, h.skip htab hmarks⟩
  | mark ht hb hfin htab hmarks =>
    rcases (h.transfer ht).2 with hb' | ⟨hf, -⟩
    · rw [hb] at hb'
      cases hb'
    · rw [hfin] at hf
      cases hf
  | @update _ preActs postActs ns isFix ht hloc hmarks hrev =>
    obtain ⟨hg, hcase⟩ := h.transfer ht
    rcases hcase with hb | ⟨hf, k, hk, hw⟩
    · cases hb.symm.trans hloc.1
    have hglobal : Action.isGlobal (Lattice.join preActs postActs) = false := by
      simp only [isFinal, Bool.or_eq_false_iff] at hf
      exact hf.1.1
    generalize htab : fs'.table = table' at hrev
    cases hrev with
    | fresh hnone => exact h.update hk hw hglobal hmarks htab
    | fixed hs heq => exact ⟨rank, h.skip htab hmarks⟩
    | changed hs heq =>
      obtain rfl := Except.ok.inj heq
      refine h.update hk hw ?_ hmarks htab
      rw [globalParts_act.join, hglobal, (h.entries _ _ _ hs).1]
      rfl

end Table

/-- The worklist of a thread that waits gets empty, without a mark. -/
theorem loop_waits {env : FixEnv} (rank : NodeId → Nat) (wl : List WItem)
    (fs : FixState ConState ConAct) (h : WaitTable env rank wl fs) :
    ∃ N, ∀ n, N ≤ n → ∃ fs', loop env n wl fs = (.ok (), fs') ∧ fs'.marks = [] := by
  have hwf : WellFounded (Multiset.IsDershowitzMannaLT : Multiset Nat → Multiset Nat → Prop) :=
    Multiset.wellFounded_isDershowitzMannaLT
  induction hm : ranks rank wl using hwf.induction generalizing rank wl fs with
  | _ m ih =>
    subst hm
    cases wl with
    | nil =>
      refine ⟨0, fun n _ => ⟨fs, ?_, h.marks⟩⟩
      cases n <;> rfl
    | cons it wl =>
      have hspec := processItem_con env it wl fs
      rcases hp : processItem env it wl fs with ⟨e | wl₁, fs₁⟩
      · exact absurd (hspec.of_eq_error hp) h.not_fails
      · obtain ⟨rank', h', hlt⟩ := h.step (hspec.of_eq_ok hp)
        obtain ⟨N, hN⟩ := ih _ hlt rank' wl₁ fs₁ h' rfl
        refine ⟨N + 1, fun n hn => ?_⟩
        obtain ⟨n, rfl⟩ : ∃ m, n = m + 1 := ⟨n - 1, by omega⟩
        rw [loop_cons, hp]
        exact hN n (by omega)

theorem waitTable_init {env : FixEnv} {k : Nat} {pos : Pos} {s : ConState}
    (h : WaitsIn env k pos s) :
    WaitTable env (fun _ => k) (outItems env.cfg pos) (initFixState env.cfg pos s) := by
  have hpos : (initTable env.cfg pos s : NodeTable ConState ConAct).lookup pos =
      some [(s, Lattice.bot)] := AList.lookup_insert _
  refine ⟨fun n s₁ a hn => ?_, fun n p q l hn => ?_, fun it hit => ?_, rfl⟩
  · by_cases hne : n = pos
    · subst hne
      obtain ⟨rfl, rfl⟩ : s = s₁ ∧ Lattice.bot = a := by
        have heq := hpos.symm.trans hn
        simpa using heq
      exact ⟨rfl, h⟩
    · cases eq_nil_of_lookup_initTable hne hn
  · by_cases hne : n = pos
    · subst hne
      have heq := hpos.symm.trans hn
      simp at heq
    · cases eq_nil_of_lookup_initTable hne hn
  · have hsrc := fst_of_mem_outItems hit
    refine ⟨hsrc ▸ hit, (s, Lattice.bot), ?_⟩
    rw [hsrc]
    exact hpos

/-- **A thread that waits is not enabled.** -/
theorem isEnabledCon_of_waits {syst : System ConState ConAct} {s : ConState} {tid : TId}
    {th : ThState ConValue} {cfg : Graph} {k : Nat} (hth : s.thStates.lookup tid = some th)
    (hcfg : syst.cfgs.lookup th.thCfgId = some cfg)
    (h : WaitsIn (stepEnv syst tid cfg) k th.thPos s) :
    ∃ N, ∀ fuel, N ≤ fuel → isEnabledCon fuel syst s tid = .ok none := by
  obtain ⟨N, hN⟩ := loop_waits _ _ _ (waitTable_init h)
  refine ⟨N, fun fuel hfuel => ?_⟩
  obtain ⟨fs, hloop, hmarks⟩ := hN fuel hfuel
  have hres : fixptResult (stepEnv syst tid cfg) fs = (.ok (fs.warns, []), fs) := by
    show (fs.marks.mapM' (handleMark (stepEnv syst tid cfg)) >>= _) fs = _
    rw [hmarks]
    rfl
  have hrun : runCon fuel false 10000 syst s tid = .ok (fs.warns, []) := by
    have hfix : (fixpt fuel (stepEnv syst tid cfg) th.thPos s :
        _ × FixState ConState ConAct) = (.ok (fs.warns, []), fs) :=
      (Op.bind_of_eq_ok hloop).trans hres
    simp only [runCon, runProg, hth, hcfg]
    exact congrArg Prod.fst hfix
  exact bind_eq_ok.2 ⟨_, hrun, rfl⟩

end Poet
