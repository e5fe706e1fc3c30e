import Poet.Domain.FixpointActions

/-!
# One step of the fixpoint engine, with the default updates

The three updates differ only in the state they compute for a node that has one: `nextState`. If
that is the state of the node already, a fixpoint is reached and the table stays. `Stepped` says all
that one item of the worklist can do, and `processItem_step` that there is no other error than one
of the domain, if the table is well formed.
-/

namespace Poet

variable {st act : Type} [DecidableEq st] [LatticeM st] [Lattice act]

/-- The state that a node with the state `s'` gets from the incoming state `s`, if it was updated
`c` times as a loop head. -/
def nextState (env : FixEnv) (tags : List EdgeTag) (c : Int) (s s' : st) : Except DomErr st :=
  match tags with
  | [.loopHead] => if env.wid ≤ c then LatticeM.widen s' s else LatticeM.join s s'
  | [.ifJoin] => LatticeM.join s s'
  | _ => .ok s

/-- How often a node was updated as a loop head. -/
def FixState.count (fs : FixState st act) (node : NodeId) : Int := (fs.wide.lookup node).getD 0

/-- What an update does to the table, if `next s'` is the state for a node with the state `s'`. -/
inductive Revised (table : NodeTable st act) (node : NodeId) (next : st → Except DomErr st) (s : st)
    (a : act) : Bool → NodeTable st act → Prop where
  | fresh (h : ∀ p, table.lookup node ≠ some [p]) :
      Revised table node next s a false (table.insert node [(s, a)])
  | fixed {s' a'} (h : table.lookup node = some [(s', a')]) (hn : next s' = .ok s') :
      Revised table node next s a true table
  | changed {s' a' s₁} (h : table.lookup node = some [(s', a')]) (hn : next s' = .ok s₁)
      (hne : s₁ ≠ s') :
      Revised table node next s a false (table.insert node [(s₁, Lattice.join a a')])

section Revised

variable {st act : Type} [Lattice act] {table table' : NodeTable st act} {node v : NodeId}
  {next : st → Except DomErr st} {s : st} {a : act} {isFix : Bool}

theorem Revised.lookup_ne (h : Revised table node next s a isFix table') (hv : v ≠ node) :
    table'.lookup v = table.lookup v := by
  cases h with
  | fresh => exact AList.lookup_insert_ne hv
  | fixed => rfl
  | changed => exact AList.lookup_insert_ne hv

theorem Revised.lookup_self (h : Revised table node next s a isFix table') :
    ∃ p, table'.lookup node = some [p] := by
  cases h with
  | fresh => exact ⟨_, AList.lookup_insert _⟩
  | fixed h => exact ⟨_, h⟩
  | changed => exact ⟨_, AList.lookup_insert _⟩

/-- A node with a state keeps having one. -/
theorem Revised.stored (h : Revised table node next s a isFix table')
    (hv : ∃ p, table.lookup v = some [p]) : ∃ p, table'.lookup v = some [p] := by
  by_cases hne : v = node
  · exact hne ▸ h.lookup_self
  · rwa [h.lookup_ne hne]

end Revised

/-- The tables that an update can not handle: a list of two states, or a loop head without a state
that is to be widened. -/
def Stuck (env : FixEnv) (tags : List EdgeTag) (fs : FixState st act) (table : NodeTable st act)
    (node : NodeId) : Prop :=
  (∃ p q l, table.lookup node = some (p :: q :: l)) ∨
    tags = [.loopHead] ∧ env.wid ≤ fs.count node ∧ table.lookup node = some []

omit [DecidableEq st] [LatticeM st] [Lattice act] in
theorem exists_two_of_ne {l : List (st × act)} (h0 : l = [] → False)
    (h1 : ∀ s a, l = [(s, a)] → False) : ∃ p q l', l = p :: q :: l' := by
  match l with
  | [] => exact (h0 rfl).elim
  | [p] => exact (h1 p.1 p.2 rfl).elim
  | p :: q :: l' => exact ⟨p, q, l', rfl⟩

omit [DecidableEq st] [LatticeM st] [Lattice act] in
/-- The counter of the node goes up by one, also if the table stays. -/
theorem count_incWideNode (fs : FixState st act) (node v : NodeId) :
    FixState.count { fs with
      wide := (node, (fs.wide.lookup node).getD 0 + 1) :: fs.wide.filter (·.1 ≠ node) } v =
      fs.count v + if v = node then 1 else 0 := by
  unfold FixState.count
  by_cases hv : v = node
  · simp [hv]
  · have hne : (v == node) = false := by simpa using hv
    rw [if_neg hv, Int.add_zero, List.lookup_cons, hne, lookup_filter_of_ne hv]

section Updates

variable (env : FixEnv) (table : NodeTable st act) (node : NodeId) (s : st) (a : act)
  (fs : FixState st act)

theorem weakUpdate_revised :
    Op.Sat (weakUpdate env table node (s, a)) fs
      (fun r fs' => fs' = fs ∧ Revised table node (LatticeM.join s) s a r.1 r.2)
      (fun e _ => (∃ d s', e = .domain d ∧ LatticeM.join s s' = .error d) ∨
        ∃ p q l, table.lookup node = some (p :: q :: l)) := by
  dsimp only [weakUpdate]
  split
  · next h => exact ⟨rfl, .fresh (by simp [h])⟩
  · next h => exact ⟨rfl, .fresh (by simp [h])⟩
  · next s' a' h =>
    simp only [Op.sat_bind, Op.sat_monadLift, Op.sat_ite, Op.sat_pure, true_and]
    refine ⟨fun s₁ hj => ?_, fun _ he => ?_⟩
    · have hj := liftFix_eq_ok.1 hj
      exact ⟨fun heq => .fixed h (heq ▸ hj), .changed h hj⟩
    · obtain ⟨d, rfl, hd⟩ := liftFix_eq_error he
      exact .inl ⟨d, s', rfl, hd⟩
  · next l h0 h1 h =>
    obtain ⟨p, q, l', rfl⟩ := exists_two_of_ne h0 h1
    exact .inr ⟨p, q, l', h⟩

omit [LatticeM st] in
theorem strongUpdate_revised :
    Op.Sat (strongUpdate env table node (s, a)) fs
      (fun r fs' => fs' = fs ∧ Revised table node (fun _ => .ok s) s a r.1 r.2)
      (fun _ _ => ∃ p q l, table.lookup node = some (p :: q :: l)) := by
  dsimp only [strongUpdate]
  split
  · next h => exact ⟨rfl, .fresh (by simp [h])⟩
  · next h => exact ⟨rfl, .fresh (by simp [h])⟩
  · next s' a' h =>
    simp only [Op.sat_ite, Op.sat_pure, true_and]
    exact ⟨fun hn => .fixed h (hn ▸ rfl), fun hn => .changed h rfl hn⟩
  · next l h0 h1 h =>
    obtain ⟨p, q, l', rfl⟩ := exists_two_of_ne h0 h1
    exact ⟨p, q, l', h⟩

theorem loopHeadUpdate_revised :
    Op.Sat (loopHeadUpdate env table node (s, a)) fs
      (fun r fs' => (fs'.table = fs.table ∧ fs'.marks = fs.marks ∧
          ∀ v, fs'.count v = fs.count v + if v = node then 1 else 0) ∧
        Revised table node
          (fun s' => if env.wid ≤ fs.count node then LatticeM.widen s' s else LatticeM.join s s')
          s a r.1 r.2)
      (fun e _ => (∃ d s', e = .domain d ∧
          (if env.wid ≤ fs.count node then LatticeM.widen s' s else LatticeM.join s s') = .error d) ∨
        (∃ p q l, table.lookup node = some (p :: q :: l)) ∨
        env.wid ≤ fs.count node ∧ table.lookup node = some []) := by
  simp only [loopHeadUpdate, getWideNode, incWideNode, Op.sat_bind, Op.sat_get, Op.sat_pure,
    Op.sat_modify, Op.sat_ite]
  have hframe := count_incWideNode fs node
  refine ⟨fun hwid => ?_, fun hwid => ?_⟩
  · have hc : env.wid ≤ fs.count node := hwid
    simp only [hc, if_true, true_and]
    split
    · next h => exact ⟨⟨rfl, rfl, hframe⟩, .fresh (by simp [h])⟩
    · next h => exact .inr (.inr h)
    · next s' a' h =>
      simp only [Op.sat_bind, Op.sat_monadLift, Op.sat_ite, Op.sat_pure, true_and]
      refine ⟨fun s₁ hw => ?_, fun _ he => ?_⟩
      · have hw := liftFix_eq_ok.1 hw
        exact ⟨fun heq => ⟨hframe, .fixed h (heq ▸ hw)⟩, fun hne => ⟨hframe, .changed h hw hne⟩⟩
      · obtain ⟨d, rfl, hd⟩ := liftFix_eq_error he
        exact .inl ⟨d, s', rfl, hd⟩
    · next l h0 h1 h =>
      obtain ⟨p, q, l', rfl⟩ := exists_two_of_ne h0 h1
      exact .inr (.inl ⟨p, q, l', h⟩)
  · have hc : ¬ env.wid ≤ fs.count node := hwid
    simp only [hc, if_false]
    refine (weakUpdate_revised env table node s a _).mono ?_ fun _ _ h => h.imp_right .inl
    rintro r fs' ⟨rfl, hrev⟩
    exact ⟨⟨rfl, rfl, hframe⟩, hrev⟩

end Updates

variable [Collapse st act]

/-- The update that an edge with `tags` asks for. -/
theorem updateFor_revised (hdef : UsesDefaults st act) (tags : List EdgeTag) (env : FixEnv)
    (table : NodeTable st act) (node : NodeId) (s : st) (a : act) (fs : FixState st act) :
    Op.Sat (updateFor tags env table node (s, a)) fs
      (fun r fs' => (fs'.table = fs.table ∧ fs'.marks = fs.marks ∧
          ∀ v, fs'.count v = fs.count v + if tags = [.loopHead] ∧ v = node then 1 else 0) ∧
        Revised table node (nextState env tags (fs.count node) s) s a r.1 r.2)
      (fun e _ => (∃ d s', e = .domain d ∧ nextState env tags (fs.count node) s s' = .error d) ∨
        Stuck env tags fs table node) := by
  unfold updateFor
  split
  · rw [hdef.loopHead]
    refine (loopHeadUpdate_revised env table node s a fs).mono ?_ ?_
    · intro r fs' h
      exact ⟨by simpa using h.1, h.2⟩
    · intro e fs' h
      simpa [Stuck, nextState] using h
  · rw [hdef.weak]
    refine (weakUpdate_revised env table node s a fs).mono ?_ ?_
    · rintro r fs' ⟨rfl, hrev⟩
      exact ⟨⟨rfl, rfl, by simp⟩, hrev⟩
    · intro e fs' h
      exact h.imp_right .inl
  · next hl hw =>
    rw [hdef.strong]
    have hnext : nextState env tags (fs.count node) s = fun _ => .ok s := by
      funext s'
      unfold nextState
      split
      · exact absurd rfl hl
      · exact absurd rfl hw
      · rfl
    refine (strongUpdate_revised env table node s a fs).mono ?_ ?_
    · rintro r fs' ⟨rfl, hrev⟩
      rw [hnext]
      exact ⟨⟨rfl, rfl, fun v => by rw [if_neg (fun h => hl h.1), Int.add_zero]⟩, hrev⟩
    · intro e fs' h
      exact .inr (.inl h)

variable [Action act]

/-- What one item of the worklist does. -/
inductive Stepped (env : FixEnv) (it : WItem) (wl : List WItem) (fs : FixState st act) :
    List WItem → FixState st act → Prop where
  | skip {fs' preActs postActs ns} (ht : Transfer env fs.table it preActs postActs ns)
      (hnot : ¬ IsLocal env it preActs postActs ns) (htab : fs'.table = fs.table)
      (hcount : ∀ v, fs'.count v = fs.count v) : Stepped env it wl fs wl fs'
  | update {fs' preActs postActs ns isFix} (ht : Transfer env fs.table it preActs postActs ns)
      (hloc : IsLocal env it preActs postActs ns)
      (hrev : Revised fs.table it.2.2
        (nextState env (env.cfg.edgeInfo it.2.1).tags (fs.count it.2.2) ns) ns
        (Lattice.join preActs postActs) isFix fs'.table)
      (hcount : ∀ v, fs'.count v = fs.count v +
        if (env.cfg.edgeInfo it.2.1).tags = [.loopHead] ∧ v = it.2.2 then 1 else 0) :
      Stepped env it wl fs
        (if isFix then wl else (wl ++ outItems env.cfg it.2.2).eraseDups) fs'

/-- The errors that are not of the domain need a table that is not well formed. -/
theorem processItem_step (hdef : UsesDefaults st act) (env : FixEnv) (it : WItem)
    (wl : List WItem) (fs : FixState st act) :
    Op.Sat (processItem env it wl) fs (Stepped env it wl fs) (fun e _ => (∃ d, e = .domain d) ∨
      (∀ p, fs.table.lookup it.1 ≠ some [p]) ∨
      Stuck env (env.cfg.edgeInfo it.2.1).tags fs fs.table it.2.2) := by
  obtain ⟨pre, eId, post⟩ := it
  simp only [processItem, Op.sat_bind, Op.sat_get, Op.sat_monadLift]
  refine ⟨?_, ?_⟩
  · rintro ⟨nodeSt, preActs⟩ hinfo
    refine ⟨?_, ?_⟩
    · rintro ⟨postActs, ns, warns⟩ htr
      have ht := transfer_of_eq hinfo htr
      simp only [addFixWarns, Op.sat_modify, Op.sat_ite, Op.sat_pure, Op.sat_bind, addMark]
      refine ⟨fun hb => ?_, fun hb => ⟨fun hf => ?_, fun hf => ?_⟩⟩
      · exact .skip ht (fun hloc => by simp [hloc.1] at hb) rfl fun _ => rfl
      · exact .skip ht (fun hloc => by simp [hloc.2] at hf) rfl fun _ => rfl
      · refine (updateFor_revised hdef _ env fs.table post ns _ _).mono ?_ ?_
        · rintro ⟨isFix, table⟩ fs' ⟨⟨-, -, hcount⟩, hrev⟩
          exact .update ht ⟨by simpa using hb, by simpa using hf⟩ hrev hcount
        · rintro e fs' (⟨d, s', rfl, -⟩ | h)
          · exact .inl ⟨d, rfl⟩
          · exact .inr (.inr h)
    · intro e he
      obtain ⟨d, rfl, -⟩ := liftFix_eq_error he
      exact .inl ⟨d, rfl⟩
  · intro e he
    right
    left
    intro p hp
    simp [getNodeInfo, hp] at he

theorem loop_cons (env : FixEnv) (n : Nat) (it : WItem) (wl : List WItem) (fs : FixState st act) :
    loop env (n + 1) (it :: wl) fs =
      match processItem env it wl fs with
      | (.ok wl', fs') => loop env n wl' fs'
      | (.error e, fs') => (.error e, fs') := by
  show Op.bind (processItem env it wl) (loop env n) fs = _
  unfold Op.bind
  rcases processItem env it wl fs with ⟨_ | _, _⟩ <;> rfl

/-- A worklist that gets empty does so with more fuel as well. -/
theorem loop_more {env : FixEnv} {n m : Nat} (hle : n ≤ m) {wl : List WItem}
    {fs fs' : FixState st act} (h : loop env n wl fs = (.ok (), fs')) :
    loop env m wl fs = (.ok (), fs') := by
  induction n generalizing m wl fs with
  | zero =>
    cases wl with
    | nil => cases m <;> exact h
    | cons it wl => cases h
  | succ n ih =>
    obtain ⟨k, rfl⟩ : ∃ k, m = k + 1 := ⟨m - 1, by omega⟩
    cases wl with
    | nil => exact h
    | cons it wl =>
      rw [loop_cons] at h ⊢
      rcases hp : processItem env it wl fs with ⟨e | wl', fs₁⟩
      · simp [hp] at h
      · simp only [hp] at h ⊢
        exact ih (by omega) h

theorem fixpt_more {env : FixEnv} {n m : Nat} (hle : n ≤ m) {pos : Pos} {s : st}
    {r : List Int × ResultList st act} (h : (fixpt n env pos s).1 = .ok r) :
    (fixpt m env pos s).1 = .ok r := by
  have hrun : ∀ k, fixpt k env pos s =
      Op.bind (loop env k (outItems env.cfg pos)) (fun _ => fixptResult env)
        (initFixState env.cfg pos s : FixState st act) := fun _ => rfl
  rw [hrun, Op.bind] at h ⊢
  rcases hl : loop env n (outItems env.cfg pos) (initFixState env.cfg pos s : FixState st act) with
    ⟨e | ⟨⟩, fs⟩
  · simp [hl] at h
  · rw [loop_more hle hl]
    simpa [hl] using h

/-- What every item keeps holds when the worklist is empty. -/
theorem loop_sat {env : FixEnv} {P : List WItem → FixState st act → Prop}
    {E : FixErr → FixState st act → Prop}
    (hstep : ∀ it wl fs, P (it :: wl) fs → Op.Sat (processItem env it wl) fs P E) (fuel : Nat)
    (wl : List WItem) (fs : FixState st act) (hP : P wl fs) :
    Op.Sat (loop env fuel wl) fs (fun _ => P []) fun e fs' => E e fs' ∨ e = .outOfFuel := by
  induction fuel generalizing wl fs with
  | zero =>
    cases wl with
    | nil => exact hP
    | cons it wl => exact .inr rfl
  | succ n ih =>
    cases wl with
    | nil => exact hP
    | cons it wl =>
      simp only [loop, Op.sat_bind]
      exact (hstep it wl fs hP).mono ih fun _ _ => .inl

theorem loop_induction (hdef : UsesDefaults st act) {env : FixEnv}
    {P : List WItem → FixState st act → Prop}
    (hstep : ∀ it wl fs wl' fs', P (it :: wl) fs → Stepped env it wl fs wl' fs' → P wl' fs')
    (fuel : Nat) (wl : List WItem) (fs fs' : FixState st act) (hP : P wl fs)
    (hrun : loop env fuel wl fs = (.ok (), fs')) : P [] fs' := by
  have hitem : ∀ it wl fs, P (it :: wl) fs →
      Op.Sat (processItem env it wl) fs P fun _ _ => True := fun it wl fs hP =>
    (processItem_step hdef env it wl fs).mono (fun wl' fs' h => hstep it wl fs wl' fs' hP h)
      fun _ _ _ => trivial
  exact (loop_sat hitem fuel wl fs hP).of_eq_ok hrun

end Poet
