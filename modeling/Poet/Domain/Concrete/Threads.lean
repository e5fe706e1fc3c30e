import Poet.Domain.Concrete.Collapse

/-!
# Identities of threads

`pthread_create` takes the next number of a counter that starts at 1; the main thread has the number
that the front end gave to the symbol `main`. A step gives only numbers above the counter
(`conStep_threads`), so the threads of a reachable state are the main thread and numbers from 2 up to
the counter (`ThreadsInv`). A new number is fresh unless it is the one of `main`.
-/

namespace Poet

/-- The number of calls of `pthread_create` in a list of operations. -/
def createCount : List Prim → Nat
  | [] => 0
  | .create _ :: ps => createCount ps + 1
  | _ :: ps => createCount ps

/-- The number of calls of `pthread_create` in the code of an edge. -/
def EdgeCode.creates [SimpleC] (sym : List (SymId × String)) (code : EdgeCode) : Nat :=
  createCount (code.prims sym)

theorem createCount_append (p q : List Prim) :
    createCount (p ++ q) = createCount p + createCount q := by
  induction p with
  | nil => simp [createCount]
  | cons x p ih => cases x <;> simp only [List.cons_append, createCount, ih]; omega

/-! ## What a step does to the threads -/

/-- At most `k` threads are new, with the next numbers of the counter; the other threads but `tid`
stay as they are. -/
structure Spawns (tid : TId) (k : Nat) (s s' : ConState) : Prop where
  le : s.numTh ≤ s'.numTh
  bound : s'.numTh ≤ s.numTh + k
  others : ∀ t : Int, t ≠ tid → t ≤ s.numTh ∨ s'.numTh < t →
    s'.thStates.lookup t = s.thStates.lookup t
  threads : ∀ t : Int, s'.thStates.lookup t ≠ none →
    s.thStates.lookup t ≠ none ∨ s.numTh < t ∧ t ≤ s'.numTh

/-- The numbers that the actions create are among the next `k`. -/
def CreatesNext (k : Nat) (s : ConState) (a : ConAct) : Prop :=
  ∀ x ∈ a.tcreate, s.numTh < x.base.symId ∧ x.base.symId ≤ s.numTh + k

theorem spawns_of_frame {P : MemAddr ConValue → Prop} {tid : TId} {s s' : ConState} (k : Nat)
    (h : ThreadFrame P s s') (hP : ∀ a, P a → a.level = .glob ∨ a.level = .loc tid) :
    Spawns tid k s s' where
  le := h.numTh.ge
  bound := by have := h.numTh; omega
  others t ht _ := by
    refine h.others t fun a ha => ?_
    rcases hP a ha with hl | hl <;> rw [hl]
    · exact Scope.noConfusion
    · intro heq
      exact ht (Scope.loc.inj heq).symm
  threads t ht := .inl fun hn => ht ((h.threads t).2 hn)

theorem Spawns.trans {tid : TId} {k k' : Nat} {s s' s'' : ConState} (h : Spawns tid k s s')
    (h' : Spawns tid k' s' s'') : Spawns tid (k + k') s s'' where
  le := h.le.trans h'.le
  bound := by have := h.bound; have := h'.bound; omega
  others t ht hr := by
    have hle := h.le
    have hle' := h'.le
    rw [h'.others t ht (by omega), h.others t ht (by omega)]
  threads t ht := by
    have hle := h.le
    have hle' := h'.le
    rcases h'.threads t ht with h₁ | h₁
    · rcases h.threads t h₁ with h₂ | h₂
      · exact .inl h₂
      · right
        omega
    · right
      omega

/-- What the code of a thread does to the threads: the numbers it records, and the state unless that
is the bottom state. A state with a new thread comes with an action that records one. -/
structure ThreadEffect (tid : TId) (k : Nat) (s : ConState) (a : ConAct) (s' : ConState) : Prop where
  creates : CreatesNext k s a
  state : s' = ProgState.bot ∨
    Spawns tid k s s' ∧ (s.numTh < s'.numTh → ∃ x, x ∈ a.tcreate)

/-- An effect that only writes memory. -/
theorem threadEffect_of_writes {P : MemAddr ConValue → Prop} {tid : TId} {s s' : ConState}
    {a : ConAct} (k : Nat) (h : Writes P s s')
    (hP : ∀ a, P a → a.level = .glob ∨ a.level = .loc tid) (ha : CreatesNext k s a) :
    ThreadEffect tid k s a s' :=
  ⟨ha, .inr ⟨spawns_of_frame k h.frame hP, fun hlt => absurd h.frame.numTh hlt.ne'⟩⟩

theorem createsNext_of_empty {k : Nat} {s : ConState} {a : ConAct} (h : a.tcreate = .addrs []) :
    CreatesNext k s a := by
  intro x hx
  rw [h] at hx
  cases hx

theorem ThreadEffect.of_quiet {tid : TId} {s : ConState} {a : ConAct} (k : Nat) (h : a.Quiet) :
    ThreadEffect tid k s a s := by
  exact threadEffect_of_writes (P := fun _ => False) k .refl (fun _ => False.elim) fun x hx =>
    absurd hx (h.not_mem_tcreate x)

/-- The addresses of an expression are in the heap or in the locals of the thread. -/
theorem level_of_getAddrsExpr [SimpleC] {e : SExpression} {s : ConState} {tid : TId}
    {addrs : MemAddrs ConValue} (h : getAddrsExpr e s (.loc tid) = .ok addrs) :
    ∀ a ∈ addrs, a.level = .glob ∨ a.level = .loc tid := by
  obtain ⟨l, rfl, hl⟩ := mem_getAddrsExpr h
  exact fun a ha => (hl a ha).2.level

theorem ThreadEffect.create {tid : TId} {s s' : ConState} {addrs : MemAddrs ConValue}
    {val : ConValue} {th : ThState ConValue} (hw : s.incNumTh.2.writeMemory addrs val = .ok s')
    (hP : ∀ a ∈ addrs, a.level = .glob ∨ a.level = .loc tid) :
    ThreadEffect tid 1 s (Act.createThreadAct ⟨s.numTh + 1⟩ ToValue.zero)
      (s'.insertThread (s.numTh + 1) th) := by
  have hnum : s'.numTh = s.numTh + 1 := (writes_of_writeMemory hw).frame.numTh
  have hsp := spawns_of_frame 0 (writes_of_writeMemory hw).frame hP
  constructor
  · intro x hx
    obtain rfl := List.mem_singleton.1 hx
    exact ⟨Int.lt_succ _, by simp⟩
  right
  refine ⟨⟨?_, ?_, fun t ht hr => ?_, fun t ht => ?_⟩, fun _ => ⟨_, List.mem_singleton.2 rfl⟩⟩
  · simp only [ProgState.insertThread, hnum]
    omega
  · simp only [ProgState.insertThread, hnum]
    omega
  · simp only [ProgState.insertThread, hnum] at hr ⊢
    have hne : t ≠ s.numTh + 1 := by omega
    rw [OrdMap.lookup_insert, if_neg hne]
    exact hsp.others t ht (by simp only [ProgState.incNumTh]; omega)
  · simp only [ProgState.insertThread, hnum, OrdMap.lookup_insert] at ht ⊢
    by_cases htn : t = s.numTh + 1
    · right
      omega
    · rw [if_neg htn] at ht
      left
      intro hn
      exact ht (((writes_of_writeMemory hw).frame.threads t).2 hn)

theorem ThreadEffect.seq {tid : TId} {k k' : Nat} {s s' s'' : ConState} {a b : ConAct}
    (h : ThreadEffect tid k s a s') (h' : ThreadEffect tid k' s' b s'')
    (hbot : s' = ProgState.bot → s'' = ProgState.bot ∧ b.Quiet) :
    ThreadEffect tid (k + k') s (a.join b) s'' := by
  rcases h.state with hb | ⟨hsp, hrec⟩
  · -- a thread that is stopped does nothing more
    obtain ⟨rfl, hq⟩ := hbot hb
    refine ⟨fun x hx => ?_, .inl rfl⟩
    rcases MemAddrs.mem_join.1 hx with hx | hx
    · have := h.creates x hx
      omega
    · exact absurd hx (hq.not_mem_tcreate x)
  · have hle := hsp.le
    have hbd := hsp.bound
    refine ⟨fun x hx => ?_, ?_⟩
    · rcases MemAddrs.mem_join.1 hx with hx | hx
      · have := h.creates x hx
        omega
      · have := h'.creates x hx
        omega
    · refine h'.state.imp id fun ⟨hsp', hrec'⟩ => ⟨hsp.trans hsp', fun hlt => ?_⟩
      rcases lt_or_ge s.numTh s'.numTh with hlt₁ | hge
      · obtain ⟨x, hx⟩ := hrec hlt₁
        exact ⟨x, MemAddrs.mem_join.2 (.inl hx)⟩
      · obtain ⟨x, hx⟩ := hrec' (by omega)
        exact ⟨x, MemAddrs.mem_join.2 (.inr hx)⟩

theorem Effect.threads [SimpleC] {tid : TId} {cfgs : List (SymId × Graph)} {ps : List Prim}
    {s s' : ConState} {a : ConAct} (h : Effect (.loc tid) cfgs ps s a s') :
    ThreadEffect tid (createCount ps) s a s' := by
  induction h with
  | quiet h => exact .of_quiet _ h
  | block h => exact ⟨fun x hx => absurd hx (h.not_mem_tcreate x), .inl rfl⟩
  | write ha hw =>
    exact threadEffect_of_writes _ (writes_of_writeMemory hw) (level_of_getAddrsExpr ha)
      (createsNext_of_empty rfl)
  | lock ha hr hx hw =>
    exact threadEffect_of_writes _ (writes_of_writeMemory hw) (level_of_getAddrsExpr ha)
      (createsNext_of_empty rfl)
  | unlock ha hw =>
    exact threadEffect_of_writes _ (writes_of_writeMemory hw) (level_of_getAddrsExpr ha)
      (createsNext_of_empty rfl)
  | init ha hw =>
    exact threadEffect_of_writes _ (writes_of_writeMemory hw) (level_of_getAddrsExpr ha)
      (createsNext_of_empty rfl)
  | create ha hw hl => exact .create hw (level_of_getAddrsExpr ha)
  | seq h h' ih ih' =>
    rw [createCount_append]
    exact ih.seq ih' fun hs => h'.of_bot hs
  | same h hab ih =>
    refine ⟨fun x hx => ih.creates x ((hab.tcreate x).2 hx), ih.state.imp id fun ⟨hsp, hrec⟩ =>
      ⟨hsp, fun hlt => ?_⟩⟩
    obtain ⟨x, hx⟩ := hrec hlt
    exact ⟨x, (hab.tcreate x).1 hx⟩

theorem DeclEffect.threads [SimpleC] {tid : TId} {sym : List (SymId × String)} {cfgs : List (SymId × Graph)}
    {d : SDeclaration} {s s' : ConState} {a : ConAct}
    (h : DeclEffect (.loc tid) sym cfgs d s a s') :
    ThreadEffect tid (EdgeCode.creates sym (.D d)) s a s' := by
  refine threadEffect_of_writes _ h.writes (fun x hx => .inr hx.2) ?_
  cases h with
  | nothing hq => exact fun x hx => absurd hx (hq.not_mem_tcreate x)
  | cells hc hw ha =>
    intro x hx
    cases (ha.tcreate x).2 hx
  | init he hw =>
    -- the numbers are recorded, but the threads are not in the state
    exact he.threads.creates

theorem Spawns.updatePc {tid : TId} {k : Nat} {s s' : ConState} (h : Spawns tid k s s')
    (pos : Pos) : Spawns tid k s (s'.updatePc tid pos) where
  le := h.le
  bound := h.bound
  others t ht hr := by
    have hne : t ≠ tid := ht
    simp only [ProgState.updatePc, OrdMap.lookup_adjust, if_neg hne]
    exact h.others t ht hr
  threads t ht := by
    refine h.threads t fun hn => ht ?_
    simp only [ProgState.updatePc, OrdMap.lookup_adjust]
    split <;> simp [hn]

theorem EdgeEffect.threads [SimpleC] {tid : TId} {sym : List (SymId × String)} {cfgs : List (SymId × Graph)}
    {post : NodeId} {code : EdgeCode} {s s' : ConState} {a : ConAct}
    (h : EdgeEffect tid sym cfgs post code s a s') :
    ThreadEffect tid (code.creates sym) s a s' := by
  have hpc {k : Nat} {s₁ : ConState} (h₁ : ThreadEffect tid k s a s₁) :
      ThreadEffect tid k s a (s₁.updatePc tid post) := by
    refine ⟨h₁.creates, h₁.state.imp ?_ fun ⟨hsp, hrec⟩ => ⟨hsp.updatePc post, hrec⟩⟩
    rintro rfl
    rfl
  cases h with
  | expr he => exact hpc he.threads
  | stop he => exact ⟨he.threads.creates, .inl rfl⟩
  | decl hd => exact hpc hd.threads

/-! ## Steps -/

/-- No edge of the program has more than `K` calls of `pthread_create`. -/
def CreatesAtMost [SimpleC] (K : Nat) (syst : System ConState ConAct) : Prop :=
  ∀ sym cfg, syst.cfgs.lookup sym = some cfg →
    ∀ eId, (cfg.edgeInfo eId).code.creates syst.symt ≤ K

/-- Local edges create nothing, so the last edge of a step has the counter of its start. -/
theorem threads_rule [SimpleC] {K : Nat} {env : FixEnv} (s : ConState)
    (hK : ∀ eId, (env.cfg.edgeInfo eId).code.creates env.symt ≤ K) :
    CollapseRule env (fun s₁ a => (∀ x, x ∉ a.tcreate) ∧ Spawns env.tid 0 s s₁)
      fun s' a => CreatesNext K s a ∧ (s' = ProgState.bot ∨ Spawns env.tid K s s') where
  edge := by
    rintro post eId s₁ a b s₂ ⟨ha, hsp⟩ he hb hg
    have hnew := fun x => (not_mem_of_isGlobal hg x).2.2
    refine ⟨hnew, ?_⟩
    rcases he.threads.state with rfl | ⟨hsp', hrec⟩
    · cases hb
    · have hnum : ¬ s₁.numTh < s₂.numTh := fun hlt =>
        (hrec hlt).elim fun x hx => hnew x (MemAddrs.mem_join.2 (.inr hx))
      have hsp₀ : Spawns env.tid 0 s₁ s₂ := { hsp' with bound := by simp; omega }
      exact hsp.trans hsp₀
  merge := by
    rintro s₁ a s₂ a' ⟨ha, hsp⟩ ⟨ha', -⟩
    exact ⟨fun x hx => (MemAddrs.mem_join.1 hx).elim (ha x) (ha' x), hsp⟩
  last := by
    rintro post eId s₁ a b s₂ ⟨ha, hsp⟩ he
    have hk := hK eId
    have hle := hsp.le
    have hbd := hsp.bound
    refine ⟨fun x hx => ?_, he.threads.state.imp id fun ⟨hsp', _⟩ => ?_⟩
    · rcases MemAddrs.mem_join.1 hx with hx | hx
      · exact absurd hx (ha x)
      · have := he.threads.creates x hx
        omega
    · have := hsp'.bound
      exact { hsp.trans hsp' with bound := by omega }
  lastMerge := by
    rintro s₁ a s₂ a' ⟨hc, hst⟩ ⟨ha', -⟩
    exact ⟨fun x hx => (MemAddrs.mem_join.1 hx).elim (hc x) fun hx => absurd hx (ha' x), hst⟩
  stays := by
    rintro s₁ a ⟨ha, hsp⟩
    have hbd := hsp.bound
    exact ⟨fun x hx => absurd hx (ha x), .inr { hsp with bound := by omega }⟩
  exit := by
    rintro s₁ a ⟨hc, hst⟩
    refine ⟨fun x hx => ?_, hst⟩
    rcases MemAddrs.mem_join.1 hx with hx | hx
    · exact hc x hx
    · cases hx

/-- A step creates only the next numbers and leaves the other threads. -/
theorem conStep_threads [SimpleC] {K : Nat} {syst : System ConState ConAct} {s s' : ConState} {tid : TId}
    {acts : ConAct} (hK : CreatesAtMost K syst) (h : ConStep syst s tid acts s') :
    CreatesNext K s acts ∧ (s' = ProgState.bot ∨ Spawns tid K s s') := by
  refine h.rule (P := fun s₁ a => (∀ x, x ∉ a.tcreate) ∧ Spawns tid 0 s s₁)
    (Q := fun s' a => CreatesNext K s a ∧ (s' = ProgState.bot ∨ Spawns tid K s s')) ?_ ?_
  · exact ⟨fun x => List.not_mem_nil, le_rfl, by simp, fun _ _ _ => rfl, fun t ht => .inl ht⟩
  · exact fun sym cfg hcfg => threads_rule s (hK sym cfg hcfg)

/-! ## Runs -/

/-- The threads are the main thread and numbers up to the counter. -/
def ThreadsInv (main : Int) (s : ConState) : Prop :=
  ∀ t : Int, s.thStates.lookup t ≠ none → 1 ≤ s.numTh ∧ (t = main ∨ 2 ≤ t ∧ t ≤ s.numTh)

theorem ThreadsInv.step [SimpleC] {main : Int} {K : Nat} {syst : System ConState ConAct} {s s' : ConState}
    {tid : TId} {acts : ConAct} (hK : CreatesAtMost K syst) (hinv : ThreadsInv main s)
    (h : ConStep syst s tid acts s') : ThreadsInv main s' := by
  obtain ⟨th, cfg, fuel, warns, pos, hth, -⟩ := h.run
  have hone : 1 ≤ s.numTh := (hinv tid (by simp [hth])).1
  rcases (conStep_threads hK h).2 with rfl | hsp
  · intro t ht
    exact absurd rfl ht
  · intro t ht
    have hle := hsp.le
    rcases hsp.threads t ht with h₁ | h₁
    · have := hinv t h₁
      omega
    · omega

theorem threadsInv_init [SimpleC] {fe : FrontEnd} {syst : System ConState ConAct}
    (h : convert fe = .ok syst) {pos : Pos} {main : SymId}
    (hmain : getEntry "main" fe.cfgs fe.symt = .ok (pos, main)) :
    ThreadsInv main.symId syst.gbst := by
  obtain ⟨pos', main', hmain', -, -, hnum, hth⟩ := convert_threads h
  obtain ⟨rfl, rfl⟩ : pos' = pos ∧ main' = main := by simpa [hmain] using hmain'.symm
  intro t ht
  rw [hth] at ht
  refine ⟨hnum.ge, .inl ?_⟩
  by_contra hne
  exact ht (if_neg hne)

theorem threadsInv_reach [SimpleC] {fe : FrontEnd} {syst : System ConState ConAct}
    (h : convert fe = .ok syst) {pos : Pos} {main : SymId}
    (hmain : getEntry "main" fe.cfgs fe.symt = .ok (pos, main)) {K : Nat}
    (hK : CreatesAtMost K syst) {s : ConState} (hs : ConReach syst s) :
    ThreadsInv main.symId s := by
  induction hs with
  | init => exact threadsInv_init h hmain
  | step _ hstep ih => exact ih.step hK hstep

/-- In a reachable state in which the number of `main` is not among those that come next, a step
creates only threads that are not there, and changes no other thread. -/
theorem create_fresh [SimpleC] {fe : FrontEnd} {syst : System ConState ConAct} (h : convert fe = .ok syst)
    {pos : Pos} {main : SymId} (hmain : getEntry "main" fe.cfgs fe.symt = .ok (pos, main)) {K : Nat}
    (hK : CreatesAtMost K syst) {s : ConState} (hs : ConReach syst s)
    (hnext : s.numTh < main.symId → s.numTh + K < main.symId) {tid : TId} {acts : ConAct}
    {s' : ConState} (hstep : ConStep syst s tid acts s') :
    (∀ x ∈ acts.tcreate, s.thStates.lookup x.base.symId = none) ∧
      (s'.isBot = false → ∀ t th, t ≠ tid → s.thStates.lookup t = some th →
        s'.thStates.lookup t = some th) := by
  have hinv := threadsInv_reach h hmain hK hs
  obtain ⟨hcreate, hstate⟩ := conStep_threads hK hstep
  refine ⟨fun x hx => ?_, fun hb t th ht hth => ?_⟩
  · by_contra hne
    have := hcreate x hx
    have := hinv _ hne
    omega
  · rcases hstate with rfl | hsp
    · cases hb
    · have hbd := hsp.bound
      have hin := hinv t (by simp [hth])
      rw [hsp.others t ht (by omega), hth]

/-! ## A program in which the numbers meet

`main` and `f` both do `pthread_create(&t, 0, f, 0)`. -/

def spawnCode : EdgeCode :=
  .E (.call (.var ⟨40⟩) [.unary .adr (.var ⟨10⟩), .const ⟨.int 0⟩, .var ⟨20⟩, .const ⟨.int 0⟩])

def spawnGraph (params : List SDeclaration) : Graph where
  entryNode := 0
  nodes := [0, 1]
  succs n := if n = 0 then [(0, 1)] else []
  edgeInfo _ := ⟨[], spawnCode⟩
  parameters := params

def spawnFront (main : Int) : FrontEnd where
  decls := [.decl (some ⟨some ⟨10⟩, []⟩) none]
  cfgs := [(⟨main⟩, spawnGraph []), (⟨20⟩, spawnGraph [.decl (some ⟨some ⟨30⟩, []⟩) none])]
  symt := [(⟨main⟩, "main"), (⟨10⟩, "t"), (⟨20⟩, "f"), (⟨30⟩, "p"), (⟨40⟩, "pthread_create")]

/-- The counter is `n`, and `t` the last thread that was created. -/
def spawnState (n t : Int) (ths : List (TId × ThState ConValue)) : ConState :=
  ⟨⟨[(⟨⟨10⟩, .glob⟩, ⟨[(ToValue.zero, ToValue.kVal t)]⟩)]⟩, ⟨ths⟩, n, false⟩

def spawnSystem (main : Int) : System ConState ConAct where
  gbst := spawnState 1 0 [(main, ⟨0, ⟨main⟩, .empty⟩)]
  gbac := Act.writeActAddr (.addrs [⟨⟨10⟩, ToValue.zero, .glob⟩])
  cfgs := (spawnFront main).cfgs
  symt := (spawnFront main).symt

def spawned (tid : TId) (pos : Pos) : ThState ConValue :=
  ⟨pos, ⟨20⟩, ⟨[(⟨⟨30⟩, .loc tid⟩, ⟨[(ToValue.zero, ToValue.zero)]⟩)]⟩⟩

def spawnAct (new self : Int) : ConAct :=
  { Act.bot with
    tcreate := .addrs [⟨⟨new⟩, ToValue.zero, .glob⟩]
    texit := .addrs [⟨⟨self⟩, ToValue.zero, .glob⟩] }

section Integers

attribute [local instance] SimpleC.integers

/-- With the number 3 for `main`, the second thread creates the third: it gets the number of `main`,
and the state of `main`, at its end, is replaced by one at the start of `f`. -/
theorem create_replaces_main : ∃ syst s acts s', convert (spawnFront 3) = .ok syst ∧
    ConReach syst s ∧ ConStep syst s 2 acts s' ∧
    (∃ x ∈ acts.tcreate, s.thStates.lookup x.base.symId ≠ none) ∧ s'.isBot = false ∧
    s.thStates.lookup 3 = some ⟨1, ⟨3⟩, .empty⟩ ∧ s'.thStates.lookup 3 = some (spawned 3 0) := by
  refine ⟨spawnSystem 3, spawnState 2 2 [(2, spawned 2 0), (3, ⟨1, ⟨3⟩, .empty⟩)], spawnAct 3 2,
    spawnState 3 3 [(2, spawned 2 1), (3, spawned 3 0)], rfl, ?_, ?_, ?_, rfl, rfl, rfl⟩
  · have hfirst : ConStep (spawnSystem 3) (spawnSystem 3).gbst 3 (spawnAct 2 3)
        (spawnState 2 2 [(2, spawned 2 0), (3, ⟨1, ⟨3⟩, .empty⟩)]) := ⟨1, [], 1, rfl⟩
    exact .step .init hfirst
  · exact ⟨1, [], 1, rfl⟩
  · exact ⟨_, List.mem_singleton.2 rfl, by decide⟩

theorem spawn_createsAtMost : CreatesAtMost 1 (spawnSystem 1) := by
  intro sym cfg h eId
  have hcfg : ∃ params, cfg = spawnGraph params := by
    obtain ⟨l₁, l₂, hl, -⟩ := List.lookup_eq_some_iff.1 h
    have hmem : (sym, cfg) ∈ (spawnSystem 1).cfgs := by simp [hl]
    rcases List.mem_cons.1 hmem with h₁ | h₁
    · exact ⟨_, congrArg Prod.snd h₁⟩
    · exact ⟨_, congrArg Prod.snd (List.mem_singleton.1 h₁)⟩
  obtain ⟨params, rfl⟩ := hcfg
  show EdgeCode.creates (spawnFront 1).symt spawnCode ≤ 1
  decide

/-- With the number 1 for `main` the first thread is new. -/
theorem create_fresh_spawn :
    ConStep (spawnSystem 1) (spawnSystem 1).gbst 1 (spawnAct 2 1)
      (spawnState 2 2 [(1, ⟨1, ⟨1⟩, .empty⟩), (2, spawned 2 0)]) ∧
    ∀ x ∈ (spawnAct 2 1).tcreate,
      (spawnSystem 1).gbst.thStates.lookup x.base.symId = none := by
  have hstep : ConStep (spawnSystem 1) (spawnSystem 1).gbst 1 (spawnAct 2 1)
      (spawnState 2 2 [(1, ⟨1, ⟨1⟩, .empty⟩), (2, spawned 2 0)]) := ⟨1, [], 1, rfl⟩
  have hconv : convert (spawnFront 1) = .ok (spawnSystem 1) := rfl
  have hmain : getEntry "main" (spawnFront 1).cfgs (spawnFront 1).symt = .ok (0, ⟨1⟩) := rfl
  exact ⟨hstep, (create_fresh hconv hmain spawn_createsAtMost .init
    (fun h => absurd h (by decide)) hstep).1⟩

end Integers

end Poet
