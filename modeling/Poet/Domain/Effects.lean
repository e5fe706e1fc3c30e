import Poet.Domain.Memory

/-!
# What the transformer of an expression can do

An expression is evaluated without branching: it does the primitive operations that stand in it, in
order. `prims` lists them, and `Effect` says what each does to the state and which actions it
records. `transformer_effect` is the only place where the transformer is unfolded; what holds of the
state and the actions after an expression follows by induction on `Effect`.
-/

namespace Poet

/-- The operations that change the state, with the expression for the address. -/
inductive Prim where
  | write (lhs : SExpression)
  | lock (mutex : SExpression)
  | unlock (mutex : SExpression)
  | init (mutex : SExpression)
  | create (thread : SExpression)

section Prims

variable (v : Type) [TransValue v] (sym : List (SymId × String))

def callPrims (name : CallName) (args : List SExpression) (ps : List (List Prim)) : List Prim :=
  match name with
  | .create => (if TransValue.threadArg v then ps.getD 3 [] else []) ++ [.create (args.getD 0 .skip)]
  | .lock => [.lock (args.getD 0 .skip)]
  | .unlock => [.unlock (args.getD 0 .skip)]
  | .init => [.init (args.getD 0 .skip)]
  | .nondet => ps.getD 0 [] ++ ps.getD 1 []
  | .join | .exit | .error | .other => []

variable [SimpleC]

mutual

/-- The operations that the transformer does for an expression, if none of them fails. -/
def prims : SExpression → List Prim
  | .assign _ lhs rhs => prims lhs ++ prims rhs ++ [.write lhs]
  | .binary _ lhs rhs => prims lhs ++ prims rhs
  | .call fn args =>
    match fn with
    | .var ident =>
      match getSymbolName ident sym with
      | .ok name => callPrims v (callName name) args (primsList args)
      | .error _ => []
    | _ => []
  | .index _ idx => prims idx
  | .unary op e =>
    match op with
    | .preInc | .postInc | .postDec => prims e ++ [.write e]
    | .plus | .min | .neg => prims e
    | .preDec | .adr | .ind | .comp => []
  | .cast _ | .cond _ _ _ | .const _ | .skip | .var _ | .unsupported _ => []

def primsList : List SExpression → List (List Prim)
  | [] => []
  | e :: es => prims e :: primsList es

end

end Prims

/-! ## The actions -/

section Same

variable {v : Type}

/-- The same writes, locks, unlocks and creates. -/
structure Act.Same (a b : Act v) : Prop where
  wrs : ∀ x, x ∈ a.wrs ↔ x ∈ b.wrs
  locks : ∀ x, x ∈ a.locks ↔ x ∈ b.locks
  unlocks : ∀ x, x ∈ a.unlocks ↔ x ∈ b.unlocks
  tcreate : ∀ x, x ∈ a.tcreate ↔ x ∈ b.tcreate

/-- No writes, locks, unlocks and creates. -/
def Act.Quiet (a : Act v) : Prop := a.Same Act.bot

theorem Act.Same.refl (a : Act v) : a.Same a :=
  ⟨fun _ => .rfl, fun _ => .rfl, fun _ => .rfl, fun _ => .rfl⟩

theorem Act.Same.symm {a b : Act v} (h : a.Same b) : b.Same a :=
  ⟨fun x => (h.wrs x).symm, fun x => (h.locks x).symm, fun x => (h.unlocks x).symm,
    fun x => (h.tcreate x).symm⟩

theorem Act.Same.trans {a b c : Act v} (h : a.Same b) (h' : b.Same c) : a.Same c :=
  ⟨fun x => (h.wrs x).trans (h'.wrs x), fun x => (h.locks x).trans (h'.locks x),
    fun x => (h.unlocks x).trans (h'.unlocks x), fun x => (h.tcreate x).trans (h'.tcreate x)⟩

theorem quiet_bot : (Act.bot : Act v).Quiet := Act.Same.refl _

theorem quiet_read (addrs : MemAddrs v) : (Act.readActAddr addrs).Quiet :=
  ⟨fun _ => .rfl, fun _ => .rfl, fun _ => .rfl, fun _ => .rfl⟩

theorem Act.Quiet.not_mem_locks {a : Act v} (h : a.Quiet) (x : MemAddr v) : x ∉ a.locks :=
  fun hx => List.not_mem_nil ((h.locks x).1 hx)

theorem Act.Quiet.not_mem_tcreate {a : Act v} (h : a.Quiet) (x : MemAddr v) : x ∉ a.tcreate :=
  fun hx => List.not_mem_nil ((h.tcreate x).1 hx)

variable [DecidableEq v]

/-- Quiet actions add nothing. -/
theorem Act.Quiet.same_join {a b : Act v} (h : a.Quiet) : b.Same (a.join b) := by
  constructor <;> intro x <;> simp only [Act.join, MemAddrs.mem_join]
  · simp [h.wrs, Act.bot]
  · simp [h.locks, Act.bot]
  · simp [h.unlocks, Act.bot]
  · simp [h.tcreate, Act.bot]

/-- The actions of an assignment are those of its sides and the write. -/
theorem same_addWrites (a b : Act v) (addrs : MemAddrs v) :
    ((a.join b).join (Act.writeActAddr addrs)).Same ((b.join a).addWrites addrs) := by
  constructor <;> intro x <;>
    simp [Act.join, Act.addWrites, Act.writeActAddr, Act.bot, or_comm]

end Same

/-! ## Effects -/

variable [SimpleC] {v : Type} [DecidableEq v] [ToValue v] [OrdKey v] [Region v] [TransValue v]

/-- The operations in the list lead from one state to another and record the actions. -/
inductive Effect (scope : Scope) (cfgs : List (SymId × Graph)) :
    List Prim → ProgState v → Act v → ProgState v → Prop where
  | quiet {s a} (h : a.Quiet) : Effect scope cfgs [] s a s
  /-- A lock or a join that is not enabled. -/
  | block {ps s a} (h : a.Quiet) : Effect scope cfgs ps s a ProgState.bot
  | write {lhs s addrs val s'} (ha : getAddrsExpr lhs s scope = .ok addrs)
      (hw : s.writeMemory addrs val = .ok s') :
      Effect scope cfgs [.write lhs] s (Act.writeActAddr addrs) s'
  | lock {mutex s addrs x s'} (ha : getAddrsExpr mutex s scope = .ok addrs)
      (hr : s.readMemory addrs = .ok [x]) (hx : x ≠ ToValue.one)
      (hw : s.writeMemory addrs ToValue.one = .ok s') :
      Effect scope cfgs [.lock mutex] s (Act.lockActAddr addrs) s'
  | unlock {mutex s addrs s'} (ha : getAddrsExpr mutex s scope = .ok addrs)
      (hw : s.writeMemory addrs ToValue.zero = .ok s') :
      Effect scope cfgs [.unlock mutex] s (Act.unlockActAddr addrs) s'
  | init {mutex s addrs s'} (ha : getAddrsExpr mutex s scope = .ok addrs)
      (hw : s.writeMemory addrs ToValue.zero = .ok s') :
      Effect scope cfgs [.init mutex] s (Act.writeActAddr addrs) s'
  /-- The address of the thread is written, but not recorded. -/
  | create {thread s addrs s' pos id cfgSym locals argVal}
      (ha : getAddrsExpr thread s.incNumTh.2 scope = .ok addrs)
      (hw : s.incNumTh.2.writeMemory addrs (TransValue.tidVal (s.numTh + 1)) = .ok s')
      (hl : threadLocals (s.numTh + 1) cfgs cfgSym argVal = .ok locals) :
      Effect scope cfgs [.create thread] s (Act.createThreadAct ⟨s.numTh + 1⟩ ToValue.zero)
        (s'.insertThread (s.numTh + 1) ⟨pos, id, locals⟩)
  | seq {p q s a s' b s''} (h : Effect scope cfgs p s a s') (h' : Effect scope cfgs q s' b s'') :
      Effect scope cfgs (p ++ q) s (a.join b) s''
  | same {p s a b s'} (h : Effect scope cfgs p s a s') (hab : a.Same b) : Effect scope cfgs p s b s'

/-- From the bottom state a thread does nothing: it finds no address. -/
theorem Effect.of_bot {i : TId} {cfgs : List (SymId × Graph)} {ps : List Prim} {s s' : ProgState v}
    {a : Act v} (h : Effect (.loc i) cfgs ps s a s') (hs : s = ProgState.bot) :
    s' = ProgState.bot ∧ a.Quiet := by
  have hnone : s.thStates.lookup i = none := by rw [hs]; rfl
  induction h with
  | quiet h => exact ⟨hs, h⟩
  | block h => exact ⟨rfl, h⟩
  | write ha _ => exact absurd ha (getAddrsExpr_ne_ok hnone)
  | lock ha _ _ _ => exact absurd ha (getAddrsExpr_ne_ok hnone)
  | unlock ha _ => exact absurd ha (getAddrsExpr_ne_ok hnone)
  | init ha _ => exact absurd ha (getAddrsExpr_ne_ok hnone)
  | @create _ s _ _ _ _ _ _ _ ha _ _ =>
    exact absurd ha (getAddrsExpr_ne_ok (show s.incNumTh.2.thStates.lookup i = none from hnone))
  | seq _ _ ih ih' =>
    obtain ⟨rfl, hq⟩ := ih hs hnone
    obtain ⟨hs', hq'⟩ := ih' rfl rfl
    exact ⟨hs', hq.same_join.symm.trans hq'⟩
  | same _ hab ih =>
    obtain ⟨hs', hq⟩ := ih hs hnone
    exact ⟨hs', hab.symm.trans hq⟩

/-- What no operation changes. -/
structure TState.SameEnv (t t' : TState v) : Prop where
  scope : t'.scope = t.scope
  sym : t'.sym = t.sym
  cfgs : t'.cfgs = t.cfgs

omit [SimpleC] [DecidableEq v] [ToValue v] [OrdKey v] [Region v] [TransValue v] in
theorem TState.SameEnv.trans {t t' t'' : TState v} (h : t.SameEnv t') (h' : t'.SameEnv t'') :
    t.SameEnv t'' :=
  ⟨h'.scope.trans h.scope, h'.sym.trans h.sym, h'.cfgs.trans h.cfgs⟩

/-- The computation does the operations `ps` and nothing else. -/
def HasEffect (sym : List (SymId × String)) (cfgs : List (SymId × Graph)) (ps : List Prim)
    (op : TOp v (ValAct v)) : Prop :=
  ∀ t : TState v, t.sym = some sym → t.cfgs = some cfgs →
    Op.Sat op t (fun r t' => Effect t.scope cfgs ps t.st r.2 t'.st ∧ t.SameEnv t') fun _ _ => True

/-! ## The transformers -/

section HasEffect

variable {sym : List (SymId × String)} {cfgs : List (SymId × Graph)} {p q : List Prim}

/-- A computation that changes nothing but the warnings. -/
theorem hasEffect_of_quiet {op : TOp v (ValAct v)}
    (h : ∀ t, Op.Sat op t (fun r t' => r.2.Quiet ∧ t'.st = t.st ∧ t.SameEnv t') fun _ _ => True) :
    HasEffect sym cfgs [] op := by
  intro t _ _
  refine (h t).mono ?_ fun _ _ _ => trivial
  rintro r t' ⟨hq, hst, henv⟩
  exact ⟨hst ▸ .quiet hq, henv⟩

theorem hasEffect_pure {val : LazyVal v} {a : Act v} (h : a.Quiet) :
    HasEffect sym cfgs [] (pure (val, a) : TOp v (ValAct v)) :=
  hasEffect_of_quiet fun _ => ⟨h, rfl, rfl, rfl, rfl⟩

theorem hasEffect_fail (ps : List Prim) (e : DomErr) :
    HasEffect sym cfgs ps (Op.fail e : TOp v (ValAct v)) := fun _ _ _ => trivial

theorem hasEffect_var (id : SymId) : HasEffect sym cfgs [] (varTransformer id : TOp v (ValAct v)) := by
  apply hasEffect_of_quiet
  intro t
  simp only [varTransformer, Op.sat_bind, Op.sat_get, Op.sat_monadLift, Op.sat_pure, implies_true,
    and_true]
  exact fun addrs _ => ⟨quiet_read addrs, trivial, rfl, rfl, rfl⟩

theorem hasEffect_index {arr : AddrsOf v} {idx : TOp v (ValAct v)} (h : HasEffect sym cfgs p idx) :
    HasEffect sym cfgs p (indexTransformer arr idx) := by
  intro t hsym hcfgs
  simp only [indexTransformer, Op.sat_bind, Op.sat_get, Op.sat_monadLift, implies_true, and_true]
  intro as _
  cases as with
  | top => trivial
  | addrs l =>
    simp only [Op.sat_bind]
    refine (h t hsym hcfgs).mono ?_ fun _ _ _ => trivial
    rintro ⟨val, acts⟩ t' ⟨he, henv⟩
    simp only [Op.sat_monadLift, Op.sat_pure, implies_true, and_true]
    intro off _
    exact ⟨he.same (quiet_read _).same_join, henv⟩

theorem hasEffect_assign (op : AssignOp) {lhs rhs : TOp v (ValAct v)} (e : SExpression)
    (hl : HasEffect sym cfgs p lhs) (hr : HasEffect sym cfgs q rhs) :
    HasEffect sym cfgs (p ++ q ++ [.write e]) (assignTransformer op lhs rhs (getAddrsExpr e)) := by
  intro t hsym hcfgs
  simp only [assignTransformer, Op.sat_bind]
  refine (hl t hsym hcfgs).mono ?_ fun _ _ _ => trivial
  rintro ⟨lval, lacts⟩ t₁ ⟨he₁, henv₁⟩
  refine (hr t₁ (henv₁.sym.trans hsym) (henv₁.cfgs.trans hcfgs)).mono ?_ fun _ _ _ => trivial
  rintro ⟨rval, racts⟩ t₂ ⟨he₂, henv₂⟩
  have henv := henv₁.trans henv₂
  simp only [Op.sat_get, Op.sat_monadLift, Op.sat_modify, Op.sat_pure, setState, implies_true,
    and_true]
  intro addrs ha val _ st hw
  rw [henv₁.scope] at he₂
  rw [henv.scope] at ha
  exact ⟨((he₁.seq he₂).seq (.write ha hw)).same (same_addWrites _ _ _),
    henv.scope, henv.sym, henv.cfgs⟩

theorem hasEffect_const (k : Value) :
    HasEffect sym cfgs [] (constTransformer k : TOp v (ValAct v)) := hasEffect_pure quiet_bot

/-- `++` and `--`. -/
theorem hasEffect_incr {e : SExpression} (h : HasEffect sym cfgs p (transformer e : TOp v (ValAct v)))
    (op : AssignOp) : HasEffect sym cfgs (p ++ [.write e])
      (assignTransformer op (transformer e : TOp v (ValAct v)) (constTransformer (.int 1))
        (getAddrsExpr e)) := by
  have := hasEffect_assign op e h (hasEffect_const (.int 1))
  rwa [List.append_nil] at this

theorem hasEffect_binop {op : BinaryOp} {lhs rhs : TOp v (ValAct v)}
    (hl : HasEffect sym cfgs p lhs) (hr : HasEffect sym cfgs q rhs) :
    HasEffect sym cfgs (p ++ q) (binopTransformer op lhs rhs) := by
  intro t hsym hcfgs
  simp only [binopTransformer, Op.sat_bind]
  refine (hl t hsym hcfgs).mono ?_ fun _ _ _ => trivial
  rintro ⟨lval, lacts⟩ t₁ ⟨he₁, henv₁⟩
  refine (hr t₁ (henv₁.sym.trans hsym) (henv₁.cfgs.trans hcfgs)).mono ?_ fun _ _ _ => trivial
  rintro ⟨rval, racts⟩ t₂ ⟨he₂, henv₂⟩
  rw [henv₁.scope] at he₂
  exact ⟨he₁.seq he₂, henv₁.trans henv₂⟩

theorem hasEffect_minus {e : TOp v (ValAct v)} (h : HasEffect sym cfgs p e) :
    HasEffect sym cfgs p (minusTransformer e) := by
  intro t hsym hcfgs
  simp only [minusTransformer, Op.sat_bind, Op.sat_pure]
  exact h t hsym hcfgs

theorem hasEffect_nondet {lower upper : TOp v (ValAct v)} (hl : HasEffect sym cfgs p lower)
    (hu : HasEffect sym cfgs q upper) :
    HasEffect sym cfgs (p ++ q) (nondetTransformer lower upper) := by
  unfold nondetTransformer
  split
  · exact hasEffect_fail _ _
  intro t hsym hcfgs
  simp only [Op.sat_bind]
  refine (hl t hsym hcfgs).mono ?_ fun _ _ _ => trivial
  rintro ⟨lval, lacts⟩ t₁ ⟨he₁, henv₁⟩
  refine (hu t₁ (henv₁.sym.trans hsym) (henv₁.cfgs.trans hcfgs)).mono ?_ fun _ _ _ => trivial
  rintro ⟨uval, uacts⟩ t₂ ⟨he₂, henv₂⟩
  rw [henv₁.scope] at he₂
  exact ⟨he₁.seq he₂, henv₁.trans henv₂⟩

/-! ## Calls -/

theorem addrsList_eq_map (args : List SExpression) :
    (addrsList args : List (AddrsOf v)) = args.map getAddrsExpr := by
  induction args with
  | nil => rfl
  | cons e es ih => simp only [addrsList, List.map_cons, ih]

omit [SimpleC] in
theorem nthArg_eq_ok {α : Type} {l : List α} {n : Nat} {a : α} :
    nthArg l n = .ok a ↔ l[n]? = some a := by
  unfold nthArg
  cases l[n]? <;> simp

theorem argAddrs_eq_ok {args : List SExpression} {n : Nat} {st : ProgState v} {scope : Scope}
    {addrs : MemAddrs v} (h : argAddrs (addrsList args) n st scope = .ok addrs) :
    getAddrsExpr (args.getD n .skip) st scope = .ok addrs := by
  obtain ⟨f, hf, h⟩ := bind_eq_ok.1 h
  rw [nthArg_eq_ok, addrsList_eq_map, List.getElem?_map] at hf
  obtain ⟨e, he, rfl⟩ := Option.map_eq_some_iff.1 hf
  rwa [List.getD_eq_getElem?_getD, he]

omit [SimpleC] [OrdKey v] [TransValue v] in
theorem isLocked_eq_ok {addrs : AddrsOf v} {st : ProgState v} {scope : Scope} {locked : Bool}
    (h : isLocked addrs st scope = .ok locked) :
    ∃ as x, addrs st scope = .ok as ∧ st.readMemory as = .ok [x] ∧
      locked = decide (x = ToValue.one) := by
  obtain ⟨as, has, h⟩ := bind_eq_ok.1 h
  obtain ⟨vals, hvals, h⟩ := bind_eq_ok.1 h
  match vals, h with
  | [x], h => exact ⟨as, x, has, hvals, (Except.ok.inj h).symm⟩

theorem hasEffect_lock (args : List SExpression) :
    HasEffect sym cfgs [.lock (args.getD 0 .skip)]
      (lockTransformer (argAddrs (addrsList args) 0) : TOp v (ValAct v)) := by
  intro t hsym hcfgs
  simp only [lockTransformer, Op.sat_bind, Op.sat_get, Op.sat_monadLift, implies_true, and_true]
  rintro locked hlocked
  obtain ⟨addrs, x, ha, hr, rfl⟩ := isLocked_eq_ok hlocked
  by_cases hx : x = ToValue.one
  · simp only [hx, decide_true, if_true, setState, Op.sat_bind, Op.sat_modify, Op.sat_pure]
    exact ⟨.block quiet_bot, rfl, rfl, rfl⟩
  · simp only [hx, decide_false, Bool.false_eq_true, if_false, setState, Op.sat_bind,
      Op.sat_monadLift, Op.sat_modify, Op.sat_pure, implies_true, and_true]
    intro addrs' ha' s' hw
    obtain rfl := Except.ok.inj (ha.symm.trans ha')
    exact ⟨.lock (argAddrs_eq_ok ha) hr hx hw, rfl, rfl, rfl⟩

theorem hasEffect_unlock (args : List SExpression) :
    HasEffect sym cfgs [.unlock (args.getD 0 .skip)]
      (resetTransformer (argAddrs (addrsList args) 0) Act.unlockActAddr : TOp v (ValAct v)) := by
  intro t hsym hcfgs
  simp only [resetTransformer, setState, Op.sat_bind, Op.sat_get, Op.sat_monadLift, Op.sat_modify,
    Op.sat_pure, implies_true, and_true]
  exact fun addrs ha s' hw => ⟨.unlock (argAddrs_eq_ok ha) hw, rfl, rfl, rfl⟩

theorem hasEffect_init (args : List SExpression) :
    HasEffect sym cfgs [.init (args.getD 0 .skip)]
      (resetTransformer (argAddrs (addrsList args) 0) Act.writeActAddr : TOp v (ValAct v)) := by
  intro t hsym hcfgs
  simp only [resetTransformer, setState, Op.sat_bind, Op.sat_get, Op.sat_monadLift, Op.sat_modify,
    Op.sat_pure, implies_true, and_true]
  exact fun addrs ha s' hw => ⟨.init (argAddrs_eq_ok ha) hw, rfl, rfl, rfl⟩

theorem hasEffect_join (thread : AddrsOf v) :
    HasEffect sym cfgs [] (joinTransformer thread) := by
  intro t hsym hcfgs
  simp only [joinTransformer, setState, Op.sat_bind, Op.sat_get, Op.sat_monadLift, Op.sat_ite,
    Op.sat_modify, Op.sat_pure, implies_true, and_true]
  intro tid _ tabs _ exited _
  exact ⟨fun _ => ⟨.quiet ⟨fun _ => .rfl, fun _ => .rfl, fun _ => .rfl, fun _ => .rfl⟩,
    rfl, rfl, rfl⟩, fun _ => ⟨.block quiet_bot, rfl, rfl, rfl⟩⟩

theorem hasEffect_exit : HasEffect sym cfgs [] (exitTransformer : TOp v (ValAct v)) := by
  apply hasEffect_of_quiet
  intro t
  simp only [exitTransformer, Op.sat_bind, Op.sat_get]
  cases t.scope with
  | glob => trivial
  | loc tid => exact ⟨⟨fun _ => .rfl, fun _ => .rfl, fun _ => .rfl, fun _ => .rfl⟩, rfl, rfl, rfl, rfl⟩

theorem hasEffect_error : HasEffect sym cfgs [] (errorTransformer : TOp v (ValAct v)) :=
  hasEffect_of_quiet fun _ => ⟨quiet_bot, rfl, rfl, rfl, rfl⟩

theorem hasEffect_create {args : List SExpression} {fn : Except DomErr SExpression}
    {arg : TOp v (ValAct v)} (h : HasEffect sym cfgs p arg) :
    HasEffect sym cfgs ((if TransValue.threadArg v then p else []) ++ [.create (args.getD 0 .skip)])
      (createTransformer (argAddrs (addrsList args) 0) fn arg) := by
  have harg : HasEffect sym cfgs (if TransValue.threadArg v then p else [])
      (threadArgOp arg) := by
    unfold threadArgOp
    split
    · exact h
    · exact hasEffect_pure quiet_bot
  intro t hsym hcfgs
  simp only [createTransformer, Op.sat_bind]
  refine (harg t hsym hcfgs).mono ?_ fun _ _ _ => trivial
  rintro ⟨argVal, argActs⟩ t₁ ⟨he₁, henv₁⟩
  simp only [setState, Op.sat_get, Op.sat_monadLift, Op.sat_modify, Op.sat_pure, implies_true,
    and_true]
  intro addrs ha s' hw e _ thSym _ tabs htabs name _ entry _ locals hl
  simp only [tables, henv₁.sym.trans hsym, henv₁.cfgs.trans hcfgs] at htabs
  obtain rfl := Except.ok.inj htabs
  rw [henv₁.scope] at ha
  exact ⟨he₁.seq (.create (argAddrs_eq_ok ha) hw hl), henv₁.scope, henv₁.sym, henv₁.cfgs⟩

/-- The arguments of a call do their operations. -/
def ArgsEffect (sym : List (SymId × String)) (cfgs : List (SymId × Graph)) (ps : List (List Prim))
    (ops : List (TOp v (ValAct v))) : Prop :=
  ∀ n op, ops[n]? = some op → HasEffect sym cfgs (ps.getD n []) op

theorem hasEffect_argOp {ps : List (List Prim)} {ops : List (TOp v (ValAct v))}
    (h : ArgsEffect sym cfgs ps ops) (n : Nat) : HasEffect sym cfgs (ps.getD n []) (argOp ops n) := by
  intro t hsym hcfgs
  simp only [argOp, Op.sat_bind, Op.sat_monadLift, implies_true, and_true]
  intro op hop
  exact h n op (nthArg_eq_ok.1 hop) t hsym hcfgs

theorem hasEffect_callName {args : List SExpression} {ps : List (List Prim)}
    {ops : List (TOp v (ValAct v))} (h : ArgsEffect sym cfgs ps ops) (name : CallName) :
    HasEffect sym cfgs (callPrims v name args ps)
      (callTransformerName name args ops (addrsList args)) := by
  cases name with
  | create => exact hasEffect_create (hasEffect_argOp h 3)
  | join => exact hasEffect_join _
  | exit => exact hasEffect_exit
  | lock => exact hasEffect_lock args
  | unlock => exact hasEffect_unlock args
  | init => exact hasEffect_init args
  | nondet => exact hasEffect_nondet (hasEffect_argOp h 0) (hasEffect_argOp h 1)
  | error => exact hasEffect_error
  | other => exact hasEffect_pure quiet_bot

theorem hasEffect_call {fn : SExpression} {args : List SExpression}
    {ops : List (TOp v (ValAct v))} (h : ArgsEffect sym cfgs (primsList v sym args) ops) :
    HasEffect sym cfgs (prims v sym (.call fn args))
      (callTransformer fn args ops (addrsList args)) := by
  cases fn with
  | var ident =>
    intro t hsym hcfgs
    simp only [callTransformer, prims, Op.sat_bind, Op.sat_get, Op.sat_monadLift, tables, hsym,
      hcfgs, implies_true, and_true, Except.ok.injEq]
    rintro _ rfl name hname
    rw [hname]
    exact hasEffect_callName h _ t hsym hcfgs
  | _ => exact hasEffect_fail _ _

mutual

theorem transformer_effect (sym : List (SymId × String)) (cfgs : List (SymId × Graph)) :
    ∀ e : SExpression, HasEffect sym cfgs (prims v sym e) (transformer e : TOp v (ValAct v))
  | .assign op lhs rhs =>
    hasEffect_assign op lhs (transformer_effect sym cfgs lhs) (transformer_effect sym cfgs rhs)
  | .binary op lhs rhs =>
    hasEffect_binop (transformer_effect sym cfgs lhs) (transformer_effect sym cfgs rhs)
  | .call fn args => hasEffect_call (args_effect sym cfgs args)
  | .cast _ => hasEffect_pure quiet_bot
  | .cond _ _ _ => hasEffect_fail _ _
  | .const k => hasEffect_const _
  | .index arr idx => hasEffect_index (transformer_effect sym cfgs idx)
  | .skip => hasEffect_pure quiet_bot
  | .unary op e => by
    have he := transformer_effect sym cfgs e
    cases op with
    | preInc =>
      simp only [transformer, prims]
      split
      · exact hasEffect_incr he .add
      · exact hasEffect_fail _ _
    | postInc => exact hasEffect_incr he .add
    | postDec => exact hasEffect_incr he .sub
    | plus => exact he
    | min => exact hasEffect_minus he
    | neg => exact transformerNeg_effect sym cfgs e
    | preDec => exact hasEffect_fail _ _
    | adr => exact hasEffect_fail _ _
    | ind => exact hasEffect_fail _ _
    | comp => exact hasEffect_fail _ _
  | .var id => hasEffect_var id
  | .unsupported _ => hasEffect_fail _ _

theorem transformerNeg_effect (sym : List (SymId × String)) (cfgs : List (SymId × Graph)) :
    ∀ e : SExpression, HasEffect sym cfgs (prims v sym e) (transformerNeg e : TOp v (ValAct v))
  | .binary op l r => by
    have hl := transformer_effect sym cfgs l
    have hr := transformer_effect sym cfgs r
    unfold transformerNeg
    split
    · exact hasEffect_binop (transformerNeg_effect sym cfgs l) (transformerNeg_effect sym cfgs r)
    · exact hasEffect_binop (transformerNeg_effect sym cfgs l) (transformerNeg_effect sym cfgs r)
    · split
      · exact hasEffect_binop hl hr
      · exact hasEffect_fail _ _
  | .unary op e => by
    have he := transformer_effect sym cfgs e
    cases op with
    | neg => exact he
    | _ => exact hasEffect_fail _ _
  | .assign _ _ _ | .call _ _ | .cast _ | .cond _ _ _ | .const _ | .index _ _ | .skip | .var _
  | .unsupported _ => hasEffect_fail _ _

theorem args_effect (sym : List (SymId × String)) (cfgs : List (SymId × Graph)) :
    ∀ args : List SExpression,
      ArgsEffect sym cfgs (primsList v sym args) (transformerList args : List (TOp v (ValAct v)))
  | [] => fun n op h => by cases h
  | e :: es => fun n op h => by
    cases n with
    | zero =>
      obtain rfl := Option.some.inj h
      exact transformer_effect sym cfgs e
    | succ n => exact args_effect sym cfgs es n op h

end

end HasEffect

/-! ## Declarations -/

/-- What a declaration does. An initialiser is evaluated for its value and its actions, but the
state it leads to is given up. -/
inductive DeclEffect (scope : Scope) (sym : List (SymId × String)) (cfgs : List (SymId × Graph)) :
    SDeclaration → ProgState v → Act v → ProgState v → Prop where
  | nothing {d s a} (h : a.Quiet) : DeclEffect scope sym cfgs d s a s
  | cells {id ty s a s'} {cells : List (MemAddr v × v)}
      (hc : ∀ p ∈ cells, p.1.base = id ∧ p.1.level = scope) (hw : writeCells s cells = .ok s')
      (ha : (Act.writeActAddr (.addrs (cells.map (·.1)))).Same a) :
      DeclEffect scope sym cfgs (.decl (some ⟨some id, ty⟩) none) s a s'
  | init {id ty e s a s₁ val s'} (he : Effect scope cfgs (prims v sym e) s a s₁)
      (hw : s.writeMemoryAddr ⟨id, ToValue.zero, scope⟩ val = .ok s') :
      DeclEffect scope sym cfgs (.decl (some ⟨some id, ty⟩) (some (.initExpr e))) s
        (a.addWrites (.addrs [⟨id, ToValue.zero, scope⟩])) s'

theorem defaultValue_bot (sym : List (SymId × String)) (cfgs : List (SymId × Graph))
    (ty : List DerivedDeclr) (t : TState v) (hsym : t.sym = some sym) (hcfgs : t.cfgs = some cfgs) :
    Op.Sat (defaultValue ty) t (fun r t' => r.2 = Act.bot ∧ t.SameEnv t') fun _ _ => True := by
  unfold defaultValue
  split
  · next e =>
    simp only [Op.sat_bind]
    refine (transformer_effect sym cfgs e t hsym hcfgs).mono ?_ fun _ _ _ => trivial
    rintro ⟨val, acts⟩ t' ⟨-, henv⟩
    simpa using fun _ _ _ _ => henv
  · exact ⟨rfl, rfl, rfl, rfl⟩

theorem transformerDecl_effect (sym : List (SymId × String)) (cfgs : List (SymId × Graph))
    (d : SDeclaration) (t : TState v) (hsym : t.sym = some sym) (hcfgs : t.cfgs = some cfgs) :
    Op.Sat (transformerDecl d) t
      (fun a t' => DeclEffect t.scope sym cfgs d t.st a t'.st ∧ t.SameEnv t') fun _ _ => True := by
  match d with
  | .typeDecl => exact ⟨.nothing quiet_bot, rfl, rfl, rfl⟩
  | .decl none none => exact ⟨.nothing quiet_bot, rfl, rfl, rfl⟩
  | .decl none (some _) => trivial
  | .decl (some ⟨none, _⟩) _ => trivial
  | .decl (some ⟨some id, ty⟩) none =>
    simp only [transformerDecl, transformerInit, Op.sat_bind, Op.sat_get]
    refine (defaultValue_bot sym cfgs ty t hsym hcfgs).mono ?_ fun _ _ _ => trivial
    rintro ⟨vals, iActs⟩ t' ⟨rfl, henv⟩
    simp only [setState, Op.sat_monadLift, Op.sat_modify, Op.sat_pure, implies_true, and_true]
    intro st' hw
    refine ⟨.cells ?_ hw ?_, henv.scope, henv.sym, henv.cfgs⟩
    · intro p hp
      obtain ⟨q, -, rfl⟩ := List.mem_map.1 hp
      exact ⟨rfl, rfl⟩
    · constructor <;> intro x <;> simp [Act.join, Act.writeActAddr, Act.bot]
  | .decl (some ⟨some id, ty⟩) (some (.initExpr e)) =>
    simp only [transformerDecl, transformerInit, Op.sat_bind, Op.sat_get]
    refine (transformer_effect sym cfgs e t hsym hcfgs).mono ?_ fun _ _ _ => trivial
    rintro ⟨val, acts⟩ t' ⟨he, henv⟩
    simp only [setState, Op.sat_monadLift, Op.sat_modify, Op.sat_pure, implies_true, and_true]
    exact fun x _ st' hw => ⟨.init he hw, henv.scope, henv.sym, henv.cfgs⟩
  | .decl (some ⟨some id, ty⟩) (some .initList) => trivial

/-- The variable that a declaration declares. -/
def SDeclaration.ident : SDeclaration → Option SymId
  | .decl (some d) _ => d.declrIdent
  | _ => none

/-- A declaration writes its own cells only. -/
theorem DeclEffect.writes {scope : Scope} {sym : List (SymId × String)}
    {cfgs : List (SymId × Graph)} {d : SDeclaration} {s s' : ProgState v} {a : Act v}
    (h : DeclEffect scope sym cfgs d s a s') :
    Writes (fun x => d.ident = some x.base ∧ x.level = scope) s s' := by
  cases h with
  | nothing _ => exact .refl
  | cells hc hw _ =>
    refine (writes_of_writeCells hw).mono fun x hx => ?_
    obtain ⟨p, hp, rfl⟩ := List.mem_map.1 hx
    exact ⟨congrArg some (hc p hp).1.symm, (hc p hp).2⟩
  | init _ hw => exact .step .refl ⟨rfl, rfl⟩ hw

/-! ## The initial state -/

/-- Global declarations create no thread. -/
theorem transformerDecls_threads {sym : List (SymId × String)} {cfgs : List (SymId × Graph)}
    (decls : List SDeclaration) {t : TState v} (hsym : t.sym = some sym)
    (hcfgs : t.cfgs = some cfgs) :
    Op.Sat (transformerDecls decls) t (fun _ t' => t'.st.numTh = t.st.numTh ∧
      ∀ i, t'.st.thStates.lookup i = none ↔ t.st.thStates.lookup i = none) fun _ _ => True := by
  refine (Op.sat_foldlM (E := fun _ _ => True) (fun _ t' => t.SameEnv t' ∧
    t'.st.numTh = t.st.numTh ∧
    ∀ i, t'.st.thStates.lookup i = none ↔ t.st.thStates.lookup i = none) decls _ t ?_
    ⟨⟨rfl, rfl, rfl⟩, rfl, fun _ => .rfl⟩).mono (fun _ _ h => h.2) fun _ _ => id
  rintro a d - t₁ ⟨henv, hnum, hth⟩
  simp only [Op.sat_bind, Op.sat_pure]
  refine (transformerDecl_effect sym cfgs d t₁ (henv.sym.trans hsym)
    (henv.cfgs.trans hcfgs)).mono ?_ fun _ _ _ => trivial
  rintro a' t₂ ⟨hd, henv'⟩
  have hframe := hd.writes.frame
  exact ⟨henv.trans henv', hframe.numTh.trans hnum, fun i => (hframe.threads i).trans (hth i)⟩

/-- At the start there is the main thread, under the number of its symbol. -/
theorem convert_threads {fe : FrontEnd} {syst : System (ProgState v) (Act v)}
    (h : convert fe = .ok syst) :
    ∃ pos main, getEntry "main" fe.cfgs fe.symt = .ok (pos, main) ∧ syst.cfgs = fe.cfgs ∧
      syst.symt = fe.symt ∧ syst.gbst.numTh = 1 ∧
      ∀ i, syst.gbst.thStates.lookup i = if i = main.symId then some ⟨pos, main, .empty⟩ else none := by
  obtain ⟨⟨pos, main⟩, hentry, h⟩ := bind_eq_ok.1 h
  refine ⟨pos, main, hentry, ?_⟩
  dsimp only at h
  split at h
  · cases h
  · next acts t hdecls =>
    obtain rfl := Except.ok.inj h
    obtain ⟨hnum, hth⟩ := (transformerDecls_threads fe.decls rfl rfl).of_eq_ok hdecls
    have hnone : ∀ i, t.st.thStates.lookup i = none := fun i => (hth i).2 rfl
    refine ⟨rfl, rfl, hnum, fun i => ?_⟩
    simp only [ProgState.setPos, hnone, OrdMap.lookup_insert]

end Poet
