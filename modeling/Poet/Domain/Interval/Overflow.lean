import Poet.Domain.Interval.Simulation
import Poet.Domain.Interval.Word

/-!
# Runs without overflow

`HostInt.checked` computes with words and fails where a result does not fit. A run that returns with
it has met no overflow, and every other host that stores what fits then does the same: wherever the
checked run returns, the run on words and the run on unbounded integers return the same
(`refines_transformer`). So what is known of scalar expressions on unbounded integers holds on words
as long as nothing overflows.
-/

namespace Poet

/-- What is stored on `H` is stored on `H'`. -/
def HostInt.Refines (H H' : HostInt) : Prop :=
  ∀ n, Mirrors (@InterVal.store H n) (@InterVal.store H' n)

theorem checked_refines {H : HostInt} (h : ∀ n, HostInt.word.fits n = true → H.fits n = true) :
    HostInt.checked.Refines H := by
  intro n a ha
  by_cases hn : HostInt.word.fits n = true
  · rw [@InterVal.store_of_fits HostInt.checked n hn] at ha
    rw [@InterVal.store_of_fits H n (h n hn), ← ha]
  · have herr : @InterVal.store HostInt.checked n = .error (.error "arithmetic overflow") := by
      dsimp only [InterVal.store]
      exact if_neg hn
    rw [herr] at ha
    cases ha

theorem checked_refines_word : HostInt.checked.Refines HostInt.word := checked_refines fun _ h => h

theorem checked_refines_unbounded : HostInt.checked.Refines HostInt.unbounded :=
  checked_refines fun _ _ => rfl

/-! The regions and the transformers of intervals, on a host. -/

section On

variable [SimpleC] (H : HostInt)

abbrev regionOn : Region IntValue := instRegionIntValue

abbrev transformerOn (e : SExpression) : TOp IntValue (ValAct IntValue) :=
  transformer e

abbrev getAddrsOn (e : SExpression) : AddrsOf IntValue := getAddrsExpr e

abbrev binopOn (op : BinaryOp) (l r : TOp IntValue (ValAct IntValue)) :
    TOp IntValue (ValAct IntValue) := binopTransformer op l r

abbrev minusOn (e : TOp IntValue (ValAct IntValue)) : TOp IntValue (ValAct IntValue) :=
  minusTransformer e

abbrev assignOn (op : AssignOp) (l r : TOp IntValue (ValAct IntValue))
    (addrs : AddrsOf IntValue) : TOp IntValue (ValAct IntValue) := assignTransformer op l r addrs

theorem ScalarExpr.eq_var_on {S : SymId → Prop} {e : SExpression} (he : ScalarExpr S e)
    {st : IntState} {scope : Scope} {A : IntMAddrs} (hA : getAddrsOn H e st scope = .ok A) :
    ∃ x, S x ∧ e = .var x := he.eq_var hA

end On

section Refines

variable {H H' : HostInt} (hH : H.Refines H')
include hH

/-! ## Values -/

theorem mirrors_plusIVal (a b : InterVal) :
    Mirrors (@InterVal.plusIVal H a b) (@InterVal.plusIVal H' a b) := by
  cases a <;> cases b <;> first | exact hH _ | exact mirrors_refl _

theorem mirrors_subIVal (a b : InterVal) :
    Mirrors (@InterVal.subIVal H a b) (@InterVal.subIVal H' a b) := by
  cases a <;> cases b <;> first | exact hH _ | exact mirrors_refl _

theorem mirrors_mulIVal (a b : InterVal) :
    Mirrors (@InterVal.mulIVal H a b) (@InterVal.mulIVal H' a b) := by
  cases a <;> cases b <;> first | exact hH _ | exact mirrors_refl _

omit hH in
theorem mirrors_arith {text : String} {g : Value → Value → Except DomErr Value}
    {f f' : InterVal → InterVal → InterVal → InterVal → Except DomErr IntValue}
    (hf : ∀ a b c d, Mirrors (f a b c d) (f' a b c d)) (u w : IntValue) :
    Mirrors (IntValue.arith text f g u w) (IntValue.arith text f' g u w) := by
  cases u <;> cases w <;> first | exact hf _ _ _ _ | exact mirrors_refl _

section Operations

variable [SimpleC]

theorem mirrors_add (u w : IntValue) : Mirrors (@IntValue.add H _ u w) (@IntValue.add H' _ u w) :=
  mirrors_arith (fun a b c d => mirrors_bind (mirrors_plusIVal hH a c) fun _ =>
    mirrors_bind (mirrors_plusIVal hH b d) fun _ => mirrors_refl _) u w

theorem mirrors_sub (u w : IntValue) : Mirrors (@IntValue.sub H _ u w) (@IntValue.sub H' _ u w) :=
  mirrors_arith (fun a b c d => mirrors_bind (mirrors_subIVal hH a d) fun _ =>
    mirrors_bind (mirrors_subIVal hH b c) fun _ => mirrors_refl _) u w

theorem mirrors_mul (u w : IntValue) : Mirrors (@IntValue.mul H _ u w) (@IntValue.mul H' _ u w) :=
  mirrors_arith (fun a b c d => mirrors_bind (mirrors_mulIVal hH a c) fun _ =>
    mirrors_bind (mirrors_mulIVal hH a d) fun _ => mirrors_bind (mirrors_mulIVal hH b c) fun _ =>
    mirrors_bind (mirrors_mulIVal hH b d) fun _ => mirrors_refl _) u w

end Operations

/-! ## Regions and states -/

theorem mirrors_genHead {ν : Type} (fn : ν → ν → ν) (x1 : OffsList ν)
    {rest rest' : OffsList ν → Except DomErr (OffsList ν)} (hrest : ∀ x, Mirrors (rest x) (rest' x))
    (x2 : OffsList ν) (a : IntValue) (v : ν) :
    Mirrors (@genHead H ν fn x1 rest a v x2) (@genHead H' ν fn x1 rest' a v x2) := by
  induction x2 generalizing a v with
  | nil => exact mirrors_refl _
  | cons p x2 ih =>
    obtain ⟨b, u⟩ := p
    cases a <;> cases b <;> try exact mirrors_refl _
    simp only [genHead]
    -- the two walks take the same branch, and cut the keys in the same places
    repeat' split
    all_goals
      repeat
        first
        | exact mirrors_refl _
        | exact mirrors_plusIVal hH _ _
        | exact mirrors_subIVal hH _ _
        | exact hrest _
        | exact ih _ _
        | refine mirrors_bind ?_ fun _ => ?_

theorem mirrors_genIntvalList {ν : Type} (fn : ν → ν → ν) (x1 x2 : OffsList ν) :
    Mirrors (@genIntvalList H ν fn x1 x2) (@genIntvalList H' ν fn x1 x2) := by
  induction x1 generalizing x2 with
  | nil => exact mirrors_refl _
  | cons p x1 ih => exact mirrors_genHead hH fn x1 ih x2 p.1 p.2

theorem mirrors_writeRegionAddr (mem : Memory IntValue) (b : MemAddrBase) (off val : IntValue) :
    Mirrors (@ProgState.writeRegionAddr _ _ _ (regionOn H) mem b off val)
      (@ProgState.writeRegionAddr _ _ _ (regionOn H') mem b off val) := by
  unfold ProgState.writeRegionAddr
  split
  · exact mirrors_refl _
  · exact mirrors_bind (mirrors_bind (mirrors_genIntvalList hH _ _ _) fun _ => mirrors_refl _)
      fun _ => mirrors_refl _

theorem mirrors_writeMemory (st : IntState) (A : IntMAddrs) (val : IntValue) :
    Mirrors (@ProgState.writeMemory _ _ _ (regionOn H) st A val)
      (@ProgState.writeMemory _ _ _ (regionOn H') st A val) := by
  cases A with
  | top => exact mirrors_refl _
  | addrs l =>
    induction l with
    | nil => exact mirrors_refl _
    | cons a l ih =>
      refine mirrors_bind ih fun st => ?_
      unfold ProgState.writeMemoryAddr
      split
      · exact mirrors_bind (mirrors_writeRegionAddr hH _ _ _ _) fun _ => mirrors_refl _
      · split
        · exact mirrors_refl _
        · exact mirrors_bind (mirrors_writeRegionAddr hH _ _ _ _) fun _ => mirrors_refl _

/-! ## Scalar expressions -/

section Expressions

variable [SimpleC] {S : SymId → Prop}

/-- The same actions, and the value of the second where the first has one. -/
def ResultMirrors (r r' : ValAct IntValue) : Prop := Mirrors r.1 r'.1 ∧ r.2 = r'.2

section Operations

variable {e : SExpression} {l r l' r' : TOp IntValue (ValAct IntValue)}

theorem refines_binop {op : BinaryOp} (hop : op = .add ∨ op = .sub ∨ op = .mul)
    (hl : Op.Refines ResultMirrors l l') (hr : Op.Refines ResultMirrors r r') :
    Op.Refines ResultMirrors (binopOn H op l r) (binopOn H' op l' r') := by
  refine Op.refines_bind hl ?_
  rintro ⟨lv, la⟩ ⟨lv', _⟩ ⟨hlv, rfl⟩
  refine Op.refines_bind hr ?_
  rintro ⟨rv, ra⟩ ⟨rv', _⟩ ⟨hrv, rfl⟩
  refine Op.refines_pure ⟨mirrors_bind hlv fun u => mirrors_bind hrv fun w => ?_, rfl⟩
  rcases hop with rfl | rfl | rfl
  · exact mirrors_add hH u w
  · exact mirrors_sub hH u w
  · exact mirrors_mul hH u w

theorem refines_minus (he : Op.Refines ResultMirrors l l') :
    Op.Refines ResultMirrors (minusOn H l) (minusOn H' l') := by
  refine Op.refines_bind he ?_
  rintro ⟨v, a⟩ ⟨v', _⟩ ⟨hv, rfl⟩
  exact Op.refines_pure ⟨mirrors_bind hv fun u => mirrors_sub hH _ u, rfl⟩

omit hH in
theorem ScalarExpr.mirrors_getAddrs (he : ScalarExpr S e) (st : IntState) (scope : Scope) :
    Mirrors (getAddrsOn H e st scope) (getAddrsOn H' e st scope) := by
  intro A hA
  obtain ⟨x, -, rfl⟩ := he.eq_var_on H hA
  exact hA

theorem refines_assign {op : AssignOp} (hop : op = .assign ∨ op = .add ∨ op = .sub ∨ op = .mul)
    (he : ScalarExpr S e) (hl : Op.Refines ResultMirrors l l')
    (hr : Op.Refines ResultMirrors r r') :
    Op.Refines ResultMirrors (assignOn H op l r (getAddrsOn H e))
      (assignOn H' op l' r' (getAddrsOn H' e)) := by
  refine Op.refines_bind hl ?_
  rintro ⟨lv, la⟩ ⟨lv', _⟩ ⟨hlv, rfl⟩
  refine Op.refines_bind hr ?_
  rintro ⟨rv, ra⟩ ⟨rv', _⟩ ⟨hrv, rfl⟩
  refine Op.refines_bind (Op.refines_refl Op.get) ?_
  rintro t _ rfl
  refine Op.refines_bind (Op.refines_monadLift (he.mirrors_getAddrs t.st t.scope)) ?_
  rintro A _ rfl
  refine Op.refines_bind (Op.refines_monadLift ?_) ?_
  · rcases hop with rfl | rfl | rfl | rfl
    · exact hrv
    · exact mirrors_bind hlv fun u => mirrors_bind hrv fun w => mirrors_add hH u w
    · exact mirrors_bind hlv fun u => mirrors_bind hrv fun w => mirrors_sub hH u w
    · exact mirrors_bind hlv fun u => mirrors_bind hrv fun w => mirrors_mul hH u w
  rintro u _ rfl
  refine Op.refines_bind (Op.refines_monadLift (mirrors_writeMemory hH t.st A u)) ?_
  rintro st _ rfl
  refine Op.refines_bind (Op.refines_refl (setState st)) ?_
  rintro _ _ rfl
  exact Op.refines_pure ⟨mirrors_refl _, rfl⟩

end Operations

theorem refines_transformer {e : SExpression} (he : ScalarExpr S e) :
    Op.Refines ResultMirrors (transformerOn H e) (transformerOn H' e) := by
  have hone : Op.Refines ResultMirrors (transformerOn H (.const ⟨.int 1⟩))
      (transformerOn H' (.const ⟨.int 1⟩)) := Op.refines_pure ⟨mirrors_refl _, rfl⟩
  induction he with
  | const n => exact Op.refines_pure ⟨mirrors_refl _, rfl⟩
  | @var x _ =>
    intro t r t' h
    exact ⟨r, h, mirrors_refl _, rfl⟩
  | binary hop _ _ ihl ihr => exact refines_binop hH hop ihl ihr
  | unary hop he ih =>
    rcases hop with rfl | rfl | rfl | rfl
    · exact ih
    · exact refines_minus hH ih
    · exact refines_assign hH (.inr (.inl rfl)) he ih hone
    · exact refines_assign hH (.inr (.inr (.inl rfl))) he ih hone
  | assign hop hl _ ihl ihr => exact refines_assign hH hop hl ihl ihr

end Expressions

end Refines

end Poet
