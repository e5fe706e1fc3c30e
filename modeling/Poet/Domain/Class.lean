import Poet.Domain.Action

/-!
# Domains (`Domain/Class.hs:58-129`)

What the unfolder uses of a domain: enabledness, the collapse `run` of a thread from a state, and
the deterministic run `drun` to a position. `enabled` and `drun` have the defaults of the source and
an instance may replace them. The node updates and the worklist engine behind `run` are modelled
apart.
-/

namespace Poet

/-- `ResultList`: state, end position and actions of each result of a collapse. -/
abbrev ResultList (st act : Type) := List (st × Pos × act)

section Defaults

variable {st act : Type}

/-- Default of `enabled` (`Class.hs:65`). The control map is folded with its keys ascending. -/
def enabledDefault {ε : Type} [Projection st] (isEnabled : st → TId → Except ε (Option st))
    (s : st) : Except ε (List (TId × st)) := do
  let rs ← (Projection.controlPart s).mapM' fun (tid, _) => do
    let r ← isEnabled s tid
    pure (r.map (tid, ·))
  pure (rs.filterMap id)

section Enabled

variable {ε : Type} [Projection st] {isEnabled : st → TId → Except ε (Option st)} {s : st}

theorem exists_enabledDefault
    (h : ∀ tid ∈ (Projection.controlPart s).map (·.1), ∃ r, isEnabled s tid = .ok r) :
    ∃ l, enabledDefault isEnabled s = .ok l := by
  obtain ⟨rs, hrs⟩ := exists_mapM' (l := Projection.controlPart s)
    (f := fun p => do
      let r ← isEnabled s p.1
      pure (r.map (p.1, ·))) fun p hp => by
    obtain ⟨r, hr⟩ := h p.1 (List.mem_map_of_mem hp)
    exact ⟨_, by rw [hr, ok_bind, pure_eq_ok]⟩
  exact ⟨rs.filterMap id, by rw [enabledDefault, hrs, ok_bind, pure_eq_ok]⟩

/-- The threads of the control part that are enabled, if all of them could be asked. -/
theorem enabledDefault_eq_ok {l : List (TId × st)} (h : enabledDefault isEnabled s = .ok l) :
    (∀ tid ∈ (Projection.controlPart s).map (·.1), ∃ r, isEnabled s tid = .ok r) ∧
      ∀ tid, tid ∈ l.map (·.1) ↔ tid ∈ (Projection.controlPart s).map (·.1) ∧
        ∃ s', isEnabled s tid = .ok (some s') := by
  obtain ⟨rs, hrs, hl⟩ := bind_eq_ok.1 h
  obtain rfl : rs.filterMap id = l := Except.ok.inj hl
  obtain ⟨hall, hmem⟩ := mapM'_mem hrs
  have hasked : ∀ p ∈ Projection.controlPart s, ∃ r, isEnabled s p.1 = .ok r ∧
      r.map (p.1, ·) ∈ rs := by
    intro p hp
    obtain ⟨o, ho, hb⟩ := hall p hp
    obtain ⟨r, hr, hro⟩ := bind_eq_ok.1 hb
    exact ⟨r, hr, (Except.ok.inj hro) ▸ ho⟩
  refine ⟨?_, fun tid => ?_⟩
  · intro tid htid
    obtain ⟨p, hp, rfl⟩ := List.mem_map.1 htid
    obtain ⟨r, hr, -⟩ := hasked p hp
    exact ⟨r, hr⟩
  constructor
  · intro htid
    obtain ⟨⟨tid', s'⟩, hs', rfl⟩ := List.mem_map.1 htid
    obtain ⟨o, ho, hid⟩ := List.mem_filterMap.1 hs'
    obtain rfl : o = some (tid', s') := hid
    obtain ⟨p, hp, hb⟩ := hmem _ ho
    obtain ⟨r, hr, hro⟩ := bind_eq_ok.1 hb
    obtain ⟨s₁, rfl, heq⟩ : ∃ s₁, r = some s₁ ∧ (p.1, s₁) = (tid', s') := by
      simpa [Option.map_eq_some_iff] using hro
    obtain ⟨rfl, rfl⟩ : p.1 = tid' ∧ s₁ = s' := by simpa using heq
    exact ⟨List.mem_map_of_mem hp, s₁, hr⟩
  · rintro ⟨htid, s', hs'⟩
    obtain ⟨p, hp, rfl⟩ := List.mem_map.1 htid
    obtain ⟨r, hr, hro⟩ := hasked p hp
    obtain rfl : r = some s' := by
      rw [hr] at hs'
      exact Except.ok.inj hs'
    exact List.mem_map.2 ⟨(p.1, s'), List.mem_filterMap.2 ⟨_, hro, rfl⟩, rfl⟩

omit [Projection st] in
/-- The threads keep the order of the control part. -/
theorem keys_sublist {c : List (TId × Pos)} {rs : List (Option (TId × st))}
    (h : c.mapM' (fun p => do
      let r ← isEnabled s p.1
      pure (r.map (p.1, ·))) = .ok rs) : ((rs.filterMap id).map (·.1)).Sublist (c.map (·.1)) := by
  induction c generalizing rs with
  | nil =>
    obtain rfl : [] = rs := Except.ok.inj h
    exact .slnil
  | cons p c ih =>
    obtain ⟨o, ho, h⟩ := bind_eq_ok.1 h
    obtain ⟨r, -, hro⟩ := bind_eq_ok.1 ho
    obtain ⟨rs', hrs', h⟩ := bind_eq_ok.1 h
    obtain rfl : o :: rs' = rs := Except.ok.inj h
    obtain rfl : r.map (p.1, ·) = o := Except.ok.inj hro
    cases r with
    | none => exact (ih hrs').cons p.1
    | some s' => exact (ih hrs').cons_cons p.1

theorem enabledDefault_nodup (hkeys : ((Projection.controlPart s).map (·.1)).Nodup)
    {l : List (TId × st)} (h : enabledDefault isEnabled s = .ok l) : (l.map (·.1)).Nodup := by
  obtain ⟨rs, hrs, hl⟩ := bind_eq_ok.1 h
  obtain rfl : rs.filterMap id = l := Except.ok.inj hl
  exact hkeys.sublist (keys_sublist hrs)

/-- A domain in which asking for a thread never fails. -/
theorem enabledDefault_of_ok {f : TId → Option st} (h : ∀ tid, isEnabled s tid = .ok (f tid)) :
    enabledDefault isEnabled s =
      .ok ((Projection.controlPart s).filterMap fun p => (f p.1).map (p.1, ·)) := by
  have hasked : (Projection.controlPart s).mapM' (fun (tid, _) => do
      let r ← isEnabled s tid
      pure (r.map (tid, ·))) =
      .ok ((Projection.controlPart s).map fun p => (f p.1).map (p.1, ·)) := by
    refine mapM'_ok ?_
    rintro ⟨tid, pos⟩ -
    simp only [h, ok_bind, pure_eq_ok]
  rw [enabledDefault, hasked, ok_bind, pure_eq_ok, List.filterMap_map]
  rfl

end Enabled

/-- Default of `drun` (`Class.hs:123`): the results of a collapse at the position of the name. -/
def drunDefault [DecidableEq st] [DecidableEq act]
    (run : st → TId → Except DomErr (List Int × ResultList st act)) (s : st) (tid : TId) (pos : Pos) :
    Except DomErr (st × act) := do
  let (_, results) ← run s tid
  match (results.filter fun r => r.2.1 = pos).eraseDups with
  | [] => throw .drunNoFact
  | [(s', _, a)] => pure (s', a)
  | _ => throw (.drunManyFacts pos)

end Defaults

class Domain (st act : Type) [DecidableEq st] [DecidableEq act] [LatticeM st] [Projection st]
    [Lattice act] [Action act] where
  isEnabled : System st act → st → TId → Except DomErr (Option st)
  /-- The collapse; the flag asks for the annotated graph (`fs_mode`). -/
  run : Bool → Int → System st act → st → TId → Except DomErr (List Int × ResultList st act)
  enabled : System st act → st → Except DomErr (List (TId × st)) :=
    fun syst s => enabledDefault (isEnabled syst) s
  /-- Deterministic run; the symbol of the name is not used. -/
  drun : Int → System st act → st → TId × Pos × SymId → Except DomErr (st × act) :=
    fun wid syst s (tid, pos, _) => drunDefault (run true wid syst) s tid pos

end Poet
