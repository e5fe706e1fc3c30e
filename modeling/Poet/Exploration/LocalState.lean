import Poet.Exploration.Duplicates
import Poet.Lib.TopSort

/-!
# The state of a local configuration

`stHistory` walks the events of a configuration with a queue and runs each of them when it is taken.
The queue is that of a topological sort (`Poet.Lib.TopSort`): an event is put in when the last of its
predecessors is taken, so on a prefix whose only root is bottom every event of a causally closed set
is run once, after its predecessors.
-/

namespace Poet

variable {st act : Type} {T : Events act} {e : EventID}

/-- A well-formed prefix without cycles: the lists of predecessors and successors agree and have no
repetitions, and bottom is the only event without predecessors. -/
structure RootedPrefix (T : Events act) : Prop where
  causal : Causal T
  pred_nodup : ∀ e, (T.predOf e).Nodup
  succ_nodup : ∀ e, (T.succOf e).Nodup
  bot_mem : 0 ∈ T
  root_iff : ∀ e ∈ T, T.predOf e = [] ↔ e = 0

theorem RootedPrefix.exists_dag (hT : RootedPrefix T) : ∃ rank, Dag T.predOf T.succOf rank := by
  obtain ⟨ρ, hρ, -⟩ := hT.causal.exists_rank
  exact ⟨ρ, hT.causal.mem_succ_iff, hT.succ_nodup, fun h => hρ (lt_of_mem_pred h)⟩

theorem RootedPrefix.queueInv (hT : RootedPrefix T) {conf : EventsID}
    (hconf : DownClosed T (· ∈ conf)) (h0 : 0 ∈ conf) : QueueInv T.predOf conf [] [0] where
  nodup := by simp
  mem x hx := by
    obtain rfl : x = 0 := by simpa using hx
    exact h0
  ready x hx p hp := by
    obtain rfl : x = 0 := by simpa using hx
    rw [(hT.root_iff 0 hT.bot_mem).2 rfl] at hp
    exact hp
  complete x hx hpred := by
    have hnil : T.predOf x = [] := List.eq_nil_iff_forall_not_mem.2 fun p hp => by simpa using hpred p hp
    simp [(hT.root_iff x (hconf.mem x hx)).1 hnil]

theorem filterM_ready (hT : RootedPrefix T) (seen hist : EventsID) (e : EventID) :
    (filterM (fun x => do
      let prede ← getPred x T
      pure (prede.diff (e :: seen)).isEmpty) ((T.succOf e).filter (· ∈ hist)) : Except Err EventsID) =
      .ok (readySuccs T.predOf T.succOf hist seen e) := by
  have htest : ∀ x ∈ (T.succOf e).filter (· ∈ hist), (do
      let prede ← getPred x T
      pure (prede.diff (e :: seen)).isEmpty : Except Err Bool) =
        .ok (decide (∀ p ∈ T.predOf x, p ∈ e :: seen)) := by
    intro x hx
    have hxT : x ∈ T := hT.causal.mem_of_succ (List.mem_filter.1 hx).1
    rw [getPred_ok hxT, ok_bind, pure_eq_ok, (hT.pred_nodup x).sdiff_eq_filter, Except.ok.injEq,
      Bool.eq_iff_iff]
    simp [or_iff_not_imp_left]
  rw [filterM_ok htest, List.filter_filter]
  simp [readySuccs, Bool.and_comm]

section Explore

variable [DecidableEq st] [DecidableEq act] [LatticeM st] [Projection st] [Lattice act] [Action act]
  [Domain st act] (wid : Int) (syst : System st act)

/-- Runs one event with `drun`. -/
def execEvent (T : Events act) (s : st) (e : EventID) : Except Err st := do
  let ename ← getName e T
  (·.1) <$> liftDom (Domain.drun wid syst s (ename.tid, ename.pos, ename.sym))

/-- What `stHistory` does with an event it takes from the queue: bottom is not run. -/
def takeEvent (T : Events act) (s : st) (e : EventID) : Except Err st :=
  if e = 0 then pure s else execEvent wid syst T s e

theorem stHistory_eq (hT : RootedPrefix T) {hist seen q order : EventsID}
    (h : Dequeues T.predOf T.succOf hist seen q order) (hmem : ∀ e ∈ order, e ∈ T) {n : Nat}
    (hn : order.length ≤ n) (s : st) :
    stHistory wid syst T hist n s q seen = order.foldlM (takeEvent wid syst T) s := by
  induction h generalizing n s with
  | nil seen => cases n <;> rfl
  | @cons seen e q order h ih =>
    obtain ⟨k, rfl⟩ : ∃ k, n = k + 1 := ⟨n - 1, by simp at hn; omega⟩
    have he : e ∈ T := hmem e List.mem_cons_self
    have hrest : ∀ s, stHistory wid syst T hist k s (q ++ readySuccs T.predOf T.succOf hist seen e)
        (e :: seen) = order.foldlM (takeEvent wid syst T) s :=
      ih (fun x hx => hmem x (List.mem_cons_of_mem e hx)) (by simpa using hn)
    obtain ⟨ev, hev⟩ := Events.lookup_of_mem he
    have hname : getName e T = .ok ev.name := by simp [getName, getEvent_ok _ hev]
    simp only [stHistory, getSucc_ok he, ok_bind, filterM_ready hT, hname, List.foldlM_cons,
      takeEvent, execEvent, hrest]
    split <;> rfl

/-- `stHistory` runs every event of a causally closed set but bottom once, after its predecessors;
it returns for any fuel above the number of events. -/
theorem stHistory_topological (hT : RootedPrefix T) {econf : EventsID}
    (hconf : DownClosed T (· ∈ econf)) (h0 : 0 ∈ econf) :
    ∃ order : EventsID, order.Nodup ∧ (∀ e, e ∈ order ↔ e ∈ econf ∧ e ≠ 0) ∧
      (∀ pre e post, order = pre ++ e :: post → ∀ p ∈ T.predOf e, p = 0 ∨ p ∈ pre) ∧
      ∀ n s, T.bound ≤ n →
        stHistory wid syst T econf n s [0] [] = order.foldlM (execEvent wid syst T) s := by
  obtain ⟨rank, hD⟩ := hT.exists_dag
  have hq := hT.queueInv hconf h0
  obtain ⟨all, hall⟩ := hq.exists_dequeues hD
  have htop := hall.topOrder hD hconf.pred hq
  cases hall with
  | @cons _ _ _ order hrest =>
    have hmem : ∀ e, e ∈ (0 :: order : EventsID) ↔ e ∈ econf := fun e => by
      rw [htop.mem_iff]
      simp
    obtain ⟨h0o, hnd⟩ := List.nodup_cons.1 htop.nodup
    have hne : ∀ e ∈ order, e ≠ 0 := fun e he h => h0o (h ▸ he)
    refine ⟨order, hnd, fun e => ?_, fun pre e post heq p hp => ?_, fun n s hn => ?_⟩
    · rw [← hmem e, List.mem_cons]
      constructor
      · exact fun he => ⟨.inr he, hne e he⟩
      · exact fun he => he.1.resolve_left he.2
    · have := htop.after (0 :: pre) e post (by rw [heq]; rfl) p hp
      simpa using this
    · have hlen : (0 :: order : EventsID).length ≤ T.bound :=
        (length_le_keys htop.nodup fun e he => hconf.mem e ((hmem e).1 he)).trans keys_length_le_bound
      rw [stHistory_eq wid syst hT (.cons hrest) (fun e he => hconf.mem e ((hmem e).1 he))
        (hlen.trans hn), List.foldlM_cons, takeEvent, if_pos rfl, pure_eq_ok, ok_bind]
      refine foldlM_congr fun e he s' => ?_
      rw [takeEvent, if_neg (hne e he)]

end Explore

/-- The programs of the threads 1 and 2 of `twoWriters`. -/
def twoWritersProgram : MemProgram := [[], [writeVar 10, writeVar 11], [writeVar 11]]

theorem rootedPrefix_twoWriters : RootedPrefix twoWriters where
  causal := linked_twoWriters.causal
  pred_nodup := linked_twoWriters.pred_nodup
  succ_nodup := linked_twoWriters.succ_nodup
  bot_mem := by decide
  root_iff := by
    have hkeys : ∀ e ∈ twoWriters.keys, twoWriters.predOf e = [] ↔ e = 0 := by decide
    exact hkeys

/-- The local configuration of event 3, which has a predecessor in each thread. -/
theorem stHistory_topological_twoWriters :
    ∃ order : EventsID, (∀ e, e ∈ order ↔ e ∈ [3, 2, 1, 0] ∧ e ≠ 0) ∧
      stHistory 0 twoWritersProgram.system twoWriters [3, 2, 1, 0] 5 ⟨[0, 0, 0]⟩ [0] [] =
        order.foldlM (execEvent 0 twoWritersProgram.system twoWriters) ⟨[0, 0, 0]⟩ ∧
      stHistory 0 twoWritersProgram.system twoWriters [3, 2, 1, 0] 5 ⟨[0, 0, 0]⟩ [0] [] =
        .ok ⟨[0, 2, 1]⟩ := by
  have hconf : DownClosed twoWriters (· ∈ [3, 2, 1, 0]) := ⟨by decide, by decide⟩
  obtain ⟨order, -, hmem, -, hrun⟩ :=
    stHistory_topological 0 twoWritersProgram.system rootedPrefix_twoWriters hconf (by decide)
  exact ⟨order, hmem, hrun 5 _ (by decide), by decide⟩

end Poet
