import Poet.Exploration.Unfolder

/-!
# Properties of the operations of the unfolder

The operations below `explore` write the state in a few places. A property of programs that composes
(`Op.Closed`) holds of all of them if it holds of these writes.
-/

namespace Poet

namespace Op.Closed

variable {st act : Type} {P : ∀ {α : Type}, UnfolderOp st act α → Prop} (h : Op.Closed P)

include h

theorem possibleAltes (hadd : ∀ e v, P (onEvts (addAlte e v))) (evs : EventsID) :
    P (possibleAltes evs) := by
  have haddV : ∀ stack de x y, P (addV stack de x y) := by
    intro stack de x y
    refine h.bind h.get fun _ => h.bind (h.lift _) fun v => ?_
    split
    · exact h.pure _
    · exact hadd _ _
  refine h.bind h.get fun s => h.bind (h.foldlM (fun cext x => ?_) evs []) fun _ => h.pure _
  exact h.bind h.get fun _ => h.bind (h.lift _) fun _ => h.bind (h.lift _) fun ext =>
    h.bind (h.lift _) fun de => h.bind (h.mapM' (haddV s.stak de x) ext) fun _ => h.pure _

theorem pruneBranch (hreset : ∀ e, P (onEvts (resetAlte e))) (hdel : ∀ e, P (onEvts (delEvent e)))
    (stak d : EventsID) (e : EventID) : P (pruneBranch stak d e) := by
  refine h.bind h.get fun u => ?_
  split
  · refine h.bind (h.lift _) fun core => h.bind h.get fun _ => h.bind (h.lift _) fun ev => ?_
    have hrest : P (ev.alte.mapM' fun v => v.mapM' fun x =>
        if x ∈ core then Pure.pure () else onEvts (delEvent x)) := by
      refine h.mapM' (fun v => h.mapM' (fun x => ?_) v) ev.alte
      split
      · exact h.pure _
      · exact hdel x
    split
    · exact h.bind (hreset e) fun _ => h.bind hrest fun _ => h.pure _
    · exact h.bind (hdel e) fun _ => h.bind hrest fun _ => h.pure _
  · exact h.pure _

variable [DecidableEq st] [DecidableEq act] [LatticeM st] [Projection st] [Lattice act] [Action act]
  [Domain st act] (hcut : ∀ g n, P (cutoff g n)) (hinc : P incCutoffs)
  (hadd : ∀ name acts hist lh, P (addEv name acts hist lh))

include hcut hinc hadd

theorem addEvent (dup : List (EventID × Event act)) (name : EventName) (acts : act) (hist : History) :
    P (addEvent dup name acts hist) := by
  simp only [Poet.addEvent]
  split
  · split
    · exact h.fail _
    · exact h.pure _
  · refine h.bind h.get fun s => h.bind (h.lift _) fun prede => ?_
    split
    · refine h.bind (h.lift _) fun gstlc => ?_
      split
      · exact h.fail _
      · refine h.bind (hcut _ _) fun isCutoff => ?_
        split
        · exact h.bind hinc fun _ => h.pure _
        · exact hadd _ _ _ _
    · exact hadd _ _ _ _

theorem extend (hwarns : ∀ warns, P (addWarns warns)) (fuel : Nat) (e : EventID) (maxevs : EventsID)
    (g : st) (th : TId) : P (extend fuel e maxevs g th) := by
  have hext : ∀ nst pos acts, P (ext fuel e maxevs nst th pos acts) := by
    intro nst pos acts
    refine h.bind (h.lift _) fun _ => h.bind h.get fun _ => h.bind (h.lift _) fun succe =>
      h.bind (h.lift _) fun h0 => ?_
    split
    · exact h.fail _
    · split
      · exact h.bind (h.lift _) fun his => h.bind (h.mapM' (h.addEvent hcut hinc hadd _ _ _) his)
          fun _ => h.addEvent hcut hinc hadd _ _ _ _
      · exact h.pure _
  exact h.bind h.get fun _ => h.bind (h.lift _) fun r => h.bind (hwarns _) fun _ =>
    h.bind (h.mapM' (fun x => hext x.1 x.2.1 x.2.2) r.2) fun _ => h.pure _

end Op.Closed

end Poet
