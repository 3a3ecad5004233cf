import CpgFailover.FailoverChain
import CpgFailover.Allocation
import CpgFailover.Election.Refinement
import Mathlib.Data.List.TakeWhile

/-!
# Departures in any order

`ConfchgCallback` handles the departures of one configuration change one after the other, so each of
them sees a list that still holds those that come later. The order matters for the two questions
asked of the list: whether this node is first when the remembered master departs, and whether the
target of a rollback is first when another node does.

## Main definitions

* `without`: a list without some nodes
* `Upshot`, `upshot`: what a callback leaves and decides
* `OrderFree`: the departures that may come in any order

## Main results

* `first_without_iff`: who is first when some nodes are gone
* `departures_order_free`: all orders of the departures have the same upshot if and only if they are
  free in this sense
* `departures_ordered`: a backup takes over or not, as the master departs last or first
-/

namespace CpgFailover

open Transition

/-! ## The list without some nodes -/

/-- The list after some departures. -/
def without (l : List Node) (s : List NodeId) : List Node := s.foldl nodeRemove l

/-- The ids ahead of a node on a list; all of them if it is not on the list. -/
def aheadOf (l : List Node) (x : NodeId) : List NodeId := (ids l).takeWhile (· ≠ x)

theorem without_cons (l : List Node) (x : NodeId) (s : List NodeId) :
    without l (x :: s) = without (nodeRemove l x) s := rfl

theorem nodeRemove_eq_filter {l : List Node} (h : (ids l).Nodup) (x : NodeId) :
    nodeRemove l x = l.filter (·.nodeid ≠ x) := by
  induction l with
  | nil => rfl
  | cons n l ih =>
    rw [ids_cons, List.nodup_cons] at h
    by_cases hn : n.nodeid = x
    · have hrest : l.filter (·.nodeid ≠ x) = l := by
        refine List.filter_eq_self.mpr fun m hm => ?_
        -- the id stands on the list once
        have hne : m.nodeid ≠ x := fun hx => h.1 (mem_ids.mpr ⟨m, hm, hx.trans hn.symm⟩)
        simpa using hne
      rw [nodeRemove, if_neg (by simpa using hn), List.filter_cons_of_neg (by simpa using hn),
        hrest]
    · rw [nodeRemove, if_pos hn, ih h.2, List.filter_cons_of_pos (by simpa using hn)]

theorem nodup_nodeRemove {l : List Node} (h : (ids l).Nodup) (x : NodeId) :
    (ids (nodeRemove l x)).Nodup :=
  h.sublist ((nodeRemove_sublist l x).map _)

theorem without_eq_filter {l : List Node} (h : (ids l).Nodup) (s : List NodeId) :
    without l s = l.filter (·.nodeid ∉ s) := by
  induction s generalizing l with
  | nil => simp [without]
  | cons x s ih =>
    rw [without_cons, ih (nodup_nodeRemove h x), nodeRemove_eq_filter h, List.filter_filter]
    refine List.filter_congr fun n _ => ?_
    simp [Bool.and_comm]

/-- The order of the departures does not matter to the list. -/
theorem without_congr {l : List Node} (h : (ids l).Nodup) {s s' : List NodeId}
    (hs : ∀ x, x ∈ s ↔ x ∈ s') : without l s = without l s' := by
  rw [without_eq_filter h, without_eq_filter h]
  refine List.filter_congr fun n _ => ?_
  simp [hs]

/-- **Who is first when some nodes are gone**: nobody, if all are gone, and otherwise the node that
is still there with nobody ahead of it. -/
theorem first_without_iff {l : List Node} (h : (ids l).Nodup) (h₀ : 0 ∉ ids l) {x : NodeId}
    {s : List NodeId} : x = nodeFirst (without l s) ↔
      (x = 0 ∨ x ∈ ids l ∧ x ∉ s) ∧ ∀ y ∈ aheadOf l x, y ∈ s := by
  rw [without_eq_filter h, aheadOf]
  clear h
  -- Induction on the list: its head is gone, or is the first.
  induction l with
  | nil => simp [nodeFirst]
  | cons n l ih =>
    rw [ids_cons, List.mem_cons, not_or] at h₀
    obtain ⟨hn₀, h₀⟩ := h₀
    by_cases hn : n.nodeid ∈ s
    · rw [List.filter_cons_of_neg (by simpa using hn), ih h₀, ids_cons]
      by_cases hx : n.nodeid = x
      · subst hx
        simp [hn, Ne.symm hn₀]
      · simp [hx, hn, Ne.symm hx]
    · rw [List.filter_cons_of_pos (by simpa using hn), nodeFirst, ids_cons]
      by_cases hx : n.nodeid = x
      · subst hx
        simp [hn]
      · simp [hx, hn, Ne.symm hx]

/-! ## What a callback decides -/

/-- A call that cleans the recovery table of a profile. -/
def cleans : Effect → Bool
  | .cleanUpTable _ _ => true
  | _ => false

/-- A call that takes the address off, as `go_down` does. -/
def unbinds : Effect → Bool
  | .removeVip _ _ => true
  | _ => false

/-- What a callback leaves in the record, and whether it has asked for the address, cleaned the
recovery table, or gone down. -/
structure Upshot where
  state : State
  nodeList : List Node
  masterId : NodeId
  rollbackNodeId : NodeId
  takesOver : Bool
  cleansUp : Bool
  goesDown : Bool
deriving DecidableEq

def upshot (r : Vip × List Effect) : Upshot where
  state := r.1.state
  nodeList := r.1.nodeList
  masterId := r.1.masterId
  rollbackNodeId := r.1.rollbackNodeId
  takesOver := r.2.any asks
  cleansUp := r.2.any cleans
  goesDown := r.2.any unbinds

/-- The record as the departures write it, before any transaction. -/
def forgets (v : Vip) (left : List NodeId) : Vip := left.foldl forget v

section Forgets

variable (v : Vip) (left : List NodeId)

@[simp] theorem forgets_state : (forgets v left).state = v.state := by
  induction left generalizing v with
  | nil => rfl
  | cons x left ih => exact ih (forget v x)

@[simp] theorem forgets_nodeId : (forgets v left).nodeId = v.nodeId := by
  induction left generalizing v with
  | nil => rfl
  | cons x left ih => exact ih (forget v x)

@[simp] theorem forgets_masterId : (forgets v left).masterId = v.masterId := by
  induction left generalizing v with
  | nil => rfl
  | cons x left ih => exact ih (forget v x)

@[simp] theorem forgets_nodeList : (forgets v left).nodeList = without v.nodeList left := by
  induction left generalizing v with
  | nil => rfl
  | cons x left ih => exact ih (forget v x)

@[simp] theorem forgets_rollbackNodeId :
    (forgets v left).rollbackNodeId = if v.rollbackNodeId ∈ left then 0 else v.rollbackNodeId := by
  induction left generalizing v with
  | nil => simp [forgets]
  | cons x left ih =>
    refine (ih (forget v x)).trans ?_
    by_cases hx : v.rollbackNodeId = x
    · simp [forget, hx]
    · simp [forget, hx]

theorem forgets_withState (s : State) :
    forgets { v with state := s } left = { forgets v left with state := s } := by
  induction left generalizing v with
  | nil => rfl
  | cons x left ih => exact ih (forget v x)

/-- A vip that has gone down has nothing to forget. -/
theorem forgets_goDown : forgets (goDown v).vip left = (goDown v).vip := by
  induction left with
  | nil => rfl
  | cons x left ih =>
    have hone : forget (goDown v).vip x = (goDown v).vip := by
      simp [forget, goDown, goDownReset, nodeRemove]
    rw [forgets, List.foldl_cons, hone]
    exact ih

end Forgets

/-- The upshot of departures after which the vip is still up, in this state. -/
def stillUp (v : Vip) (left : List NodeId) (s : State) (takesOver cleansUp : Bool) : Upshot where
  state := s
  nodeList := (forgets v left).nodeList
  masterId := (forgets v left).masterId
  rollbackNodeId := (forgets v left).rollbackNodeId
  takesOver := takesOver
  cleansUp := cleansUp
  goesDown := false

/-- The upshot of departures through which the vip goes down. -/
def downNow (takesOver : Bool) : Upshot where
  state := .idle
  nodeList := []
  masterId := 0
  rollbackNodeId := 0
  takesOver := takesOver
  cleansUp := false
  goesDown := true

/-! ## The callback, state by state -/

section NodesDown

variable {o : Outcome} {v : Vip} {left : List NodeId}

theorem nodesDown_append (o : Outcome) (v : Vip) (a b : List NodeId) :
    nodesDown o v (a ++ b) = ((nodesDown o (nodesDown o v a).1 b).1,
      (nodesDown o v a).2 ++ (nodesDown o (nodesDown o v a).1 b).2) := by
  simp only [nodesDown_eq_inputs, List.map_append, Vip.inputs_append]

/-- A departure that only shortens the list. -/
theorem nodeDown_quiet {x : NodeId} (h : v.state = .idle ∨ v.state = .master ∨
    v.state ≠ .rback ∧ v.masterId ≠ x) :
    (fsmInputNodeDown o v x).vip = forget v x ∧ (fsmInputNodeDown o v x).effects = [] := by
  by_cases hm : v.masterId = x
  · rw [fsmInputNodeDown_of_eq hm]
    rcases h with hs | hs | ⟨-, hx⟩
    · rw [hs]
      exact ⟨rfl, rfl⟩
    · rw [hs]
      exact ⟨rfl, rfl⟩
    · exact absurd hm hx
  · rw [fsmInputNodeDown_of_ne hm]
    have hs : v.state ≠ .rback := by
      rcases h with hs | hs | ⟨hs, -⟩
      · simp [hs]
      · simp [hs]
      · exact hs
    cases hv : v.state with
    | rback => exact absurd hv hs
    | _ => exact ⟨rfl, rfl⟩

/-- Departures of which none is that of the master, or that the state does not care about. -/
theorem nodesDown_quiet (h : v.state = .idle ∨ v.state = .master ∨
    v.state ≠ .rback ∧ v.masterId ∉ left) : nodesDown o v left = (forgets v left, []) := by
  induction left generalizing v with
  | nil => rfl
  | cons x left ih =>
    obtain ⟨hv, hc⟩ := nodeDown_quiet (o := o) (x := x)
      (h.imp id (Or.imp id (And.imp id fun hm => (List.ne_of_not_mem_cons hm))))
    simp only [nodesDown]
    rw [hv, hc, ih (v := forget v x)
      (h.imp id (Or.imp id (And.imp id List.not_mem_of_not_mem_cons)))]
    rfl

/-- This node heads the list without some nodes. -/
def HeadsWithout (v : Vip) (s : List NodeId) : Prop := v.nodeId = nodeFirst (without v.nodeList s)

instance (v : Vip) (s : List NodeId) : Decidable (HeadsWithout v s) := by
  unfold HeadsWithout
  infer_instance

/-- The state in which the departure of the master asks who is first. -/
def Asking (v : Vip) : Prop := v.state = .start ∨ v.state = .backup

theorem Asking.nodeDown_of_ne (h : Asking v) {x : NodeId} (hx : v.masterId ≠ x) :
    (fsmInputNodeDown o v x).vip = forget v x ∧ (fsmInputNodeDown o v x).effects = [] := by
  refine nodeDown_quiet (Or.inr (Or.inr ⟨?_, hx⟩))
  rcases h with hs | hs <;> simp [hs]

/-- The departure of the master makes the first node ask for the address. -/
theorem Asking.nodeDown_of_heads (h : Asking v) (hh : HeadsWithout v [v.masterId]) :
    ∃ calls, calls.any cleans = false ∧ calls.any unbinds = false ∧
      fsmInputNodeDown o v v.masterId = becomeMaster o (forget v v.masterId) calls := by
  have hf : (forget v v.masterId).nodeId = nodeFirst (forget v v.masterId).nodeList := hh
  rw [fsmInputNodeDown_of_eq rfl]
  rcases h with hs | hs
  · refine ⟨[], rfl, rfl, ?_⟩
    rw [hs]
    exact if_pos hf
  · refine ⟨recoverCalls v.config, ?_, ?_, ?_⟩
    · simp [recoverCalls, cleans]
    · simp [recoverCalls, unbinds]
    · rw [hs]
      exact if_pos hf

theorem upshot_nodeDown_cons {x : NodeId} (hv : (fsmInputNodeDown o v x).vip = forget v x)
    (hc : (fsmInputNodeDown o v x).effects = []) :
    nodesDown o v (x :: left) = nodesDown o (forget v x) left := by
  simp only [nodesDown]
  rw [hv, hc]
  rfl

/-- Going down takes the address off, and cleans nothing. -/
theorem goDown_any (v : Vip) : (goDown v).effects.any cleans = false ∧
    (goDown v).effects.any unbinds = true := by
  simp [goDown, cleans, unbinds, Function.comp_def]

/-- The effects of taking the address. -/
theorem becomeMaster_any (o : Outcome) (v : Vip) {calls : List Effect}
    (hclean : calls.any cleans = false) (hunbind : calls.any unbinds = false) :
    (becomeMaster o v calls).effects.any asks = true ∧
      (becomeMaster o v calls).effects.any cleans = false ∧
        (becomeMaster o v calls).effects.any unbinds = !(o.addVip && o.sendGarp) := by
  cases ha : o.addVip <;> cases hg : o.sendGarp <;>
    simp [becomeMaster, failTransition, virtualIpSendState, ha, hg, asks, cleans, unbinds, hclean,
      hunbind, goDown_any]

/-- **The master departs and this node is first, whoever departs before**: it asks for the address.
-/
theorem nodesDown_claims (hs : Asking v) (hm : v.masterId ∈ left)
    (hh : ∀ s ⊆ left, v.masterId ∈ s → HeadsWithout v s) :
    upshot (nodesDown o v left) =
      if o.addVip ∧ o.sendGarp then stillUp v left .master true false else downNow true := by
  induction left generalizing v with
  | nil => cases hm
  | cons x left ih =>
    by_cases hx : v.masterId = x
    · subst hx
      obtain ⟨calls, hclean, hunbind, hr⟩ := hs.nodeDown_of_heads (o := o)
        (hh [v.masterId] (by simp) List.mem_cons_self)
      obtain ⟨hasks, hcleans, hunbinds⟩ :=
        becomeMaster_any o (forget v v.masterId) hclean hunbind
      have hvip := becomeMaster_vip o (forget v v.masterId) calls
      simp only [nodesDown]
      rw [hr]
      by_cases hok : o.addVip ∧ o.sendGarp
      · -- the new master only takes note of the other departures
        rw [if_pos hok] at hvip ⊢
        rw [hvip, nodesDown_quiet (Or.inr (Or.inl rfl)), forgets_withState]
        simp only [upshot, List.append_nil, hasks, hcleans, hunbinds, hok.1, hok.2]
        rfl
      · rw [if_neg hok] at hvip ⊢
        rw [hvip, nodesDown_quiet (Or.inl rfl), forgets_goDown]
        have hfail : (o.addVip && o.sendGarp) = false := by simpa using hok
        simp only [upshot, List.append_nil, hasks, hcleans, hunbinds, hfail]
        rfl
    · obtain ⟨hv, hc⟩ := hs.nodeDown_of_ne (o := o) hx
      rw [upshot_nodeDown_cons hv hc]
      refine ih (v := forget v x) hs ((List.mem_cons.mp hm).resolve_left hx) fun s hsub hms => ?_
      exact hh (x :: s) (List.cons_subset_cons x hsub) (List.mem_cons_of_mem x hms)

/-- A vip that starts goes down if it is not first when the master departs. -/
theorem nodesDown_resigns (hs : v.state = .start) (hm : v.masterId ∈ left)
    (hh : ∀ s ⊆ left, v.masterId ∈ s → ¬ HeadsWithout v s) :
    upshot (nodesDown o v left) = downNow false := by
  induction left generalizing v with
  | nil => cases hm
  | cons x left ih =>
    by_cases hx : v.masterId = x
    · subst hx
      have hf : ¬ (forget v v.masterId).nodeId = nodeFirst (forget v v.masterId).nodeList :=
        hh [v.masterId] (by simp) List.mem_cons_self
      have hr : fsmInputNodeDown o v v.masterId = failTransition (forget v v.masterId) [] := by
        rw [fsmInputNodeDown_of_eq rfl, hs]
        exact if_neg hf
      simp only [nodesDown]
      rw [hr, failTransition_vip, nodesDown_quiet (Or.inl rfl), forgets_goDown]
      simp [upshot, failTransition, goDown, goDownReset, downNow, asks, cleans, unbinds,
        Function.comp_def]
    · obtain ⟨hv, hc⟩ := Asking.nodeDown_of_ne (o := o) (Or.inl hs) hx
      rw [upshot_nodeDown_cons hv hc]
      refine ih (v := forget v x) hs ((List.mem_cons.mp hm).resolve_left hx) fun s hsub hms => ?_
      exact hh (x :: s) (List.cons_subset_cons x hsub) (List.mem_cons_of_mem x hms)

/-- A backup cleans the recovery table each time the master departs and it is not first. -/
theorem nodesDown_cleansUp (hs : v.state = .backup)
    (hh : ∀ s ⊆ left, v.masterId ∈ s → ¬ HeadsWithout v s) :
    upshot (nodesDown o v left) =
      stillUp v left .backup false (v.masterId ∈ left ∧ v.config.usedProfiles ≠ []) := by
  have hall : (nodesDown o v left).1 = forgets v left ∧ (nodesDown o v left).2.any asks = false ∧
      (nodesDown o v left).2.any unbinds = false ∧ (nodesDown o v left).2.any cleans =
        decide (v.masterId ∈ left ∧ v.config.usedProfiles ≠ []) := by
    induction left generalizing v with
    | nil => exact ⟨rfl, rfl, rfl, by simp [nodesDown]⟩
    | cons x left ih =>
      obtain ⟨hvip, hasks, hunbinds, hcleans⟩ := ih (v := forget v x) hs fun s hsub hms =>
        hh (x :: s) (List.cons_subset_cons x hsub) (List.mem_cons_of_mem x hms)
      by_cases hx : v.masterId = x
      · subst hx
        have hf : ¬ (forget v v.masterId).nodeId = nodeFirst (forget v v.masterId).nodeList :=
          hh [v.masterId] (by simp) List.mem_cons_self
        have hr : fsmInputNodeDown o v v.masterId =
            ⟨.success, forget v v.masterId, cleanUpCalls (forget v v.masterId)⟩ := by
          rw [fsmInputNodeDown_of_eq rfl, hs]
          exact if_neg hf
        simp only [nodesDown]
        rw [hr]
        refine ⟨hvip, ?_, ?_, ?_⟩
        · simp [cleanUpCalls, asks, hasks]
        · simp [cleanUpCalls, unbinds, hunbinds]
        · rw [List.any_append, hcleans]
          cases hp : v.config.usedProfiles <;> simp [cleanUpCalls, cleans, forget, hp]
      · obtain ⟨hv, hc⟩ := Asking.nodeDown_of_ne (o := o) (Or.inr hs) hx
        rw [upshot_nodeDown_cons hv hc]
        refine ⟨hvip, hasks, hunbinds, ?_⟩
        rw [hcleans]
        exact decide_eq_decide.mpr (by simp [forget, hx])
  obtain ⟨hvip, hasks, hunbinds, hcleans⟩ := hall
  simp only [upshot, stillUp, hvip, hasks, hunbinds, hcleans, forgets_state, hs]

/-! ## A rollback that waits -/

/-- What `rback_stop` asks before it calls the rollback off. -/
def Targeting (v : Vip) : Prop := v.rollbackNodeId ≠ 0 ∧ v.rollbackNodeId = nodeFirst v.nodeList

/-- No departure of another node than the remembered master calls the rollback off. -/
def TargetingThroughout (v : Vip) : List NodeId → Prop
  | [] => True
  | x :: left => (v.masterId ≠ x → Targeting (forget v x)) ∧ TargetingThroughout (forget v x) left

instance (v : Vip) : Decidable (Targeting v) := by
  unfold Targeting
  infer_instance

instance TargetingThroughout.decidable : (v : Vip) → (left : List NodeId) →
    Decidable (TargetingThroughout v left)
  | _, [] => isTrue trivial
  | v, x :: left =>
    have := TargetingThroughout.decidable (forget v x) left
    inferInstanceAs (Decidable (_ ∧ _))

/-- **The departures in `ST_RBACK`**: the vip waits on, or serves as the master again. -/
theorem nodesDown_rollback (hs : v.state = .rback) :
    (TargetingThroughout v left → upshot (nodesDown o v left) = stillUp v left .rback false false) ∧
      (¬ TargetingThroughout v left →
        upshot (nodesDown o v left) = stillUp v left .master false false) := by
  induction left generalizing v with
  | nil => exact ⟨fun _ => by simp [upshot, nodesDown, stillUp, forgets, hs],
      fun h => absurd trivial h⟩
  | cons x left ih =>
    have hrest := ih (v := forget v x) hs
    by_cases hx : v.masterId = x
    · -- the departure of the master is not looked at
      have hr : fsmInputNodeDown o v x = error (forget v x) := by
        rw [fsmInputNodeDown_of_eq hx, hs]
        rfl
      have hcons : TargetingThroughout v (x :: left) ↔ TargetingThroughout (forget v x) left := by
        simp [TargetingThroughout, hx]
      rw [upshot_nodeDown_cons (by rw [hr]; rfl) (by rw [hr]; rfl), hcons]
      exact hrest
    · have hr : fsmInputNodeDown o v x = rbackStop (forget v x) := by
        rw [fsmInputNodeDown_of_ne hx, hs]
        rfl
      by_cases hheld : Targeting (forget v x)
      · have hstay : rbackStop (forget v x) = ⟨.success, forget v x, []⟩ :=
          if_neg (not_or.mpr ⟨hheld.1, not_not.mpr hheld.2⟩)
        have hcons : TargetingThroughout v (x :: left) ↔ TargetingThroughout (forget v x) left := by
          simp [TargetingThroughout, hheld]
        rw [upshot_nodeDown_cons (by rw [hr, hstay]) (by rw [hr, hstay]), hcons]
        exact hrest
      · have hoff : rbackStop (forget v x) =
            ⟨.success, { forget v x with state := .master }, []⟩ := by
          refine if_pos ?_
          by_contra hno
          exact hheld ⟨(not_or.mp hno).1, not_not.mp (not_or.mp hno).2⟩
        refine ⟨fun h => absurd (h.1 hx) hheld, fun _ => ?_⟩
        simp only [nodesDown]
        rw [hr, hoff, nodesDown_quiet (Or.inr (Or.inl rfl)), forgets_withState]
        rfl

end NodesDown

section Targeting

variable {v : Vip} {left a b : List NodeId}

theorem targetingThroughout_append :
    TargetingThroughout v (a ++ b) ↔
      TargetingThroughout v a ∧ TargetingThroughout (forgets v a) b := by
  induction a generalizing v with
  | nil => exact (and_iff_right trivial).symm
  | cons x a ih =>
    simp only [List.cons_append, TargetingThroughout, ih, and_assoc]
    rfl

/-- The size of the group does not matter to a rollback. -/
theorem targetingThroughout_size {k : ℕ} :
    TargetingThroughout { v with memberListEntries := k } left ↔ TargetingThroughout v left := by
  induction left generalizing v with
  | nil => exact Iff.rfl
  | cons x left ih => exact and_congr Iff.rfl (ih (v := forget v x))

/-- The departures of the master are not looked at. -/
theorem targetingThroughout_of_eq (h : ∀ x ∈ left, x = v.masterId) :
    TargetingThroughout v left := by
  induction left generalizing v with
  | nil => trivial
  | cons x left ih =>
    refine ⟨fun hx => absurd (h x List.mem_cons_self).symm hx, ?_⟩
    exact ih (v := forget v x) fun y hy => h y (List.mem_cons_of_mem x hy)

/-- A target at the head stays there while others depart. -/
theorem Targeting.forget (h : Targeting v) {x : NodeId} (hx : x ≠ v.rollbackNodeId) :
    Targeting (forget v x) := by
  have ht : (CpgFailover.forget v x).rollbackNodeId = v.rollbackNodeId := if_neg (Ne.symm hx)
  refine ⟨ht ▸ h.1, ?_⟩
  rw [ht]
  refine h.2.trans (nodeFirst_nodeRemove_of_ne ?_).symm
  rw [← h.2]
  exact Ne.symm hx

theorem Targeting.throughout (h : Targeting v) (hl : v.rollbackNodeId ∉ left) :
    TargetingThroughout v left := by
  induction left generalizing v with
  | nil => trivial
  | cons x left ih =>
    rw [List.mem_cons, not_or] at hl
    have hx := h.forget (Ne.symm hl.1)
    have ht : (CpgFailover.forget v x).rollbackNodeId = v.rollbackNodeId := if_neg hl.1
    exact ⟨fun _ => hx, ih hx (ht ▸ hl.2)⟩

/-- Whoever waits throughout has a target, which departs only as the remembered master. -/
theorem TargetingThroughout.target (h : TargetingThroughout v left) {y : NodeId} (hy : y ∈ left)
    (hm : y ≠ v.masterId) : v.rollbackNodeId ≠ 0 ∧ v.rollbackNodeId ≠ y := by
  induction left generalizing v with
  | nil => cases hy
  | cons x left ih =>
    have ht : (forget v x).rollbackNodeId ≠ 0 → v.rollbackNodeId ≠ 0 ∧ v.rollbackNodeId ≠ x ∧
        (forget v x).rollbackNodeId = v.rollbackNodeId := by
      by_cases hx : v.rollbackNodeId = x
      · simp [forget, hx]
      · simp [forget, hx]
    rcases List.mem_cons.mp hy with rfl | hy
    · obtain ⟨h₀, hne, -⟩ := ht (h.1 (Ne.symm hm)).1
      exact ⟨h₀, hne⟩
    · obtain ⟨h₀, hne⟩ := ih (v := forget v x) h.2 hy hm
      obtain ⟨h₁, -, heq⟩ := ht h₀
      exact ⟨h₁, heq ▸ hne⟩

end Targeting

/-! ## The condition -/

/-- No message comes from the id that stands for no node. -/
def FromNode : VipInput → Prop
  | .newStateMessage _ _ nodeid => nodeid ≠ 0
  | _ => True

instance : DecidablePred FromNode
  | .newStateMessage _ _ _ => by unfold FromNode; infer_instance
  | .nodeDown _ _ | .nodeUp _ | .cmdStart _ | .cmdStop _ | .localGet _ | .memberList _ =>
    by unfold FromNode; infer_instance

/-- The nodes on the list are distinct, and nodes. -/
structure Enrolled (v : Vip) : Prop where
  nodup : (ids v.nodeList).Nodup
  zero_notMem : 0 ∉ ids v.nodeList

/-- The departures may come in any order.

While the vip starts or is a backup: if the remembered master departs with everybody else ahead of
this node, then only the master is ahead, and this node does not depart itself.

In `ST_RBACK`: if the departure of some node other than the remembered master leaves the target at
the head of the list, alone or after that of the master, then the target does not depart, and each
such departure leaves it there. -/
def OrderFree (v : Vip) (left : List NodeId) : Prop :=
  match v.state with
  | .idle | .master => True
  | .start | .backup =>
    v.masterId ∈ left → (v.nodeId = 0 ∨ v.nodeId ∈ ids v.nodeList ∧ v.nodeId ≠ v.masterId) →
      (∀ y ∈ ahead v, y ∈ left) →
        (∀ y ∈ ahead v, y = v.masterId) ∧ (v.nodeId = 0 ∨ v.nodeId ∉ left)
  | .rback =>
    v.rollbackNodeId ∈ ids v.nodeList → (v.rollbackNodeId ∈ left → v.rollbackNodeId = v.masterId) →
      (∃ x ∈ left, x ≠ v.masterId ∧ ((∀ y ∈ aheadOf v.nodeList v.rollbackNodeId, y = x) ∨
        v.masterId ∈ left ∧ v.rollbackNodeId ≠ v.masterId ∧
          ∀ y ∈ aheadOf v.nodeList v.rollbackNodeId, y = x ∨ y = v.masterId)) →
        v.rollbackNodeId ∉ left ∧ ∀ x ∈ left, x ≠ v.masterId →
          ∀ y ∈ aheadOf v.nodeList v.rollbackNodeId, y = x

instance (v : Vip) (left : List NodeId) : Decidable (OrderFree v left) := by
  unfold OrderFree
  cases v.state <;> infer_instance

theorem Enrolled.forget {v : Vip} (h : Enrolled v) (x : NodeId) : Enrolled (forget v x) where
  nodup := nodup_nodeRemove h.nodup x
  zero_notMem h₀ := h.zero_notMem (((nodeRemove_sublist _ x).map _).subset h₀)

theorem enrolled_of_nil {v : Vip} (h : v.nodeList = []) : Enrolled v :=
  ⟨by simp [h], by simp [h]⟩

theorem Enrolled.learn {v : Vip} (h : Enrolled v) {y : NodeId} (hy : y ≠ 0) (o : Outcome)
    (nm : NodeMsg) : Enrolled (learn o v nm y) := by
  by_cases hmem : y ∈ ids v.nodeList
  · have hl : (CpgFailover.learn o v nm y).nodeList = v.nodeList := by
      rw [learn_nodeList, nodeAdd_of_mem hmem]
    exact ⟨hl ▸ h.nodup, hl ▸ h.zero_notMem⟩
  · cases hm : o.malloc with
    | true =>
      have hl : (CpgFailover.learn o v nm y).nodeList =
          insertNode ⟨y, nm.priority⟩ v.nodeList := by
        rw [learn_nodeList, hm, nodeAdd_of_not_mem hmem]
      have hperm : (ids (insertNode ⟨y, nm.priority⟩ v.nodeList)).Perm (y :: ids v.nodeList) := by
        rw [insertNode_eq_orderedInsert]
        exact (List.perm_orderedInsert _ _ _).map Node.nodeid
      refine ⟨?_, ?_⟩
      · rw [hl, hperm.nodup_iff]
        exact List.nodup_cons.mpr ⟨hmem, h.nodup⟩
      · rw [hl, hperm.mem_iff, List.mem_cons, not_or]
        exact ⟨Ne.symm hy, h.zero_notMem⟩
    | false =>
      apply enrolled_of_nil
      rw [learn_nodeList]
      exact AllocationFails.nodeAdd
        ⟨hm, Option.not_isSome_iff_eq_none.mp fun hs => hmem (nodeSearch_isSome.mp hs)⟩ _

/-- The nodes on the list of a reachable vip are distinct, and nodes. -/
theorem enrolled_of_reaches {c : Config} {v : Vip}
    (h : ReachesWhen Vip.step (fun _ i => FromNode i) (Vip.fresh c) v) : Enrolled v := by
  refine h.invariant (I := Enrolled) (enrolled_of_nil rfl) fun v i w _ hv hi hs => ?_
  obtain rfl := Option.some.inj hs
  have hraise : Enrolled (i.raise v).1 := by
    cases i with
    | newStateMessage o nm y => exact hv.learn hi o nm
    | nodeDown o x => exact hv.forget x
    | nodeUp | cmdStart | cmdStop | localGet | memberList => exact ⟨hv.nodup, hv.zero_notMem⟩
  cases he : (i.raise v).2 with
  | none =>
    rw [(v.input_of_none he).1]
    exact hraise
  | some oe =>
    rw [v.input_of_some he]
    rcases fsmDoTransaction_nodeList oe.1 (i.raise v).1 oe.2 with hl | hl
    · exact ⟨hl ▸ hraise.nodup, hl ▸ hraise.zero_notMem⟩
    · exact enrolled_of_nil hl

/-! ## While the vip starts, or is a backup -/

section Asking

variable {o : Outcome} {v : Vip} {left s : List NodeId}

theorem Enrolled.heads_iff (h : Enrolled v) : HeadsWithout v s ↔
    (v.nodeId = 0 ∨ v.nodeId ∈ ids v.nodeList ∧ v.nodeId ∉ s) ∧ ∀ y ∈ ahead v, y ∈ s :=
  first_without_iff h.nodup h.zero_notMem

/-- The departures are free if and only if it does not matter who departs before the master. -/
theorem Enrolled.orderFree_iff (h : Enrolled v) (hs : Asking v) (hm : v.masterId ∈ left) :
    OrderFree v left ↔
      ∀ s ⊆ left, v.masterId ∈ s → (HeadsWithout v s ↔ HeadsWithout v left) := by
  have hdef : OrderFree v left ↔
      (v.masterId ∈ left → (v.nodeId = 0 ∨ v.nodeId ∈ ids v.nodeList ∧ v.nodeId ≠ v.masterId) →
        (∀ y ∈ ahead v, y ∈ left) →
          (∀ y ∈ ahead v, y = v.masterId) ∧ (v.nodeId = 0 ∨ v.nodeId ∉ left)) := by
    rw [OrderFree]
    rcases hs with hs | hs <;> rw [hs]
  rw [hdef]
  simp only [h.heads_iff]
  constructor
  · intro hfree s hsub hms
    -- whoever is on the list is gone with the master, or stays
    have hown : (v.nodeId = 0 ∨ v.nodeId ∈ ids v.nodeList ∧ v.nodeId ∉ s) →
        v.nodeId = 0 ∨ v.nodeId ∈ ids v.nodeList ∧ v.nodeId ≠ v.masterId :=
      Or.imp id (And.imp id fun hn he => hn (he ▸ hms))
    constructor
    · rintro ⟨hn, ha⟩
      obtain ⟨-, hl⟩ := hfree hm (hown hn) fun y hy => hsub (ha y hy)
      exact ⟨hn.elim Or.inl fun hn => hl.imp id fun hl => ⟨hn.1, hl⟩, fun y hy => hsub (ha y hy)⟩
    · rintro ⟨hn, ha⟩
      have hn' : v.nodeId = 0 ∨ v.nodeId ∈ ids v.nodeList ∧ v.nodeId ∉ s :=
        hn.imp id (And.imp id fun hl hx => hl (hsub hx))
      obtain ⟨hone, -⟩ := hfree hm (hown hn') ha
      exact ⟨hn', fun y hy => hone y hy ▸ hms⟩
  · intro hagree _ hn ha
    have hself : v.nodeId ∉ ahead v := fun hx => by
      simpa using List.mem_takeWhile_imp hx
    -- everybody ahead and the master depart first, then everybody
    obtain ⟨hleft, -⟩ := (hagree (v.masterId :: ahead v)
      (List.cons_subset.mpr ⟨hm, ha⟩) List.mem_cons_self).mp
        ⟨hn.imp id (And.imp id fun hne => by simp [hne, hself]),
          fun y hy => List.mem_cons_of_mem _ hy⟩
    -- the master departs first
    obtain ⟨-, hone⟩ := (hagree [v.masterId] (by simpa using hm) (by simp)).mpr ⟨hleft, ha⟩
    exact ⟨fun y hy => List.mem_singleton.mp (hone y hy), hleft.imp id And.right⟩

/-- The departures that leave the list as another order of them does. -/
theorem Enrolled.stillUp_perm (h : Enrolled v) {left' : List NodeId} (hp : left'.Perm left)
    (st : State) (takesOver cleansUp : Bool) :
    stillUp v left' st takesOver cleansUp = stillUp v left st takesOver cleansUp := by
  simp only [stillUp, forgets_nodeList, forgets_masterId, forgets_rollbackNodeId, hp.mem_iff,
    without_congr h.nodup fun x => hp.mem_iff]

/-- Some nodes depart, then the master, then the others: this node asks for the address if it is
first when the master departs. -/
theorem takesOver_arranged (h : Enrolled v) (hs : Asking v) (o : Outcome)
    {pre mid post : List NodeId} (hpre : v.masterId ∉ pre) (hmid : v.masterId ∈ mid)
    (hone : ∀ x ∈ mid, x = v.masterId) (hpost : v.masterId ∉ post) :
    (upshot (nodesDown o v (pre ++ mid ++ post))).takesOver = true ↔
      HeadsWithout v (v.masterId :: pre) := by
  have hsw : Asking (forgets v pre) := by
    rw [Asking, forgets_state]
    exact hs
  have hmw : (forgets v pre).masterId ∈ mid := by
    rw [forgets_masterId]
    exact hmid
  have hheads : ∀ s ⊆ mid, (forgets v pre).masterId ∈ s →
      (HeadsWithout (forgets v pre) s ↔ HeadsWithout v (v.masterId :: pre)) := by
    intro s hsub hms
    rw [forgets_masterId] at hms
    have hlist : without (forgets v pre).nodeList s = without v.nodeList (v.masterId :: pre) := by
      rw [forgets_nodeList, without, without, ← List.foldl_append]
      refine without_congr h.nodup fun x => ?_
      rw [List.mem_append, List.mem_cons]
      constructor
      · exact fun hx => hx.symm.imp (fun hx => hone x (hsub hx)) id
      · rintro (rfl | hx)
        exacts [Or.inr hms, Or.inl hx]
    rw [HeadsWithout, hlist, forgets_nodeId]
    rfl
  have hquiet : nodesDown o v pre = (forgets v pre, []) := by
    refine nodesDown_quiet (Or.inr (Or.inr ⟨?_, hpre⟩))
    rcases hs with hs | hs <;> simp [hs]
  -- what the departure of the master comes to
  obtain ⟨hasks, hstate⟩ : ((upshot (nodesDown o (forgets v pre) mid)).takesOver = true ↔
      HeadsWithout v (v.masterId :: pre)) ∧
        ((upshot (nodesDown o (forgets v pre) mid)).state = .idle ∨
          (upshot (nodesDown o (forgets v pre) mid)).state = .master ∨
            (upshot (nodesDown o (forgets v pre) mid)).state ≠ .rback ∧
              (upshot (nodesDown o (forgets v pre) mid)).masterId ∉ post) := by
    by_cases hh : HeadsWithout v (v.masterId :: pre)
    · rw [nodesDown_claims hsw hmw fun s hsub hms => (hheads s hsub hms).mpr hh]
      split_ifs
      · exact ⟨by simp [stillUp, hh], Or.inr (Or.inl rfl)⟩
      · exact ⟨by simp [downNow, hh], Or.inl rfl⟩
    · have hno : ∀ s ⊆ mid, (forgets v pre).masterId ∈ s → ¬ HeadsWithout (forgets v pre) s :=
        fun s hsub hms hw => hh ((hheads s hsub hms).mp hw)
      rcases hsw with hstart | hback
      · rw [nodesDown_resigns hstart hmw hno]
        exact ⟨by simp [downNow, hh], Or.inl rfl⟩
      · rw [nodesDown_cleansUp hback hno]
        exact ⟨by simp [stillUp, hh], Or.inr (Or.inr ⟨by simp [stillUp], by simpa [stillUp]⟩)⟩
  have hrest : nodesDown o (nodesDown o (forgets v pre) mid).1 post =
      (forgets (nodesDown o (forgets v pre) mid).1 post, []) := nodesDown_quiet hstate
  rw [List.append_assoc, nodesDown_append, hquiet, nodesDown_append, hrest]
  simpa [upshot] using hasks

/-- **Some order lets just these nodes depart before the master is looked at**, and asks for the
address if this node is first then. -/
theorem Enrolled.exists_order (h : Enrolled v) (hs : Asking v) (o : Outcome) (hsub : s ⊆ left)
    (hms : v.masterId ∈ s) :
    ∃ left', left'.Perm left ∧
      ((upshot (nodesDown o v left')).takesOver = true ↔ HeadsWithout v s) := by
  have hinner := List.filter_append_perm (fun x => decide (x ≠ v.masterId))
    (left.filter (· ∈ s))
  have houter := List.filter_append_perm (fun x => decide (x ∈ s)) left
  refine ⟨_, (hinner.append_right _).trans houter, ?_⟩
  rw [takesOver_arranged h hs o (by simp) (by simp [hsub hms, hms])
    (fun x hx => by simpa using (List.mem_filter.mp hx).2) (by simp [hms])]
  -- the nodes that depart before the master, and the master
  rw [HeadsWithout, HeadsWithout, without_congr h.nodup fun x => ?_]
  simp only [List.mem_cons, List.mem_filter, decide_eq_true_eq]
  constructor
  · rintro (rfl | ⟨⟨-, hx⟩, -⟩)
    exacts [hms, hx]
  · intro hx
    by_cases hm : x = v.masterId
    · exact Or.inl hm
    · exact Or.inr ⟨⟨hsub hx, hx⟩, hm⟩

end Asking

/-! ## While a rollback waits -/

section Waiting

variable {v : Vip} {left left' : List NodeId}

theorem Enrolled.targeting_iff (h : Enrolled v) (s : List NodeId) : Targeting (forgets v s) ↔
    v.rollbackNodeId ∈ ids v.nodeList ∧ v.rollbackNodeId ∉ s ∧
      ∀ y ∈ aheadOf v.nodeList v.rollbackNodeId, y ∈ s := by
  rw [Targeting, forgets_rollbackNodeId, forgets_nodeList]
  by_cases ht : v.rollbackNodeId ∈ s
  · simp [ht]
  · rw [if_neg ht, first_without_iff h.nodup h.zero_notMem]
    constructor
    · rintro ⟨h₀, hmem, ha⟩
      exact ⟨(hmem.resolve_left h₀).1, ht, ha⟩
    · rintro ⟨hmem, -, ha⟩
      exact ⟨fun h₀ => h.zero_notMem (h₀ ▸ hmem), Or.inr ⟨hmem, ht⟩, ha⟩

/-- The first departure of another node than the master. -/
theorem exists_first_other (hne : ∃ x ∈ left, x ≠ v.masterId) :
    ∃ pre x post, left = pre ++ x :: post ∧ x ≠ v.masterId ∧ ∀ y ∈ pre, y = v.masterId := by
  have hsome : (left.find? (· ≠ v.masterId)).isSome := by simpa using hne
  obtain ⟨x, hx⟩ := Option.isSome_iff_exists.mp hsome
  obtain ⟨hxm, pre, post, rfl, hpre⟩ := List.find?_eq_some_iff_append.mp hx
  exact ⟨pre, x, post, rfl, by simpa using hxm, fun y hy => by simpa using hpre y hy⟩

/-- Whoever waits throughout some order of the departures could wait on with a single one. -/
theorem TargetingThroughout.exists_single (hh : TargetingThroughout v left) (h : Enrolled v)
    (hne : ∃ x ∈ left, x ≠ v.masterId) :
    v.rollbackNodeId ∈ ids v.nodeList ∧ ∃ x ∈ left, x ≠ v.masterId ∧
      ((∀ y ∈ aheadOf v.nodeList v.rollbackNodeId, y = x) ∨
        v.masterId ∈ left ∧ v.rollbackNodeId ≠ v.masterId ∧
          ∀ y ∈ aheadOf v.nodeList v.rollbackNodeId, y = x ∨ y = v.masterId) := by
  obtain ⟨pre, x, post, rfl, hx, hpre⟩ := exists_first_other hne
  rw [targetingThroughout_append] at hh
  have hheld : Targeting (forgets v (pre ++ [x])) := by
    rw [forgets, List.foldl_append]
    exact hh.2.1 (by rw [forgets_masterId]; exact Ne.symm hx)
  obtain ⟨hmem, hnot, ha⟩ := (h.targeting_iff _).mp hheld
  refine ⟨hmem, x, by simp, hx, ?_⟩
  cases pre with
  | nil => exact Or.inl fun y hy => by simpa using ha y hy
  | cons m pre =>
    obtain rfl : m = v.masterId := hpre m List.mem_cons_self
    refine Or.inr ⟨by simp, fun he => hnot (by simp [he]), fun y hy => ?_⟩
    rcases List.mem_append.mp (ha y hy) with hy | hy
    · exact Or.inr (hpre y hy)
    · exact Or.inl (List.mem_singleton.mp hy)

/-- A target that does not depart, and that each single departure leaves at the head, is held. -/
theorem Enrolled.targetingThroughout (h : Enrolled v) (hmem : v.rollbackNodeId ∈ ids v.nodeList)
    (hl : v.rollbackNodeId ∉ left) (ha : ∀ x ∈ left, x ≠ v.masterId →
      ∀ y ∈ aheadOf v.nodeList v.rollbackNodeId, y = x) : TargetingThroughout v left := by
  by_cases hne : ∃ x ∈ left, x ≠ v.masterId
  · obtain ⟨pre, x, post, rfl, hx, hpre⟩ := exists_first_other hne
    have hnot : v.rollbackNodeId ∉ pre ++ [x] := fun ht => hl (by
      rcases List.mem_append.mp ht with ht | ht
      · exact List.mem_append_left _ ht
      · exact List.mem_append_right _ (List.mem_cons.mpr (Or.inl (List.mem_singleton.mp ht))))
    have hheld : Targeting (forgets v (pre ++ [x])) :=
      (h.targeting_iff _).mpr ⟨hmem, hnot, fun y hy => by simp [ha x (by simp) hx y hy]⟩
    have hstep : forgets v (pre ++ [x]) = CpgFailover.forget (forgets v pre) x := List.foldl_append
    rw [hstep] at hheld
    refine targetingThroughout_append.mpr ⟨targetingThroughout_of_eq hpre, fun _ => hheld, ?_⟩
    refine hheld.throughout fun ht => ?_
    rw [← hstep, forgets_rollbackNodeId, if_neg hnot] at ht
    exact hl (List.mem_append_right _ (List.mem_cons_of_mem x ht))
  · push Not at hne
    exact targetingThroughout_of_eq hne

/-- If the departures are free, a rollback is held through all orders of them or through none. -/
theorem Enrolled.targeting_perm (h : Enrolled v) (hs : v.state = .rback) (hfree : OrderFree v left)
    (hp : left'.Perm left) (hh : TargetingThroughout v left') : TargetingThroughout v left := by
  rw [OrderFree, hs] at hfree
  by_cases hne : ∃ x ∈ left', x ≠ v.masterId
  · obtain ⟨hmem, hsingle⟩ := hh.exists_single h hne
    simp only [hp.mem_iff] at hsingle
    have htarget : v.rollbackNodeId ∈ left → v.rollbackNodeId = v.masterId := by
      intro ht
      by_contra hm
      exact (hh.target (hp.mem_iff.mpr ht) hm).2 rfl
    obtain ⟨hl, ha⟩ := hfree hmem htarget hsingle
    exact h.targetingThroughout hmem hl ha
  · push Not at hne
    exact targetingThroughout_of_eq fun x hx => hne x (hp.mem_iff.mpr hx)

/-- If all orders of the departures hold a rollback, or none does, the departures are free. -/
theorem Enrolled.orderFree_of_targeting (h : Enrolled v) (hs : v.state = .rback)
    (hall : ∀ left', left'.Perm left → (TargetingThroughout v left' ↔ TargetingThroughout v left)) :
    OrderFree v left := by
  rw [OrderFree, hs]
  rintro hmem htarget ⟨x, hx, hxm, hsingle⟩
  have htx : v.rollbackNodeId ≠ x := fun he => hxm (he ▸ htarget (he ▸ hx))
  have hperm {y : NodeId} (hy : y ∈ left) : (y :: left.erase y).Perm left :=
    (List.perm_cons_erase hy).symm
  have hfront (hm : v.masterId ∈ left) :
      (v.masterId :: x :: (left.erase v.masterId).erase x).Perm left :=
    (((List.perm_cons_erase ((List.mem_erase_of_ne hxm).mpr hx)).symm).cons _).trans (hperm hm)
  -- an order of the departures that holds the rollback
  have hsome : ∃ left', left'.Perm left ∧ TargetingThroughout v left' := by
    rcases hsingle with ha | ⟨hm, htm, ha⟩
    · -- the master departs last, in case it is the target
      have hrest := List.filter_append_perm (fun y => decide (y ≠ v.masterId)) (left.erase x)
      refine ⟨_, (hrest.cons x).trans (hperm hx), ?_⟩
      rw [← List.cons_append, targetingThroughout_append]
      have hheld : Targeting (CpgFailover.forget v x) :=
        (h.targeting_iff [x]).mpr ⟨hmem, by simpa using htx, by simpa using ha⟩
      refine ⟨⟨fun _ => hheld, hheld.throughout fun ht => ?_⟩, targetingThroughout_of_eq ?_⟩
      · have htx' : (CpgFailover.forget v x).rollbackNodeId = v.rollbackNodeId := if_neg htx
        rw [htx'] at ht
        obtain ⟨ht, htm⟩ := List.mem_filter.mp ht
        exact absurd (htarget (List.mem_of_mem_erase ht)) (by simpa using htm)
      · intro y hy
        rw [forgets_masterId]
        simpa using (List.mem_filter.mp hy).2
    · -- the master departs first
      have hl : v.rollbackNodeId ∉ left := fun ht => htm (htarget ht)
      have hheld : Targeting (forgets v [v.masterId, x]) :=
        (h.targeting_iff _).mpr
          ⟨hmem, by simp [htm, htx], fun y hy => by simpa [or_comm] using ha y hy⟩
      refine ⟨_, hfront hm, fun hne => absurd rfl hne, fun _ => hheld, hheld.throughout ?_⟩
      intro ht
      rw [forgets_rollbackNodeId, if_neg (by simp [htm, htx])] at ht
      exact hl (List.mem_of_mem_erase (List.mem_of_mem_erase ht))
  obtain ⟨left', hp, hh⟩ := hsome
  -- hence all orders do
  have hholds {l : List NodeId} (hl : l.Perm left) : TargetingThroughout v l :=
    (hall l hl).mpr ((hall left' hp).mp hh)
  constructor
  · intro ht
    have htm := htarget ht
    have hheld : Targeting (forgets v [v.masterId, x]) :=
      (hholds (hfront (htm ▸ ht))).2.1 (Ne.symm hxm)
    exact ((h.targeting_iff _).mp hheld).2.1 (by simp [htm])
  · intro y hy hym z hz
    have hheld : Targeting (forgets v [y]) := (hholds (hperm hy)).1 (Ne.symm hym)
    simpa using ((h.targeting_iff _).mp hheld).2.2 z hz

end Waiting

/-! ## Any order -/

section Confchg

variable {v : Vip} {left : List NodeId}

/-- An arrival and the size of the group decide nothing. -/
theorem upshot_confchg (o : Outcome) (v : Vip) (members left joined : List NodeId) :
    upshot (confchgCallback o v members left joined) =
      upshot (nodesDown o { v with memberListEntries := members.length } left) := by
  have hup (w : Vip) : (fsmInputNodeUp o w).effects.any asks = false ∧
      (fsmInputNodeUp o w).effects.any cleans = false ∧
        (fsmInputNodeUp o w).effects.any unbinds = false := by
    cases hs : w.state <;>
      simp [fsmInputNodeUp, fsmDoTransaction, table, hs, error, nodeup, backupup,
        virtualIpSendState, virtualIpSendAllSql, asks, cleans, unbinds]
  simp only [confchgCallback]
  split_ifs
  · simp [upshot, fsmInputNodeUp_vip, hup]
  · rfl

/-- Departures that are not looked at come in any order. -/
theorem Enrolled.orders_quiet (h : Enrolled v) (o : Outcome)
    (hs : v.state = .idle ∨ v.state = .master ∨ v.state ≠ .rback ∧ v.masterId ∉ left)
    {left' : List NodeId} (hp : left'.Perm left) :
    upshot (nodesDown o v left') = upshot (nodesDown o v left) := by
  have hs' : v.state = .idle ∨ v.state = .master ∨ v.state ≠ .rback ∧ v.masterId ∉ left' := by
    rwa [hp.mem_iff]
  rw [nodesDown_quiet hs, nodesDown_quiet hs']
  have hup := h.stillUp_perm hp v.state false false
  simpa [upshot, stillUp] using hup

/-- If it does not matter who departs before the master, the order does not matter. -/
theorem Enrolled.orders_of_agree (h : Enrolled v) (hs : Asking v) (o : Outcome)
    (hm : v.masterId ∈ left)
    (hagree : ∀ s ⊆ left, v.masterId ∈ s → (HeadsWithout v s ↔ HeadsWithout v left))
    {left' : List NodeId} (hp : left'.Perm left) :
    upshot (nodesDown o v left') = upshot (nodesDown o v left) := by
  have hm' : v.masterId ∈ left' := hp.mem_iff.mpr hm
  have hagree' : ∀ s ⊆ left', v.masterId ∈ s → (HeadsWithout v s ↔ HeadsWithout v left) :=
    fun s hsub hms => hagree s (List.Subset.trans hsub hp.subset) hms
  by_cases hh : HeadsWithout v left
  · rw [nodesDown_claims hs hm fun s hsub hms => (hagree s hsub hms).mpr hh,
      nodesDown_claims hs hm' fun s hsub hms => (hagree' s hsub hms).mpr hh, h.stillUp_perm hp]
  · have hno : ∀ s ⊆ left, v.masterId ∈ s → ¬ HeadsWithout v s :=
      fun s hsub hms hw => hh ((hagree s hsub hms).mp hw)
    have hno' : ∀ s ⊆ left', v.masterId ∈ s → ¬ HeadsWithout v s :=
      fun s hsub hms hw => hh ((hagree' s hsub hms).mp hw)
    rcases hs with hstart | hback
    · rw [nodesDown_resigns hstart hm hno, nodesDown_resigns hstart hm' hno']
    · rw [nodesDown_cleansUp hback hno, nodesDown_cleansUp hback hno', h.stillUp_perm hp]
      simp only [hp.mem_iff]

theorem Enrolled.orders_asking (h : Enrolled v) (hs : Asking v) (o : Outcome) (left : List NodeId) :
    (∀ left', left'.Perm left → upshot (nodesDown o v left') = upshot (nodesDown o v left)) ↔
      OrderFree v left := by
  by_cases hm : v.masterId ∈ left
  · rw [h.orderFree_iff hs hm]
    refine ⟨fun hall s hsub hms => ?_, fun hagree left' hp => h.orders_of_agree hs o hm hagree hp⟩
    -- the order in which just these depart before the master, and the one in which all do
    obtain ⟨a, ha, hsa⟩ := h.exists_order hs o hsub hms
    obtain ⟨b, hb, hsb⟩ := h.exists_order hs o (List.Subset.refl left) hm
    rw [← hsa, ← hsb, hall a ha, hall b hb]
  · have hr : v.state ≠ .rback := by rcases hs with hs | hs <;> simp [hs]
    refine ⟨fun _ => ?_, fun _ left' hp => h.orders_quiet o (Or.inr (Or.inr ⟨hr, hm⟩)) hp⟩
    rw [OrderFree]
    rcases hs with hs | hs <;> rw [hs] <;> exact fun hm' => absurd hm' hm

theorem Enrolled.orders_rback (h : Enrolled v) (hs : v.state = .rback) (o : Outcome)
    (left : List NodeId) :
    (∀ left', left'.Perm left → upshot (nodesDown o v left') = upshot (nodesDown o v left)) ↔
      OrderFree v left := by
  constructor
  · intro hall
    refine h.orderFree_of_targeting hs fun left' hp => ?_
    have hup := congrArg Upshot.state (hall left' hp)
    -- the state tells whether the rollback is held
    by_cases hh' : TargetingThroughout v left' <;> by_cases hh : TargetingThroughout v left
    · exact iff_of_true hh' hh
    · rw [(nodesDown_rollback hs).1 hh', (nodesDown_rollback hs).2 hh] at hup
      cases hup
    · rw [(nodesDown_rollback hs).2 hh', (nodesDown_rollback hs).1 hh] at hup
      cases hup
    · exact iff_of_false hh' hh
  · intro hfree left' hp
    have hfree' : OrderFree v left' := by
      rw [OrderFree, hs] at hfree ⊢
      simpa only [hp.mem_iff] using hfree
    by_cases hh : TargetingThroughout v left
    · rw [(nodesDown_rollback hs).1 (h.targeting_perm hs hfree' hp.symm hh),
        (nodesDown_rollback hs).1 hh, h.stillUp_perm hp]
    · rw [(nodesDown_rollback hs).2 fun hh' => hh (h.targeting_perm hs hfree hp hh'),
        (nodesDown_rollback hs).2 hh, h.stillUp_perm hp]

/-- All orders of the departures have the same upshot if and only if they are free. -/
theorem Enrolled.orders_iff (h : Enrolled v) (o : Outcome) (left : List NodeId) :
    (∀ left', left'.Perm left → upshot (nodesDown o v left') = upshot (nodesDown o v left)) ↔
      OrderFree v left := by
  cases hs : v.state with
  | idle =>
    rw [OrderFree, hs]
    exact iff_of_true (fun left' hp => h.orders_quiet o (Or.inl hs) hp) trivial
  | master =>
    rw [OrderFree, hs]
    exact iff_of_true (fun left' hp => h.orders_quiet o (Or.inr (Or.inl hs)) hp) trivial
  | start => exact h.orders_asking (Or.inl hs) o left
  | backup => exact h.orders_asking (Or.inr hs) o left
  | rback => exact h.orders_rback hs o left

end Confchg

/-- **Departures in any order**: in every reachable state, all orders of the departures of a
configuration change have the same upshot if and only if they are free. -/
theorem departures_order_free {c : Config} {v : Vip}
    (hr : ReachesWhen Vip.step (fun _ i => FromNode i) (Vip.fresh c) v) (o : Outcome)
    (members left joined : List NodeId) :
    (∀ left', left'.Perm left → upshot (confchgCallback o v members left' joined) =
      upshot (confchgCallback o v members left joined)) ↔ OrderFree v left := by
  have h := enrolled_of_reaches hr
  have hw : Enrolled { v with memberListEntries := members.length } := ⟨h.nodup, h.zero_notMem⟩
  simp only [upshot_confchg]
  exact hw.orders_iff o left

/-- Node 1 is a backup; node 3 serves the address, and node 2 is next. -/
def twoAhead : Vip :=
  (runWhen Vip.step (fun _ i => FromNode i) (Vip.fresh (plainConfig 10 noProfiles))
    [.cmdStart allSucceed, .localGet 1, .memberList 3, .nodeUp allSucceed,
      .newStateMessage allSucceed ⟨10, .start, []⟩ 1,
      .newStateMessage allSucceed ⟨20, .backup, []⟩ 2,
      .newStateMessage allSucceed ⟨30, .master, []⟩ 3]).getD (Vip.fresh (plainConfig 10 noProfiles))

/-- Node 1 hears node 4 as well, which comes after it. -/
def oneBehind : Vip := (twoAhead.input (.newStateMessage allSucceed ⟨5, .backup, []⟩ 4)).vip

theorem departures_order_free_twoAhead :
    (∀ left', left'.Perm [3, 4] → upshot (confchgCallback allSucceed oneBehind [1, 2] left' []) =
      upshot (confchgCallback allSucceed oneBehind [1, 2] [3, 4] [])) ∧
    ¬ ∀ left', left'.Perm [3, 2] → upshot (confchgCallback allSucceed twoAhead [1] left' []) =
      upshot (confchgCallback allSucceed twoAhead [1] [3, 2] []) := by
  have htwo : ReachesWhen Vip.step (fun _ i => FromNode i)
      (Vip.fresh (plainConfig 10 noProfiles)) twoAhead := reachesWhen_getD _
  have hone : ReachesWhen Vip.step (fun _ i => FromNode i)
      (Vip.fresh (plainConfig 10 noProfiles)) oneBehind := htwo.tail (by decide) rfl
  constructor
  · exact (departures_order_free hone allSucceed [1, 2] [3, 4] []).mpr (by decide)
  · exact fun h => absurd ((departures_order_free htwo allSucceed [1] [3, 2] []).mp h) (by decide)

/-- **The order of the departures matters**: nodes 2 and 3 are lost at once, and node 1 takes over
or stays a backup as the master is named last or first. -/
theorem departures_ordered : ¬ ∀ (c : Config) (v : Vip),
    ReachesWhen Vip.step (fun _ i => FromNode i) (Vip.fresh c) v →
      ∀ (o : Outcome) (members left left' joined : List NodeId), left'.Perm left →
        upshot (confchgCallback o v members left' joined) =
          upshot (confchgCallback o v members left joined) := by
  intro h
  have hsame := h _ twoAhead (reachesWhen_getD _) allSucceed [1] [3, 2] [2, 3] []
    (List.Perm.swap 3 2 [])
  revert hsame
  decide

end CpgFailover
