import CpgFailover.RollbackTarget

/-!
# A failed allocation

`node_add` returns the null pointer when it finds no memory for a new node, and its caller puts that
in the place of the list: every member the vip has heard of is forgotten at once. The loss shows
later. A backup that is not on its own list does not find itself at the head of it, and waits until
it hears itself again.

## Main definitions

* `AllocationFails`: a message comes from a node that is not on the list, and there is no memory
* `Unheard`: an input other than a message from this node, a start, or the answer to
  `cpg_local_get`

## Main results

* `nodeList_kept_iff`: the list survives a failed allocation if and only if it is empty
* `unlisted_backup`: a backup that is not on its list does not take over before it hears itself
-/

namespace CpgFailover

open Transition

/-- A message from the node finds it off the list, and the allocation in `node_add` fails. -/
def AllocationFails (o : Outcome) (v : Vip) (nodeid : NodeId) : Prop :=
  o.malloc = false ∧ nodeSearch v.nodeList nodeid = none

section Loss

variable {o : Outcome} {v : Vip} {nm : NodeMsg} {y : NodeId}

theorem AllocationFails.nodeAdd (h : AllocationFails o v y) (p : ℤ) :
    nodeAdd o.malloc v.nodeList y p = [] := by
  obtain ⟨hm, hs⟩ := h
  simp [CpgFailover.nodeAdd, hm, hs]

/-- A failed allocation leaves no list, whatever event the message raises. -/
theorem AllocationFails.nodeList (h : AllocationFails o v y) (nm : NodeMsg) :
    (fsmInputNewStateMessage o v nm y).vip.nodeList = [] := by
  have hlearn : (learn o v nm y).nodeList = [] := by rw [learn_nodeList, h.nodeAdd]
  rw [fsmInputNewStateMessage]
  cases stateMessageEvent (learn o v nm y) nm y with
  | none => exact hlearn
  | some e =>
    rcases fsmDoTransaction_nodeList o (learn o v nm y) e with hl | hl
    · exact hl.trans hlearn
    · exact hl

/-- **The list survives a failed allocation if and only if there is nothing to lose.** -/
theorem nodeList_kept_iff (h : AllocationFails o v y) :
    (fsmInputNewStateMessage o v nm y).vip.nodeList = v.nodeList ↔ v.nodeList = [] := by
  rw [h.nodeList]
  exact eq_comm

end Loss

/-- There is no memory for a node. -/
def exhausted : Outcome := { allSucceed with malloc := false }

/-- Node 1 has joined node 2, which serves the address. -/
def joinsMaster : List VipInput :=
  [.cmdStart allSucceed, .localGet 1, .memberList 2, .nodeUp allSucceed,
    .newStateMessage allSucceed ⟨10, .start, []⟩ 1, .newStateMessage allSucceed ⟨20, .master, []⟩ 2]

/-- The backup after it has heard itself and the master. -/
def heardBackup : Vip :=
  (run Vip.step (Vip.fresh rollbackConfig) joinsMaster).getD (Vip.fresh rollbackConfig)

theorem nodeList_kept_iff_heardBackup : ids heardBackup.nodeList = [2, 1] ∧
    (fsmInputNewStateMessage exhausted heardBackup ⟨30, .start, []⟩ 3).vip.nodeList ≠
      heardBackup.nodeList :=
  ⟨by decide, fun h => absurd ((nodeList_kept_iff ⟨rfl, by decide⟩).mp h) (by decide)⟩

/-- **A failed allocation forgets the members**: a backup hears a third node, has no memory for it,
and knows nobody any more. -/
theorem nodeList_lost : ¬ ∀ (c : Config) (v : Vip), Reaches Vip.step (Vip.fresh c) v →
    ∀ (o : Outcome) (nm : NodeMsg) (y : NodeId), AllocationFails o v y →
      (fsmInputNewStateMessage o v nm y).vip.nodeList = v.nodeList := by
  intro h
  have hkept := h rollbackConfig heardBackup (reaches_getD _) exhausted ⟨30, .start, []⟩ 3
    ⟨rfl, by decide⟩
  revert hkept
  decide

/-! ## What the loss leads to -/

/-- Neither a message from the node, nor a start, nor the answer to `cpg_local_get`. -/
def Unheard (n : NodeId) : VipInput → Prop
  | .newStateMessage _ _ nodeid => nodeid ≠ n
  | .cmdStart _ | .localGet _ => False
  | _ => True

/-- A node that is not on its list, as a backup or stopped. -/
structure Unlisted (n : NodeId) (v : Vip) : Prop where
  state : v.state = .backup ∨ v.state = .idle
  self : v.state = .backup → v.nodeId = n
  off : n ∉ ids v.nodeList

section Unlisted

variable {n : NodeId} {v w : Vip} {i : VipInput}

theorem Unlisted.learn (h : Unlisted n v) {y : NodeId} (hy : y ≠ n) (o : Outcome) (nm : NodeMsg) :
    n ∉ ids (learn o v nm y).nodeList := by
  rw [learn_nodeList]
  by_cases hmem : y ∈ ids v.nodeList
  · rw [nodeAdd_of_mem hmem]
    exact h.off
  · cases hm : o.malloc with
    | true =>
      rw [mem_ids_nodeAdd, not_or]
      exact ⟨Ne.symm hy, h.off⟩
    | false =>
      have hlost : AllocationFails o v y :=
        ⟨hm, Option.not_isSome_iff_eq_none.mp fun hs => hmem (nodeSearch_isSome.mp hs)⟩
      have hnil := hlost.nodeAdd nm.priority
      rw [hm] at hnil
      rw [hnil]
      exact List.not_mem_nil

/-- The writes of an input leave the node off its list. -/
theorem Unlisted.raise (h : Unlisted n v) (hi : Unheard n i) : Unlisted n (i.raise v).1 := by
  have hs := i.raise_state v
  refine ⟨hs ▸ h.state, ?_, ?_⟩
  · rw [hs]
    intro hb
    cases i with
    | newStateMessage o nm y => exact (learn_nodeId o v nm y).trans (h.self hb)
    | localGet => exact hi.elim
    | nodeDown | nodeUp | cmdStart | cmdStop | memberList => exact h.self hb
  · cases i with
    | newStateMessage o nm y => exact h.learn hi o nm
    | nodeDown o x => exact fun hn => h.off (((nodeRemove_sublist _ x).map _).subset hn)
    | nodeUp | cmdStart | cmdStop | localGet | memberList => exact h.off

/-- A transaction leaves the node off its list: `react` finds another node at the head of it, or
none. -/
theorem Unlisted.fsmDoTransaction (h : Unlisted n v) (hn : n ≠ 0) {o : Outcome} {e : Event}
    (he : e ≠ .startup) : Unlisted n (fsmDoTransaction o v e).vip := by
  have hto := fsmTo_fsmDoTransaction o v e
  generalize CpgFailover.fsmDoTransaction o v e = r at hto ⊢
  have hdown : Unlisted n (goDown v).vip := ⟨Or.inr rfl, by simp, List.not_mem_nil⟩
  cases hto with
  | stay | cleanUp | nodeup | backupup => exact h
  | down | resign => exact hdown
  | claim hfirst hs =>
    have hback : v.state = .backup := by
      rcases hs with ⟨hs, -⟩ | ⟨hs, -⟩
      · rcases h.state with hv | hv <;> rw [hv] at hs <;> cases hs
      · exact hs
    have hne : nodeFirst v.nodeList ≠ 0 := by
      rw [← hfirst, h.self hback]
      exact hn
    refine absurd (nodeFirst_mem_of_ne_zero hne) ?_
    rw [← hfirst, h.self hback]
    exact h.off
  | observe hs | resume hs | request hs =>
    rcases h.state with hv | hv <;> rw [hv] at hs <;> cases hs
  | goUp => exact absurd rfl he

theorem Unlisted.step (h : Unlisted n v) (hn : n ≠ 0) (hi : Unheard n i) (hs : v.step i = some w) :
    Unlisted n w := by
  obtain rfl := Option.some.inj hs
  have hraise := h.raise hi
  cases he : (i.raise v).2 with
  | none =>
    rw [(v.input_of_none he).1]
    exact hraise
  | some oe =>
    obtain ⟨o, e⟩ := oe
    rw [v.input_of_some he]
    apply hraise.fsmDoTransaction hn
    rintro rfl
    -- only a start raises this event
    cases i with
    | cmdStart => exact hi
    | newStateMessage o nm y =>
      obtain ⟨e, he', heq⟩ := Option.map_eq_some_iff.mp he
      cases heq
      exact stateMessageEvent_ne_startup _ _ _ he'
    | nodeDown o x => exact nodeDownEvent_ne_startup v x (congrArg Prod.snd (Option.some.inj he))
    | nodeUp | cmdStop | localGet | memberList => cases he

/-- **A backup that is not on its list waits**: whatever it hears from the others and whoever
departs, it does not take over before it hears itself. -/
theorem unlisted_backup (hs : v.state = .backup) (hn : v.nodeId ≠ 0)
    (hl : v.nodeId ∉ ids v.nodeList)
    (hr : ReachesWhen Vip.step (fun _ i => Unheard v.nodeId i) v w) :
    w.state = .backup ∨ w.state = .idle := by
  have hw : Unlisted v.nodeId w :=
    hr.invariant (I := Unlisted v.nodeId) ⟨Or.inl hs, fun _ => rfl, hl⟩
      fun _ _ _ _ hI hi hs => hI.step hn hi hs
  exact hw.state

end Unlisted

end CpgFailover
