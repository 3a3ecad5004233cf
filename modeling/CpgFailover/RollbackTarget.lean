import CpgFailover.Inputs
import CpgFailover.RollbackTimer

/-!
# The target of a rollback

A master that is about to give way names the head of its list as the one it waits for. While it
waits the list may grow and shrink; `rback_stop` calls the rollback off when the target is no longer
the head. It is reached by every arrival of a higher priority and by the departure of a node that is
not the remembered master, but not by the departure of the remembered master, which the target may
have become by announcing itself.

## Main definitions

* `ConstantPriority`: the inputs of a group with constant priorities
* `TargetHeard`: the departure of the target is not taken for that of the master
* `Aimed`, `OnTarget`: the invariants

## Main results

* `rollback_target`: in `ST_RBACK` the target is the head of the list
* `rollback_target_lost`: a target that has announced itself as a master departs, and the vip stays
-/

namespace CpgFailover

open Transition

/-- Memory suffices, and every node announces itself with its own priority. -/
def ConstantPriority (prio : NodeId → ℤ) : VipInput → Prop
  | .newStateMessage o nm nodeid => o.malloc = true ∧ nodeid ≠ 0 ∧ nm.priority = prio nodeid
  | _ => True

/-- In `ST_RBACK` no node departs that is both the target and the remembered master. -/
def TargetHeard (v : Vip) : VipInput → Prop
  | .nodeDown _ nodeid => v.state = .rback → v.rollbackNodeId = nodeid → v.masterId ≠ nodeid
  | _ => True

instance (prio : NodeId → ℤ) : DecidablePred (ConstantPriority prio)
  | .newStateMessage _ _ _ => by unfold ConstantPriority; infer_instance
  | .nodeDown _ _ | .nodeUp _ | .cmdStart _ | .cmdStop _ | .localGet _ | .memberList _ =>
    by unfold ConstantPriority; infer_instance

instance (v : Vip) : DecidablePred (TargetHeard v)
  | .nodeDown _ _ => by unfold TargetHeard; infer_instance
  | .newStateMessage _ _ _ | .nodeUp _ | .cmdStart _ | .cmdStop _ | .localGet _ | .memberList _ =>
    by unfold TargetHeard; infer_instance

/-! ## The invariants -/

/-- The list holds the announced priorities, and whoever waits for a target waits for a higher
one. -/
structure Aimed (prio : NodeId → ℤ) (v : Vip) : Prop where
  ordered : WellOrdered v.nodeList
  named : ∀ n ∈ v.nodeList, n.nodeid ≠ 0 ∧ n.priority = prio n.nodeid
  above : v.state = .rback → v.config.autorollback = true ∧
    (v.rollbackNodeId = 0 ∨ v.config.priority < prio v.rollbackNodeId)

/-- Whoever waits for a target waits for the head of its list. -/
def OnTarget (v : Vip) : Prop :=
  v.state = .rback → v.rollbackNodeId ≠ 0 ∧ v.rollbackNodeId = nodeFirst v.nodeList

section Writes

variable {prio : NodeId → ℤ} {v : Vip} {x : NodeId}

theorem Aimed.forget (h : Aimed prio v) (x : NodeId) : Aimed prio (forget v x) where
  ordered := h.ordered.nodeRemove x
  named n hn := h.named n ((nodeRemove_sublist v.nodeList x).subset hn)
  above hs := by
    obtain ⟨ha, habove⟩ := h.above hs
    refine ⟨ha, ?_⟩
    show (if v.rollbackNodeId = x then 0 else v.rollbackNodeId) = 0 ∨
      v.config.priority < prio (if v.rollbackNodeId = x then 0 else v.rollbackNodeId)
    -- a target that departs is no target any more
    split_ifs
    exacts [Or.inl rfl, habove]

theorem Aimed.learn (h : Aimed prio v) {o : Outcome} {nm : NodeMsg} (ho : o.malloc = true)
    (hx : x ≠ 0) (hp : nm.priority = prio x) : Aimed prio (learn o v nm x) := by
  rw [learn_eq, ho]
  refine ⟨h.ordered.nodeAdd x nm.priority, fun n hn => ?_, h.above⟩
  by_cases hmem : x ∈ ids v.nodeList
  · rw [nodeAdd_of_mem hmem] at hn
    exact h.named n hn
  · rw [nodeAdd_of_not_mem hmem] at hn
    rcases mem_insertNode.mp hn with rfl | hn
    exacts [⟨hx, hp⟩, h.named n hn]

/-- The writes of an input keep the list and the priorities. -/
theorem Aimed.raise (h : Aimed prio v) {i : VipInput} (hi : ConstantPriority prio i) :
    Aimed prio (i.raise v).1 := by
  cases i with
  | nodeDown o x => exact h.forget x
  | newStateMessage o nm y =>
    obtain ⟨ho, hy, hp⟩ := hi
    exact h.learn ho hy hp
  | nodeUp | cmdStart | cmdStop => exact h
  | localGet | memberList => exact ⟨h.ordered, h.named, h.above⟩

/-- **The writes of an input leave the target at the head**, or `rback_stop` looks after it. -/
theorem OnTarget.raise (h : OnTarget v) (ha : Aimed prio v) {i : VipInput}
    (hi : ConstantPriority prio i)
    (hk : TargetHeard v i) :
    OnTarget (i.raise v).1 ∨
      ∃ o e, (i.raise v).2 = some (o, e) ∧ (e = .backupDown ∨ e = .rbackReq) := by
  by_cases hs : v.state = .rback
  swap
  · exact Or.inl fun hr => absurd (i.raise_state v ▸ hr) hs
  obtain ⟨hne, hfirst⟩ := h hs
  obtain ⟨hauto, habove⟩ := ha.above hs
  cases i with
  | nodeDown o x =>
    by_cases hm : v.masterId = x
    · -- another node than the target departs
      have hx : v.rollbackNodeId ≠ x := fun hx => hk hs hx hm
      left
      intro _
      show (if v.rollbackNodeId = x then 0 else v.rollbackNodeId) ≠ 0 ∧
        (if v.rollbackNodeId = x then 0 else v.rollbackNodeId) = nodeFirst (nodeRemove v.nodeList x)
      rw [if_neg hx, nodeFirst_nodeRemove_of_ne (hfirst ▸ hx)]
      exact ⟨hne, hfirst⟩
    · exact Or.inr ⟨o, .backupDown, by simp [VipInput.raise, nodeDownEvent, hm], Or.inl rfl⟩
  | newStateMessage o nm y =>
    obtain ⟨ho, hy, hp⟩ := hi
    -- the target heads a list that is not empty, with a higher priority
    obtain ⟨n, l, hl⟩ : ∃ n l, v.nodeList = n :: l := by
      cases hl : v.nodeList with
      | nil =>
        rw [hl] at hfirst
        exact absurd hfirst hne
      | cons n l => exact ⟨n, l, rfl⟩
    have hhead : v.rollbackNodeId = n.nodeid := by rw [hfirst, hl, nodeFirst]
    have hhigh : v.config.priority < n.priority := by
      rw [(ha.named n (by simp [hl])).2, ← hhead]
      exact habove.resolve_left hne
    by_cases hreq : v.config.priority < nm.priority
    · -- a request for a rollback, which the state machine looks after
      right
      refine ⟨o, .rbackReq, ?_, Or.inr rfl⟩
      have hlist : nodeAdd o.malloc v.nodeList y nm.priority ≠ [] := by
        rw [ho]
        exact nodeAdd_ne_nil _ _ _
      have hdup : ¬ nm.priority = v.config.priority := ne_of_gt hreq
      simp [VipInput.raise, stateMessageEvent, hs, hdup, hlist, hauto, hreq]
    · left
      intro _
      show (learn o v nm y).rollbackNodeId ≠ 0 ∧
        (learn o v nm y).rollbackNodeId = nodeFirst (learn o v nm y).nodeList
      rw [learn_eq, ho, hl]
      refine ⟨hne, ?_⟩
      rw [nodeFirst_nodeAdd_of_lt (lt_of_le_of_lt (not_lt.mp hreq) hhigh), ← hl]
      exact hfirst
  | nodeUp | cmdStart | cmdStop | localGet | memberList => exact Or.inl fun _ => ⟨hne, hfirst⟩

/-- A request for a rollback is raised only if some node on the list has a higher priority. -/
theorem exists_above {i : VipInput} {o : Outcome} (ha : Aimed prio v) (hi : ConstantPriority prio i)
    (he : (i.raise v).2 = some (o, .rbackReq)) :
    v.config.autorollback = true ∧
      ∃ n ∈ (i.raise v).1.nodeList, v.config.priority < n.priority := by
  cases i with
  | newStateMessage o' nm y =>
    obtain ⟨ho, hy, hp⟩ := hi
    obtain ⟨e, he, heq⟩ := Option.map_eq_some_iff.mp he
    cases heq
    have hr := messageRaises_stateMessageEvent (learn o v nm y) nm y
    rw [he] at hr
    cases hr with
    | request _ _ hauto hlt =>
      rw [learn_config] at hauto hlt
      -- whoever asked is on the list now
      obtain ⟨n, hn, hny⟩ : ∃ n ∈ (learn o v nm y).nodeList, n.nodeid = y := by
        rw [learn_nodeList, ho]
        exact mem_ids.mp (mem_ids_nodeAdd.mpr (Or.inl rfl))
      refine ⟨hauto, n, hn, ?_⟩
      rw [((ha.learn ho hy hp).named n hn).2, hny, ← hp]
      exact hlt
  | nodeDown o' x =>
    have hev : nodeDownEvent v x = .rbackReq := congrArg Prod.snd (Option.some.inj he)
    rcases nodeDownEvent_cases v x with h | h <;> rw [h] at hev <;> cases hev
  | nodeUp | cmdStart | cmdStop | localGet | memberList => cases he

end Writes

/-! ## One transaction -/

section Transaction

variable {prio : NodeId → ℤ} {o : Outcome} {v : Vip} {e : Event}

theorem aimed_goDown (prio : NodeId → ℤ) (v : Vip) : Aimed prio (goDown v).vip :=
  ⟨WellOrdered.nil, fun _ hn => (List.not_mem_nil hn).elim, fun hs => by cases hs⟩

/-- A transaction keeps the list and the priorities. -/
theorem Aimed.fsmDoTransaction (h : Aimed prio v)
    (hreq : e = .rbackReq → v.config.autorollback = true ∧
      ∃ n ∈ v.nodeList, v.config.priority < n.priority) :
    Aimed prio (fsmDoTransaction o v e).vip := by
  have hto := fsmTo_fsmDoTransaction o v e
  generalize CpgFailover.fsmDoTransaction o v e = r at hto ⊢
  cases hto with
  | down | resign => exact aimed_goDown prio v
  | claim =>
    rw [becomeMaster_vip]
    split_ifs
    exacts [⟨h.ordered, h.named, fun hs => by cases hs⟩, aimed_goDown prio v]
  | stay | cleanUp | nodeup | backupup => exact h
  | observe | resume => exact ⟨h.ordered, h.named, fun hs => by cases hs⟩
  | @request n l _ hl hn =>
    obtain ⟨hauto, m, hm, hlt⟩ := hreq rfl
    -- the head of the list is at least as high as whoever asked
    have hhigh : v.config.priority < prio n.nodeid := by
      rw [← (h.named n (by simp [hl])).2]
      refine lt_of_lt_of_le hlt ?_
      exact WellOrdered.priority_le (hl ▸ h.ordered) (hl ▸ hm)
    rw [rollback_cons hl hn]
    cases o.threadCreate <;> exact ⟨h.ordered, h.named, fun _ => ⟨hauto, Or.inr hhigh⟩⟩
  | goUp =>
    rw [goUp]
    cases o.threadCreate <;> exact ⟨h.ordered, h.named, fun hs => by cases hs⟩

/-- **A transaction aims at the head of the list** if the writes have left the target there, or if
`rback_stop` looks after it. -/
theorem OnTarget.fsmDoTransaction (ha : Aimed prio v)
    (h : OnTarget v ∨ e = .backupDown ∨ e = .rbackReq) : OnTarget (fsmDoTransaction o v e).vip := by
  by_cases hlook : v.state = .rback ∧ (e = .backupDown ∨ e = .rbackReq)
  · -- the two rows of `rback_stop`
    obtain ⟨hs, he⟩ := hlook
    have hr : CpgFailover.fsmDoTransaction o v e = rbackStop v := by
      rcases he with rfl | rfl <;> simp [CpgFailover.fsmDoTransaction, table, hs]
    rw [hr, rbackStop]
    split_ifs with hc
    · exact fun hm => by cases hm
    · obtain ⟨hz, hf⟩ := not_or.mp hc
      exact fun _ => ⟨hz, not_not.mp hf⟩
  replace h : OnTarget v := by
    rcases h with h | he
    · exact h
    · exact fun hs => absurd ⟨hs, he⟩ hlook
  have hto := fsmTo_fsmDoTransaction o v e
  generalize CpgFailover.fsmDoTransaction o v e = r at hto ⊢
  cases hto with
  | down | resign | observe | resume => exact fun hs => by cases hs
  | claim =>
    rw [becomeMaster_vip]
    split_ifs <;> exact fun hs => by cases hs
  | stay | cleanUp | nodeup | backupup => exact h
  | @request n l _ hl hn =>
    -- the new target is the head, which is a node
    have hz : n.nodeid ≠ 0 := (ha.named n (by simp [hl])).1
    have hf : n.nodeid = nodeFirst v.nodeList := by rw [hl, nodeFirst]
    rw [rollback_cons hl hn]
    cases o.threadCreate <;> exact fun _ => ⟨hz, hf⟩
  | goUp =>
    rw [goUp]
    cases o.threadCreate <;> exact fun hs => by cases hs

end Transaction

/-! ## Sequences of inputs -/

section Runs

variable {prio : NodeId → ℤ} {v w : Vip} {i : VipInput}

/-- One input keeps both invariants. -/
theorem onTarget_step (ha : Aimed prio v) (ht : OnTarget v) (hi : ConstantPriority prio i)
    (hk : TargetHeard v i) (hs : v.step i = some w) : Aimed prio w ∧ OnTarget w := by
  obtain rfl := Option.some.inj hs
  have haw := ha.raise hi
  have htw := ht.raise ha hi hk
  cases he : (i.raise v).2 with
  | none =>
    obtain ⟨hv, -⟩ := v.input_of_none he
    rw [hv]
    refine ⟨haw, htw.resolve_right ?_⟩
    rintro ⟨o, e, hoe, -⟩
    rw [he] at hoe
    cases hoe
  | some oe =>
    obtain ⟨o, e⟩ := oe
    rw [v.input_of_some he]
    constructor
    · apply haw.fsmDoTransaction
      rintro rfl
      rw [i.raise_config]
      exact exists_above ha hi he
    · apply OnTarget.fsmDoTransaction haw
      apply htw.imp id
      rintro ⟨o', e', hoe, hev⟩
      rw [he] at hoe
      cases hoe
      exact hev

/-- The departure of the target calls the rollback off, unless it is taken for that of the master.
-/
theorem nodeDown_target (o : Outcome) (hs : v.state = .rback) :
    (fsmInputNodeDown o v v.rollbackNodeId).vip.state ≠ .rback ↔ v.masterId ≠ v.rollbackNodeId := by
  by_cases hm : v.masterId = v.rollbackNodeId
  · rw [fsmInputNodeDown_of_eq hm, hs]
    simp [table, error, forget, hs, hm]
  · rw [fsmInputNodeDown_of_ne hm, hs]
    simp [table, rbackStop, forget, hm]

/-- **The target of a rollback.** Every node announces itself with its own priority, and in
`ST_RBACK` no departure of the target is taken for that of the master: then in every reachable state
with `ST_RBACK` the target is a node, on the list and at its head, and a departure of the target
leaves `ST_RBACK` if and only if the target is not the remembered master. -/
theorem rollback_target {c : Config}
    (h : ReachesWhen Vip.step (fun v i => ConstantPriority prio i ∧ TargetHeard v i) (Vip.fresh c) v)
    (hs : v.state = .rback) :
    v.rollbackNodeId ≠ 0 ∧ v.rollbackNodeId ∈ ids v.nodeList ∧
      v.rollbackNodeId = nodeFirst v.nodeList ∧
        ∀ o, (fsmInputNodeDown o v v.rollbackNodeId).vip.state ≠ .rback ↔
          v.masterId ≠ v.rollbackNodeId := by
  obtain ⟨-, ht⟩ : Aimed prio v ∧ OnTarget v := by
    refine h.invariant (I := fun v => Aimed prio v ∧ OnTarget v) ⟨?_, ?_⟩ ?_
    · exact ⟨WellOrdered.nil, fun _ hn => (List.not_mem_nil hn).elim, fun hs => by cases hs⟩
    · exact fun hs => by cases hs
    · exact fun _ _ _ _ hI hok hs => onTarget_step hI.1 hI.2 hok.1 hok.2 hs
  obtain ⟨hz, hf⟩ := ht hs
  refine ⟨hz, ?_, hf, fun o => nodeDown_target o hs⟩
  rw [hf]
  exact nodeFirst_mem_of_ne_zero (hf ▸ hz)

end Runs

/-- The priorities of three nodes. -/
def staggeredPrio (n : NodeId) : ℤ := if n = 1 then 10 else if n = 2 then 20 else 30

/-- Node 1 serves the address and node 2, of higher priority, announces itself in this state. -/
def meets (s : State) : List VipInput :=
  [.cmdStart allSucceed, .localGet 1, .memberList 1, .newStateMessage allSucceed ⟨10, .start, []⟩ 1,
    .memberList 2, .nodeUp allSucceed, .newStateMessage allSucceed ⟨20, s, []⟩ 2]

/-- The record after node 2 has announced itself as it joined. -/
def waitsForStarter : Vip :=
  (runWhen Vip.step (fun v i => ConstantPriority staggeredPrio i ∧ TargetHeard v i)
    (Vip.fresh rollbackConfig)
    (meets .start)).getD (Vip.fresh rollbackConfig)

theorem rollback_target_waitsForStarter : waitsForStarter.rollbackNodeId ≠ 0 ∧
    waitsForStarter.rollbackNodeId ∈ ids waitsForStarter.nodeList ∧
      waitsForStarter.rollbackNodeId = nodeFirst waitsForStarter.nodeList ∧
        ∀ o, (fsmInputNodeDown o waitsForStarter waitsForStarter.rollbackNodeId).vip.state ≠ .rback ↔
          waitsForStarter.masterId ≠ waitsForStarter.rollbackNodeId :=
  rollback_target (reachesWhen_getD (meets .start)) (by decide)

/-- The record after node 2 has announced itself as a master, and has departed. -/
def lostMaster : Vip :=
  (runWhen Vip.step (fun _ i => ConstantPriority staggeredPrio i) (Vip.fresh rollbackConfig)
    (meets .master ++ [.memberList 1, .nodeDown allSucceed 2])).getD (Vip.fresh rollbackConfig)

/-- **A target that has announced itself as a master departs, and the vip stays in `ST_RBACK`**. -/
theorem rollback_target_lost : ¬ ∀ (prio : NodeId → ℤ) (c : Config) (v : Vip),
    ReachesWhen Vip.step (fun _ i => ConstantPriority prio i) (Vip.fresh c) v → v.state = .rback →
      v.rollbackNodeId ≠ 0 ∧ v.rollbackNodeId ∈ ids v.nodeList ∧
        v.rollbackNodeId = nodeFirst v.nodeList := by
  intro h
  have hlost := h staggeredPrio rollbackConfig lostMaster (reachesWhen_getD _) (by decide)
  exact absurd hlost.1 (by decide)

end CpgFailover
