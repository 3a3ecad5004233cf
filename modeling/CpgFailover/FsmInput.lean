import CpgFailover.Fsm

/-!
# The inputs of the state machine

`fsm_input.c`: a departure, an arrival, a state message, and the two commands. A departure and a
state message write the record before the state machine sees its event.

## Main definitions

* `fsmInputNodeDown`, `fsmInputNodeUp`, `fsmInputNewStateMessage`, `fsmInputCmdStart`,
  `fsmInputCmdStop`: the functions of `fsm_input.c`
* `learn`, `forget`: the writes that precede the event
* `stateMessageEvent`, `nodeDownEvent`: the event that is chosen
* `MessageRaises`: the event of a state message, one case an event
-/

namespace CpgFailover

/-- The event of a departure. -/
def nodeDownEvent (v : Vip) (nodeid : NodeId) : Event :=
  if v.masterId = nodeid then .masterDown else .backupDown

/-- The writes of `fsm_input_node_down`. -/
def forget (v : Vip) (nodeid : NodeId) : Vip :=
  { v with
    nodeList := nodeRemove v.nodeList nodeid
    rollbackNodeId := if v.rollbackNodeId = nodeid then 0 else v.rollbackNodeId }

def fsmInputNodeDown (o : Outcome) (v : Vip) (nodeid : NodeId) : Result :=
  fsmDoTransaction o (forget v nodeid) (nodeDownEvent v nodeid)

def fsmInputNodeUp (o : Outcome) (v : Vip) : Result := fsmDoTransaction o v .backupUp

/-- The writes of `fsm_input_new_state_message`. -/
def learn (o : Outcome) (v : Vip) (nm : NodeMsg) (nodeid : NodeId) : Vip :=
  let v := { v with nodeList := nodeAdd o.malloc v.nodeList nodeid nm.priority }
  if nm.state.serves then
    { v with masterId := nodeid, runtimeUuid := snprintf uuidSize nm.runtimeUuid }
  else v

/-- The event of a state message, chosen on the record as written by `learn`; `none` is
`MAX_EVENTS`. -/
def stateMessageEvent (v : Vip) (nm : NodeMsg) (nodeid : NodeId) : Option Event :=
  -- looked for in every state, before the state is
  if nm.priority = v.config.priority ∧ nodeid ≠ v.nodeId then some .duplicate
  else
    match v.state with
    | .start =>
      -- alone in the group: the master is certainly down
      if v.memberListEntries = 1 then some .masterDown
      -- the list is complete
      else if listEntries v.nodeList = v.memberListEntries then some .masterUp
      else none
    | .master | .rback =>
      if v.nodeList ≠ [] ∧ v.config.autorollback ∧ nm.priority > v.config.priority then
        some .rbackReq
      else none
    -- an idle vip and a backup only write the message down
    | _ => none

def fsmInputNewStateMessage (o : Outcome) (v : Vip) (nm : NodeMsg) (nodeid : NodeId) : Result :=
  let v := learn o v nm nodeid
  match stateMessageEvent v nm nodeid with
  | some event => fsmDoTransaction o v event
  -- the status is what it was initialised with; the writes stay
  | none => ⟨.failure, v, []⟩

def fsmInputCmdStart (o : Outcome) (v : Vip) : Result := fsmDoTransaction o v .startup

def fsmInputCmdStop (o : Outcome) (v : Vip) : Result := fsmDoTransaction o v .stop

/-- The event of a state message, one case an event. -/
inductive MessageRaises (v : Vip) (nm : NodeMsg) (nodeid : NodeId) : Option Event → Prop
  | duplicate : nm.priority = v.config.priority → nodeid ≠ v.nodeId →
      MessageRaises v nm nodeid (some .duplicate)
  | alone : ¬ (nm.priority = v.config.priority ∧ nodeid ≠ v.nodeId) → v.state = .start →
      v.memberListEntries = 1 → MessageRaises v nm nodeid (some .masterDown)
  | complete : ¬ (nm.priority = v.config.priority ∧ nodeid ≠ v.nodeId) → v.state = .start →
      v.memberListEntries ≠ 1 → listEntries v.nodeList = v.memberListEntries →
        MessageRaises v nm nodeid (some .masterUp)
  | request : v.state.serves = true → v.nodeList ≠ [] → v.config.autorollback = true →
      v.config.priority < nm.priority → MessageRaises v nm nodeid (some .rbackReq)
  | quiet : ¬ (nm.priority = v.config.priority ∧ nodeid ≠ v.nodeId) →
      (v.state = .start → v.memberListEntries ≠ 1 ∧ listEntries v.nodeList ≠ v.memberListEntries) →
      (v.state.serves = true →
        ¬ (v.nodeList ≠ [] ∧ v.config.autorollback = true ∧ v.config.priority < nm.priority)) →
        MessageRaises v nm nodeid none

/-- **Which event a state message raises.** -/
theorem messageRaises_stateMessageEvent (v : Vip) (nm : NodeMsg) (nodeid : NodeId) :
    MessageRaises v nm nodeid (stateMessageEvent v nm nodeid) := by
  unfold stateMessageEvent
  -- a master and a vip in `ST_RBACK` are asked the same
  have hserve (hd : ¬ (nm.priority = v.config.priority ∧ nodeid ≠ v.nodeId))
      (hs : v.state.serves = true) : MessageRaises v nm nodeid
        (if v.nodeList ≠ [] ∧ v.config.autorollback ∧ nm.priority > v.config.priority then
          some .rbackReq else none) := by
    split_ifs with hc
    · exact .request hs hc.1 hc.2.1 hc.2.2
    · exact .quiet hd (fun h => by simp [h, State.serves] at hs) fun _ => hc
  by_cases hd : nm.priority = v.config.priority ∧ nodeid ≠ v.nodeId
  · rw [if_pos hd]
    exact .duplicate hd.1 hd.2
  · rw [if_neg hd]
    cases hs : v.state with
    | start =>
      dsimp only
      split_ifs with h₁ h₂
      · exact .alone hd hs h₁
      · exact .complete hd hs h₁ h₂
      · exact .quiet hd (fun _ => ⟨h₁, h₂⟩) fun h => by simp [hs, State.serves] at h
    | master | rback => exact hserve hd (by simp [hs, State.serves])
    | idle | backup =>
      exact .quiet hd (fun h => by simp [hs] at h) fun h => by simp [hs, State.serves] at h

theorem nodeDownEvent_cases (v : Vip) (x : NodeId) :
    nodeDownEvent v x = .masterDown ∨ nodeDownEvent v x = .backupDown := by
  rw [nodeDownEvent]
  split_ifs
  exacts [Or.inl rfl, Or.inr rfl]

/-- The remembered master departs. -/
theorem fsmInputNodeDown_of_eq {v : Vip} {x : NodeId} (h : v.masterId = x) (o : Outcome) :
    fsmInputNodeDown o v x = table o .masterDown v.state (forget v x) := by
  rw [fsmInputNodeDown, nodeDownEvent, if_pos h]
  rfl

/-- Another node departs. -/
theorem fsmInputNodeDown_of_ne {v : Vip} {x : NodeId} (h : v.masterId ≠ x) (o : Outcome) :
    fsmInputNodeDown o v x = table o .backupDown v.state (forget v x) := by
  rw [fsmInputNodeDown, nodeDownEvent, if_neg h]
  rfl

/-- An arrival makes the members announce themselves and nothing else. -/
theorem fsmInputNodeUp_vip (o : Outcome) (v : Vip) : (fsmInputNodeUp o v).vip = v := by
  unfold fsmInputNodeUp fsmDoTransaction
  cases v.state <;> rfl

/-! ## What the writes leave alone -/

/-- The writes of a state message, field by field. -/
theorem learn_eq (o : Outcome) (v : Vip) (nm : NodeMsg) (y : NodeId) : learn o v nm y =
    { v with
      nodeList := nodeAdd o.malloc v.nodeList y nm.priority
      masterId := if nm.state.serves then y else v.masterId
      runtimeUuid :=
        if nm.state.serves then snprintf uuidSize nm.runtimeUuid else v.runtimeUuid } := by
  rw [learn]
  split_ifs <;> rfl

@[simp] theorem learn_config (o : Outcome) (v : Vip) (nm : NodeMsg) (y : NodeId) :
    (learn o v nm y).config = v.config := by
  rw [learn_eq]

@[simp] theorem learn_state (o : Outcome) (v : Vip) (nm : NodeMsg) (y : NodeId) :
    (learn o v nm y).state = v.state := by
  rw [learn_eq]

@[simp] theorem learn_nodeId (o : Outcome) (v : Vip) (nm : NodeMsg) (y : NodeId) :
    (learn o v nm y).nodeId = v.nodeId := by
  rw [learn_eq]

@[simp] theorem learn_memberListEntries (o : Outcome) (v : Vip) (nm : NodeMsg) (y : NodeId) :
    (learn o v nm y).memberListEntries = v.memberListEntries := by
  rw [learn_eq]

@[simp] theorem learn_nodeList (o : Outcome) (v : Vip) (nm : NodeMsg) (y : NodeId) :
    (learn o v nm y).nodeList = nodeAdd o.malloc v.nodeList y nm.priority := by
  rw [learn_eq]

@[simp] theorem learn_masterId (o : Outcome) (v : Vip) (nm : NodeMsg) (y : NodeId) :
    (learn o v nm y).masterId = if nm.state.serves then y else v.masterId := by
  rw [learn_eq]

/-- A state message is written down, and then at most one transaction happens. -/
theorem fsmInputNewStateMessage_moved (o : Outcome) (v : Vip) (nm : NodeMsg) (y : NodeId) :
    (learn o v nm y).Moved (fsmInputNewStateMessage o v nm y).vip := by
  rw [fsmInputNewStateMessage]
  cases stateMessageEvent (learn o v nm y) nm y with
  | some event => exact fsmDoTransaction_moved o _ event
  | none => exact Or.inr ⟨_, _, _, _, rfl⟩

/-- A master takes a departure without further ado. -/
theorem fsmInputNodeDown_master {v : Vip} (h : v.state = .master) (o : Outcome) (x : NodeId) :
    (fsmInputNodeDown o v x).vip = forget v x := by
  by_cases hm : v.masterId = x
  · rw [fsmInputNodeDown_of_eq hm, h]
    rfl
  · rw [fsmInputNodeDown_of_ne hm, h]
    rfl

end CpgFailover
