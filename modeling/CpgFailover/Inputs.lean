import CpgFailover.Callback
import CpgFailover.Lib.Transition

/-!
# Sequences of inputs

One vip on its host, under any sequence of inputs: the functions of `fsm_input.c`, each with
outcomes of its own for the calls it makes, and the two writes that others make to the record, the
node id by `vip_thread` and the number of members by `ConfchgCallback`. An input writes the record
and then raises at most one event, so what every write and every transaction keeps, every sequence
keeps.

## Main definitions

* `VipInput`, `Vip.input`, `Vip.step`: the inputs, and what they do to the record
* `VipInput.raise`: the record an input leaves to the state machine, and the event
* `Host`, `Host.step`: the record with the address on the interface, and its steps
* `entryInputs`: the inputs of a callback

## Main results

* `Vip.input_of_some`, `Vip.input_of_none`: an input is its writes and the transaction of its event
* `handle_eq_inputs`: a callback is a sequence of inputs
-/

namespace CpgFailover

open Agreed (Entry)

/-! ## Inputs -/

/-- The inputs of a vip, with the outcomes of the calls that an input of `fsm_input.c` makes. -/
inductive VipInput
  | nodeDown (o : Outcome) (nodeid : NodeId)
  | nodeUp (o : Outcome)
  | newStateMessage (o : Outcome) (nm : NodeMsg) (nodeid : NodeId)
  | cmdStart (o : Outcome)
  | cmdStop (o : Outcome)
  | localGet (nodeid : NodeId)
  | memberList (entries : ℕ)
deriving DecidableEq

/-- An input. The two writes outside `fsm_input.c` make no call. -/
def Vip.input (v : Vip) : VipInput → Result
  | .nodeDown o nodeid => fsmInputNodeDown o v nodeid
  | .nodeUp o => fsmInputNodeUp o v
  | .newStateMessage o nm nodeid => fsmInputNewStateMessage o v nm nodeid
  | .cmdStart o => fsmInputCmdStart o v
  | .cmdStop o => fsmInputCmdStop o v
  | .localGet nodeid => ⟨.success, { v with nodeId := nodeid }, []⟩
  | .memberList entries => ⟨.success, { v with memberListEntries := entries }, []⟩

/-- The record an input leaves to the state machine, and the event it raises with its outcomes. -/
def VipInput.raise (v : Vip) : VipInput → Vip × Option (Outcome × Event)
  | .nodeDown o nodeid => (forget v nodeid, some (o, nodeDownEvent v nodeid))
  | .nodeUp o => (v, some (o, .backupUp))
  | .newStateMessage o nm nodeid =>
    (learn o v nm nodeid, (stateMessageEvent (learn o v nm nodeid) nm nodeid).map (o, ·))
  | .cmdStart o => (v, some (o, .startup))
  | .cmdStop o => (v, some (o, .stop))
  | .localGet nodeid => ({ v with nodeId := nodeid }, none)
  | .memberList entries => ({ v with memberListEntries := entries }, none)

/-- **An input that raises an event** is the transaction of it, on the record as written. -/
theorem Vip.input_of_some {v : Vip} {i : VipInput} {o : Outcome} {e : Event}
    (h : (i.raise v).2 = some (o, e)) : v.input i = fsmDoTransaction o (i.raise v).1 e := by
  cases i with
  | newStateMessage o' nm y =>
    obtain ⟨e', he, heq⟩ := Option.map_eq_some_iff.mp h
    cases heq
    simp only [Vip.input, fsmInputNewStateMessage, he]
    rfl
  | localGet | memberList => cases h
  | nodeDown | nodeUp | cmdStart | cmdStop =>
    cases h
    rfl

/-- **An input without an event** is a write. -/
theorem Vip.input_of_none {v : Vip} {i : VipInput} (h : (i.raise v).2 = none) :
    (v.input i).vip = (i.raise v).1 ∧ (v.input i).effects = [] := by
  cases i with
  | newStateMessage o nm y =>
    have he : stateMessageEvent (learn o v nm y) nm y = none := Option.map_eq_none_iff.mp h
    rw [Vip.input, fsmInputNewStateMessage, he]
    exact ⟨rfl, rfl⟩
  | localGet | memberList => exact ⟨rfl, rfl⟩
  | nodeDown | nodeUp | cmdStart | cmdStop => cases h

/-- The writes of an input leave the state alone. -/
@[simp] theorem VipInput.raise_state (v : Vip) (i : VipInput) : (i.raise v).1.state = v.state := by
  cases i with
  | newStateMessage o nm y => exact learn_state o v nm y
  | nodeDown | nodeUp | cmdStart | cmdStop | localGet | memberList => rfl

/-- The writes of an input leave the configuration alone. -/
@[simp] theorem VipInput.raise_config (v : Vip) (i : VipInput) :
    (i.raise v).1.config = v.config := by
  cases i with
  | newStateMessage o nm y => exact learn_config o v nm y
  | nodeDown | nodeUp | cmdStart | cmdStop | localGet | memberList => rfl

/-- One input, as a step of the record alone. -/
def Vip.step (v : Vip) (i : VipInput) : Option Vip := some (v.input i).vip

/-! ## The address on the interface -/

/-- Whether the address is on the interface after a call; an `utils_add_vip` that fails adds
nothing. -/
def Effect.bound (address : Bool) : Effect → Bool
  | .addVip _ _ true => true
  | .removeVip _ _ => false
  | _ => address

/-- A vip and whether its address is on the interface of this node. -/
structure Host where
  vip : Vip
  address : Bool
deriving DecidableEq

namespace Host

/-- The host after an action left the record `v` and made these calls. -/
def after (h : Host) (v : Vip) (calls : List Effect) : Host :=
  ⟨v, calls.foldl Effect.bound h.address⟩

/-- One input. -/
def step (h : Host) (i : VipInput) : Option Host :=
  some (h.after (h.vip.input i).vip (h.vip.input i).effects)

end Host

/-! ## The inputs of a callback -/

/-- The inputs of a callback. -/
def entryInputs (o : Outcome) : Entry NodeId Msg → List VipInput
  | .confchg memberList leftList joinedList =>
    .memberList memberList.length :: (leftList.map (.nodeDown o) ++
      if joinedList ≠ [] then [.nodeUp o] else [])
  | .message nodeid (.nodeState nm) => [.newStateMessage o nm nodeid]
  -- a statement is not an input of the state machine
  | .message _ (.sql _ _) => []

/-- The record after some inputs, and the calls they made. -/
def Vip.inputs (v : Vip) : List VipInput → Vip × List Effect
  | [] => (v, [])
  | i :: is =>
    let rs := (v.input i).vip.inputs is
    (rs.1, (v.input i).effects ++ rs.2)

theorem Vip.inputs_append (v : Vip) (is js : List VipInput) :
    v.inputs (is ++ js) =
      (((v.inputs is).1.inputs js).1, (v.inputs is).2 ++ ((v.inputs is).1.inputs js).2) := by
  induction is generalizing v with
  | nil => rfl
  | cons i is ih =>
    simp only [List.cons_append, Vip.inputs]
    rw [ih]
    simp only [List.append_assoc]

theorem nodesDown_eq_inputs (o : Outcome) (v : Vip) (left : List NodeId) :
    nodesDown o v left = v.inputs (left.map (.nodeDown o)) := by
  induction left generalizing v with
  | nil => rfl
  | cons x left ih =>
    simp only [nodesDown, List.map_cons, Vip.inputs, Vip.input]
    rw [ih]

/-- **A callback is a sequence of inputs**, with the calls they make; only a statement makes a call
of its own. -/
theorem handle_eq_inputs (o : Outcome) (v : Vip) {e : Entry NodeId Msg}
    (he : isStatement e = false) :
    handle o v e = v.inputs (entryInputs o e) := by
  cases e with
  | confchg members left joined =>
    simp only [handle, confchgCallback, entryInputs, Vip.inputs, Vip.input, Vip.inputs_append]
    rw [nodesDown_eq_inputs]
    -- an arrival is one more input
    split_ifs
    · simp [Vip.inputs, Vip.input]
    · simp [Vip.inputs]
  | message y m =>
    cases m with
    | sql => cases he
    | nodeState nm => simp [handle, deliverCallback, entryInputs, Vip.inputs, Vip.input]

/-- A callback takes the record where its inputs do. -/
theorem handle_vip_eq_inputs (o : Outcome) (v : Vip) (e : Entry NodeId Msg) :
    (handle o v e).1 = (v.inputs (entryInputs o e)).1 := by
  cases e with
  | confchg members left joined => rw [handle_eq_inputs o v rfl]
  | message y m =>
    cases m with
    | sql => rfl
    | nodeState nm => rw [handle_eq_inputs o v rfl]

end CpgFailover
