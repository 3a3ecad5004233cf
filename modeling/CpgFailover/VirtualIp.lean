import CpgFailover.Node
import Mathlib.Data.Vector.Basic

/-!
# The virtual ip record

The types of `virtual_ip_types.h`, the messages members exchange, and what an action of the state
machine asks of the outside: an action is a function of the record and of the outcomes of the
external calls it makes, and returns the calls in the order they are made.

## Main definitions

* `State`, `Event`, `Config`, `Vip`, `NodeMsg`: the types of `virtual_ip_types.h`
* `Outcome`: what the external calls of one input return
* `Effect`, `Result`: the calls an action makes, and what it leaves behind
* `Vip.fresh`: the record `do_config` allocates
-/

namespace CpgFailover

/-- A C string: its bytes before the terminator. -/
abbrev CString := List UInt8

instance : LawfulBEq CString := inferInstance

/-- `switch_snprintf(buf, size, "%s", s)`. -/
def snprintf (size : ℕ) (s : CString) : CString := s.take (size - 1)

/-- The handle of a thread. -/
abbrev ThreadId := ℕ

/-- `switch_status_t`, as far as the module tells its values apart. -/
inductive Status
  | success
  | failure
deriving DecidableEq, Repr

/-- `event_t`; `MAX_EVENTS` is the absence of an event. -/
inductive Event
  | startup
  | duplicate
  | masterDown
  | masterUp
  | backupDown
  | backupUp
  | rbackReq
  | stop
deriving DecidableEq, Repr

/-- `state_t`. -/
inductive State
  | idle
  | start
  | backup
  | master
  | rback
deriving DecidableEq, Repr

/-- The two states in which a node serves the address. -/
def State.serves : State → Bool
  | .master | .rback => true
  | _ => false

def maxSofiaProfiles : ℕ := 8

/-- `sofia_profile_t`. -/
structure SofiaProfile where
  name : CString
  autorecover : Bool
deriving DecidableEq, Repr

/-- The configuration part of `virtual_ip_t`. -/
structure Config where
  address : CString
  device : CString
  mac : CString
  priority : ℤ
  autorollback : Bool
  rollbackDelay : ℤ
  profiles : List.Vector SofiaProfile maxSofiaProfiles
deriving DecidableEq

/-- The profiles a loop visits that stops at the first empty name. -/
def Config.usedProfiles (c : Config) : List SofiaProfile :=
  c.profiles.toList.takeWhile fun p => p.name ≠ []

/-- `virtual_ip_t`. -/
structure Vip where
  config : Config
  state : State
  virtualIpThread : Option ThreadId
  nodeId : NodeId
  masterId : NodeId
  runtimeUuid : CString
  rollbackNodeId : NodeId
  rollbackThread : Option ThreadId
  nodeList : List Node
  memberListEntries : ℕ
deriving DecidableEq

/-- The record as `switch_core_alloc` zeroes it, with its configuration filled in. -/
def Vip.fresh (c : Config) : Vip where
  config := c
  state := .idle
  virtualIpThread := none
  nodeId := 0
  masterId := 0
  runtimeUuid := []
  rollbackNodeId := 0
  rollbackThread := none
  nodeList := []
  memberListEntries := 0

/-- `sizeof(vip->runtime_uuid)`. -/
def uuidSize : ℕ := 40

/-- `node_msg_t`. -/
structure NodeMsg where
  priority : ℤ
  state : State
  runtimeUuid : CString
deriving DecidableEq

/-- What the members multicast: a statement for a profile, or a node state. -/
inductive Msg
  | sql (profileName sql : CString)
  | nodeState (nm : NodeMsg)
deriving DecidableEq

/-- The outcomes of the external calls that one input of the state machine may make. -/
structure Outcome where
  malloc : Bool
  addVip : Bool
  sendGarp : Bool
  threadCreate : Option ThreadId
  coreUuid : CString
deriving DecidableEq

/-- The external calls of the actions, with the outcome where the action reads it. -/
inductive Effect
  | addVip (address device : CString) (ok : Bool)
  | sendGarp (mac address device : CString) (ok : Bool)
  | removeVip (address device : CString)
  | recover (profileName : CString)
  | cleanUpTable (runtimeUuid profileName : CString)
  | hupall (profileName : CString)
  | requestAll (profileName : CString)
  | trackEvent (sql profileName : CString)
  | sendState (nm : NodeMsg)
  | createVipThread (t : ThreadId)
  | createRollbackThread (t : ThreadId)
  | joinVipThread (t : ThreadId)
  | joinRollbackThread (t : ThreadId)
deriving DecidableEq

/-- What an action returns: its status, the record, and the calls it made in order. -/
structure Result where
  status : Status
  vip : Vip
  effects : List Effect
deriving DecidableEq

end CpgFailover
