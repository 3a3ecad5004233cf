import CpgFailover.Lib.AgreedRuns
import CpgFailover.Process

/-!
# The nodes of one virtual ip

The processes that serve one virtual ip, as a group under agreed delivery. Each node runs one
process; a process joins the group when its `vip_thread` has called `cpg_join` and leaves it when
the thread calls `cpg_leave`. What a callback multicasts with `virtual_ip_send_state` goes to the
group, and so does a statement that `event_handler` sends.

## Main definitions

* `Deployment`: the nodes and their configurations
* `Command`, `nodeAct`, `nodeDeliver`: the local steps of a node, and its handling of an entry
* `cluster`: the group behaviour of a deployment
* `Cluster`: the states of the group
* `launch`, `deliveries`: scripts of steps
-/

namespace CpgFailover

open Agreed

/-- The nodes of a virtual ip and the configuration each has read. -/
structure Deployment where
  nodes : List NodeId
  config : NodeId → Config
  zero_notMem : 0 ∉ nodes

/-- The priority a node is configured with. -/
def Deployment.prio (d : Deployment) (n : NodeId) : ℤ := (d.config n).priority

/-- The local steps of a node: a step of its process, or a statement from sofia. -/
inductive Command
  | input (i : Input)
  | event (profileName sql : CString)
deriving DecidableEq

/-- The process steps of a node of the group: only the nodes of the deployment run the vip,
`cpg_local_get` gives the node's own id, the dispatch of a member does not fail, and entries are
delivered by the group. -/
def Permitted (d : Deployment) (n : NodeId) : Input → Prop
  | .start _ | .rollbackStart _ _ => n ∈ d.nodes
  | .localGet _ _ nodeid => nodeid = n
  | .deliver _ _ _ | .dispatchFails _ => False
  | _ => True

instance (d : Deployment) (n : NodeId) (i : Input) : Decidable (Permitted d n i) := by
  cases i <;> unfold Permitted <;> infer_instance

/-- What a step of the process asks of the group. -/
def inputSignal : Input → Signal Msg
  | .join _ results => if csRetry csMaxRetries results = .ok then .connect else .quiet
  | .leave _ => .disconnect
  | _ => .quiet

/-- `event_handler` on a node with this vip alone: the statement is multicast if its profile is
one of the vip's. -/
def eventHandler (p : Proc) (profileName sql : CString) : Option Msg :=
  if profileName ∈ p.vip.config.usedProfiles.map SofiaProfile.name then
    some (.sql profileName sql)
  else none

/-- A local step of a node. -/
def nodeAct (d : Deployment) (n : NodeId) (p : Proc) : Command → Option (Proc × Signal Msg)
  | .input i =>
    if Permitted d n i then (p.step i).map fun p' => (p', inputSignal i) else none
  | .event profileName sql => (eventHandler p profileName sql).map fun m => (p, .send m)

/-- A node handles an entry in the dispatch loop of its `vip_thread`; `o` says which of the calls on
the way succeed. -/
def nodeDeliver (_ : NodeId) (p : Proc) (e : Entry NodeId Msg) (o : Outcome) :
    Option (Proc × List Effect) :=
  if ∃ th ∈ p.vipThreads, th.phase = .dispatching then
    some (p.handleEntry o e)
  else none

/-- The node states among the calls of a callback. -/
def multicasts (calls : List Effect) : List Msg :=
  calls.filterMap fun
    | .sendState nm => some (.nodeState nm)
    | _ => none

/-- The group behaviour of a deployment. -/
def cluster (d : Deployment) :
    Behaviour NodeId Msg Proc (List Effect) Command Outcome where
  boot n := Proc.fresh (d.config n)
  act := nodeAct d
  deliver := nodeDeliver
  mcast := multicasts

/-- The states of the group. -/
abbrev Cluster := Group NodeId Msg Proc (List Effect)

/-- The steps of the group. -/
abbrev ClusterStep := Action NodeId Command Outcome

namespace Cluster

/-- The process of a node. -/
def proc (g : Cluster) (n : NodeId) : Proc := (g.site n).st

/-- The record of a node. -/
def vip (g : Cluster) (n : NodeId) : Vip := (g.proc n).vip

/-- A live member: its process runs and has its place in the group. -/
def Member (g : Cluster) (n : NodeId) : Prop :=
  (g.site n).up = true ∧ (g.site n).conn.isMember = true

/-- A live member that serves the address. -/
def Serves (g : Cluster) (n : NodeId) : Prop := g.Member n ∧ (g.vip n).state.serves = true

instance (g : Cluster) (n : NodeId) : Decidable (g.Member n) := by unfold Member; infer_instance

instance (g : Cluster) (n : NodeId) : Decidable (g.Serves n) := by unfold Serves; infer_instance

end Cluster

/-- The group of a deployment before anybody has joined. -/
def Deployment.start (d : Deployment) : Cluster := Group.init (cluster d)

/-- The steps of the group of a deployment. -/
abbrev Deployment.step (d : Deployment) : Cluster → ClusterStep → Option Cluster :=
  Group.step (cluster d)

/-! ## Scripts -/

/-- A configuration in which the profiles are the given ones. -/
def plainConfig (priority : ℤ) (profiles : List.Vector SofiaProfile maxSofiaProfiles) : Config where
  address := [49, 48, 46, 48, 46, 48, 46, 49]
  device := [101, 116, 104, 48]
  mac := [48, 50]
  priority := priority
  autorollback := false
  rollbackDelay := 1
  profiles := profiles

/-- No profile in any slot. -/
def noProfiles : List.Vector SofiaProfile maxSofiaProfiles :=
  ⟨List.replicate maxSofiaProfiles ⟨[], false⟩, List.length_replicate⟩

/-- All calls of a callback succeed. -/
def allSucceed : Outcome := ⟨true, true, true, none, []⟩

/-- A node starts with the thread `t` and connects to the group. -/
def launch (n : NodeId) (t : ThreadId) : List ClusterStep :=
  [.act n (.input (.start true)), .act n (.input (.cpgInitialize t [.ok])),
    .act n (.input (.contextSet t .ok)), .act n (.input (.localGet t .ok n)),
    .act n (.input (.join t [.ok]))]

/-- A node handles its next `k` entries. -/
def deliveries (n : NodeId) (k : ℕ) : List ClusterStep := List.replicate k (.deliver n allSucceed)

/-- The first member comes up: it joins, hears itself twice and serves the address. -/
def firstUp (n : NodeId) : List ClusterStep :=
  launch n 0 ++ [.confchg [] [n]] ++ deliveries n 1 ++ [.order n] ++ deliveries n 1 ++
    [.order n] ++ deliveries n 1

/-- A second member joins the first, and both hear both. -/
def secondUp (n m : NodeId) : List ClusterStep :=
  launch m 0 ++ [.confchg [] [m]] ++ deliveries n 1 ++ deliveries m 1 ++ [.order n, .order m] ++
    deliveries n 2 ++ deliveries m 2

/-- Three nodes of falling priority, without profiles. -/
def staggered : Deployment where
  nodes := [1, 2, 3]
  config n := plainConfig (if n = 1 then 30 else if n = 2 then 20 else 10) noProfiles
  zero_notMem := by decide

/-- The profile in the first slot has its calls recovered. -/
def oneProfile : List.Vector SofiaProfile maxSofiaProfiles :=
  ⟨⟨[101, 120, 116], true⟩ :: List.replicate (maxSofiaProfiles - 1) ⟨[], false⟩, by decide⟩

/-- The profiles `ext` and `int`, of which the first has its calls recovered. -/
def twoProfiles : List.Vector SofiaProfile maxSofiaProfiles :=
  ⟨⟨[101, 120, 116], true⟩ :: ⟨[105, 110, 116], false⟩ ::
    List.replicate (maxSofiaProfiles - 2) ⟨[], false⟩, by decide⟩

/-- Three nodes with a profile; the third has a priority between the others. -/
def serving : Deployment where
  nodes := [1, 2, 3]
  config n := plainConfig (if n = 1 then 30 else if n = 2 then 20 else 25) oneProfile
  zero_notMem := by decide

/-- The third node joins, and everybody hears everybody. -/
def thirdUp : List ClusterStep :=
  launch 3 0 ++ [.confchg [] [3]] ++ deliveries 1 1 ++ deliveries 2 1 ++ deliveries 3 1 ++
    [.order 1, .order 2, .order 3] ++ deliveries 1 3 ++ deliveries 2 3 ++ deliveries 3 3

end CpgFailover
