import CpgFailover.GivingWay
import CpgFailover.Lib.Introductions
import CpgFailover.QuiescentLeader

/-!
# Split brain

The nodes of one virtual ip on a network that partitions and merges. Two masters meet when their
parts merge: both announce themselves, and nothing in the state machine resolves a second master but
the rollback of the one with the lower priority. So the split brain lasts if that one has no
autorollback, and it also lasts if its rollback is called off because a third node heads its list, or
if it loses its list for want of memory. Otherwise one master is left in the end.

## Main definitions

* `PartitionedCluster`, `Deployment.apart`, `Deployment.move`: the nodes on the network
* `PartitionedCluster.Quiescent`: a component in which everything is delivered and no rollback is
  left
* `Resolute`: clean starts, memory for every list, a thread for each rollback, and no rollback called
  off while a node of a higher priority is known
* `Deployment.Heals`: a quiescent component has at most one member that serves the address

## Main results

* `yielding_rule`, `introducing_cluster`: the nodes give way, and introduce themselves
* `split_brain_heals`: of two members that serve the address, the one of the lower priority has no
  autorollback
* `split_brain_stays`: two members may serve the address for good
-/

namespace CpgFailover

open Agreed Transition

/-- The nodes on the network. -/
abbrev PartitionedCluster := Network NodeId Msg Proc

/-- The steps of the network. -/
abbrev PartitionStep := NetAction NodeId Command Outcome

/-- The nodes of a deployment before anybody has joined. -/
def Deployment.apart (d : Deployment) : PartitionedCluster := Network.init (cluster d)

/-- The steps of the nodes of a deployment. -/
abbrev Deployment.move (d : Deployment) :
    PartitionedCluster → PartitionStep → Option PartitionedCluster :=
  Network.step (cluster d)

namespace PartitionedCluster

/-- The record of a node. -/
def vip (w : PartitionedCluster) (n : NodeId) : Vip := (w.port n).st.vip

/-- A live member of a ring that serves the address. -/
def Serves (w : PartitionedCluster) (n : NodeId) : Prop :=
  (w.port n).up = true ∧ (w.port n).link.isMember = true ∧ (w.vip n).state.serves = true

/-- Only statements wait to be handled or ordered, and the rollbacks of the node are over, their
stops and starts included. -/
def Settled (w : PartitionedCluster) (n : NodeId) : Prop :=
  (∀ e ∈ (w.port n).queue, isStatement e = true) ∧
    (∀ m ∈ (w.port n).outbox, m.isStatement = true) ∧
      (w.port n).st.rollbackThreads = [] ∧ (w.port n).st.downs = []

instance (w : PartitionedCluster) (n : NodeId) : Decidable (w.Serves n) := by
  unfold Serves
  infer_instance

instance (w : PartitionedCluster) (n : NodeId) : Decidable (w.Settled n) := by
  unfold Settled
  infer_instance

/-- The members are in one ring, and all of them have settled. -/
def Quiescent (w : PartitionedCluster) (members : List NodeId) : Prop :=
  ∀ n ∈ members, w.Settled n ∧ ∀ m ∈ members, w.Together n m

instance (w : PartitionedCluster) (members : List NodeId) : Decidable (w.Quiescent members) := by
  unfold Quiescent
  infer_instance

end PartitionedCluster

/-! ## Conditions on the steps -/

/-- Every start is clean. -/
def StartsClean (w : PartitionedCluster) : PartitionStep → Prop
  | .act n c => CleanStart n (w.port n).st c
  | _ => True

/-- A condition on every handling of an entry. -/
def OnEntry (W : Proc → Entry NodeId Msg → Outcome → Prop) (w : PartitionedCluster) :
    PartitionStep → Prop
  | .deliver n o => ∀ e ∈ (w.port n).queue.head?, W (w.port n).st e o
  | _ => True

instance (w : PartitionedCluster) (l : PartitionStep) : Decidable (StartsClean w l) := by
  unfold StartsClean
  split <;> infer_instance

instance {W : Proc → Entry NodeId Msg → Outcome → Prop} [∀ p e o, Decidable (W p e o)]
    (w : PartitionedCluster) (l : PartitionStep) : Decidable (OnEntry W w l) := by
  unfold OnEntry
  split <;> infer_instance

/-- Clean starts, memory for every list, a thread for each rollback, and no rollback called off while
a node of a higher priority is known. -/
structure Resolute (w : PartitionedCluster) (l : PartitionStep) : Prop where
  clean : StartsClean w l
  memory : OnEntry GetsMemory w l
  thread : OnEntry GetsThread w l
  firm : OnEntry StandsFirm w l

instance (w : PartitionedCluster) (l : PartitionStep) : Decidable (Resolute w l) :=
  decidable_of_iff (StartsClean w l ∧ OnEntry GetsMemory w l ∧ OnEntry GetsThread w l ∧
      OnEntry StandsFirm w l)
    ⟨fun h => ⟨h.1, h.2.1, h.2.2.1, h.2.2.2⟩, fun h => ⟨h.clean, h.memory, h.thread, h.firm⟩⟩

/-! ## The nodes on the network -/

/-- The message tells the priority of its sender. -/
def Truthful (d : Deployment) (y : NodeId) (m : Msg) : Prop :=
  ∀ nm, m = .nodeState nm → nm.priority = d.prio y

section Rules

variable {d : Deployment} {n : NodeId} {k : Kind} {p p' : Proc}

/-- A local step sends statements only. -/
theorem truthful_of_send {c : Command} {m : Msg} (ha : nodeAct d n p c = some (p', .send m)) :
    Truthful d n m := by
  cases c with
  | input i =>
    obtain ⟨-, -, he⟩ := nodeAct_input ha
    cases i <;> simp [inputSignal] at he
    split_ifs at he
  | event name sql =>
    obtain ⟨m', hm, he⟩ := Option.map_eq_some_iff.mp ha
    unfold eventHandler at hm
    split_ifs at hm
    cases hm
    cases he
    intro nm hnm
    cases hnm

/-- The calls of a callback that the group multicasts. -/
theorem mem_multicasts {calls : List Effect} {m : Msg} (hm : m ∈ multicasts calls) :
    ∃ nm, m = .nodeState nm ∧ Effect.sendState nm ∈ calls := by
  obtain ⟨c, hc, he⟩ := List.mem_filterMap.mp hm
  cases c <;> cases he
  exact ⟨_, rfl, hc⟩

/-- **The nodes give way**, and tell their priority. -/
theorem yielding_rule (d : Deployment) :
    Network.RuleFor (cluster d) Resolute (Yielding d) (Truthful d) where
  boot := yielding_boot d
  act := by
    intro w n a k s sig hok hI ha
    refine ⟨hI.act hok.clean ha, ?_⟩
    rintro m rfl
    exact truthful_of_send ha
  deliver := by
    intro w n x k e rest s out hok hI hq hP hd
    have hhead : e ∈ (w.port n).queue.head? := by simp [hq]
    refine ⟨hI.deliver (hok.memory e hhead) (hok.thread e hhead) (hok.firm e hhead)
      (fun y nm he => hP y _ he nm rfl) hd, ?_⟩
    intro m hm nm hnm
    obtain ⟨nm', rfl, hcall⟩ := mem_multicasts hm
    cases hnm
    obtain ⟨-, o', -, -, -, -, -, rfl⟩ := nodeDeliver_eq_some (n := n) hd
    rw [(sendState_handle hcall).1, hI.stage.config]
    rfl
  enter h := ⟨h.stage.enter, h.ranked, h.topped, h.armed⟩

/-- **The nodes introduce themselves**: a running one announces itself to whoever is new, and lists
whoever has announced itself and has not left. -/
theorem introducing_cluster (d : Deployment) :
    Network.Introducing (cluster d) Resolute (Yielding d) (fun p => p.vip.state = .idle)
      (fun p y => y ∈ ids p.vip.nodeList) (fun m => m.isStatement = false) where
  announce := by
    intro n s e x s' out hd hj
    obtain ⟨-, o', -, -, -, hv, -, rfl⟩ := nodeDeliver_eq_some (n := n) hd
    by_cases hrun : s'.vip.state = .idle
    · exact Or.inl hrun
    · cases e with
      | confchg members left joined =>
        rw [hv] at hrun
        obtain ⟨nm, hnm⟩ := sendState_of_joined hj hrun
        exact Or.inr ⟨.nodeState nm, List.mem_filterMap.mpr ⟨_, hnm, rfl⟩, rfl⟩
      | message y m => exact absurd rfl hj
  hear := by
    intro w n x k e rest s' out y hok hI hq hd htells
    obtain ⟨-, o', hm, -, -, hv, -, -⟩ := nodeDeliver_eq_some (n := n) hd
    have hm : o'.malloc = true := hm.trans (hok.memory e (by simp [hq]))
    by_cases hrun : s'.vip.state = .idle
    · exact Or.inl hrun
    · have hpeer := congrArg Peer.ofVip hv
      rw [Peer.ofVip_handle hm] at hpeer
      have hroster : s'.vip.nodeList = (Peer.ofVip (w.port n).st.vip).rosterAfter e := by
        have hrole : (Peer.ofVip s'.vip).role ≠ .idle := by simpa using hrun
        rw [hpeer] at hrole
        rw [← Peer.roster_handle hrole, ← hpeer]
        rfl
      right
      rw [hroster]
      cases e with
      | confchg members left joined => exact (Peer.mem_ids_remaining hI.ranked.ordered).mpr htells
      | message z m =>
        cases m with
        | sql => exact htells.resolve_right fun h => absurd h.2 (by simp [Msg.isStatement])
        | nodeState nm =>
          apply mem_ids_nodeAdd.mpr
          exact htells.elim Or.inr fun h => Or.inl h.1.symm
  still := by
    intro n s e x s' out hd hidle
    obtain ⟨-, o', -, -, -, hv, -, -⟩ := nodeDeliver_eq_some (n := n) hd
    rw [hv]
    exact handle_idle hidle e
  act := by
    intro w n a k s sig hok hI hk ha
    rcases hI.stage.act_peer hk hok.clean ha with hpeer | hidle
    · refine ⟨fun hi => ?_, fun y hy => Or.inr ?_⟩
      · have hrole := congrArg Peer.role hpeer
        rw [Peer.ofVip_role, Peer.ofVip_role, hi] at hrole
        exact Role.ofState_eq_idle.mp hrole
      · have hlist : s.vip.nodeList = (w.port n).st.vip.nodeList := congrArg Peer.roster hpeer
        rwa [hlist]
    · exact ⟨fun _ => hidle, fun _ _ => Or.inl hidle⟩

end Rules

/-! ## The end of a split brain -/

section Healing

variable {d : Deployment} {w : PartitionedCluster} {n m : NodeId}

theorem PartitionedCluster.Settled.atRest (h : w.Settled n) :
    (w.port n).AtRest fun m => m.isStatement = false := by
  refine ⟨fun e he => ?_, fun x hx => ?_⟩
  · have hs := h.1 e he
    cases e with
    | confchg => simp [isStatement] at hs
    | message y x => exact ⟨y, x, rfl, by simpa [isStatement] using hs⟩
  · simpa using h.2.1 x hx

/-- A member that serves the address knows whoever else does. -/
theorem knows_of_serves (h : ReachesWhen d.move Resolute d.apart w) (hne : n ≠ m)
    (ht : w.Together n m) (hn : w.Settled n) (hm : w.Settled m) (sn : w.Serves n)
    (sm : w.Serves m) : m ∈ ids (w.vip n).nodeList := by
  have hrun {k : NodeId} (hk : w.Serves k) : (w.vip k).state ≠ .idle := fun hi => by
    have hs := hk.2.2
    simp [hi, State.serves] at hs
  rcases Network.acquainted (yielding_rule d) (introducing_cluster d) h hne ht hn.atRest
      hm.atRest with hi | hi | hk
  · exact absurd hi (hrun sn)
  · exact absurd hi (hrun sm)
  · exact hk

/-- A member that serves the address for good, while it knows a node of a higher priority, has no
autorollback. -/
theorem autorollback_of_serves (h : ReachesWhen d.move Resolute d.apart w) (hn : w.Settled n)
    (sn : w.Serves n) (hm : m ∈ ids (w.vip n).nodeList) (hlt : d.prio n < d.prio m) :
    (d.config n).autorollback = false := by
  have hI := (Network.sound (yielding_rule d) h n).site sn.1
  have hmaster : (w.vip n).state = .master := by
    cases hs : (w.vip n).state with
    | master => rfl
    | rback =>
      -- its rollback is not over
      obtain ⟨r, hr, -⟩ := hI.armed.pending hs
      rw [hn.2.2.1] at hr
      cases hr
    | idle | start | backup =>
      have hserves := sn.2.2
      simp [hs, State.serves] at hserves
  by_contra hauto
  rw [Bool.not_eq_false] at hauto
  obtain ⟨x, hx, rfl⟩ := mem_ids.mp hm
  have hconfig : (w.vip n).config = d.config n := hI.stage.config
  have hle := hI.topped hmaster (hconfig ▸ hauto) x hx
  rw [hI.ranked.priority x hx] at hle
  have hprio : (w.port n).st.vip.config.priority = d.prio n := congrArg Config.priority hconfig
  omega

end Healing

/-- **A split brain heals**, if the nodes have autorollback. In every run of clean starts in which
`node_add` never lacks memory, each rollback gets its thread and none is called off while a node of a
higher priority is known: of two members of a quiescent component that serve the address, the one of
the lower priority has no autorollback. -/
theorem split_brain_heals {d : Deployment} (hd : d.Distinct) {w : PartitionedCluster}
    (h : ReachesWhen d.move Resolute d.apart w) {members : List NodeId} (hq : w.Quiescent members)
    {n m : NodeId} (hn : n ∈ members) (hm : m ∈ members) (sn : w.Serves n) (sm : w.Serves m) :
    n = m ∨ (d.prio n < d.prio m ∧ (d.config n).autorollback = false) ∨
      (d.prio m < d.prio n ∧ (d.config m).autorollback = false) := by
  by_cases hne : n = m
  · exact Or.inl hne
  have hnode {k : NodeId} (hk : w.Serves k) : k ∈ d.nodes := by
    have hstage := ((Network.sound (yielding_rule d) h k).site hk.1).stage
    refine hstage.node (hstage.held ?_)
    have hl := hk.2.1
    cases hc : (w.port k).link with
    | member handled => cases handled <;> simp [Link.kind]
    | out | joining => simp [hc, Link.isMember] at hl
  obtain ⟨hsn, htn⟩ := hq n hn
  obtain ⟨hsm, htm⟩ := hq m hm
  rcases lt_trichotomy (d.prio n) (d.prio m) with hlt | heq | hgt
  · have hknown := knows_of_serves h hne (htn m hm) hsn hsm sn sm
    exact Or.inr (Or.inl ⟨hlt, autorollback_of_serves h hsn sn hknown hlt⟩)
  · exact absurd (hd n (hnode sn) m (hnode sm) heq) hne
  · have hknown := knows_of_serves h (Ne.symm hne) (htm n hn) hsm hsn sm sn
    exact Or.inr (Or.inr ⟨hgt, autorollback_of_serves h hsm sm hknown hgt⟩)

/-! ## Merges -/

/-- Three nodes of rising priority. -/
def rising (autorollback : Bool) (delay : ℤ) : Deployment where
  nodes := [1, 2, 3]
  config n := { plainConfig (if n = 1 then 10 else if n = 2 then 20 else 30) noProfiles with
    autorollback := autorollback, rollbackDelay := delay }
  zero_notMem := staggered.zero_notMem

/-- A node starts with the thread `t` and connects to the network. -/
def connects (n : NodeId) (t : ThreadId) : List PartitionStep :=
  [.act n (.input (.start true)), .act n (.input (.cpgInitialize t [.ok])),
    .act n (.input (.contextSet t .ok)), .act n (.input (.localGet t .ok n)),
    .act n (.input (.join t [.ok]))]

/-- A node handles its next `k` entries; a rollback gets its thread. -/
def handlings (n : NodeId) (k : ℕ) : List PartitionStep := List.replicate k (.deliver n threaded)

/-- A node comes up alone, and serves the address. -/
def aloneUp (n : NodeId) : List PartitionStep :=
  connects n 0 ++ [.reconfigure [n]] ++ handlings n 1 ++ [.order n] ++ handlings n 1 ++ [.order n] ++
    handlings n 1

/-- Another node joins one that serves the address, and becomes its backup. -/
def backupUp (n m : NodeId) : List PartitionStep :=
  connects m 0 ++ [.reconfigure [n, m]] ++ handlings n 1 ++ handlings m 1 ++ [.order n, .order m] ++
    handlings n 2 ++ handlings m 2

/-- Two nodes that serve the address merge, and announce themselves. -/
def twoMerge : List PartitionStep :=
  aloneUp 1 ++ aloneUp 2 ++ [.reconfigure [1, 2]] ++ handlings 1 1 ++ handlings 2 1 ++
    [.order 1, .order 2]

/-- The first one gives way: its rollback is over, it leaves and joins again. -/
def twoHeal : List PartitionStep :=
  twoMerge ++ handlings 1 2 ++ handlings 2 2 ++
    [.act 1 (.input (.rollbackStop 1)), .act 1 (.input (.exitLoop 0)), .act 1 (.input (.leave 0)),
      .act 1 (.input (.finalize 0)), .act 1 (.input (.finish 0))] ++
    List.replicate 5 (.act 1 (.input (.down 0))) ++
    [.act 1 (.input (.rollbackWait 1)), .reconfigure [2]] ++ handlings 2 1 ++
    [.act 1 (.input (.rollbackStart 1 true))] ++ (connects 1 2).tail ++
    [.reconfigure [2, 1]] ++ handlings 1 1 ++ handlings 2 1 ++ [.order 1, .order 2] ++
    handlings 1 2 ++ handlings 2 2

/-- The nodes after the rollback. -/
def healed : PartitionedCluster :=
  (runWhen (rising true 0).move Resolute (rising true 0).apart twoHeal).getD (rising true 0).apart

set_option maxRecDepth 10000 in
theorem split_brain_heals_healed : healed.Quiescent [1, 2] ∧ healed.Serves 2 ∧
    ¬ healed.Serves 1 := by
  have hq : healed.Quiescent [1, 2] := by decide +kernel
  have h₂ : healed.Serves 2 := by decide +kernel
  have hreach : ReachesWhen (rising true 0).move Resolute (rising true 0).apart healed :=
    reachesWhen_getD _
  refine ⟨hq, h₂, fun h₁ => ?_⟩
  have hor := split_brain_heals (by decide +kernel) hreach hq (by decide) (by decide) h₁ h₂
  exact absurd hor (by decide +kernel)

/-- In every run whose steps meet the condition, a quiescent component has at most one member that
serves the address. -/
def Deployment.Heals (d : Deployment) (ok : PartitionedCluster → PartitionStep → Prop) : Prop :=
  ∀ (w : PartitionedCluster) (members : List NodeId), ReachesWhen d.move ok d.apart w →
    w.Quiescent members → ∀ n ∈ members, ∀ m ∈ members, w.Serves n → w.Serves m → n = m

/-- A run that ends with two members of a quiescent component that serve the address. -/
theorem not_heals {d : Deployment} {ok : PartitionedCluster → PartitionStep → Prop}
    {w : PartitionedCluster} {members : List NodeId} (h : ReachesWhen d.move ok d.apart w)
    (hq : w.Quiescent members) {n m : NodeId} (hn : n ∈ members ∧ w.Serves n)
    (hm : m ∈ members ∧ w.Serves m) (hne : n ≠ m) : ¬ d.Heals ok :=
  fun hheals => hne (hheals w members h hq n hn.1 m hm.1 hn.2 hm.2)

/-- Both are masters for good. -/
def twoMasters : PartitionedCluster :=
  (runWhen (rising false 1).move Resolute (rising false 1).apart
    (twoMerge ++ handlings 1 2 ++ handlings 2 2)).getD (rising false 1).apart

/-- A node merges with a master and its backup; it begins a rollback for the backup, which is heard
first, and calls it off when it hears the master. -/
def calledOff : PartitionedCluster :=
  (runWhen (rising true 1).move
    (fun w l => StartsClean w l ∧ OnEntry GetsMemory w l ∧ OnEntry GetsThread w l)
    (rising true 1).apart
    (aloneUp 1 ++ aloneUp 3 ++ backupUp 3 2 ++ [.reconfigure [1, 2, 3]] ++ handlings 1 1 ++
      handlings 2 1 ++ handlings 3 1 ++ [.order 2, .order 3, .order 1] ++ handlings 1 3 ++
      handlings 2 3 ++ handlings 3 3 ++ [.act 1 (.input (.tick 1))])).getD (rising true 1).apart

/-- The thread of the rollback is not created. -/
def threadless : PartitionedCluster :=
  (runWhen (rising true 1).move
    (fun w l => StartsClean w l ∧ OnEntry GetsMemory w l ∧ OnEntry StandsFirm w l)
    (rising true 1).apart
    (twoMerge ++ List.replicate 2 (.deliver 1 allSucceed) ++ handlings 2 2)).getD
      (rising true 1).apart

/-- `node_add` finds no memory for the other master, so that the list is lost and no rollback begins.
-/
def forgetful : PartitionedCluster :=
  (runWhen (rising true 1).move
    (fun w l => StartsClean w l ∧ OnEntry GetsThread w l ∧ OnEntry StandsFirm w l)
    (rising true 1).apart
    (twoMerge ++ handlings 1 1 ++ [.deliver 1 { threaded with malloc := false }] ++
      handlings 2 2)).getD (rising true 1).apart

/-- A node that has heard the master is stopped, and started again before its thread has left the
group; it hears itself and another master, which crashes. -/
def startedAnew : PartitionedCluster :=
  (runWhen (rising true 1).move
    (fun w l => OnEntry GetsMemory w l ∧ OnEntry GetsThread w l ∧ OnEntry StandsFirm w l)
    (rising true 1).apart
    (aloneUp 3 ++ aloneUp 2 ++ connects 1 0 ++ [.reconfigure [1, 2, 3]] ++ handlings 1 1 ++
      handlings 2 1 ++ handlings 3 1 ++ [.order 3] ++ handlings 1 1 ++
      [.act 1 (.input .stop), .act 1 (.input (.start true)),
        .act 1 (.input (.cpgInitialize 1 [.ok])), .act 1 (.input (.contextSet 1 .ok)),
        .act 1 (.input (.localGet 1 .ok 1)), .act 1 (.input (.join 1 [.other])),
        .act 1 (.input (.finalize 1)), .act 1 (.input (.finish 1))] ++
      List.replicate 4 (.act 1 (.input (.down 0))) ++ [.order 1, .order 2] ++ handlings 1 2 ++
      handlings 3 3 ++ [.crash 2, .reconfigure [1, 3]] ++ handlings 1 1 ++ handlings 3 1 ++
      [.order 1] ++ handlings 1 1 ++ handlings 3 1)).getD (rising true 1).apart

set_option maxRecDepth 10000 in
/-- **A split brain may stay**, for each reason alone: the nodes have no autorollback; the rollback
of one is called off while it knows another master of a higher priority; it does not get its thread;
a list is lost for want of memory; or a start is not clean. -/
theorem split_brain_stays : (¬ ∀ d : Deployment, d.Distinct → d.Heals fun _ _ => True) ∧
    ¬ (rising false 1).Heals Resolute ∧
    ¬ (rising true 1).Heals
      (fun w l => StartsClean w l ∧ OnEntry GetsMemory w l ∧ OnEntry GetsThread w l) ∧
    ¬ (rising true 1).Heals
      (fun w l => StartsClean w l ∧ OnEntry GetsMemory w l ∧ OnEntry StandsFirm w l) ∧
    ¬ (rising true 1).Heals
      (fun w l => StartsClean w l ∧ OnEntry GetsThread w l ∧ OnEntry StandsFirm w l) ∧
    ¬ (rising true 1).Heals
      (fun w l => OnEntry GetsMemory w l ∧ OnEntry GetsThread w l ∧ OnEntry StandsFirm w l) := by
  have hmasters : ReachesWhen (rising false 1).move Resolute (rising false 1).apart twoMasters :=
    reachesWhen_getD _
  have hq : twoMasters.Quiescent [1, 2] := by decide +kernel
  have h₁ : 1 ∈ [1, 2] ∧ twoMasters.Serves 1 := by decide +kernel
  have h₂ : 2 ∈ [1, 2] ∧ twoMasters.Serves 2 := by decide +kernel
  have hcalled : calledOff.Quiescent [1, 2, 3] := by decide +kernel
  have hthreadless : threadless.Quiescent [1, 2] := by decide +kernel
  have hforgetful : forgetful.Quiescent [1, 2] := by decide +kernel
  have hanew : startedAnew.Quiescent [1, 3] := by decide +kernel
  refine ⟨fun h => ?_, not_heals hmasters hq h₁ h₂ (by decide), ?_, ?_, ?_, ?_⟩
  · exact not_heals (hmasters.mono fun _ _ _ => trivial) hq h₁ h₂ (by decide)
      (h (rising false 1) (by decide +kernel))
  · exact not_heals (n := 1) (m := 3) (w := calledOff) (reachesWhen_getD _) hcalled
      (by decide +kernel) (by decide +kernel) (by decide)
  · exact not_heals (n := 1) (m := 2) (w := threadless) (reachesWhen_getD _) hthreadless
      (by decide +kernel) (by decide +kernel) (by decide)
  · exact not_heals (n := 1) (m := 2) (w := forgetful) (reachesWhen_getD _) hforgetful
      (by decide +kernel) (by decide +kernel) (by decide)
  · exact not_heals (n := 1) (m := 3) (w := startedAnew) (reachesWhen_getD _) hanew
      (by decide +kernel) (by decide +kernel) (by decide)

end CpgFailover
