import CpgFailover.Election.Turns
import CpgFailover.Lib.AgreedSimulation
import CpgFailover.Wire

/-!
# The group on the wire

The nodes of a virtual ip as they are: what they multicast are buffers, and what they receive they
read where it lies. From profile names that fit their field, such a group is the group that
exchanges messages, run for run in both directions, and no member ever reads past the end of what it
has received.

## Main definitions

* `RawCommand`, `nodeActBuf`, `nodeDeliverBuf`, `wireCluster`: the group that exchanges buffers
* `Spells`: a buffer is written for a message
* `Deployment.Read`: the nodes have read their configurations from names that fit
* `WireRefines`: the two groups are the same

## Main results

* `Spells.deliverBuf`: a buffer is handled as its message is
* `readsWire`, `writesWire`: the simulations
* `wireRefines_of_read`: the group on the wire refines the group of messages
-/

namespace CpgFailover

open Agreed Transition
open Bytes (Endian)
open Buffer (text)

/-! ## The group of buffers -/

/-- The local steps of a node: a step of its process, or a statement from sofia, whose profile name
is the one at the start of this memory. -/
inductive RawCommand
  | input (i : Input)
  | event (nameMem : List UInt8) (sql : CString)
deriving DecidableEq

/-- What a step of the process asks of the group. -/
def inputSignalBuf : Input → Signal (List UInt8)
  | .join _ results => if csRetry csMaxRetries results = .ok then .connect else .quiet
  | .leave _ => .disconnect
  | _ => .quiet

/-- `event_handler` on a node with this vip alone; nothing comes of a name whose field cannot be
copied. -/
def eventHandlerBuf (e : Endian) (p : Proc) (nameMem : List UInt8) (sql : CString) :
    Option (List UInt8) :=
  (text nameMem).bind fun profileName =>
    if profileName ∈ p.vip.config.usedProfiles.map SofiaProfile.name ∧
        maxSofiaName ≤ nameMem.length then
      some (virtualIpSendSqlBuf e nameMem sql)
    else none

/-- A local step of a node. -/
def nodeActBuf (d : Deployment) (e : Endian) (n : NodeId) (p : Proc) :
    RawCommand → Option (Proc × Signal (List UInt8))
  | .input i =>
    if Permitted d n i then (p.step i).map fun p' => (p', inputSignalBuf i) else none
  | .event nameMem sql => (eventHandlerBuf e p nameMem sql).map fun b => (p, .send b)

/-- A node handles an entry in the dispatch loop of its `vip_thread`; there is no result when it
reads past the end of a buffer. -/
def nodeDeliverBuf (e : Endian) (_ : NodeId) (p : Proc) (entry : Entry NodeId (List UInt8))
    (o : Outcome) : Option (Proc × List Effect) :=
  if ∃ th ∈ p.vipThreads, th.phase = .dispatching then
    match entry with
    | .confchg memberList leftList joinedList =>
      some (p.handleEntry o (.confchg memberList leftList joinedList))
    | .message nodeid msg =>
      (deliverBuf e (p.withHandle o) p.vip nodeid msg).map fun r =>
        (p.absorb r.1 r.2, r.2)
  else none

/-- The buffers among the calls of a callback. -/
def multicastsBuf (e : Endian) (calls : List Effect) : List (List UInt8) :=
  calls.filterMap fun
    | .sendState nm => some (virtualIpSendStateBuf e nm)
    | _ => none

/-- The group behaviour of a deployment whose nodes store numbers this way. -/
def wireCluster (d : Deployment) (e : Endian) :
    Behaviour NodeId (List UInt8) Proc (List Effect) RawCommand Outcome where
  boot n := Proc.fresh (d.config n)
  act := nodeActBuf d e
  deliver := nodeDeliverBuf e
  mcast := multicastsBuf e

/-! ## Buffers and messages -/

/-- The buffer is written for the message, by a sender whose memory goes on behind the name. -/
inductive Spells (e : Endian) : List UInt8 → Msg → Prop
  | sql {name sql : CString} {junk : List UInt8} : 0 ∉ name → name.length < maxSofiaName →
      maxSofiaName ≤ (name ++ 0 :: junk).length → 0 ∉ sql →
        Spells e (virtualIpSendSqlBuf e (name ++ 0 :: junk) sql) (.sql name sql)
  | nodeState {nm : NodeMsg} : -2 ^ 31 ≤ nm.priority → nm.priority < 2 ^ 31 →
      0 ∉ nm.runtimeUuid → nm.runtimeUuid.length < uuidSize →
        Spells e (virtualIpSendStateBuf e nm) (.nodeState nm)

/-- **A buffer is handled as its message is.** -/
theorem Spells.deliverBuf {e : Endian} {b : List UInt8} {m : Msg} (h : Spells e b m) {v : Vip}
    (hv : ∀ p ∈ v.config.profiles.toList, 0 ∉ p.name) (o : Outcome) (nodeid : NodeId) :
    deliverBuf e o v nodeid b = some (deliverCallback o v nodeid m) := by
  cases h with
  | sql hname hlen hjunk hsql => exact deliverBuf_sql hname hlen hjunk hsql hv
  | nodeState hmin hmax huuid hlen => exact deliverBuf_state hmin hmax huuid hlen

/-- A text at the start of a memory, and what follows it. -/
theorem text_eq_some {bs s : List UInt8} (h : text bs = some s) :
    0 ∉ s ∧ ∃ rest, bs = s ++ 0 :: rest := by
  obtain ⟨hmem, heq⟩ := Option.ite_none_right_eq_some.mp h
  obtain rfl := Option.some.inj heq
  refine ⟨fun h0 => by simpa using List.mem_takeWhile_imp h0, ?_⟩
  -- the first byte that the text stops at is the terminator
  have hsplit := List.takeWhile_append_dropWhile (p := fun b => decide (b ≠ 0)) (l := bs)
  cases hdrop : bs.dropWhile fun b => decide (b ≠ 0) with
  | nil =>
    rw [hdrop, List.append_nil] at hsplit
    rw [← hsplit] at hmem
    simpa using List.mem_takeWhile_imp hmem
  | cons b rest =>
    have hb : b = 0 := by
      have hhead := List.head?_dropWhile_not (fun b => decide (b ≠ 0)) bs
      rw [hdrop] at hhead
      simpa using hhead
    rw [hdrop, hb] at hsplit
    exact ⟨rest, hsplit.symm⟩

/-! ## What the nodes have read -/

/-- Every node has read its configuration with `do_config`, from profile names that fit their field,
on a machine that stores numbers this way. -/
def Deployment.Read (d : Deployment) (e : Endian) : Prop :=
  ∀ n, ∃ (sys : Platform) (x : VirtualIpElement) (r : ConfiguredVip), sys.byteOrder = e ∧
    configure sys x = some r ∧ (∀ p ∈ x.profiles, p.name.length < maxSofiaName) ∧
      d.config n = r.config e

section Read

variable {d : Deployment} {e : Endian} {n : NodeId}

theorem Deployment.Read.priority (h : d.Read e) (n : NodeId) :
    -2 ^ 31 ≤ (d.config n).priority ∧ (d.config n).priority < 2 ^ 31 := by
  obtain ⟨sys, x, r, -, hr, -, heq⟩ := h n
  rw [heq]
  exact configure_priority hr

theorem Deployment.Read.terminated (h : d.Read e) :
    ∀ p ∈ (d.config n).profiles.toList, 0 ∉ p.name := by
  obtain ⟨sys, x, r, -, -, -, heq⟩ := h n
  rw [heq]
  exact terminated_profileTable

/-- The names in the slots fit their field, as the elements do. -/
theorem Deployment.Read.fits (h : d.Read e) :
    ∀ p ∈ (d.config n).profiles.toList, p.name.length < maxSofiaName := by
  obtain ⟨sys, x, r, rfl, hr, hfit, heq⟩ := h n
  intro p hp
  rw [heq] at hp
  have hname : p.name ∈ tableNames sys x := by
    rw [← slotNames_configure hr]
    exact List.mem_map_of_mem hp
  by_cases hne : p.name = []
  · rw [hne]
    decide
  rw [mem_tableNames_iff hfit hne, listed] at hname
  obtain ⟨q, hq, hqn⟩ := List.mem_map.mp hname
  have hmem := FirstOccurrences.firsts_subset _ (List.mem_of_mem_take hq)
  rw [← hqn]
  exact hfit q (List.mem_of_mem_filter hmem)

end Read

/-! ## The simulations -/

/-- The texts of a step are C strings. -/
def Spelled : Action NodeId Command Outcome → Prop
  | .act _ (.event _ sql) => 0 ∉ sql
  | .deliver _ o => 0 ∉ o.coreUuid
  | _ => True

/-- The texts of a step are C strings. -/
def RawSpelled : Action NodeId RawCommand Outcome → Prop
  | .act _ (.event _ sql) => 0 ∉ sql
  | .deliver _ o => 0 ∉ o.coreUuid
  | _ => True

/-- The process is the same, and runs on the configuration its node has read. -/
def SameProc (d : Deployment) (n : NodeId) (p p' : Proc) : Prop :=
  p = p' ∧ p.vip.config = d.config n

section Simulations

variable {d : Deployment} {e : Endian} {n : NodeId} {p p' : Proc}

theorem inputSignal_rel {R : List UInt8 → Msg → Prop} (i : Input) :
    Signal.Rel R (inputSignalBuf i) (inputSignal i) := by
  cases i with
  | join t results =>
    rw [inputSignalBuf, inputSignal]
    split_ifs
    exacts [.connect, .quiet]
  | leave => exact .disconnect
  | _ => exact .quiet

theorem inputSignal_rel' {R : Msg → List UInt8 → Prop} (i : Input) :
    Signal.Rel R (inputSignal i) (inputSignalBuf i) :=
  (inputSignal_rel (R := fun b m => R m b) i).flip

/-- What a node announces has a buffer. -/
theorem spells_announced (hd : d.Read e) {v : Vip} (hv : v.config = d.config n) {o : Outcome}
    (ho : 0 ∉ o.coreUuid) {en : Entry NodeId Msg} {nm : NodeMsg}
    (h : Effect.sendState nm ∈ (handle o v en).2) :
    Spells e (virtualIpSendStateBuf e nm) (.nodeState nm) := by
  have huuid : nm.runtimeUuid = snprintf uuidSize o.coreUuid := by
    refine handle_calls (P := fun c => ∀ nm, c = .sendState nm →
      nm.runtimeUuid = snprintf uuidSize o.coreUuid) ?_ v en ?_ _ h nm rfl
    · rintro w ev - c hc nm rfl
      rw [(sendState_mem hc).1, nodeMsg]
    · exact fun _ _ _ _ hc => nomatch hc
  have hpriority : nm.priority = (d.config n).priority := by
    rw [(sendState_handle h).1, hv]
  obtain ⟨hmin, hmax⟩ := hd.priority n
  refine .nodeState (hpriority ▸ hmin) (hpriority ▸ hmax) ?_ ?_
  · rw [huuid]
    exact fun h0 => ho (List.mem_of_mem_take h0)
  · rw [huuid]
    exact lt_of_le_of_lt (List.length_take_le _ _) (by decide)

/-- What a callback multicasts, in bytes and as messages. -/
theorem forall₂_multicasts {calls : List Effect}
    (h : ∀ nm, Effect.sendState nm ∈ calls →
      Spells e (virtualIpSendStateBuf e nm) (.nodeState nm)) :
    List.Forall₂ (Spells e) (multicastsBuf e calls) (multicasts calls) := by
  induction calls with
  | nil => exact .nil
  | cons c calls ih =>
    have hrest := ih fun nm hnm => h nm (List.mem_cons_of_mem _ hnm)
    cases c with
    | sendState nm => exact .cons (h nm List.mem_cons_self) hrest
    | _ => exact hrest

/-- A related entry is handled the same way. -/
theorem nodeDeliverBuf_eq (hd : d.Read e) (hp : p.vip.config = d.config n)
    {b : Entry NodeId (List UInt8)} {m : Entry NodeId Msg} (h : Entry.Rel (Spells e) b m)
    (o : Outcome) : nodeDeliverBuf e n p b o = nodeDeliver n p m o := by
  unfold nodeDeliverBuf nodeDeliver
  split_ifs
  · cases h with
    | confchg => rfl
    | @message y b m hm =>
      have hread := hm.deliverBuf (v := p.vip) (fun q hq => hd.terminated (n := n) q (hp ▸ hq))
        (p.withHandle o) y
      simp only [hread]
      rfl
  · rfl

/-- The announcements of a handling, in bytes and as messages. -/
theorem spells_of_deliver (hd : d.Read e) (hp : p.vip.config = d.config n) {o : Outcome}
    (ho : 0 ∉ o.coreUuid) {m : Entry NodeId Msg} {out : List Effect}
    (h : nodeDeliver n p m o = some (p', out)) :
    SameProc d n p' p' ∧ List.Forall₂ (Spells e) (multicastsBuf e out) (multicasts out) := by
  obtain ⟨-, heq⟩ := Option.ite_none_right_eq_some.mp h
  cases heq
  refine ⟨⟨rfl, ?_⟩, forall₂_multicasts fun nm hnm => ?_⟩
  · show (p.handleEntry o m).1.vip.config = d.config n
    rw [Proc.handleEntry_vip, handle_config, hp]
  · exact spells_announced (o := p.withHandle o) hd hp ho hnm

/-- What is multicast for an event is the buffer of its statement, and the other way round. -/
theorem spells_event (hd : d.Read e) (hp : p.vip.config = d.config n) {nameMem : List UInt8}
    {sql : CString} (hsql : 0 ∉ sql) {b : List UInt8}
    (h : eventHandlerBuf e p nameMem sql = some b) :
    ∃ name m, eventHandler p name sql = some m ∧ Spells e b m := by
  obtain ⟨name, hname, h⟩ := Option.bind_eq_some_iff.mp h
  obtain ⟨⟨hmem, hlen⟩, heq⟩ := Option.ite_none_right_eq_some.mp h
  obtain rfl := Option.some.inj heq
  obtain ⟨h0, rest, rfl⟩ := text_eq_some hname
  refine ⟨name, .sql name sql, if_pos hmem, .sql h0 ?_ hlen hsql⟩
  obtain ⟨q, hq, rfl⟩ := List.mem_map.mp hmem
  rw [hp] at hq
  exact hd.fits (n := n) q ((List.takeWhile_sublist _).subset hq)

/-- A statement that is multicast has a buffer. -/
theorem eventHandlerBuf_eq_some (hd : d.Read e) (hp : p.vip.config = d.config n)
    {name sql : CString} (hsql : 0 ∉ sql) {m : Msg} (h : eventHandler p name sql = some m) :
    ∃ nameMem b, eventHandlerBuf e p nameMem sql = some b ∧ Spells e b m := by
  obtain ⟨hmem, heq⟩ := Option.ite_none_right_eq_some.mp h
  obtain rfl := Option.some.inj heq
  obtain ⟨q, hq, rfl⟩ := List.mem_map.mp hmem
  have hslot : q ∈ (d.config n).profiles.toList := by
    rw [hp] at hq
    exact (List.takeWhile_sublist _).subset hq
  have h0 := hd.terminated (n := n) q hslot
  have hfit := hd.fits (n := n) q hslot
  -- a memory that goes on for long enough
  have hlen : maxSofiaName ≤ (q.name ++ 0 :: List.replicate maxSofiaName 0).length := by
    simp only [List.length_append, List.length_cons, List.length_replicate]
    omega
  refine ⟨q.name ++ 0 :: List.replicate maxSofiaName 0, _, ?_, .sql h0 hfit hlen hsql⟩
  rw [eventHandlerBuf, Buffer.text_append h0, Option.bind_some, if_pos ⟨hmem, hlen⟩]

end Simulations

/-- **Buffers are read** as the messages they are written for. -/
def readsWire {d : Deployment} {e : Endian} (hd : d.Read e) :
    Simulation (wireCluster d e) (cluster d) where
  msg := Spells e
  st := SameProc d
  out := Eq
  ok := RawSpelled
  boot n := ⟨rfl, rfl⟩
  act := by
    rintro n p _ c t sig ⟨rfl, hp⟩ hok ha
    cases c with
    | input i =>
      obtain ⟨hi, ha⟩ := Option.ite_none_right_eq_some.mp ha
      obtain ⟨p', hs, heq⟩ := Option.map_eq_some_iff.mp ha
      cases heq
      refine ⟨.input i, t, inputSignal i, ?_, ⟨rfl, (Proc.step_config hs).trans hp⟩,
        inputSignal_rel i⟩
      show nodeAct d n p (.input i) = _
      rw [nodeAct, if_pos hi, hs, Option.map_some]
    | event nameMem sql =>
      obtain ⟨b, hb, heq⟩ := Option.map_eq_some_iff.mp ha
      cases heq
      obtain ⟨name, m, hm, hspells⟩ := spells_event hd hp hok hb
      refine ⟨.event name sql, p, .send m, ?_, ⟨rfl, hp⟩, .send hspells⟩
      show nodeAct d n p (.event name sql) = _
      rw [nodeAct, hm, Option.map_some]
  deliver := by
    rintro n p _ b m o t out ⟨rfl, hp⟩ hbm hok hs
    have hs' : nodeDeliver n p m o = some (t, out) := (nodeDeliverBuf_eq hd hp hbm o).symm.trans hs
    obtain ⟨hsame, hmcast⟩ := spells_of_deliver hd hp hok hs'
    exact ⟨o, t, out, hs', hsame, rfl, hmcast⟩

/-- **Messages are written** as buffers. -/
def writesWire {d : Deployment} {e : Endian} (hd : d.Read e) :
    Simulation (cluster d) (wireCluster d e) where
  msg m b := Spells e b m
  st := SameProc d
  out := Eq
  ok := Spelled
  boot n := ⟨rfl, rfl⟩
  act := by
    rintro n p _ c t sig ⟨rfl, hp⟩ hok ha
    cases c with
    | input i =>
      obtain ⟨hi, ha⟩ := Option.ite_none_right_eq_some.mp ha
      obtain ⟨p', hs, heq⟩ := Option.map_eq_some_iff.mp ha
      cases heq
      refine ⟨.input i, t, inputSignalBuf i, ?_, ⟨rfl, (Proc.step_config hs).trans hp⟩,
        inputSignal_rel' i⟩
      show nodeActBuf d e n p (.input i) = _
      rw [nodeActBuf, if_pos hi, hs, Option.map_some]
    | event name sql =>
      obtain ⟨m, hm, heq⟩ := Option.map_eq_some_iff.mp ha
      cases heq
      obtain ⟨nameMem, b, hb, hspells⟩ := eventHandlerBuf_eq_some hd hp hok hm
      refine ⟨.event nameMem sql, p, .send b, ?_, ⟨rfl, hp⟩, .send hspells⟩
      show nodeActBuf d e n p (.event nameMem sql) = _
      rw [nodeActBuf, hb, Option.map_some]
  deliver := by
    rintro n p _ m b o t out ⟨rfl, hp⟩ hmb hok hs
    have hbm : Entry.Rel (Spells e) b m := hmb.flip
    obtain ⟨hsame, hmcast⟩ := spells_of_deliver hd hp hok hs
    exact ⟨o, t, out, (nodeDeliverBuf_eq hd hp hbm o).trans hs, hsame, rfl, hmcast.flip⟩

/-! ## The two groups -/

/-- The group on the wire and the group of messages are in the same states: after every run of one
there is a run of the other after which every node has the same process and the same place, the logs
and the messages that wait are written for each other, and the same has been handled. And whatever
its calls return, no node of the group on the wire reads past the end of a buffer that has been
ordered. -/
structure WireRefines (d : Deployment) (e : Endian) : Prop where
  reads : ∀ g, ReachesWhen (Group.step (wireCluster d e)) (fun _ l => RawSpelled l)
    (Group.init (wireCluster d e)) g → ∃ g', Reaches d.step d.start g' ∧
      Group.Rel (Spells e) (SameProc d) Eq g g'
  writes : ∀ g, ReachesWhen d.step (fun _ l => Spelled l) d.start g →
    ∃ g', Reaches (Group.step (wireCluster d e)) (Group.init (wireCluster d e)) g' ∧
      Group.Rel (fun m b => Spells e b m) (SameProc d) Eq g g'
  inside : ∀ g, ReachesWhen (Group.step (wireCluster d e)) (fun _ l => RawSpelled l)
    (Group.init (wireCluster d e)) g → ∀ (n y : NodeId) (k : ℕ) (b : List UInt8),
      g.log[k]? = some (.message y b) → ∀ o : Outcome,
        (deliverBuf e o (g.site n).st.vip y b).isSome

/-- **The group on the wire** refines the group of messages. -/
theorem wireRefines_of_read {d : Deployment} {e : Endian} (hd : d.Read e) : WireRefines d e where
  reads g hg := (readsWire hd).reaches hg
  writes g hg := (writesWire hd).reaches hg
  inside g hg n y k b hb o := by
    obtain ⟨g', -, hrel⟩ := (readsWire hd).reaches hg
    obtain ⟨m, hm, hbm⟩ := hrel.entry hb
    have hconfig := (hrel.site n).st.2
    cases hbm with
    | message hspells =>
      rw [hspells.deliverBuf fun q hq => hd.terminated (n := n) q (hconfig ▸ hq)]
      rfl

/-- `<virtualip address="1.1.1.1">` with a priority and a profile. -/
def prioritized (n : NodeId) : VirtualIpElement :=
  { withProfiles [lettered 0] with
    params := [⟨priorityText, if n = 10 then [49, 48] else [50, 48]⟩] }

/-- Two nodes that have read their files. -/
def readFromFiles : Deployment where
  nodes := [10, 20]
  config n := ((configure everyProfile (prioritized n)).getD
    (prioritized n).allocated).config .little
  zero_notMem := by decide

theorem wireRefines_readFromFiles : WireRefines readFromFiles .little := by
  refine wireRefines_of_read fun n => ?_
  have hsome : (configure everyProfile (prioritized n)).isSome := by
    rw [configure_isSome_iff]
    -- the one parameter is no device
    intro p hp hdevice
    obtain rfl := List.mem_singleton.mp hp
    exact absurd hdevice (show priorityText ≠ deviceText by decide)
  obtain ⟨r, hr⟩ := Option.isSome_iff_exists.mp hsome
  refine ⟨everyProfile, prioritized n, r, rfl, hr, ?_, ?_⟩
  · show ∀ p ∈ [lettered 0], p.name.length < maxSofiaName
    decide
  · simp only [readFromFiles, hr, Option.getD_some]

end CpgFailover
