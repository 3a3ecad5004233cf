import CpgFailover.Cluster
import CpgFailover.Wire

/-!
# What the decoder accepts

`DeliverCallback` gets the length of a message and looks at neither it nor the `len` of the header.
It lays its structures over the bytes and reads names and statements up to a terminator, wherever
that is. The two messages it rejects are one whose type it does not know and a statement for a
profile that the node does not have.

## Main definitions

* `Producible`: the messages that the members send
* `firedBuf`: the event that a message fires
* `AcceptsOnlyWhole`: nothing is read past the end, and everything but a producible message leaves
  the record alone, makes no call and fires no event
* `Quiet`, `NothingNew`: a node state that fires no event, and one that changes nothing either
* `WellMeant`: what this asks of the message

## Main results

* `still_message_iff`: when a node state changes nothing and fires no event
* `acceptsOnlyWhole_iff`: which messages the decoder treats as it should
* `header_alone_overread`: a header with nothing behind it
-/

namespace CpgFailover

open Bytes (Endian store load storeInt loadInt)
open Buffer (text strcmp)

/-! ## Definitions -/

/-- A message that `virtual_ip_send_sql` or `virtual_ip_send_state` builds, of a name that fits into
its field. -/
def Producible (e : Endian) (msg : List UInt8) : Prop :=
  (∃ name junk sql : List UInt8, 0 ∉ name ∧ name.length < maxSofiaName ∧
      maxSofiaName ≤ (name ++ 0 :: junk).length ∧ 0 ∉ sql ∧
        msg = virtualIpSendSqlBuf e (name ++ 0 :: junk) sql) ∨
    ∃ nm : NodeMsg, -2 ^ 31 ≤ nm.priority ∧ nm.priority < 2 ^ 31 ∧ 0 ∉ nm.runtimeUuid ∧
      nm.runtimeUuid.length < uuidSize ∧ msg = virtualIpSendStateBuf e nm

/-- The event that a message fires. -/
def firedBuf (e : Endian) (o : Outcome) (v : Vip) (nodeid : NodeId) (msg : List UInt8) :
    Option Event :=
  let nm := nodeMsgAt e (msg.drop headerSize)
  if load e (msg.take 4) = 1 then stateMessageEvent (learn o v nm nodeid) nm nodeid else none

/-- Whatever the external calls return, nothing past the end of the message is read, and only a
message that the members send changes the record, makes a call or fires an event. -/
def AcceptsOnlyWhole (e : Endian) (v : Vip) (nodeid : NodeId) (msg : List UInt8) : Prop :=
  ∀ o : Outcome, ∃ result, deliverBuf e o v nodeid msg = some result ∧
    (Producible e msg ∨ result = (v, []) ∧ firedBuf e o v nodeid msg = none)

/-- The sender is no duplicate of this node, a vip in `ST_START` is neither alone nor complete, and
a serving one is not asked to give way. -/
def Quiet (v : Vip) (nm : NodeMsg) (nodeid : NodeId) : Prop :=
  (nm.priority = v.config.priority → nodeid = v.nodeId) ∧
    (v.state = .start →
      v.memberListEntries ≠ 1 ∧ listEntries v.nodeList ≠ v.memberListEntries) ∧
    (v.state.serves = true → v.config.autorollback = true → nm.priority ≤ v.config.priority)

/-- The node is known, the state says nothing new of the master, and it asks for nothing. -/
def NothingNew (v : Vip) (nm : NodeMsg) (nodeid : NodeId) : Prop :=
  nodeid ∈ ids v.nodeList ∧
    (nm.state.serves = true →
      v.masterId = nodeid ∧ v.runtimeUuid = snprintf uuidSize nm.runtimeUuid) ∧
    Quiet v nm nodeid

/-- The message is one that the members send; or it is long enough for a type and
* its type is unknown, or
* it is a statement, of the node itself or with a profile field that agrees with no name of the
  table up to the terminator of the name or to the end of the message, or
* it is a node state, with what is read of it in the message, that says nothing new. -/
def WellMeant (e : Endian) (v : Vip) (nodeid : NodeId) (msg : List UInt8) : Prop :=
  Producible e msg ∨
    4 ≤ msg.length ∧
      match load e (msg.take 4) with
      | 0 => v.nodeId = nodeid ∨ ∀ p ∈ v.config.profiles.toList,
          ¬ p.name ++ [0] <+: msg.drop headerSize ∧ ¬ msg.drop headerSize <+: p.name
      | 1 =>
        8 ≤ (msg.drop headerSize).length ∧
          ((nodeMsgAt e (msg.drop headerSize)).state.serves = true →
            0 ∈ (msg.drop headerSize).drop 8) ∧
          NothingNew v (nodeMsgAt e (msg.drop headerSize)) nodeid
      | _ => True

/-! ## Node states that change nothing -/

section NodeState

variable {v : Vip} {nm : NodeMsg} {nodeid : NodeId}

/-- The message leaves the record alone, makes no call and fires no event. -/
def Still (o : Outcome) (v : Vip) (nm : NodeMsg) (nodeid : NodeId) : Prop :=
  (fsmInputNewStateMessage o v nm nodeid).vip = v ∧
    (fsmInputNewStateMessage o v nm nodeid).effects = [] ∧
    stateMessageEvent (learn o v nm nodeid) nm nodeid = none

/-- **Which messages of a known node fire no event.** -/
theorem stateMessageEvent_eq_none_iff (hmem : nodeid ∈ ids v.nodeList) :
    stateMessageEvent v nm nodeid = none ↔ Quiet v nm nodeid := by
  have hr := messageRaises_stateMessageEvent v nm nodeid
  generalize stateMessageEvent v nm nodeid = event at hr
  have hne : v.nodeList ≠ [] := by
    rintro hnil
    rw [hnil] at hmem
    cases hmem
  cases hr with
  | duplicate hp hy => exact iff_of_false (by simp) fun hq => hy (hq.1 hp)
  | alone _ hs hone => exact iff_of_false (by simp) fun hq => (hq.2.1 hs).1 hone
  | complete _ hs _ hlen => exact iff_of_false (by simp) fun hq => (hq.2.1 hs).2 hlen
  | request hserve _ hauto hp =>
    exact iff_of_false (by simp) fun hq => absurd hp (not_lt.mpr (hq.2.2 hserve hauto))
  | quiet hd hone hserve =>
    refine iff_of_true rfl ⟨fun hp => by_contra fun hy => hd ⟨hp, hy⟩, hone, fun hs hauto => ?_⟩
    exact not_lt.mp fun hlt => hserve hs ⟨hne, hauto, hlt⟩

/-- What a message has to write is in the record already. -/
theorem learn_of_known (o : Outcome) (hmem : nodeid ∈ ids v.nodeList)
    (hmaster : nm.state.serves = true →
      v.masterId = nodeid ∧ v.runtimeUuid = snprintf uuidSize nm.runtimeUuid) :
    learn o v nm nodeid = v := by
  rw [learn_eq, nodeAdd_of_mem hmem]
  by_cases hs : nm.state.serves = true
  · obtain ⟨hm, hu⟩ := hmaster hs
    rw [if_pos hs, if_pos hs, ← hm, ← hu]
  · rw [if_neg hs, if_neg hs]

/-- A message that changes nothing and fires no event has had nothing to write. -/
theorem learn_of_still {o : Outcome} (h : Still o v nm nodeid) : learn o v nm nodeid = v := by
  obtain ⟨hvip, -, hnone⟩ := h
  rwa [fsmInputNewStateMessage, hnone] at hvip

/-- **A node state changes nothing and fires no event**, whatever the external calls return, if and
only if it says nothing new. -/
theorem still_message_iff : (∀ o, Still o v nm nodeid) ↔ NothingNew v nm nodeid := by
  constructor
  · intro h
    let o : Outcome := ⟨true, true, true, none, []⟩
    have hlearn := learn_of_still (h o)
    have hmem : nodeid ∈ ids v.nodeList := by
      rw [← hlearn, learn_nodeList]
      exact mem_ids_nodeAdd.mpr (Or.inl rfl)
    refine ⟨hmem, fun hs => ?_, (stateMessageEvent_eq_none_iff hmem).mp ?_⟩
    · -- the master and its uuid are what the message writes
      have hmaster := congrArg Vip.masterId hlearn
      have huuid := congrArg Vip.runtimeUuid hlearn
      rw [learn_eq] at hmaster huuid
      simp only [hs, if_true] at hmaster huuid
      exact ⟨hmaster.symm, huuid.symm⟩
    · have hnone := (h o).2.2
      rwa [hlearn] at hnone
  · rintro ⟨hmem, hmaster, hquiet⟩ o
    have hlearn := learn_of_known o hmem hmaster
    have hnone := (stateMessageEvent_eq_none_iff hmem).mpr hquiet
    simp only [Still, fsmInputNewStateMessage, hlearn, hnone, and_self]

end NodeState

/-! ## Messages that are rejected -/

section Silent

variable {e : Endian} {v : Vip} {nodeid : NodeId} {msg : List UInt8}

/-- The loop finds no slot if the field agrees with none. -/
theorem findSlot_eq_none_iff {f : List UInt8} {ps : List SofiaProfile} :
    findSlot f ps = some none ↔ ∀ p ∈ ps, ¬ p.name ++ [0] <+: f ∧ ¬ f <+: p.name := by
  induction ps with
  | nil => simp [findSlot]
  | cons p ps ih =>
    rw [findSlot, List.forall_mem_cons, ← ih, ← Buffer.strcmp_eq_true_iff,
      ← Buffer.strcmp_eq_none_iff]
    cases hcmp : strcmp p.name f with
    | none => simp
    | some b => cases b <;> simp

/-- The message is taken without a change, a call or an event. -/
def Silent (e : Endian) (v : Vip) (nodeid : NodeId) (msg : List UInt8) : Prop :=
  ∀ o, deliverBuf e o v nodeid msg = some (v, []) ∧ firedBuf e o v nodeid msg = none

/-- A statement makes no call if it is the node's own or of an unknown profile. -/
theorem silent_sql_iff (hlen : ¬ msg.length < 4) (htype : load e (msg.take 4) = 0) :
    Silent e v nodeid msg ↔
      v.nodeId = nodeid ∨ ∀ p ∈ v.config.profiles.toList,
        ¬ p.name ++ [0] <+: msg.drop headerSize ∧ ¬ msg.drop headerSize <+: p.name := by
  have o : Outcome := ⟨true, true, true, none, []⟩
  have hfired (o : Outcome) : firedBuf e o v nodeid msg = none := by
    simp [firedBuf, htype]
  simp only [Silent, hfired, and_true, deliverBuf, if_neg hlen, htype]
  by_cases hown : v.nodeId = nodeid
  · simp [hown]
  · simp only [ne_eq, hown, not_false_eq_true, if_true, false_or]
    rw [← findSlot_eq_none_iff]
    cases hslot : findSlot (msg.drop headerSize) v.config.profiles.toList with
    | none => exact iff_of_false (fun h => absurd (h o) (by simp)) (by simp)
    | some slot =>
      cases slot with
      | none => exact iff_of_true (fun _ => rfl) rfl
      | some p =>
        refine iff_of_false (fun h => ?_) (by simp)
        obtain ⟨sql, -, hcall⟩ := Option.map_eq_some_iff.mp (h o)
        cases hcall

/-- A node state has to be readable and to say nothing new. -/
theorem silent_state_iff (hlen : ¬ msg.length < 4) (htype : load e (msg.take 4) = 1) :
    Silent e v nodeid msg ↔
      8 ≤ (msg.drop headerSize).length ∧
        ((nodeMsgAt e (msg.drop headerSize)).state.serves = true →
          0 ∈ (msg.drop headerSize).drop 8) ∧
        NothingNew v (nodeMsgAt e (msg.drop headerSize)) nodeid := by
  have o : Outcome := ⟨true, true, true, none, []⟩
  have hfired (o : Outcome) : firedBuf e o v nodeid msg =
      stateMessageEvent (learn o v (nodeMsgAt e (msg.drop headerSize)) nodeid)
        (nodeMsgAt e (msg.drop headerSize)) nodeid := by
    simp only [firedBuf, if_pos htype]
  simp only [Silent, hfired, deliverBuf, if_neg hlen, htype]
  by_cases hread : (msg.drop headerSize).length < 8 ∨
      ((nodeMsgAt e (msg.drop headerSize)).state.serves = true ∧
        text ((msg.drop headerSize).drop 8) = none)
  · simp only [if_pos hread]
    refine iff_of_false (fun h => absurd (h o).1 (by simp)) fun h => ?_
    rcases hread with hread | ⟨hserves, htext⟩
    · exact absurd h.1 (Nat.not_le.mpr hread)
    · have hsome := Buffer.text_isSome_iff.mpr (h.2.1 hserves)
      rw [htext] at hsome
      cases hsome
  · simp only [if_neg hread]
    rw [not_or, not_and] at hread
    have huuid (hserves : (nodeMsgAt e (msg.drop headerSize)).state.serves = true) :
        0 ∈ (msg.drop headerSize).drop 8 :=
      Buffer.text_isSome_iff.mp (Option.isSome_iff_ne_none.mpr (hread.2 hserves))
    rw [and_iff_right (Nat.le_of_not_lt hread.1), and_iff_right huuid, ← still_message_iff]
    apply forall_congr'
    intro o
    rw [Option.some.injEq, Prod.mk.injEq, Still, and_assoc]

/-- **Which messages leave the record alone**, make no call and fire no event. -/
theorem silent_iff :
    Silent e v nodeid msg ↔
      4 ≤ msg.length ∧
        match load e (msg.take 4) with
        | 0 => v.nodeId = nodeid ∨ ∀ p ∈ v.config.profiles.toList,
            ¬ p.name ++ [0] <+: msg.drop headerSize ∧ ¬ msg.drop headerSize <+: p.name
        | 1 =>
          8 ≤ (msg.drop headerSize).length ∧
            ((nodeMsgAt e (msg.drop headerSize)).state.serves = true →
              0 ∈ (msg.drop headerSize).drop 8) ∧
            NothingNew v (nodeMsgAt e (msg.drop headerSize)) nodeid
        | _ => True := by
  by_cases hlen : msg.length < 4
  · refine iff_of_false (fun h => ?_) fun h => absurd h.1 (Nat.not_le.mpr hlen)
    have hnone := (h ⟨true, true, true, none, []⟩).1
    rw [deliverBuf, if_pos hlen] at hnone
    cases hnone
  rw [and_iff_right (Nat.le_of_not_lt hlen)]
  rcases htype : load e (msg.take 4) with _ | _ | type
  · exact silent_sql_iff hlen htype
  · exact silent_state_iff hlen htype
  · refine iff_of_true (fun o => ⟨?_, ?_⟩) trivial
    · simp only [deliverBuf, if_neg hlen, htype]
    · simp [firedBuf, htype]

end Silent

/-- **The decoder accepts only whole messages** if and only if the message is well meant. -/
theorem acceptsOnlyWhole_iff (e : Endian) {v : Vip}
    (hv : ∀ p ∈ v.config.profiles.toList, 0 ∉ p.name) (nodeid : NodeId) (msg : List UInt8) :
    AcceptsOnlyWhole e v nodeid msg ↔ WellMeant e v nodeid msg := by
  by_cases hprod : Producible e msg
  · refine iff_of_true (fun o => ?_) (Or.inl hprod)
    rcases hprod with ⟨name, junk, sql, hname, hlen, hjunk, hsql, hmsg⟩ |
      ⟨nm, hmin, hmax, huuid, hlen, hmsg⟩
    · rw [hmsg]
      exact ⟨_, deliverBuf_sql hname hlen hjunk hsql hv,
        Or.inl (Or.inl ⟨name, junk, sql, hname, hlen, hjunk, hsql, rfl⟩)⟩
    · rw [hmsg]
      exact ⟨_, deliverBuf_state hmin hmax huuid hlen,
        Or.inl (Or.inr ⟨nm, hmin, hmax, huuid, hlen, rfl⟩)⟩
  · rw [WellMeant, or_iff_right hprod, ← silent_iff]
    apply forall_congr'
    intro o
    constructor
    · rintro ⟨result, hdeliver, hres⟩
      obtain ⟨rfl, hfired⟩ := hres.resolve_left hprod
      exact ⟨hdeliver, hfired⟩
    · rintro ⟨hdeliver, hfired⟩
      exact ⟨_, hdeliver, Or.inr ⟨rfl, hfired⟩⟩

/-- Node 1 is a backup in a group of two that has heard the master, node 2. -/
def masterHeard : Vip :=
  { Vip.fresh (plainConfig 10 oneProfile) with
    state := .backup, nodeId := 1, masterId := 2, nodeList := [⟨2, 20⟩, ⟨1, 10⟩]
    memberListEntries := 2 }

/-- A message of another type, a statement that breaks off in the name of an unknown profile, and a
node state of the master that breaks off in the field of the uuid. -/
theorem acceptsOnlyWhole_masterHeard : AcceptsOnlyWhole .little masterHeard 2 [2, 0, 0, 0] ∧
    AcceptsOnlyWhole .little masterHeard 2 (header .little 0 0 ++ [120, 121]) ∧
    AcceptsOnlyWhole .little masterHeard 2 (header .little 1 10 ++ [20, 0, 0, 0, 3, 0, 0, 0, 0]) := by
  have hv : ∀ p ∈ masterHeard.config.profiles.toList, 0 ∉ p.name := by decide
  have hsql : load .little ((header .little 0 0 ++ [120, 121]).take 4) = 0 := by decide
  have hstate : load .little ((header .little 1 10 ++ [20, 0, 0, 0, 3, 0, 0, 0, 0]).take 4) = 1 := by
    decide
  refine ⟨(acceptsOnlyWhole_iff .little hv 2 _).mpr (Or.inr ⟨by decide, trivial⟩),
    (acceptsOnlyWhole_iff .little hv 2 _).mpr (Or.inr ⟨by decide, ?_⟩),
    (acceptsOnlyWhole_iff .little hv 2 _).mpr (Or.inr ⟨by decide, ?_⟩)⟩
  · rw [hsql]
    exact Or.inr (by decide)
  · rw [hstate]
    refine ⟨by decide, fun _ => by decide, by decide, fun _ => by decide, fun h => ?_, ?_, ?_⟩
    · exact absurd h (by decide)
    · exact fun h => absurd h (by decide)
    · exact fun h => absurd h (by decide)

/-- A virtual ip without profiles. -/
def bareVip : Vip := Vip.fresh (bareVirtualIp.allocated.config .little)

/-- **A header alone**: the priority and the state of a node state are read behind the end of a
message that has none. -/
theorem header_alone_overread :
    ¬ ∀ (e : Endian) (v : Vip), (∀ p ∈ v.config.profiles.toList, 0 ∉ p.name) →
      ∀ (nodeid : NodeId) (msg : List UInt8), AcceptsOnlyWhole e v nodeid msg := by
  intro h
  obtain ⟨result, hresult, -⟩ := h .little bareVip terminated_profileTable 1 (header .little 1 10)
    ⟨true, true, true, none, []⟩
  have htype : load .little ((header .little 1 10).take 4) = 1 := by decide
  have hempty : (header .little 1 10).drop headerSize = [] := by decide
  have hshort : ¬ (header .little 1 10).length < 4 := by decide
  rw [deliverBuf, if_neg hshort, htype] at hresult
  simp [hempty] at hresult

end CpgFailover
