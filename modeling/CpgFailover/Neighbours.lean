import CpgFailover.Address
import CpgFailover.AddressText
import CpgFailover.Arp
import CpgFailover.Lib.ColonHex
import CpgFailover.Release

/-!
# The neighbours

Hosts on the segment remember which hardware address stands for an address. A takeover corrects them
with a gratuitous ARP: `do_config` has kept the text of the interface's hardware address, the text is
converted back for the frame, and the frame makes whoever has an entry replace it. So the entries of
the neighbours lead to the node that has the address, as long as only one node has it.

## Main definitions

* `nlAddr2str`, `etherAton`: a hardware address, to its text and from it
* `NodeHost`, `Deployment.Attached`: the machines of the nodes, on one segment
* `ArpCache.hear`: what a neighbour does with a frame
* `transmit`: the gratuitous ARPs of a callback, call by call
* `Segment`, `Segment.step`: the nodes and their neighbours

## Main results

* `etherAton_nlAddr2str`: the text of a hardware address is read back
* `Segment.exists_step`: the segment holds no step of the group up
* `neighbours_follow_address`: a neighbour's entry is that of the node that has the address
-/

namespace CpgFailover

open Agreed Transition
open Bytes (Endian load store)

/-! ## Hardware addresses -/

/-- `nl_addr2str` of a hardware address. -/
def nlAddr2str (m : EtherAddr) : CString := ColonHex.colons m.toList

/-- `ether_aton`. -/
def etherAton (s : CString) : Option EtherAddr :=
  (ColonHex.readBytes 6 s).bind fun bs => if h : bs.length = 6 then some ⟨bs, h⟩ else none

/-- **The text of a hardware address** is read back. -/
theorem etherAton_nlAddr2str (m : EtherAddr) : etherAton (nlAddr2str m) = some m := by
  have hread := ColonHex.readBytes_colons m.toList
  rw [m.toList_length] at hread
  rw [etherAton, nlAddr2str, hread, Option.bind_some, dif_pos m.toList_length]
  rfl

theorem length_nlAddr2str (m : EtherAddr) : (nlAddr2str m).length = 17 := by
  obtain ⟨bs, hlen⟩ := m
  obtain ⟨b, rest, rfl⟩ := List.exists_cons_of_length_eq_add_one hlen
  rw [List.length_cons] at hlen
  show (ColonHex.colons (b :: rest)).length = 17
  rw [ColonHex.length_colons]
  omega

theorem nlAddr2str_broadcast : nlAddr2str broadcast = broadcastString := by decide

/-! ## The machines -/

/-- The machine of a node: what the module finds there, its C library, and the hardware address of
the interface on the segment. -/
structure NodeHost where
  sys : Platform
  libc : Libc
  hardware : EtherAddr

/-- The C library converts addresses as documented. -/
structure NodeHost.Converts (w : NodeHost) : Prop where
  etherAton : ∀ m, w.libc.etherAton (nlAddr2str m) = some m
  inetAddr : ∀ s q, inetPton s = some q →
    store w.sys.byteOrder 4 (w.libc.inetAddr s).toNat = q

theorem NodeHost.Converts.broadcast {w : NodeHost} (h : w.Converts) :
    w.libc.etherAton broadcastString = some CpgFailover.broadcast := by
  rw [← nlAddr2str_broadcast, h.etherAton]

/-- Every node has read a document of its own, with profile names that fit and a virtual ip of this
group on the interface that attaches it to the segment. -/
def Deployment.Attached (d : Deployment) (w : NodeId → NodeHost) (group : CpgName) : Prop :=
  ∀ n ∈ d.nodes, ∃ doc r, Accepted (w n).sys doc ∧
    r ∈ (doConfig (w n).sys (some doc)).2 ∧ r.groupName = group ∧ r.device ≠ [] ∧
      (w n).sys.linkAddr r.device = some (nlAddr2str (w n).hardware) ∧
        d.config n = r.config (w n).sys.byteOrder

/-- The configuration of a node has the text of its hardware address, whole, and the address of the
group. -/
theorem Deployment.Attached.texts {d : Deployment} {w : NodeId → NodeHost} {group : CpgName}
    (h : d.Attached w group) {n : NodeId} (hn : n ∈ d.nodes) :
    (d.config n).mac = nlAddr2str (w n).hardware ∧ (d.config n).address = group.value := by
  obtain ⟨doc, r, hs, hr, hgroup, hne, hlink, hc⟩ := h n hn
  have haddr : r.address = group.value := by
    rw [← hgroup, (doConfig_group hs.success hr).2]
  rw [hc]
  refine ⟨?_, haddr⟩
  obtain ⟨x, -, hx⟩ := (doConfig_hash hs.success).element hr
  cases hv : lastValue x.params deviceText with
  | none =>
    -- without a device the record has none
    have hnone : r.device = [] := by
      rw [(configure_eq hx).2]
      simp [readParams, hv, VirtualIpElement.allocated]
    exact absurd hnone hne
  | some v =>
    obtain ⟨mac, -, hlink', hdevice, hmac⟩ := configure_device hx hv
    rw [hdevice, hlink'] at hlink
    show r.mac = _
    rw [hmac, Option.some.inj hlink]
    exact List.take_of_length_le (length_nlAddr2str _).le

/-! ## What a callback asks of the network -/

/-- A call that neither adds the address nor announces it. -/
def Effect.still : Effect → Bool
  | .addVip _ _ _ | .sendGarp _ _ _ _ => false
  | _ => true

/-- Such calls do not bring the address onto the interface. -/
theorem bound_of_still {calls : List Effect} (h : ∀ c ∈ calls, c.still = true) {a : Bool}
    (ha : calls.foldl Effect.bound a = true) : a = true := by
  induction calls generalizing a with
  | nil => exact ha
  | cons c calls ih =>
    have hbound : Effect.bound a c = true :=
      ih (fun c' hc' => h c' (List.mem_cons_of_mem _ hc')) ha
    have hstill := h c List.mem_cons_self
    cases c with
    | addVip | sendGarp => cases hstill
    | removeVip => cases hbound
    | recover | cleanUpTable | hupall | requestAll | trackEvent | sendState | createVipThread
    | createRollbackThread | joinVipThread | joinRollbackThread => exact hbound

/-- From `v` to `w` these calls were made: a gratuitous ARP is for the address and the hardware
address that are configured, one that is sent comes with a call for the address, and without one
the address does not come onto the interface. -/
structure Heralded (v w : Vip) (calls : List Effect) : Prop where
  config : w.config = v.config
  texts : ∀ mac address device ok, Effect.sendGarp mac address device ok ∈ calls →
    mac = v.config.mac ∧ address = v.config.address
  claimed : ∀ mac address device, Effect.sendGarp mac address device true ∈ calls →
    CpgFailover.claimed calls
  silent : (∀ mac address device, Effect.sendGarp mac address device true ∉ calls) →
    ∀ a, calls.foldl Effect.bound a = true → a = true

namespace Heralded

variable {u v w : Vip} {calls calls' : List Effect}

theorem refl (v : Vip) : Heralded v v [] := ⟨rfl, by simp, by simp, fun _ _ h => h⟩

theorem append (h : Heralded u v calls) (h' : Heralded v w calls') :
    Heralded u w (calls ++ calls') where
  config := h'.config.trans h.config
  texts mac address device ok hm := by
    rcases List.mem_append.mp hm with hm | hm
    · exact h.texts mac address device ok hm
    · rw [← h.config]
      exact h'.texts mac address device ok hm
  claimed mac address device hm := by
    rw [claimed_append]
    exact (List.mem_append.mp hm).imp (h.claimed mac address device) (h'.claimed mac address device)
  silent hno a ha := by
    rw [List.foldl_append] at ha
    refine h.silent (fun mac address device hm => hno _ _ _ (List.mem_append_left _ hm)) a ?_
    exact h'.silent (fun mac address device hm => hno _ _ _ (List.mem_append_right _ hm)) _ ha

/-- Calls that have nothing to do with the network. -/
theorem of_still (hc : w.config = v.config) (h : ∀ c ∈ calls, c.still = true) :
    Heralded v w calls where
  config := hc
  texts mac address device ok hm := by cases h _ hm
  claimed mac address device hm := by cases h _ hm
  silent _ a ha := bound_of_still h ha

end Heralded

theorem still_goDown (v : Vip) : ∀ c ∈ (goDown v).effects, c.still = true := by
  simp only [goDown, List.mem_append, List.mem_map, List.mem_singleton]
  rintro c (((⟨t, -, rfl⟩ | ⟨t, -, rfl⟩) | rfl) | ⟨p, -, rfl⟩) <;> rfl

/-- A takeover sends its gratuitous ARP with the address on the interface, or ends without it. -/
theorem heralded_becomeMaster (o : Outcome) (v : Vip) {recovery : List Effect}
    (h : ∀ c ∈ recovery, c.still = true) :
    Heralded v (becomeMaster o v recovery).vip (becomeMaster o v recovery).effects := by
  have hdown {mac address device : CString} {ok : Bool} :
      Effect.sendGarp mac address device ok ∉ (goDown { v with state := .master }).effects :=
    fun hm => by cases still_goDown _ _ hm
  have hrec {mac address device : CString} {ok : Bool} :
      Effect.sendGarp mac address device ok ∉ recovery := fun hm => by cases h _ hm
  have hconfig : (becomeMaster o v recovery).vip.config = v.config := by
    rw [becomeMaster_vip]
    split_ifs <;> rfl
  refine ⟨hconfig, ?_, ?_, ?_⟩
  · intro mac address device ok hm
    simp only [becomeMaster] at hm
    split_ifs at hm
    · simp [hrec, virtualIpSendState] at hm
      exact ⟨hm.1, hm.2.1⟩
    · simp [failTransition, hdown] at hm
      exact ⟨hm.1, hm.2.1⟩
    · simp [failTransition, hdown] at hm
  · intro mac address device _
    exact claimed_becomeMaster o v recovery
  · intro hno a ha
    simp only [becomeMaster] at hno ha
    split_ifs at hno ha with hadd hgarp
    · exact absurd (by simp [hgarp]) (hno v.config.mac v.config.address v.config.device)
    -- a takeover that fails gives the address back
    · rw [failTransition, List.foldl_append, foldl_bound_goDown] at ha
      cases ha
    · rw [failTransition, List.foldl_append, foldl_bound_goDown] at ha
      cases ha

/-- **What a transaction asks of the network.** -/
theorem heralded_fsmDoTransaction (o : Outcome) (v : Vip) (e : Event) :
    Heralded v (fsmDoTransaction o v e).vip (fsmDoTransaction o v e).effects := by
  have hto := fsmTo_fsmDoTransaction o v e
  have hconfig := fsmDoTransaction_config o v e
  generalize fsmDoTransaction o v e = r at hto hconfig ⊢
  cases hto with
  | @claim calls _ hc =>
    apply heralded_becomeMaster
    rcases hc with ⟨-, rfl⟩ | ⟨-, rfl⟩
    · simp
    · intro c hc
      obtain ⟨p, -, rfl⟩ := List.mem_map.mp hc
      rfl
  | down => exact .of_still hconfig (still_goDown v)
  | resign => exact .of_still hconfig (still_goDown v)
  | cleanUp =>
    refine .of_still hconfig fun c hc => ?_
    obtain ⟨p, -, rfl⟩ := List.mem_map.mp hc
    rfl
  | request _ hl hn =>
    refine .of_still hconfig ?_
    rw [rollback_cons hl hn]
    cases o.threadCreate <;> simp [Effect.still]
  | goUp =>
    refine .of_still hconfig ?_
    rw [goUp]
    cases o.threadCreate <;> simp [Effect.still]
  | stay | observe | nodeup | backupup | resume =>
    exact .of_still hconfig
      (by simp [CpgFailover.observe, CpgFailover.nodeup, CpgFailover.backupup, virtualIpSendState,
        virtualIpSendAllSql, Effect.still])

/-- **What a callback asks of the network.** -/
theorem heralded_handle (o : Outcome) (v : Vip) (e : Entry NodeId Msg) :
    Heralded v (handle o v e).1 (handle o v e).2 := by
  refine handle_rule (R := Heralded) .refl .append ?_ ?_ ?_ ?_ v e ?_
  · exact fun v e _ => heralded_fsmDoTransaction o v e
  · exact fun v x => .of_still rfl (by simp)
  · exact fun v nm y => .of_still (learn_config o v nm y) (by simp)
  · exact fun v k => .of_still rfl (by simp)
  · exact fun _ v sql name => .of_still rfl (by simp [Effect.still])

/-! ## Caches -/

/-- What a host remembers: the hardware address of each address. -/
abbrev ArpCache := List UInt8 → Option (List UInt8)

/-- A packet about IPv4 addresses on Ethernet. -/
def ArpPacket.Understood (p : ArpPacket) : Prop :=
  p.etherType = ethPArp ∧ p.hardwareType = arphrdEther ∧ p.protocolType = ethPIp ∧
    p.hardwareLength = 6 ∧ p.protocolLength = 4

instance (p : ArpPacket) : Decidable p.Understood := by
  unfold ArpPacket.Understood
  infer_instance

/-- What a host does with a frame: it replaces the entry it has for the sender. Whether it makes one
where it has none is its own affair. -/
def ArpCache.hear (makes : ArpPacket → Bool) (c : ArpCache) (frame : List UInt8) : ArpCache :=
  match ArpPacket.parse frame with
  | none => c
  | some p =>
    if p.Understood ∧ ((c p.senderProtocol).isSome ∨ makes p) then
      Function.update c p.senderProtocol (some p.senderHardware)
    else c

/-- The frame says that `hardware` stands for `q`. -/
def Declares (frame q hardware : List UInt8) : Prop :=
  ∃ p, ArpPacket.parse frame = some p ∧ p.Understood ∧ p.senderProtocol = q ∧
    p.senderHardware = hardware

/-- The entry for `q`, if there is one, is `hardware`. -/
def ArpCache.Leads (c : ArpCache) (q hardware : List UInt8) : Prop := ∀ m ∈ c q, m = hardware

section Hear

variable {makes : ArpPacket → Bool} {c : ArpCache} {frame q hardware : List UInt8}

/-- **An announcement is believed** by whoever has an entry. -/
theorem ArpCache.leads_hear (h : Declares frame q hardware) :
    (c.hear makes frame).Leads q hardware := by
  obtain ⟨p, hp, hu, rfl, rfl⟩ := h
  intro m hm
  rw [hear, hp] at hm
  simp only [hu, true_and] at hm
  split_ifs at hm with hs
  · rw [Function.update_self] at hm
    exact (Option.some.inj hm).symm
  · -- there was no entry, and none has been made
    obtain ⟨hnone, -⟩ := not_or.mp hs
    rw [Option.not_isSome_iff_eq_none.mp hnone] at hm
    cases hm

theorem ArpCache.leads_foldl_hear {frames : List (List UInt8)} (hne : frames ≠ [])
    (h : ∀ f ∈ frames, Declares f q hardware) :
    (frames.foldl (ArpCache.hear makes) c).Leads q hardware := by
  induction frames generalizing c with
  | nil => exact absurd rfl hne
  | cons f frames ih =>
    rw [List.foldl_cons]
    by_cases hlast : frames = []
    · subst hlast
      exact leads_hear (h f List.mem_cons_self)
    · exact ih hlast fun f' hf' => h f' (List.mem_cons_of_mem _ hf')

/-- A frame about another address is no matter. -/
theorem ArpCache.hear_other (h : ∀ p ∈ ArpPacket.parse frame, p.senderProtocol ≠ q) :
    c.hear makes frame q = c q := by
  rw [hear]
  cases hp : ArpPacket.parse frame with
  | none => rfl
  | some p =>
    simp only
    split_ifs
    · exact Function.update_of_ne (h p hp).symm _ _
    · rfl

end Hear

/-! ## The calls of a callback -/

/-- How a call of `utils_send_gARP` goes: the static rings it finds, the order in which its arguments
are evaluated, and the outcomes of its system calls. -/
structure GarpRun where
  rings : ArpState
  order : List Arg
  outcome : NetOutcome

/-- The first call of a process, from left to right; `ok` is what `sendto` comes to. -/
def GarpRun.first (ok : Bool) : GarpRun where
  rings :=
    { macBroadcast := List.Vector.replicate 6 0
      ip := ⟨⟨0, Nat.zero_lt_succ 7⟩, fun _ => 0⟩
      eth := ⟨⟨0, Nat.zero_lt_succ 7⟩, fun _ => List.Vector.replicate 6 0⟩ }
  order := Arg.all
  outcome := ⟨true, true, ok, List.Vector.replicate 128 0⟩

/-- The calls of `utils_send_gARP` among these, each as it goes, and the frames that have been sent;
nothing if a call does not end as the action has seen it, or does not end. -/
def transmit (w : NodeHost) : List Effect → List GarpRun → Option (List (List UInt8))
  | [], [] => some []
  | [], _ :: _ => none
  | .sendGarp mac address device ok :: calls, run :: runs =>
    match utilsSendGarp w.libc w.sys.byteOrder run.rings run.order mac address device
      run.outcome with
    | none => none
    | some (_, status, sent) =>
      if run.order.Perm Arg.all ∧ (status = .success ↔ ok = true) then
        (transmit w calls runs).map fun frames =>
          -- what `sendto` has refused is not on the wire
          (if ok then sent.toList.map Datagram.packet else []) ++ frames
      else none
  | .sendGarp _ _ _ _ :: _, [] => none
  | _ :: calls, runs => transmit w calls runs

section Transmit

variable {w : NodeHost} {m : EtherAddr} {address : CString} {q : List UInt8}

/-- **A gratuitous ARP** for the hardware address of the text: a frame is given to `sendto`, if the
socket is there, and announces it; the status is that of `sendto`. -/
theorem utilsSendGarp_spec (hw : w.Converts) (m : EtherAddr) (hq : inetPton address = some q)
    (device : CString) (run : GarpRun) (ho : run.order.Perm Arg.all) :
    ∃ st status sent, utilsSendGarp w.libc w.sys.byteOrder run.rings run.order (nlAddr2str m)
        address device run.outcome = some (st, status, sent) ∧
      (∀ dg ∈ sent, Declares dg.packet q m.toList) ∧
      (status = .success → sent.isSome = true) ∧
      (run.outcome.socket = true → run.outcome.setsockopt = true →
        (status = .success ↔ run.outcome.sendto = true)) := by
  have hb := hw.broadcast
  have hip := hw.inetAddr address q hq
  have hbcast : ethAton w.libc run.rings broadcastString =
      some ({ run.rings with eth := (run.rings.eth.push broadcast).1 },
        (run.rings.eth.push broadcast).2) := by
    simp [ethAton, hb]
  obtain ⟨s, hs, hsource, hdest, hsender, hips, htarget, hipt⟩ :=
    evalArgs_garpArgs (hw.etherAton m) hb ho address device ⟨{ run.rings with
      eth := (run.rings.eth.push broadcast).1
      macBroadcast := (run.rings.eth.push broadcast).1.slots (run.rings.eth.push broadcast).2 },
      fun _ => 0, 0⟩
  rw [utilsSendGarp, netSendArpString, hbcast]
  simp only [Option.bind_some]
  rw [show (⟨nlAddr2str m, broadcastString, 1, nlAddr2str m, address, nlAddr2str m, address,
    device⟩ : ArpArgs) = garpArgs (nlAddr2str m) address device from rfl, hs]
  simp only [Option.map_some, hsource, hdest, hsender, hips, htarget, hipt]
  refine ⟨_, _, _, rfl, ?_, ?_, ?_⟩
  · intro dg hdg
    rw [netSendArp_packet] at hdg
    split_ifs at hdg
    · cases hdg
    · obtain rfl := Option.some.inj hdg
      obtain ⟨-, hparse⟩ := parse_arpFrame w.sys.byteOrder m broadcast m m
        (show 1 < 256 ^ 2 by decide) (w.libc.inetAddr address) (w.libc.inetAddr address)
      exact ⟨_, hparse, ⟨rfl, rfl, rfl, rfl, rfl⟩, hip, rfl⟩
  · intro hstatus
    rw [netSendArp_packet]
    split_ifs with hsock
    · -- without a socket, or the option, the result is not zero
      exfalso
      rcases hsock with hsock | ⟨hd, hopt⟩
      · simp [netSendArp, hsock] at hstatus
      · simp [netSendArp, hopt, ← hd] at hstatus
    · rfl
  · intro hsock hopt
    simp only [netSendArp, hsock, hopt, Bool.true_eq_false, and_false, if_false]
    cases run.outcome.sendto <;> simp

/-- Calls for the address and the hardware address of the node. -/
def Own (m : EtherAddr) (address : CString) (calls : List Effect) : Prop :=
  ∀ mac a device ok, Effect.sendGarp mac a device ok ∈ calls → mac = nlAddr2str m ∧ a = address

theorem Own.tail {c : Effect} {calls : List Effect} (h : Own m address (c :: calls)) :
    Own m address calls :=
  fun mac a device ok hm => h mac a device ok (List.mem_cons_of_mem _ hm)

/-- A node of the deployment makes such calls only. -/
theorem Deployment.Attached.own {d : Deployment} {w : NodeId → NodeHost} {group : CpgName}
    (ha : d.Attached w group) {n : NodeId} (hn : n ∈ d.nodes) {v v' : Vip} {calls : List Effect}
    (hc : v.config = d.config n) (h : Heralded v v' calls) :
    Own (w n).hardware group.value calls := by
  obtain ⟨hmac, haddress⟩ := ha.texts hn
  intro mac a device ok hm
  rw [← hmac, ← haddress, ← hc]
  exact h.texts mac a device ok hm

/-- **What is sent announces the node**, and something is sent if and only if a call succeeds. -/
theorem transmit_declares (hw : w.Converts) (hq : inetPton address = some q)
    {calls : List Effect} {runs : List GarpRun} {frames : List (List UInt8)}
    (hown : Own m address calls) (h : transmit w calls runs = some frames) :
    (∀ f ∈ frames, Declares f q m.toList) ∧
      (frames ≠ [] ↔ ∃ mac a device, Effect.sendGarp mac a device true ∈ calls) := by
  -- Induction on the calls, with the run of each.
  induction calls generalizing runs frames with
  | nil =>
    cases runs with
    | nil =>
      obtain rfl := Option.some.inj h
      simp
    | cons => cases h
  | cons c calls ih =>
    cases c with
    | sendGarp mac a device ok =>
      cases runs with
      | nil => cases h
      | cons run runs =>
        obtain ⟨rfl, rfl⟩ := hown mac a device ok List.mem_cons_self
        rw [transmit] at h
        split at h
        · cases h
        rename_i st status sent hsend
        obtain ⟨⟨ho, hok⟩, h⟩ := Option.ite_none_right_eq_some.mp h
        obtain ⟨rest, hrest, rfl⟩ := Option.map_eq_some_iff.mp h
        obtain ⟨hall, hiff⟩ := ih hown.tail hrest
        obtain ⟨st', status', sent', hsend', hdg, hsome, -⟩ :=
          utilsSendGarp_spec hw m hq device run ho
        cases hsend.symm.trans hsend'
        cases ok with
        | false =>
          refine ⟨hall, hiff.trans ⟨?_, ?_⟩⟩
          · rintro ⟨mac, a, device, hm⟩
            exact ⟨mac, a, device, List.mem_cons_of_mem _ hm⟩
          · rintro ⟨mac, a, device, hm⟩
            rcases List.mem_cons.mp hm with hm | hm
            · cases hm
            · exact ⟨mac, a, device, hm⟩
        | true =>
          obtain ⟨dg, hdg'⟩ := Option.isSome_iff_exists.mp (hsome (hok.mpr rfl))
          subst hdg'
          refine ⟨?_, iff_of_true (by simp) ⟨_, _, _, List.mem_cons_self⟩⟩
          intro f hf
          rcases List.mem_cons.mp hf with rfl | hf
          · exact hdg dg rfl
          · exact hall f hf
    | addVip | removeVip | recover | cleanUpTable | hupall | requestAll | trackEvent | sendState
    | createVipThread | createRollbackThread | joinVipThread | joinRollbackThread =>
      obtain ⟨hall, hiff⟩ := ih hown.tail h
      refine ⟨hall, hiff.trans ?_⟩
      simp

/-- Whatever the calls are to come to, they can. -/
theorem exists_transmit (hw : w.Converts) (hq : inetPton address = some q)
    {calls : List Effect} (hown : Own m address calls) :
    ∃ runs frames, transmit w calls runs = some frames := by
  induction calls with
  | nil => exact ⟨[], [], rfl⟩
  | cons c calls ih =>
    obtain ⟨runs, frames, hrest⟩ := ih hown.tail
    cases c with
    | sendGarp mac a device ok =>
      obtain ⟨rfl, rfl⟩ := hown mac a device ok List.mem_cons_self
      obtain ⟨st, status, sent, hsend, -, -, hstatus⟩ :=
        utilsSendGarp_spec hw m hq device (.first ok) (List.Perm.refl _)
      refine ⟨.first ok :: runs,
        (if ok then sent.toList.map Datagram.packet else []) ++ frames, ?_⟩
      rw [transmit, hsend]
      simp only
      rw [if_pos ⟨List.Perm.refl _, hstatus rfl rfl⟩, hrest, Option.map_some]
    | addVip | removeVip | recover | cleanUpTable | hupall | requestAll | trackEvent | sendState
    | createVipThread | createRollbackThread | joinVipThread | joinRollbackThread =>
      exact ⟨runs, frames, hrest⟩

end Transmit

/-! ## The segment -/

/-- The nodes of the group, and the caches of the hosts on their segment. -/
structure Segment (ν : Type) where
  group : Cluster
  cache : ν → ArpCache

/-- The steps on the segment: a step of the group, with the gratuitous ARPs it sends; a host asks for
the address, and a node answers; a host hears a frame of somebody else; a host forgets an entry. -/
inductive SegmentStep (ν : Type) where
  | group (l : ClusterStep) (runs : List GarpRun)
  | answer (v : ν) (n : NodeId)
  | hear (v : ν) (frame : List UInt8)
  | forget (v : ν) (ip : List UInt8)

namespace Segment

variable {ν : Type} [DecidableEq ν]

/-- Nobody has joined yet; what the hosts remember is whatever they remember. -/
def start (d : Deployment) (cache : ν → ArpCache) : Segment ν := ⟨d.start, cache⟩

/-- The host `v` has this cache now. -/
def setCache (g : Segment ν) (v : ν) (c : ArpCache) : Segment ν :=
  { g with cache := Function.update g.cache v c }

/-- One step on the segment of the address `q`. -/
def step (d : Deployment) (w : NodeId → NodeHost) (makes : ν → ArpPacket → Bool) (q : List UInt8)
    (g : Segment ν) : SegmentStep ν → Option (Segment ν)
  | .group l runs =>
    (d.step g.group l).bind fun group =>
      match l with
      | .deliver n _ =>
        -- the calls of this callback are those the transcript has got
        let calls := (group.transcript.drop g.group.transcript.length).flatMap Record.out
        (transmit (w n) calls runs).map fun frames =>
          ⟨group, fun v => frames.foldl (ArpCache.hear (makes v)) (g.cache v)⟩
      | _ => some { g with group := group }
  -- the kernel of a machine answers for the addresses of its interface
  | .answer v n =>
    if g.group.HasAddress n then
      some (g.setCache v (Function.update (g.cache v) q (some (w n).hardware.toList)))
    else none
  | .hear v frame => some (g.setCache v ((g.cache v).hear (makes v) frame))
  | .forget v ip => some (g.setCache v (Function.update (g.cache v) ip none))

end Segment

namespace Cluster

variable {d : Deployment} {g g' : Cluster} {l : ClusterStep} {n m : NodeId}

/-- Outside the callbacks nobody gets the address. -/
theorem hasAddress_of_step (hs : d.step g l = some g') (hl : ∀ n o, l ≠ .deliver n o)
    (hm : g'.HasAddress m) : g.HasAddress m := by
  cases Group.stepTo_of_step hs with
  | act hup ha hp => exact hasAddress_act hup ha hp hm
  | deliver => exact absurd rfl (hl _ _)
  | @order n msg rest hv hout =>
    by_cases hmn : m = n
    · subst hmn
      simpa [HasAddress, Cluster.proc] using hm
    · simpa only [HasAddress, Cluster.proc, Group.setSite_of_ne hmn] using hm
  | @confchg left joined hc =>
    obtain ⟨hup, ha⟩ := hm
    simp only [Cluster.proc, Group.change, Site.enter] at hup ha
    constructor
    · split_ifs at hup <;> exact hup
    · unfold Cluster.proc
      split_ifs at ha <;> exact ha
  | crash n =>
    by_cases hmn : m = n
    · subst hmn
      simp [HasAddress] at hm
    · simpa only [HasAddress, Cluster.proc, Group.setSite_of_ne hmn] using hm
  | @boot n hup =>
    by_cases hmn : m = n
    · subst hmn
      simp [HasAddress, Cluster.proc, cluster, Proc.fresh] at hm
    · simpa only [HasAddress, Cluster.proc, Group.setSite_of_ne hmn] using hm

/-- A node that handles an entry is one of the deployment, has its configuration, and makes the
calls of a callback. -/
theorem heralded_nodeDeliver (h : ReachesWhen d.step (Releasing d) d.start g) {since next : ℕ}
    {e : Entry NodeId Msg} {o : Outcome} {s : Proc} {out : List Effect}
    (hc : (g.site n).conn = .member since next)
    (hd : nodeDeliver n (g.site n).st e o = some (s, out)) :
    (g.site n).up = true ∧ n ∈ d.nodes ∧ (g.proc n).vip.config = d.config n ∧
      Heralded (g.proc n).vip s.vip out ∧ s.address = out.foldl Effect.bound (g.proc n).address := by
  obtain ⟨hup, -⟩ := (sound Releasing.clean h).member hc
  have hstage := (stages Releasing.clean h).site n hup
  obtain ⟨⟨th, hth, -⟩, o', -, -, -, hv, -, hout⟩ := nodeDeliver_eq_some hd
  refine ⟨hup, hstage.node (List.ne_nil_of_mem hth), hstage.config, ?_, ?_⟩
  · rw [hv, hout]
    exact heralded_handle o' _ e
  · obtain ⟨-, hd⟩ := Option.ite_none_right_eq_some.mp hd
    obtain ⟨rfl, rfl⟩ := Prod.mk.inj (Option.some.inj hd)
    exact Proc.foldl_perform_address _ _

end Cluster

/-- The conditions for a release before takeover, and nobody else announces the address. -/
def Uncontested {ν : Type} (d : Deployment) (q : List UInt8) (g : Segment ν) :
    SegmentStep ν → Prop
  | .group l _ => Releasing d g.group l
  | .hear _ frame => ∀ p ∈ ArpPacket.parse frame, p.senderProtocol ≠ q
  | _ => True

namespace Segment

variable {ν : Type} [DecidableEq ν] {d : Deployment} {w : NodeId → NodeHost}
  {makes : ν → ArpPacket → Bool} {group : CpgName} {q : List UInt8} {g g' : Segment ν}

/-- The group is in one of its states, and the entries of the neighbours lead to whoever has the
address. -/
structure Followed (d : Deployment) (w : NodeId → NodeHost) (q : List UInt8) (g : Segment ν) :
    Prop where
  reached : ReachesWhen d.step (Releasing d) d.start g.group
  leads : ∀ n, g.group.HasAddress n → ∀ v, (g.cache v).Leads q (w n).hardware.toList

/-- A host has a new cache. -/
theorem Followed.setCache (h : Followed d w q g) {v : ν} {c : ArpCache}
    (hc : ∀ n, g.group.HasAddress n → c.Leads q (w n).hardware.toList) :
    Followed d w q (g.setCache v c) where
  reached := h.reached
  leads n hn u := by
    by_cases hu : u = v
    · subst hu
      simp only [Segment.setCache, Function.update_self]
      exact hc n hn
    · simp only [Segment.setCache, Function.update_of_ne hu]
      exact h.leads n hn u

omit [DecidableEq ν] in
/-- **A callback**: whoever has got the address by it has announced itself. -/
theorem Followed.deliver (h : Followed d w q g) (hdist : d.Distinct)
    (hw : ∀ n ∈ d.nodes, (w n).Converts) (ha : d.Attached w group)
    (hq : inetPton group.value = some q) {n : NodeId} {o : Outcome} {since next : ℕ}
    {e : Entry NodeId Msg} {s : Proc} {out : List Effect} {runs : List GarpRun}
    {frames : List (List UInt8)} (hok : Releasing d g.group (.deliver n o))
    (hs : d.step g.group (.deliver n o) = some (g.group.handled (cluster d) n since next s out))
    (hc : (g.group.site n).conn = .member since next)
    (hd : nodeDeliver n (g.group.site n).st e o = some (s, out))
    (ht : transmit (w n) out runs = some frames) :
    Followed d w q ⟨g.group.handled (cluster d) n since next s out,
      fun v => frames.foldl (ArpCache.hear (makes v)) (g.cache v)⟩ := by
  have h' := h.reached.tail hok hs
  refine ⟨h', fun m hm v => ?_⟩
  obtain ⟨hup, hn, hconfig, hherald, haddr⟩ := Cluster.heralded_nodeDeliver h.reached hc hd
  obtain ⟨hall, hiff⟩ := transmit_declares (hw n hn) hq (ha.own hn hconfig hherald) ht
  by_cases hsent : frames = []
  · -- nobody has got the address
    have hno : ¬ ∃ mac a device, Effect.sendGarp mac a device true ∈ out :=
      fun hex => hiff.mpr hex hsent
    have hold : g.group.HasAddress m := by
      by_cases hmn : m = n
      · subst hmn
        have hs : s.address = true := by simpa [Cluster.proc] using hm.2
        rw [haddr] at hs
        exact ⟨hup, hherald.silent (fun mac a device hmem => hno ⟨mac, a, device, hmem⟩) _ hs⟩
      · simpa only [Cluster.HasAddress, Cluster.proc, Group.handled_of_ne hmn] using hm
    simp only [hsent, List.foldl_nil]
    exact h.leads m hold v
  · -- the node that has announced itself is the one that has the address
    obtain ⟨mac, a, device, hmem⟩ := hiff.mp hsent
    have hasks : g.group.Asks (g.group.handled (cluster d) n since next s out) n :=
      ⟨_, rfl, rfl, hherald.claimed mac a device hmem⟩
    have hkeeps := hasks.keeps Releasing.clean h.reached hok hs
    obtain rfl := Cluster.keeps_unique hdist h' (Cluster.keeps_of_hasAddress h' hm) hkeeps
    exact ArpCache.leads_foldl_hear hsent hall

/-- **One step on the segment.** -/
theorem Followed.step (h : Followed d w q g) (hdist : d.Distinct)
    (hw : ∀ n ∈ d.nodes, (w n).Converts) (ha : d.Attached w group)
    (hq : inetPton group.value = some q) {l : SegmentStep ν} (hok : Uncontested d q g l)
    (hs : g.step d w makes q l = some g') : Followed d w q g' := by
  cases l with
  | group l runs =>
    obtain ⟨group', hg, hs⟩ := Option.bind_eq_some_iff.mp hs
    have hquiet (hl : ∀ n o, l ≠ .deliver n o) :
        Followed d w q { g with group := group' } :=
      ⟨h.reached.tail hok hg, fun m hm => h.leads m (Cluster.hasAddress_of_step hg hl hm)⟩
    cases l with
    | deliver n o =>
      obtain ⟨frames, ht, rfl⟩ := Option.map_eq_some_iff.mp hs
      cases Group.stepTo_of_step hg with
      | @deliver _ _ since next e s out hc he hd =>
        have hcalls : ((g.group.handled (cluster d) n since next s out).transcript.drop
            g.group.transcript.length).flatMap Record.out = out := by
          simp [Group.handled]
        rw [hcalls] at ht
        exact h.deliver hdist hw ha hq hok hg hc hd ht
    | act | order | confchg | crash | boot =>
      obtain rfl := Option.some.inj hs
      exact hquiet fun n o hl => by cases hl
  | answer v n =>
    obtain ⟨hn, hs⟩ := Option.ite_none_right_eq_some.mp hs
    obtain rfl := Option.some.inj hs
    refine h.setCache fun m hm => ?_
    obtain rfl := Cluster.keeps_unique hdist h.reached (Cluster.keeps_of_hasAddress h.reached hm)
      (Cluster.keeps_of_hasAddress h.reached hn)
    intro hardware hmem
    rw [Function.update_self] at hmem
    exact (Option.some.inj hmem).symm
  | hear v frame =>
    obtain rfl := Option.some.inj hs
    refine h.setCache fun m hm hardware hmem => ?_
    rw [ArpCache.hear_other hok] at hmem
    exact h.leads m hm v hardware hmem
  | forget v ip =>
    obtain rfl := Option.some.inj hs
    refine h.setCache fun m hm hardware hmem => ?_
    by_cases hip : q = ip
    · rw [hip, Function.update_self] at hmem
      cases hmem
    · rw [Function.update_of_ne hip] at hmem
      exact h.leads m hm v hardware hmem

/-- **The segment holds no step of the group up**: whatever the calls of a callback are to come to,
there are gratuitous ARPs that do. -/
theorem exists_step (hw : ∀ n ∈ d.nodes, (w n).Converts) (ha : d.Attached w group)
    (hq : inetPton group.value = some q) (h : Followed d w q g) {l : ClusterStep} {g₁ : Cluster}
    (hs : d.step g.group l = some g₁) :
    ∃ runs g', g.step d w makes q (.group l runs) = some g' ∧ g'.group = g₁ := by
  cases l with
  | deliver n o =>
    cases Group.stepTo_of_step hs with
    | @deliver _ _ since next e s out hc he hd =>
      obtain ⟨-, hn, hconfig, hherald, -⟩ := Cluster.heralded_nodeDeliver h.reached hc hd
      obtain ⟨runs, frames, ht⟩ := exists_transmit (hw n hn) hq (ha.own hn hconfig hherald)
      refine ⟨runs, ⟨_, fun v => frames.foldl (ArpCache.hear (makes v)) (g.cache v)⟩, ?_, rfl⟩
      rw [Segment.step, hs]
      simp [Group.handled, ht]
  | act | order | confchg | crash | boot =>
    refine ⟨[], { g with group := g₁ }, ?_, rfl⟩
    rw [Segment.step, hs]
    rfl

end Segment

/-- **The neighbours follow the address.** Let every node have read a virtual ip of the group from a
document of its own, on an interface of the segment. In every run in which the address is released
before it is taken over, whatever the hosts on the segment remember at first, ask, hear of other
addresses and forget, and whenever a host makes an entry: as long as a live node has the address, a
host that has an entry for it has the hardware address of that node. -/
theorem neighbours_follow_address {ν : Type} [DecidableEq ν] {d : Deployment}
    {w : NodeId → NodeHost} {makes : ν → ArpPacket → Bool} {group : CpgName} {q : List UInt8}
    (hd : d.Distinct) (hw : ∀ n ∈ d.nodes, (w n).Converts) (ha : d.Attached w group)
    (hq : inetPton group.value = some q) {cache : ν → ArpCache} {g : Segment ν}
    (h : ReachesWhen (Segment.step d w makes q) (Uncontested d q) (.start d cache) g) :
    (∀ n, g.group.HasAddress n → ∀ v, ∀ hardware ∈ g.cache v q,
      hardware = (w n).hardware.toList) ∧
      ∀ l g₁, d.step g.group l = some g₁ →
        ∃ runs g', g.step d w makes q (.group l runs) = some g' ∧ g'.group = g₁ := by
  have hfollowed : Segment.Followed d w q g := by
    refine h.invariant ⟨.refl, ?_⟩ fun _ _ _ _ hf hok hs => hf.step hd hw ha hq hok hs
    rintro n ⟨-, haddr⟩
    simp [Cluster.proc, Segment.start, Deployment.start, Group.init, cluster, Proc.fresh] at haddr
  exact ⟨hfollowed.leads, fun l g₁ => Segment.exists_step hw ha hq hfollowed⟩

instance {ν : Type} (d : Deployment) (q : List UInt8) (g : Segment ν) :
    (l : SegmentStep ν) → Decidable (Uncontested d q g l)
  | .group l _ => inferInstanceAs (Decidable (Releasing d g.group l))
  | .hear _ frame => by
    unfold Uncontested
    dsimp only
    infer_instance
  | .answer _ _ | .forget _ _ => isTrue trivial

/-- The C library of a little-endian machine. -/
def cLibrary : Libc where
  etherAton := etherAton
  inetAddr s := ((inetPton s).map fun q => UInt32.ofNat (load .little q)).getD 0xFFFFFFFF
  siocgifindex _ := some 2

/-- `"eth0"`. -/
def eth0Text : CString := [101, 116, 104, 48]

/-- A machine with the node's number at the end of its hardware address. -/
def numberedHost (n : NodeId) : NodeHost where
  sys := { oneInterface with
    linkAddr := fun name =>
      if name = eth0Text then some (nlAddr2str ⟨[2, 0, 0, 0, 0, UInt8.ofNat n], rfl⟩) else none }
  libc := cLibrary
  hardware := ⟨[2, 0, 0, 0, 0, UInt8.ofNat n], rfl⟩

theorem converts_numberedHost (n : NodeId) : (numberedHost n).Converts where
  etherAton := etherAton_nlAddr2str
  inetAddr s q hq := by
    have hlen : q.length = 4 := (DottedQuad.dotted_of_parse hq).2
    have hbytes := Bytes.store_load .little q
    rw [hlen] at hbytes
    have hlt : load .little q < 2 ^ 32 := by
      calc load .little q = load .little (store .little 4 (load .little q)) := by rw [hbytes]
        _ = load .little q % 256 ^ 4 := Bytes.value_digits 4 _
        _ < 2 ^ 32 := Nat.mod_lt _ (by decide)
    show store .little 4 (((inetPton s).map fun q => UInt32.ofNat (load .little q)).getD
      0xFFFFFFFF).toNat = q
    rw [hq, Option.map_some, Option.getD_some, UInt32.toNat_ofNat_of_lt' hlt, hbytes]

/-- `<virtualip address="1.1.1.1">` on `eth0`, with a priority. -/
def deviceElement (n : NodeId) : VirtualIpElement :=
  { bareVirtualIp with
    params := [⟨deviceText, eth0Text⟩, ⟨priorityText, if n = 10 then [51, 48] else [50, 48]⟩] }

/-- Two nodes on one segment. -/
def neighbouring : Deployment where
  nodes := [20, 10]
  config n := ((configure (numberedHost n).sys (deviceElement n)).getD
    (deviceElement n).allocated).config .little
  zero_notMem := by decide

/-- Steps of the group that send nothing. -/
def silently (ls : List ClusterStep) : List (SegmentStep Unit) := ls.map (.group · [])

/-- One node serves the address, and another joins it; a host asks for the address. Then the first
node dies, and the second takes over. -/
def askedBefore : List (SegmentStep Unit) :=
  silently (launch 10 0 ++ [.confchg [] [10]] ++ deliveries 10 1 ++ [.order 10]) ++
    [.group (.deliver 10 allSucceed) [.first true]] ++
    silently ([.order 10] ++ deliveries 10 1 ++ secondUp 10 20) ++
    [.forget () [1, 1, 1, 1], .answer () 10] ++ silently [.crash 10, .confchg [10] []] ++
    [.group (.deliver 20 allSucceed) [.first true]]

/-- The segment after the takeover; the host does not make entries by itself. -/
def correctedHost : Segment Unit :=
  (runWhen (Segment.step neighbouring numberedHost (fun _ _ => false) [1, 1, 1, 1])
    (Uncontested neighbouring [1, 1, 1, 1]) (.start neighbouring fun _ _ => none)
    askedBefore).getD (.start neighbouring fun _ _ => none)

/-- What `do_config` has installed on a machine with a number. -/
theorem attached_neighbouring : neighbouring.Attached numberedHost ⟨7, bareVirtualIp.address⟩ := by
  intro n hn
  have hs : (doConfig (numberedHost n).sys (some [deviceElement n])).1 = .success := by
    rcases List.mem_pair.mp hn with rfl | rfl <;> decide
  have hfits : ∀ x ∈ [deviceElement n], ∀ p ∈ x.profiles, p.name.length < maxSofiaName := by
    rcases List.mem_pair.mp hn with rfl | rfl <;> decide
  obtain ⟨r, hr, hc⟩ := (doConfig_hash hs).record (x := deviceElement n) (by
    rcases List.mem_pair.mp hn with rfl | rfl <;> decide)
  have hvalid : utilsIpIsValid (deviceElement n).address = true := by
    show utilsIpIsValid bareVirtualIp.address = true
    decide
  obtain ⟨mac, -, hlink, hdevice, -⟩ := configure_device hc (v := eth0Text) rfl
  refine ⟨_, r, ⟨hs, hfits⟩, hr, ?_, ?_, ?_, ?_⟩
  · rw [(doConfig_group hs hr).2, configure_address hc hvalid]
    rfl
  · rw [hdevice]
    decide
  · rw [hdevice]
    rfl
  · show ((configure (numberedHost n).sys (deviceElement n)).getD _).config .little = _
    rw [hc]
    rfl

set_option maxRecDepth 10000 in
theorem neighbours_follow_address_corrected : correctedHost.group.HasAddress 20 ∧
    correctedHost.cache () [1, 1, 1, 1] = some [2, 0, 0, 0, 0, 20] := by
  have hn : correctedHost.group.HasAddress 20 := by decide +kernel
  refine ⟨hn, ?_⟩
  have hsome : (correctedHost.cache () [1, 1, 1, 1]).isSome := by decide +kernel
  obtain ⟨hardware, hh⟩ := Option.isSome_iff_exists.mp hsome
  have hq : inetPton bareVirtualIp.address = some [1, 1, 1, 1] := by decide
  have hrun : ReachesWhen (Segment.step neighbouring numberedHost (fun _ _ => false) [1, 1, 1, 1])
      (Uncontested neighbouring [1, 1, 1, 1]) (.start neighbouring fun _ _ => none)
      correctedHost := reachesWhen_getD _
  obtain ⟨hleads, -⟩ := neighbours_follow_address (by decide +kernel)
    (fun n _ => converts_numberedHost n) attached_neighbouring hq hrun
  rw [hh, hleads 20 hn () hardware hh]
  rfl

end CpgFailover
