import CpgFailover.Lib.Bytes
import CpgFailover.Lib.SlotRing
import CpgFailover.VirtualIp

/-!
# Gratuitous ARP

`arpator.c` and its caller: the textual addresses of a call are converted into two static rings of
eight slots each, in whatever order the compiler evaluates the arguments, and the frame is assembled
from what the slots hold then.

## Main definitions

* `Libc`: the conversions of the C library, and the index of an interface
* `ArpState`, `ipAton`, `ethAton`: the static rings, and the conversions into them
* `netSendArp`, `netSendArpString`, `utilsSendGarp`: the functions of the source
* `ArpPacket.parse`: what a frame says

## Main results

* `evalArgs_reads`: no slot is overwritten before it is read, in any order of evaluation
* `netSendArp_packet`: the frame that is sent
* `garp_frame`: a gratuitous ARP says what it should
-/

namespace CpgFailover

open Bytes

/-- `struct ether_addr`. -/
abbrev EtherAddr := List.Vector UInt8 6

/-- `ether_aton` and `inet_addr`, and the `SIOCGIFINDEX` request. -/
structure Libc where
  etherAton : CString → Option EtherAddr
  inetAddr : CString → UInt32
  siocgifindex : CString → Option ℤ

/-! ## The rings -/

/-- The static variables of `arpator.c`. -/
structure ArpState where
  macBroadcast : EtherAddr
  ip : SlotRing UInt32 8
  eth : SlotRing EtherAddr 8

/-- `ip_aton`; the result points to a slot. -/
def ipAton (libc : Libc) (st : ArpState) (ip : CString) : ArpState × Fin 8 :=
  let r := st.ip.push (libc.inetAddr ip)
  ({ st with ip := r.1 }, r.2)

/-- `eth_aton`. An address that does not parse is copied from the null pointer. -/
def ethAton (libc : Libc) (st : ArpState) (mac : CString) : Option (ArpState × Fin 8) :=
  (libc.etherAton mac).map fun m =>
    let r := st.eth.push m
    ({ st with eth := r.1 }, r.2)

/-- `ifx_aton`. -/
def ifxAton (libc : Libc) (itrf : CString) : ℤ := (libc.siocgifindex itrf).getD (-1)

/-! ## The frame -/

def ethPArp : ℕ := 0x0806

def ethPIp : ℕ := 0x0800

def arphrdEther : ℕ := 1

/-- `struct ethhdr` in memory. -/
def ethhdr (e : Endian) (dest source : EtherAddr) : List UInt8 :=
  dest.toList ++ source.toList ++ store e 2 (htons e ethPArp)

/-- `struct arphdr` in memory. -/
def arphdr (e : Endian) (operation : ℕ) : List UInt8 :=
  store e 2 (htons e arphrdEther) ++ store e 2 (htons e ethPIp) ++ [6, 4] ++
    store e 2 (htons e operation)

/-- `pktbuf` with `pktlen`. -/
structure Pktbuf where
  bytes : List UInt8
  len : ℕ

/-- `memcpy( pktbuf + pktlen, src, n ); pktlen += n`. -/
def Pktbuf.copy (p : Pktbuf) (src : List UInt8) : Pktbuf where
  bytes := p.bytes.take p.len ++ src ++ p.bytes.drop (p.len + src.length)
  len := p.len + src.length

/-- The first `pktlen` bytes. -/
def Pktbuf.packet (p : Pktbuf) : List UInt8 := p.bytes.take p.len

/-- What `sendto` is given: the packet, and the interface and the address of `sockaddr_ll`. -/
structure Datagram where
  packet : List UInt8
  ifindex : ℤ
  addr : EtherAddr

/-- The outcomes of the calls of `net_send_arp`, and what its stack holds before. -/
structure NetOutcome where
  socket : Bool
  setsockopt : Bool
  sendto : Bool
  stack : List.Vector UInt8 128

/-- `net_send_arp`: its result, and what `sendto` was given, if it was called. -/
def netSendArp (e : Endian) (macBroadcast macSource macDestination : EtherAddr) (operation : ℕ)
    (macSender : EtherAddr) (ipSender : UInt32) (macTarget : EtherAddr) (ipTarget : UInt32) (id : ℤ)
    (o : NetOutcome) : ℤ × Option Datagram :=
  if o.socket = false then (-1, none)
  -- only a broadcast address needs the option
  else if macDestination = macBroadcast ∧ o.setsockopt = false then (-1, none)
  else
    let pktbuf : Pktbuf := ⟨o.stack.toList, 0⟩
    let pktbuf := pktbuf.copy (ethhdr e macDestination macSource)
    let pktbuf := pktbuf.copy (arphdr e operation)
    let pktbuf := pktbuf.copy macSender.toList
    let pktbuf := pktbuf.copy (store e 4 ipSender.toNat)
    let pktbuf := pktbuf.copy macTarget.toList
    let pktbuf := pktbuf.copy (store e 4 ipTarget.toNat)
    (if o.sendto then 0 else -1, some ⟨pktbuf.packet, id, macDestination⟩)

/-! ## The arguments -/

/-- The parameters of `net_send_arp_string`. -/
structure ArpArgs where
  macSource : CString
  macDestination : CString
  operation : ℕ
  macSender : CString
  ipSender : CString
  macTarget : CString
  ipTarget : CString
  dev : CString

/-- The arguments of `net_send_arp` that are calls. -/
inductive Arg
  | macSource
  | macDestination
  | macSender
  | ipSender
  | macTarget
  | ipTarget
  | dev
deriving DecidableEq

/-- Each of them, as written. -/
def Arg.all : List Arg :=
  [.macSource, .macDestination, .macSender, .ipSender, .macTarget, .ipTarget, .dev]

/-- A conversion and the text it is given. -/
inductive Conversion
  | ethAton (mac : CString)
  | ipAton (ip : CString)
  | ifxAton (itrf : CString)

/-- The call that stands for an argument. -/
def ArpArgs.call (a : ArpArgs) : Arg → Conversion
  | .macSource => .ethAton a.macSource
  | .macDestination => .ethAton a.macDestination
  | .macSender => .ethAton a.macSender
  | .ipSender => .ipAton a.ipSender
  | .macTarget => .ethAton a.macTarget
  | .ipTarget => .ipAton a.ipTarget
  | .dev => .ifxAton a.dev

/-- The statics, and the arguments evaluated so far. -/
structure Evaluation where
  st : ArpState
  ptr : Arg → Fin 8
  id : ℤ

/-- One argument is evaluated. -/
def evalArg (libc : Libc) (a : ArpArgs) (s : Evaluation) (arg : Arg) : Option Evaluation :=
  match a.call arg with
  | .ethAton mac =>
    (ethAton libc s.st mac).map fun r => { s with st := r.1, ptr := Function.update s.ptr arg r.2 }
  | .ipAton ip =>
    let r := ipAton libc s.st ip
    some { s with st := r.1, ptr := Function.update s.ptr arg r.2 }
  | .ifxAton itrf => some { s with id := ifxAton libc itrf }

/-- The arguments are evaluated in this order. -/
def evalArgs (libc : Libc) (a : ArpArgs) (s : Evaluation) : List Arg → Option Evaluation
  | [] => some s
  | arg :: order => (evalArg libc a s arg).bind fun s => evalArgs libc a s order

/-- `"ff:ff:ff:ff:ff:ff"`. -/
def broadcastString : CString :=
  [102, 102, 58, 102, 102, 58, 102, 102, 58, 102, 102, 58, 102, 102, 58, 102, 102]

/-- `net_send_arp_string`, with an order of evaluation. -/
def netSendArpString (libc : Libc) (e : Endian) (st : ArpState) (order : List Arg) (a : ArpArgs)
    (o : NetOutcome) : Option (ArpState × ℤ × Option Datagram) :=
  (ethAton libc st broadcastString).bind fun r =>
    -- copied before the arguments are converted
    let st := { r.1 with macBroadcast := r.1.eth.slots r.2 }
    (evalArgs libc a ⟨st, fun _ => 0, 0⟩ order).map fun s =>
      let eth := fun arg => s.st.eth.slots (s.ptr arg)
      let ip := fun arg => s.st.ip.slots (s.ptr arg)
      (s.st, netSendArp e s.st.macBroadcast (eth .macSource) (eth .macDestination) a.operation
        (eth .macSender) (ip .ipSender) (eth .macTarget) (ip .ipTarget) s.id o)

/-- `utils_send_gARP`. -/
def utilsSendGarp (libc : Libc) (e : Endian) (st : ArpState) (order : List Arg)
    (mac address device : CString) (o : NetOutcome) :
    Option (ArpState × Status × Option Datagram) :=
  (netSendArpString libc e st order
    ⟨mac, broadcastString, 1, mac, address, mac, address, device⟩ o).map fun r =>
      (r.1, if r.2.1 = 0 then .success else .failure, r.2.2)

/-! ## What the slots hold -/

section Evaluate

variable {libc : Libc} {a : ArpArgs} {s s' : Evaluation} {arg other : Arg} {k : ℕ}

/-- What the evaluation of an argument does. -/
theorem evalArg_cases (h : evalArg libc a s arg = some s') :
    (∃ mac m, a.call arg = .ethAton mac ∧ libc.etherAton mac = some m ∧
      s' = ⟨{ s.st with eth := (s.st.eth.push m).1 },
        Function.update s.ptr arg (s.st.eth.push m).2, s.id⟩) ∨
    (∃ ip, a.call arg = .ipAton ip ∧
      s' = ⟨{ s.st with ip := (s.st.ip.push (libc.inetAddr ip)).1 },
        Function.update s.ptr arg (s.st.ip.push (libc.inetAddr ip)).2, s.id⟩) ∨
    ∃ itrf, a.call arg = .ifxAton itrf ∧ s' = { s with id := ifxAton libc itrf } := by
  unfold evalArg at h
  cases hc : a.call arg with
  | ethAton mac =>
    simp only [hc, ethAton, Option.map_map, Option.map_eq_some_iff, Function.comp_apply] at h
    obtain ⟨m, hm, rfl⟩ := h
    exact Or.inl ⟨mac, m, rfl, hm, rfl⟩
  | ipAton ip =>
    simp only [hc] at h
    exact Or.inr (Or.inl ⟨ip, rfl, (Option.some.inj h).symm⟩)
  | ifxAton itrf =>
    simp only [hc] at h
    exact Or.inr (Or.inr ⟨itrf, rfl, (Option.some.inj h).symm⟩)

/-- The argument reads as it was converted, now and after `k` more conversions. -/
def Reads (libc : Libc) (s : Evaluation) (arg : Arg) (k : ℕ) : Conversion → Prop
  | .ethAton mac => ∃ m, libc.etherAton mac = some m ∧ s.st.eth.Holds (s.ptr arg) m k
  | .ipAton ip => s.st.ip.Holds (s.ptr arg) (libc.inetAddr ip) k
  | .ifxAton itrf => s.id = ifxAton libc itrf

theorem Reads.mono {k' : ℕ} {c : Conversion} (h : Reads libc s arg k c) (hk : k' ≤ k) :
    Reads libc s arg k' c := by
  cases c with
  | ethAton mac =>
    obtain ⟨m, hm, hh⟩ := h
    exact ⟨m, hm, hh.mono hk⟩
  | ipAton ip => exact SlotRing.Holds.mono h hk
  | ifxAton itrf => exact h

/-- An argument that has just been evaluated survives seven more conversions. -/
theorem reads_evalArg (h : evalArg libc a s arg = some s') : Reads libc s' arg 7 (a.call arg) := by
  rcases evalArg_cases h with ⟨mac, m, hc, hm, rfl⟩ | ⟨ip, hc, rfl⟩ | ⟨itrf, hc, rfl⟩
  · rw [hc]
    refine ⟨m, hm, ?_⟩
    simp only [Function.update_self]
    exact s.st.eth.holds_push m
  · rw [hc]
    simp only [Reads, Function.update_self]
    exact s.st.ip.holds_push _
  · rw [hc]
    rfl

/-- The evaluation of another argument costs it one. -/
theorem Reads.evalArg {c : Conversion} (hr : Reads libc s other (k + 1) c)
    (h : evalArg libc a s arg = some s') (hne : other ≠ arg)
    (hdev : ∀ itrf, c = .ifxAton itrf → ∀ itrf', a.call arg ≠ .ifxAton itrf') :
    Reads libc s' other k c := by
  rcases evalArg_cases h with ⟨mac, m, hc, hm, rfl⟩ | ⟨ip, hc, rfl⟩ | ⟨itrf, hc, rfl⟩
  · cases c with
    | ethAton mac' =>
      obtain ⟨m', hm', hh⟩ := hr
      refine ⟨m', hm', ?_⟩
      simp only [Function.update_of_ne hne]
      exact hh.push m
    | ipAton ip' =>
      simp only [Reads, Function.update_of_ne hne]
      exact SlotRing.Holds.mono hr (Nat.le_succ k)
    | ifxAton => exact hr
  · cases c with
    | ethAton mac' =>
      obtain ⟨m', hm', hh⟩ := hr
      refine ⟨m', hm', ?_⟩
      simp only [Function.update_of_ne hne]
      exact hh.mono (Nat.le_succ k)
    | ipAton ip' =>
      simp only [Reads, Function.update_of_ne hne]
      exact SlotRing.Holds.push hr _
    | ifxAton => exact hr
  · cases c with
    | ethAton mac' => exact hr.mono (Nat.le_succ k)
    | ipAton ip' => exact hr.mono (Nat.le_succ k)
    | ifxAton itrf' => exact absurd hc (hdev itrf' rfl itrf)

/-- Every text that is converted by `ether_aton` parses. -/
def Parses (libc : Libc) (a : ArpArgs) : Prop :=
  ∀ arg mac, a.call arg = .ethAton mac → (libc.etherAton mac).isSome

theorem Parses.evalArg (h : Parses libc a) (s : Evaluation) (arg : Arg) :
    ∃ s', evalArg libc a s arg = some s' := by
  unfold CpgFailover.evalArg
  cases hc : a.call arg with
  | ethAton mac =>
    obtain ⟨m, hm⟩ := Option.isSome_iff_exists.mp (h arg mac hc)
    simp [ethAton, hm]
  | ipAton ip => exact ⟨_, rfl⟩
  | ifxAton itrf => exact ⟨_, rfl⟩

/-- Only one argument is the index of an interface. -/
theorem ArpArgs.call_ifxAton {itrf : CString} (h : a.call arg = .ifxAton itrf) : arg = .dev := by
  cases arg <;> first | rfl | cases h

/-- **No slot is overwritten before it is read**: in any order of at most eight arguments, each
reads as it was converted after the last. -/
theorem evalArgs_reads (hp : Parses libc a) {order : List Arg} (hd : order.Nodup)
    (hlen : order.length ≤ 8) {done : List Arg} (hdone : ∀ x ∈ done, x ∉ order)
    (hr : ∀ x ∈ done, Reads libc s x order.length (a.call x)) :
    ∃ s', evalArgs libc a s order = some s' ∧
      ∀ x, x ∈ done ∨ x ∈ order → Reads libc s' x 0 (a.call x) := by
  -- Induction on the order: what has been evaluated outlives the arguments to come.
  induction order generalizing s done with
  | nil => exact ⟨s, rfl, fun x hx => hr x (by simpa using hx)⟩
  | cons arg order ih =>
    obtain ⟨s₁, h₁⟩ := hp.evalArg s arg
    rw [List.nodup_cons] at hd
    rw [List.length_cons] at hlen hr
    have hdone₁ : ∀ x ∈ arg :: done, x ∉ order := by
      intro x hx
      rcases List.mem_cons.mp hx with rfl | hx
      · exact hd.1
      · exact fun hmem => hdone x hx (List.mem_cons_of_mem _ hmem)
    have hr₁ : ∀ x ∈ arg :: done, Reads libc s₁ x order.length (a.call x) := by
      intro x hx
      rcases List.mem_cons.mp hx with rfl | hx
      · exact (reads_evalArg h₁).mono (by omega)
      · have hne : x ≠ arg := fun he => hdone x hx (he ▸ List.mem_cons_self)
        refine (hr x hx).evalArg h₁ hne fun itrf hi itrf' hi' => hne ?_
        rw [ArpArgs.call_ifxAton hi, ArpArgs.call_ifxAton hi']
    obtain ⟨s', hs', hreads⟩ := ih hd.2 (by omega) hdone₁ hr₁
    refine ⟨s', by rw [evalArgs, h₁]; exact hs', fun x hx => hreads x ?_⟩
    rcases hx with hx | hx
    · exact Or.inl (List.mem_cons_of_mem _ hx)
    · rcases List.mem_cons.mp hx with rfl | hx
      · exact Or.inl List.mem_cons_self
      · exact Or.inr hx

end Evaluate

/-! ## What is sent -/

/-- A copy within the buffer is appended to the packet. -/
theorem Pktbuf.packet_copy (p : Pktbuf) (src : List UInt8)
    (h : p.len + src.length ≤ p.bytes.length) :
    (p.copy src).packet = p.packet ++ src ∧ (p.copy src).bytes.length = p.bytes.length ∧
      (p.copy src).len = p.len + src.length := by
  have hlen : (p.bytes.take p.len).length = p.len := List.length_take_of_le (by omega)
  refine ⟨?_, ?_, rfl⟩
  · rw [packet, copy, packet, ← hlen, ← List.length_append]
    simp [List.take_append, hlen]
  · simp only [copy, List.length_append, hlen, List.length_drop]
    omega

/-- Copies that fit make up the packet. -/
theorem Pktbuf.packet_copies (srcs : List (List UInt8)) {p : Pktbuf}
    (h : p.len + srcs.flatten.length ≤ p.bytes.length) :
    (srcs.foldl Pktbuf.copy p).packet = p.packet ++ srcs.flatten := by
  induction srcs generalizing p with
  | nil => simp
  | cons src srcs ih =>
    rw [List.flatten_cons, List.length_append] at h
    obtain ⟨hpacket, hbytes, hlen⟩ := packet_copy p src (by omega)
    rw [List.foldl_cons, ih (by rw [hlen, hbytes]; omega), hpacket, List.flatten_cons,
      List.append_assoc]

/-- The frame of `net_send_arp`: the two headers and the four addresses. -/
def arpFrame (e : Endian) (macSource macDestination : EtherAddr) (operation : ℕ)
    (macSender : EtherAddr) (ipSender : UInt32) (macTarget : EtherAddr) (ipTarget : UInt32) :
    List UInt8 :=
  ethhdr e macDestination macSource ++ arphdr e operation ++ macSender.toList ++
    store e 4 ipSender.toNat ++ macTarget.toList ++ store e 4 ipTarget.toNat

/-- **What `sendto` is given**, if the socket is there. -/
theorem netSendArp_packet (e : Endian) (macBroadcast macSource macDestination : EtherAddr)
    (operation : ℕ) (macSender : EtherAddr) (ipSender : UInt32) (macTarget : EtherAddr)
    (ipTarget : UInt32) (id : ℤ) (o : NetOutcome) :
    (netSendArp e macBroadcast macSource macDestination operation macSender ipSender macTarget
      ipTarget id o).2 =
        if o.socket = false ∨ macDestination = macBroadcast ∧ o.setsockopt = false then none
        else
          some ⟨arpFrame e macSource macDestination operation macSender ipSender macTarget ipTarget,
            id, macDestination⟩ := by
  by_cases hs : o.socket = false
  · simp [netSendArp, hs]
  by_cases hb : macDestination = macBroadcast ∧ o.setsockopt = false
  · simp [netSendArp, hb]
  rw [netSendArp, if_neg hs, if_neg hb, if_neg (not_or.mpr ⟨hs, hb⟩)]
  -- the copies of the source, one after the other
  have hcopies := Pktbuf.packet_copies [ethhdr e macDestination macSource, arphdr e operation,
    macSender.toList, store e 4 ipSender.toNat, macTarget.toList, store e 4 ipTarget.toNat]
    (p := ⟨o.stack.toList, 0⟩) (by simp [ethhdr, arphdr])
  simp only [List.foldl_cons, List.foldl_nil] at hcopies
  simp only [hcopies]
  simp [Pktbuf.packet, arpFrame]

/-! ## What a frame says -/

/-- An ARP packet in an Ethernet frame. -/
structure ArpPacket where
  destination : List UInt8
  source : List UInt8
  etherType : ℕ
  hardwareType : ℕ
  protocolType : ℕ
  hardwareLength : ℕ
  protocolLength : ℕ
  operation : ℕ
  senderHardware : List UInt8
  senderProtocol : List UInt8
  targetHardware : List UInt8
  targetProtocol : List UInt8
deriving DecidableEq, Repr

/-- The sizes of the fields of a frame, in order. -/
def arpFields : List ℕ := [6, 6, 2, 2, 2, 1, 1, 2, 6, 4, 6, 4]

/-- A frame read in network byte order. -/
def ArpPacket.parse (frame : List UInt8) : Option ArpPacket :=
  match cut arpFields frame with
  | [destination, source, etherType, hardwareType, protocolType, hardwareLength, protocolLength,
      operation, senderHardware, senderProtocol, targetHardware, targetProtocol] =>
    some
      { destination := destination
        source := source
        etherType := load .big etherType
        hardwareType := load .big hardwareType
        protocolType := load .big protocolType
        hardwareLength := load .big hardwareLength
        protocolLength := load .big protocolLength
        operation := load .big operation
        senderHardware := senderHardware
        senderProtocol := senderProtocol
        targetHardware := targetHardware
        targetProtocol := targetProtocol }
  | _ => none

/-- The frame of a request read back. -/
theorem parse_arpFrame (e : Endian) (source dest sender target : EtherAddr) {operation : ℕ}
    (ho : operation < 256 ^ 2) (ips ipt : UInt32) :
    (arpFrame e source dest operation sender ips target ipt).length = 42 ∧
      ArpPacket.parse (arpFrame e source dest operation sender ips target ipt) =
        some
          { destination := dest.toList
            source := source.toList
            etherType := ethPArp
            hardwareType := arphrdEther
            protocolType := ethPIp
            hardwareLength := 6
            protocolLength := 4
            operation := operation
            senderHardware := sender.toList
            senderProtocol := store e 4 ips.toNat
            targetHardware := target.toList
            targetProtocol := store e 4 ipt.toNat } := by
  refine ⟨by simp [arpFrame, ethhdr, arphdr], ?_⟩
  have hframe : arpFrame e source dest operation sender ips target ipt =
      [dest.toList, source.toList, store e 2 (htons e ethPArp), store e 2 (htons e arphrdEther),
        store e 2 (htons e ethPIp), [6], [4], store e 2 (htons e operation), sender.toList,
        store e 4 ips.toNat, target.toList, store e 4 ipt.toNat].flatten := by
    simp [arpFrame, ethhdr, arphdr]
  have hcut := cut_flatten [dest.toList, source.toList, store e 2 (htons e ethPArp),
    store e 2 (htons e arphrdEther), store e 2 (htons e ethPIp), [6], [4],
    store e 2 (htons e operation), sender.toList, store e 4 ips.toNat, target.toList,
    store e 4 ipt.toNat]
  simp only [List.map_cons, List.map_nil, List.Vector.toList_length, length_store,
    List.length_singleton] at hcut
  simp only [ArpPacket.parse, arpFields, hframe, hcut]
  rw [load_store_htons e (by decide), load_store_htons e (by decide),
    load_store_htons e (by decide), load_store_htons e ho]
  rfl

/-- The Ethernet broadcast address. -/
def broadcast : EtherAddr := ⟨[255, 255, 255, 255, 255, 255], rfl⟩

section Garp

variable {libc : Libc} {mac address : CString} {m : EtherAddr} {order : List Arg}

/-- The arguments of `utils_send_gARP`. -/
def garpArgs (mac address device : CString) : ArpArgs :=
  ⟨mac, broadcastString, 1, mac, address, mac, address, device⟩

theorem parses_garpArgs (hm : libc.etherAton mac = some m)
    (hb : libc.etherAton broadcastString = some broadcast) (address device : CString) :
    Parses libc (garpArgs mac address device) := by
  intro arg text hc
  cases arg <;> cases hc
  · exact Option.isSome_iff_exists.mpr ⟨m, hm⟩
  · exact Option.isSome_iff_exists.mpr ⟨broadcast, hb⟩
  · exact Option.isSome_iff_exists.mpr ⟨m, hm⟩
  · exact Option.isSome_iff_exists.mpr ⟨m, hm⟩

/-- After the arguments have been evaluated in any order, all slots hold what they should. -/
theorem evalArgs_garpArgs (hm : libc.etherAton mac = some m)
    (hb : libc.etherAton broadcastString = some broadcast) (ho : order.Perm Arg.all)
    (address device : CString) (s : Evaluation) :
    ∃ s', evalArgs libc (garpArgs mac address device) s order = some s' ∧
      s'.st.eth.slots (s'.ptr .macSource) = m ∧
      s'.st.eth.slots (s'.ptr .macDestination) = broadcast ∧
      s'.st.eth.slots (s'.ptr .macSender) = m ∧
      s'.st.ip.slots (s'.ptr .ipSender) = libc.inetAddr address ∧
      s'.st.eth.slots (s'.ptr .macTarget) = m ∧
      s'.st.ip.slots (s'.ptr .ipTarget) = libc.inetAddr address := by
  have hd : order.Nodup := ho.nodup_iff.mpr (by decide)
  have hlen : order.length ≤ 8 := by
    rw [ho.length_eq]
    decide
  obtain ⟨s', hs', hreads⟩ := evalArgs_reads (s := s) (parses_garpArgs hm hb address device) hd hlen
    (fun x hx => absurd hx List.not_mem_nil) fun x hx => absurd hx List.not_mem_nil
  have hall (x : Arg) : Reads libc s' x 0 ((garpArgs mac address device).call x) := by
    refine hreads x (Or.inr (ho.mem_iff.mpr ?_))
    cases x <;> decide
  -- a conversion of a hardware address
  have heth (x : Arg) (text : CString) (a : EtherAddr) (ha : libc.etherAton text = some a)
      (hc : (garpArgs mac address device).call x = .ethAton text) :
      s'.st.eth.slots (s'.ptr x) = a := by
    have hx := hall x
    rw [hc] at hx
    obtain ⟨a', ha', hh⟩ := hx
    rw [hh.slot]
    exact Option.some.inj (ha'.symm.trans ha)
  exact ⟨s', hs', heth _ _ _ hm rfl, heth _ _ _ hb rfl, heth _ _ _ hm rfl, (hall .ipSender).slot,
    heth _ _ _ hm rfl, (hall .ipTarget).slot⟩

/-- **A gratuitous ARP says what it should**: whatever earlier calls have left in the rings and in
whatever order the arguments are evaluated, `sendto` is given an Ethernet broadcast of 42 bytes from
this hardware address, with an ARP request in which it and the address of the vip stand for the
sender and for the target alike. -/
theorem garp_frame {a b c d : UInt8} {e : Endian} (hm : libc.etherAton mac = some m)
    (hb : libc.etherAton broadcastString = some broadcast)
    (hip : store e 4 (libc.inetAddr address).toNat = [a, b, c, d]) (ho : order.Perm Arg.all)
    (st : ArpState) (device : CString) (o : NetOutcome) :
    ∃ st' status sent, utilsSendGarp libc e st order mac address device o =
        some (st', status, sent) ∧
      (o.socket = true → o.setsockopt = true → sent.isSome = true) ∧
        ∀ dg ∈ sent, dg.packet.length = 42 ∧ ArpPacket.parse dg.packet =
          some
            { destination := broadcast.toList
              source := m.toList
              etherType := 0x0806
              hardwareType := 1
              protocolType := 0x0800
              hardwareLength := 6
              protocolLength := 4
              operation := 1
              senderHardware := m.toList
              senderProtocol := [a, b, c, d]
              targetHardware := m.toList
              targetProtocol := [a, b, c, d] } := by
  have hbcast : ethAton libc st broadcastString =
      some ({ st with eth := (st.eth.push broadcast).1 }, (st.eth.push broadcast).2) := by
    simp [ethAton, hb]
  obtain ⟨s', hs', hsource, hdest, hsender, hips, htarget, hipt⟩ :=
    evalArgs_garpArgs hm hb ho address device ⟨{ st with
      eth := (st.eth.push broadcast).1
      macBroadcast := (st.eth.push broadcast).1.slots (st.eth.push broadcast).2 }, fun _ => 0, 0⟩
  have hcall : utilsSendGarp libc e st order mac address device o =
      some (s'.st,
        if (netSendArp e s'.st.macBroadcast m broadcast 1 m (libc.inetAddr address) m
          (libc.inetAddr address) s'.id o).1 = 0 then .success else .failure,
        (netSendArp e s'.st.macBroadcast m broadcast 1 m (libc.inetAddr address) m
          (libc.inetAddr address) s'.id o).2) := by
    rw [utilsSendGarp, netSendArpString, hbcast]
    simp only [Option.bind_some]
    rw [show (⟨mac, broadcastString, 1, mac, address, mac, address, device⟩ : ArpArgs) =
      garpArgs mac address device from rfl, hs']
    simp only [Option.map_some, hsource, hdest, hsender, hips, htarget, hipt]
  refine ⟨_, _, _, hcall, ?_, ?_⟩
  · intro hs hopt
    rw [netSendArp_packet]
    simp [hs, hopt]
  · intro dg hdg
    rw [netSendArp_packet] at hdg
    split_ifs at hdg
    · cases hdg
    · obtain rfl := Option.some.inj hdg
      rw [← hip]
      exact parse_arpFrame e m broadcast m m (by decide) _ _

end Garp

/-- `"02:00:00:00:00:01"`. -/
def macText : CString := [48, 50, 58, 48, 48, 58, 48, 48, 58, 48, 48, 58, 48, 48, 58, 48, 49]

/-- `"10.0.0.1"`. -/
def ipText : CString := [49, 48, 46, 48, 46, 48, 46, 49]

/-- A library that parses these two texts and the broadcast address, on a little-endian machine. -/
def knowing : Libc where
  etherAton text :=
    if text = broadcastString then some broadcast
    else if text = macText then some ⟨[2, 0, 0, 0, 0, 1], rfl⟩
    else none
  inetAddr text := if text = ipText then 0x0100000A else 0xFFFFFFFF
  siocgifindex _ := some 2

/-- The arguments are evaluated from the last to the first, and the rings go round in between. -/
theorem garp_frame_knowing : ∃ st' status sent,
    utilsSendGarp knowing .little ⟨broadcast, ⟨7, fun _ => 0⟩, ⟨5, fun _ => broadcast⟩⟩
      Arg.all.reverse macText ipText [101, 116, 104, 48]
        ⟨true, true, true, List.Vector.replicate 128 0⟩ = some (st', status, sent) ∧
          ∀ dg ∈ sent, dg.packet.length = 42 := by
  have hm : knowing.etherAton macText = some ⟨[2, 0, 0, 0, 0, 1], rfl⟩ := rfl
  have hb : knowing.etherAton broadcastString = some broadcast := rfl
  have hip : store .little 4 (knowing.inetAddr ipText).toNat = [10, 0, 0, 1] := by decide
  obtain ⟨st', status, sent, hcall, -, hsent⟩ := garp_frame hm hb hip Arg.all.reverse_perm
    ⟨broadcast, ⟨7, fun _ => 0⟩, ⟨5, fun _ => broadcast⟩⟩ [101, 116, 104, 48]
    ⟨true, true, true, List.Vector.replicate 128 0⟩
  exact ⟨st', status, sent, hcall, fun dg hdg => (hsent dg hdg).1⟩

end CpgFailover
