import CpgFailover.DoConfig
import CpgFailover.Lib.DottedQuad

/-!
# The texts of addresses

An address is a text in the configuration, in the name of a group and in the output of the module,
and four bytes on the interface. `inet_pton` reads one text of each address only, so members that
join the same group serve the same address, and the virtual ips of one document have different ones.
A node id is printed as the address whose bytes it is in the memory of a little-endian machine.

## Main definitions

* `inetPton`, `inetNtoa`: an address, from its text and to it
* `utilsNodePidFormat`: the text of a node id

## Main results

* `inetPton_isSome`: `utils_ip_is_valid` accepts what `inet_pton` reads
* `groups_are_addresses`: a group stands for an address
* `utilsNodePidFormat_reads_back`: the text of a node id says which node it is
-/

namespace CpgFailover

open Bytes (Endian load store)

/-- `inet_pton(AF_INET, ...)`: the bytes of an address, in network order. -/
def inetPton (s : CString) : Option (List UInt8) := DottedQuad.parse s

/-- `inet_ntoa`. -/
def inetNtoa (bytes : List UInt8) : CString := DottedQuad.dotted bytes

/-- `swab32`. -/
def swab32 (x : ℕ) : ℕ := load .big (store .little 4 x)

/-- `utils_node_pid_format`. -/
def utilsNodePidFormat (e : Endian) (nodeid : NodeId) : CString :=
  match e with
  | .big => inetNtoa (store .big 4 (swab32 nodeid))
  | .little => inetNtoa (store .little 4 nodeid)

/-! ## Reading -/

/-- The loop goes through where an address is read; it has begun one number more once there is a
digit. -/
theorem readFrom_isSome {src before : List UInt8} {octet : ℕ} {sawDigit : Bool}
    (hbefore : before.length ≤ 3) : (DottedQuad.readFrom src before octet sawDigit).isSome =
      inetPtonLoop src (before.length + if sawDigit then 1 else 0) octet sawDigit := by
  induction src generalizing before octet sawDigit with
  | nil =>
    rw [DottedQuad.readFrom, inetPtonLoop]
    cases sawDigit with
    | false =>
      have hnot : ¬ 4 ≤ before.length := by omega
      simp [hnot]
    | true =>
      have hiff : before.length = 3 ↔ 3 ≤ before.length := by omega
      by_cases hthree : before.length = 3 <;> simp [hthree, hiff.symm]
  | cons ch src ih =>
    rw [DottedQuad.readFrom, inetPtonLoop]
    by_cases hdigit : isDigit ch = true
    · rw [if_pos hdigit, if_pos (show DottedQuad.isDigit ch = true from hdigit)]
      simp only
      split_ifs with hzero hbig hsaw hroom
      · rfl
      · rfl
      · rw [ih hbefore]
        rfl
      -- there is room for one number more
      · omega
      · rw [ih hbefore]
        rfl
    · rw [if_neg hdigit, if_neg (show ¬ DottedQuad.isDigit ch = true from hdigit)]
      by_cases hdot : ch = 46 ∧ sawDigit = true
      · rw [if_pos hdot, if_pos (show ch = DottedQuad.dot ∧ sawDigit = true from hdot),
          if_pos hdot.2]
        by_cases hthree : before.length = 3
        · rw [if_pos hthree, if_pos (by omega)]
          rfl
        · rw [if_neg hthree, if_neg (by omega), ih (by
            rw [List.length_append, List.length_singleton]
            omega)]
          simp
      · rw [if_neg hdot, if_neg (show ¬ (ch = DottedQuad.dot ∧ sawDigit = true) from hdot)]
        rfl

/-- **`utils_ip_is_valid` accepts what `inet_pton` reads.** -/
theorem inetPton_isSome (s : CString) : (inetPton s).isSome = utilsIpIsValid s :=
  readFrom_isSome (Nat.zero_le 3)

/-- A valid text is that of its address. -/
theorem inetPton_of_valid {s : CString} (h : utilsIpIsValid s = true) :
    ∃ q, inetPton s = some q ∧ inetNtoa q = s ∧ q.length = 4 := by
  rw [← inetPton_isSome] at h
  obtain ⟨q, hq⟩ := Option.isSome_iff_exists.mp h
  exact ⟨q, hq, DottedQuad.dotted_of_parse hq⟩

/-- Valid texts of the same address are the same. -/
theorem inetPton_inj {s t : CString} (hs : utilsIpIsValid s = true)
    (h : inetPton s = inetPton t) : s = t := by
  obtain ⟨q, hq, -⟩ := inetPton_of_valid hs
  exact DottedQuad.parse_inj hq (h.symm.trans hq)

/-! ## Groups -/

section Groups

variable {sys sys' : Platform} {doc doc' : List VirtualIpElement} {r r' : ConfiguredVip}

/-- What `do_config` has installed has a valid address, whole in the name of its group. -/
theorem doConfig_group (h : (doConfig sys (some doc)).1 = .success)
    (hr : r ∈ (doConfig sys (some doc)).2) :
    utilsIpIsValid r.address = true ∧ r.groupName = ⟨r.address.length, r.address⟩ := by
  obtain ⟨x, hx, hc⟩ := (doConfig_hash h).element hr
  have hvalid := valid_of_mem_installed hx
  have hgroup : r.groupName = ⟨x.address.length, snprintf 255 x.address⟩ := by
    rw [(configure_eq hc).2]
    rfl
  have hwhole : snprintf 255 x.address = x.address :=
    List.take_of_length_le (le_trans (length_le_of_utilsIpIsValid hvalid) (by decide))
  rw [hgroup, configure_address hc hvalid, hwhole]
  exact ⟨hvalid, rfl⟩

/-- No record is in the hash twice. -/
theorem Built.nodup {hash : List ConfiguredVip} (h : Built sys doc hash) : hash.Nodup := by
  have haddr : hash.map ConfiguredVip.address = (installed doc).map VirtualIpElement.address := by
    apply List.map_injective_iff.mpr (Option.some_injective CString)
    calc (hash.map ConfiguredVip.address).map some
        = (hash.map some).map (Option.map ConfiguredVip.address) := by simp
      _ = (installed doc).map fun x => (configure sys x).map ConfiguredVip.address := by
          rw [h, List.map_map]
          rfl
      _ = ((installed doc).map VirtualIpElement.address).map some := by
          rw [List.map_map]
          apply List.map_congr_left
          intro x hx
          obtain ⟨r, -, hc⟩ := h.record hx
          rw [hc, Option.map_some, configure_address hc (valid_of_mem_installed hx)]
          rfl
  have hnodup : (hash.map ConfiguredVip.address).Nodup := by
    rw [haddr]
    exact FirstOccurrences.nodup_firsts _
  exact hnodup.of_map _

/-- No document has an address twice. -/
theorem eq_of_inetPton (h : (doConfig sys (some doc)).1 = .success)
    (hr : r ∈ (doConfig sys (some doc)).2) (hr' : r' ∈ (doConfig sys (some doc)).2)
    (he : inetPton r.address = inetPton r'.address) : r = r' :=
  (doConfig_hash h).eq_of_address hr hr' (inetPton_inj (doConfig_group h hr).1 he)

/-- **A group stands for an address.** Members of a group, on whichever machines and from whichever
documents, put the same bytes on their interfaces, and members of different groups different ones;
and no document has an address twice. -/
theorem groups_are_addresses (h : (doConfig sys (some doc)).1 = .success)
    (h' : (doConfig sys' (some doc')).1 = .success) (hr : r ∈ (doConfig sys (some doc)).2)
    (hr' : r' ∈ (doConfig sys' (some doc')).2) :
    (∃ q, inetPton r.address = some q ∧ q.length = 4) ∧
      (r.groupName = r'.groupName ↔ inetPton r.address = inetPton r'.address) ∧
      ∀ s ∈ (doConfig sys (some doc)).2, inetPton r.address = inetPton s.address → r = s := by
  obtain ⟨hvalid, hgroup⟩ := doConfig_group h hr
  obtain ⟨-, hgroup'⟩ := doConfig_group h' hr'
  obtain ⟨q, hq, -, hlen⟩ := inetPton_of_valid hvalid
  refine ⟨⟨q, hq, hlen⟩, ⟨fun he => ?_, fun he => ?_⟩, fun s hs he => ?_⟩
  · rw [hgroup, hgroup'] at he
    rw [(CpgName.mk.inj he).2]
  · rw [hgroup, hgroup', inetPton_inj hvalid he]
  · exact eq_of_inetPton h hr hs he

/-- `<virtualip address="2.2.2.2"/>`. -/
def secondVirtualIp : VirtualIpElement := ⟨[50, 46, 50, 46, 50, 46, 50], [], [], []⟩

/-- Two virtual ips, on one machine and on another of the other byte order. -/
theorem groups_are_addresses_two :
    ∃ r ∈ (doConfig oneInterface (some [bareVirtualIp, secondVirtualIp])).2,
      ∃ r' ∈ (doConfig { oneInterface with byteOrder := .big }
        (some [secondVirtualIp, bareVirtualIp])).2,
        ∃ s' ∈ (doConfig { oneInterface with byteOrder := .big }
          (some [secondVirtualIp, bareVirtualIp])).2,
          inetPton r.address = some [1, 1, 1, 1] ∧ r.groupName = r'.groupName ∧
            r.groupName ≠ s'.groupName := by
  have hs : (doConfig oneInterface (some [bareVirtualIp, secondVirtualIp])).1 = .success := by
    decide
  have hs' : (doConfig { oneInterface with byteOrder := .big }
      (some [secondVirtualIp, bareVirtualIp])).1 = .success := by decide
  obtain ⟨r, hr, hc⟩ := (doConfig_hash hs).record (x := bareVirtualIp) (by decide)
  obtain ⟨r', hr', hc'⟩ := (doConfig_hash hs').record (x := bareVirtualIp) (by decide)
  obtain ⟨s', hq', hd'⟩ := (doConfig_hash hs').record (x := secondVirtualIp) (by decide)
  have haddr := configure_address hc (by decide)
  have haddr' := configure_address hc' (by decide)
  have hsecond := configure_address hd' (by decide)
  have hone : inetPton bareVirtualIp.address = some [1, 1, 1, 1] := by decide
  have htwo : inetPton secondVirtualIp.address = some [2, 2, 2, 2] := by decide
  refine ⟨r, hr, r', hr', s', hq', by rw [haddr, hone], ?_, ?_⟩
  · rw [(groups_are_addresses hs hs' hr hr').2.1, haddr, haddr']
  · rw [Ne, (groups_are_addresses hs hs' hr hq').2.1, haddr, hsecond, hone, htwo]
    decide

end Groups

/-! ## Node ids -/

/-- The bytes of `saddr` are those of the node id on a little-endian machine. -/
theorem utilsNodePidFormat_eq (e : Endian) (nodeid : NodeId) :
    utilsNodePidFormat e nodeid = inetNtoa (store .little 4 nodeid) := by
  cases e with
  | little => rfl
  | big =>
    have hbytes := Bytes.store_load .big (store .little 4 nodeid)
    rw [Bytes.length_store] at hbytes
    rw [utilsNodePidFormat, swab32, hbytes]

/-- What is read from the text of a node id. -/
theorem inetPton_utilsNodePidFormat (e : Endian) (nodeid : NodeId) :
    inetPton (utilsNodePidFormat e nodeid) = some (store .little 4 nodeid) := by
  rw [utilsNodePidFormat_eq]
  exact DottedQuad.parse_dotted (Bytes.length_store .little 4 nodeid)

/-- Node ids are told apart by their texts. -/
theorem utilsNodePidFormat_inj {e : Endian} {m n : NodeId} (hm : m < 2 ^ 32) (hn : n < 2 ^ 32)
    (h : utilsNodePidFormat e m = utilsNodePidFormat e n) : m = n := by
  have hread := inetPton_utilsNodePidFormat e m
  rw [h, inetPton_utilsNodePidFormat] at hread
  have hbytes : store .little 4 m = store .little 4 n := (Option.some.inj hread).symm
  calc m = load .little (store .little 4 m) := (Bytes.load_store .little hm).symm
    _ = load .little (store .little 4 n) := by rw [hbytes]
    _ = n := Bytes.load_store .little hn

/-- **The text of a node id says which node it is**: on every machine it is the same valid address,
has no more than 15 characters, and is read back as the node id. -/
theorem utilsNodePidFormat_reads_back {e : Endian} {nodeid : NodeId} (h : nodeid < 2 ^ 32) :
    utilsIpIsValid (utilsNodePidFormat e nodeid) = true ∧
      (utilsNodePidFormat e nodeid).length ≤ 15 ∧
      (inetPton (utilsNodePidFormat e nodeid)).map (load .little) = some nodeid := by
  have hread := inetPton_utilsNodePidFormat e nodeid
  have hvalid : utilsIpIsValid (utilsNodePidFormat e nodeid) = true := by
    rw [← inetPton_isSome, hread]
    rfl
  refine ⟨hvalid, length_le_of_utilsIpIsValid hvalid, ?_⟩
  rw [hread, Option.map_some, Bytes.load_store .little h]

/-- Node 16909060 of a big-endian machine is 4.3.2.1. -/
theorem utilsNodePidFormat_reads_back_big :
    utilsIpIsValid (utilsNodePidFormat .big 16909060) = true ∧
      (utilsNodePidFormat .big 16909060).length ≤ 15 ∧
      (inetPton (utilsNodePidFormat .big 16909060)).map (load .little) = some 16909060 :=
  utilsNodePidFormat_reads_back (by decide)

end CpgFailover
