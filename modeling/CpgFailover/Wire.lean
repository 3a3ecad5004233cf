import CpgFailover.Callback
import CpgFailover.Lib.Buffer
import CpgFailover.Routing

/-!
# The messages as bytes

A message is a header and, behind it, either a field of 128 bytes for the name of a profile and a
statement, or a node state. The members lay the structures of the compiler over the bytes. The
lookups of the sender stop at an empty slot of the table, the loop of the receiver does not: the
three agree unless an empty profile name, which `do_config` takes if there is a file for it, stands
before the name.

## Main definitions

* `virtualIpSendSqlBuf`, `virtualIpSendStateBuf`: what is multicast
* `deliverBuf`: `DeliverCallback` on what has been received
* `MessagesArrive`: statements and node states arrive as they were sent
* `HasAt`: `virtual_ip_profile_index` finds a name where it is

## Main results

* `deliverBuf_sql`, `deliverBuf_state`: on bytes as on messages
* `messagesArrive_iff`: decoding undoes encoding, and when the lookups agree
* `hidden_profile_unfound`: a profile behind an empty name
-/

namespace CpgFailover

open Bytes (Endian store load storeInt loadInt)
open Buffer (text strcmp)

/-! ## Encoding -/

/-- `sizeof(header_t)`. -/
def headerSize : ℕ := 8

/-- `header_t`. -/
def header (e : Endian) (type len : ℕ) : List UInt8 := store e 4 type ++ store e 4 len

/-- `state_t` as a number. -/
def State.code : State → ℕ
  | .idle => 0
  | .start => 1
  | .backup => 2
  | .master => 3
  | .rback => 4

/-- The state that a number is taken for. Nobody asks more of a state that has been received than
whether it is `ST_MASTER` or `ST_RBACK`, and a number outside the type is neither. -/
def State.ofCode : ℕ → State
  | 1 => .start
  | 2 => .backup
  | 3 => .master
  | 4 => .rback
  | _ => .idle

/-- The buffer of `virtual_ip_send_sql`; `nameMem` is the memory from `name` on, of which 128 bytes
are copied wherever the name ends. -/
def virtualIpSendSqlBuf (e : Endian) (nameMem : List UInt8) (sql : CString) : List UInt8 :=
  header e 0 0 ++ (nameMem.take maxSofiaName ++ (sql ++ [0]))

/-- `nm->runtime_uuid`, in zeroed memory. -/
def uuidField (uuid : CString) : List UInt8 :=
  let s := snprintf uuidSize uuid
  s ++ List.replicate (uuidSize - s.length) 0

/-- The buffer of `virtual_ip_send_state`. -/
def virtualIpSendStateBuf (e : Endian) (nm : NodeMsg) : List UInt8 :=
  header e 1 10 ++
    (storeInt e nm.priority ++ (store e 4 nm.state.code ++ uuidField nm.runtimeUuid))

/-! ## Decoding -/

/-- `*nm`, where it lies. -/
def nodeMsgAt (e : Endian) (nm : List UInt8) : NodeMsg where
  priority := loadInt e (nm.take 4)
  state := State.ofCode (load e ((nm.drop 4).take 4))
  runtimeUuid := (nm.drop 8).takeWhile (· ≠ 0)

/-- The profile loop of `DeliverCallback`; no result when a comparison runs past the end. -/
def findSlot (profileName : List UInt8) : List SofiaProfile → Option (Option SofiaProfile)
  | [] => some none
  | p :: ps =>
    match strcmp p.name profileName with
    | none => none
    | some true => some (some p)
    | some false => findSlot profileName ps

/-- `DeliverCallback` on the bytes of a message; no result when it reads past the end of them. -/
def deliverBuf (e : Endian) (o : Outcome) (v : Vip) (nodeid : NodeId) (msg : List UInt8) :
    Option (Vip × List Effect) :=
  if msg.length < 4 then none
  else
    match load e (msg.take 4) with
    | 0 =>
      if v.nodeId ≠ nodeid then
        match findSlot (msg.drop headerSize) v.config.profiles.toList with
        | none => none
        | some (some p) =>
          (text (msg.drop (headerSize + maxSofiaName))).map fun sql =>
            (v, [.trackEvent sql p.name])
        -- "invalid profile index!"
        | some none => some (v, [])
      else some (v, [])
    | 1 =>
      let nm := msg.drop headerSize
      -- the priority and the state are read, and of a serving node the uuid
      if nm.length < 8 ∨ ((nodeMsgAt e nm).state.serves ∧ text (nm.drop 8) = none) then none
      else
        let r := fsmInputNewStateMessage o v (nodeMsgAt e nm) nodeid
        some (r.vip, r.effects)
    -- "Bad header"
    | _ => some (v, [])

/-! ## Decoding what was encoded -/

section RoundTrip

variable {e : Endian} {o : Outcome} {v : Vip} {nodeid : NodeId}

@[simp] theorem length_header (e : Endian) (type len : ℕ) :
    (header e type len).length = headerSize := by
  simp [header, headerSize]

theorem drop_header (type len : ℕ) (rest : List UInt8) :
    (header e type len ++ rest).drop headerSize = rest :=
  List.drop_left' (length_header e type len)

theorem load_header {type : ℕ} (h : type < 256 ^ 4) (len : ℕ) (rest : List UInt8) :
    load e ((header e type len ++ rest).take 4) = type := by
  rw [header, List.append_assoc, List.take_left' (Bytes.length_store e 4 type),
    Bytes.load_store e h]

theorem header_not_short (type len : ℕ) (rest : List UInt8) :
    ¬ (header e type len ++ rest).length < 4 := by
  rw [List.length_append, length_header, headerSize]
  omega

/-- Where the name ends inside the field, the loop compares names. -/
theorem findSlot_append {name : CString} (hname : 0 ∉ name) (rest : List UInt8)
    {ps : List SofiaProfile} (hps : ∀ p ∈ ps, 0 ∉ p.name) :
    findSlot (name ++ 0 :: rest) ps = some (ps.find? fun p => p.name = name) := by
  induction ps with
  | nil => rfl
  | cons p ps ih =>
    rw [findSlot, Buffer.strcmp_append (hps p List.mem_cons_self) hname, List.find?_cons]
    by_cases h : p.name = name
    · simp [h]
    · simp [h, ih fun q hq => hps q (List.mem_cons_of_mem _ hq)]

/-- The first 128 bytes from a shorter name on are the name, its terminator and more. -/
theorem take_nameMem {name : CString} (hname : name.length < maxSofiaName) (junk : List UInt8) :
    (name ++ 0 :: junk).take maxSofiaName =
      name ++ 0 :: junk.take (maxSofiaName - name.length - 1) := by
  obtain ⟨k, hk⟩ : ∃ k, maxSofiaName = name.length + (k + 1) :=
    ⟨maxSofiaName - name.length - 1, by omega⟩
  rw [hk, List.take_length_add_append, List.take_succ_cons]
  congr 3
  omega

/-- **A statement on the wire** is handled as the message is. -/
theorem deliverBuf_sql {name sql : CString} {junk : List UInt8} (hname : 0 ∉ name)
    (hlen : name.length < maxSofiaName) (hjunk : maxSofiaName ≤ (name ++ 0 :: junk).length)
    (hsql : 0 ∉ sql) (hv : ∀ p ∈ v.config.profiles.toList, 0 ∉ p.name) :
    deliverBuf e o v nodeid (virtualIpSendSqlBuf e (name ++ 0 :: junk) sql) =
      some (deliverCallback o v nodeid (.sql name sql)) := by
  have htake : ((name ++ 0 :: junk).take maxSofiaName).length = maxSofiaName :=
    List.length_take_of_le hjunk
  have hdrop : (virtualIpSendSqlBuf e (name ++ 0 :: junk) sql).drop (headerSize + maxSofiaName) =
      sql ++ [0] := by
    rw [virtualIpSendSqlBuf, ← List.drop_drop, drop_header, List.drop_left' htake]
  rw [deliverBuf, hdrop]
  simp only [virtualIpSendSqlBuf, if_neg (header_not_short 0 0 _), load_header (Nat.two_pow_pos 32),
    drop_header]
  rw [take_nameMem hlen, List.append_assoc, List.cons_append, findSlot_append hname _ hv,
    Buffer.text_append hsql]
  simp only [deliverCallback, deliverSql]
  split
  · cases v.config.profiles.toList.find? fun p => p.name = name <;> rfl
  · rfl

theorem ofCode_code (s : State) : State.ofCode s.code = s := by
  cases s <;> rfl

/-- A uuid that fits is followed by a terminator in its field. -/
theorem uuidField_of_lt {uuid : CString} (h : uuid.length < uuidSize) :
    uuidField uuid = uuid ++ 0 :: List.replicate (uuidSize - uuid.length - 1) 0 := by
  have hfit : snprintf uuidSize uuid = uuid := by
    apply List.take_of_length_le
    omega
  obtain ⟨k, hk⟩ : ∃ k, uuidSize - uuid.length = k + 1 := ⟨uuidSize - uuid.length - 1, by omega⟩
  rw [uuidField, hfit, hk, List.replicate_succ]
  rfl

/-- **A node state on the wire** is read as it was written. -/
theorem nodeMsgAt_buf {nm : NodeMsg} (hmin : -2 ^ 31 ≤ nm.priority) (hmax : nm.priority < 2 ^ 31)
    (huuid : 0 ∉ nm.runtimeUuid) (hlen : nm.runtimeUuid.length < uuidSize) :
    nodeMsgAt e ((virtualIpSendStateBuf e nm).drop headerSize) = nm := by
  have hcode : nm.state.code < 256 ^ 4 := by cases nm.state <;> decide
  have hfour := Bytes.length_storeInt e nm.priority
  have hstate := Bytes.length_store e 4 nm.state.code
  have huuidField := Buffer.text_append huuid
    (List.replicate (uuidSize - nm.runtimeUuid.length - 1) 0)
  rw [virtualIpSendStateBuf, drop_header, nodeMsgAt, List.take_left' hfour, List.drop_left' hfour,
    List.take_left' hstate, Bytes.load_store e hcode, ofCode_code,
    Bytes.loadInt_storeInt e hmin hmax]
  have hdrop : (storeInt e nm.priority ++ (store e 4 nm.state.code ++
      uuidField nm.runtimeUuid)).drop 8 = uuidField nm.runtimeUuid := by
    rw [← List.append_assoc]
    apply List.drop_left'
    rw [List.length_append, hfour, hstate]
  rw [hdrop, uuidField_of_lt hlen]
  rw [text, if_pos (by simp)] at huuidField
  rw [Option.some.inj huuidField]

/-- It is handled as the message is. -/
theorem deliverBuf_state {nm : NodeMsg} (hmin : -2 ^ 31 ≤ nm.priority)
    (hmax : nm.priority < 2 ^ 31) (huuid : 0 ∉ nm.runtimeUuid)
    (hlen : nm.runtimeUuid.length < uuidSize) :
    deliverBuf e o v nodeid (virtualIpSendStateBuf e nm) =
      some (deliverCallback o v nodeid (.nodeState nm)) := by
  have hread := nodeMsgAt_buf (e := e) hmin hmax huuid hlen
  have hfield : ((virtualIpSendStateBuf e nm).drop headerSize).drop 8 =
      uuidField nm.runtimeUuid := by
    rw [virtualIpSendStateBuf, drop_header, ← List.append_assoc]
    apply List.drop_left'
    rw [List.length_append, Bytes.length_storeInt, Bytes.length_store]
  have hlong : ¬ ((virtualIpSendStateBuf e nm).drop headerSize).length < 8 := by
    rw [virtualIpSendStateBuf, drop_header]
    simp only [List.length_append, Bytes.length_storeInt, Bytes.length_store]
    omega
  have htext : ¬ (nm.state.serves = true ∧ text (uuidField nm.runtimeUuid) = none) := by
    rw [uuidField_of_lt hlen, Buffer.text_append huuid]
    exact fun h => nomatch h.2
  have htype : load e ((virtualIpSendStateBuf e nm).take 4) = 1 :=
    load_header (by decide) 10 _
  have hshort : ¬ (virtualIpSendStateBuf e nm).length < 4 := header_not_short 1 10 _
  rw [deliverBuf, if_neg hshort, htype]
  simp only [hread, hfield]
  rw [if_neg (not_or.mpr ⟨hlong, htext⟩)]
  rfl

end RoundTrip

/-! ## The lookups -/

/-- `virtual_ip_profile_index` finds the name in a slot that holds it. -/
def HasAt (t : List.Vector SofiaProfile maxSofiaProfiles) (name : CString) : Prop :=
  ∃ (i : ℕ) (p : SofiaProfile), virtualIpProfileIndex t name = Int.ofNat i ∧
    t.toList[i]? = some p ∧ p.name = name

/-- It finds what `find_virtual_ip_from_profile` sees. -/
theorem profileIndexLoop_of_lists {name : CString} {ps : List SofiaProfile} (k : ℕ)
    (h : listsProfile name ps = true) :
    ∃ (i : ℕ) (p : SofiaProfile), profileIndexLoop name (Int.ofNat k) ps = Int.ofNat (k + i) ∧
      ps[i]? = some p ∧ p.name = name := by
  induction ps generalizing k with
  | nil => cases h
  | cons p ps ih =>
    rw [listsProfile] at h
    rw [profileIndexLoop]
    by_cases hempty : p.name = []
    · rw [if_pos hempty] at h
      cases h
    rw [if_neg hempty] at h ⊢
    by_cases hname : p.name = name
    · rw [if_pos hname]
      exact ⟨0, p, rfl, rfl, hname⟩
    · rw [if_neg hname] at h ⊢
      obtain ⟨i, q, hi, hq, hqn⟩ := ih (k + 1) h
      refine ⟨i + 1, q, ?_, hq, hqn⟩
      have hstep : Int.ofNat k + 1 = Int.ofNat (k + 1) := rfl
      rw [hstep, hi]
      congr 1
      omega

/-- What it finds is seen. -/
theorem lists_of_profileIndexLoop {name : CString} {ps : List SofiaProfile} (k : ℤ)
    (h : 0 ≤ profileIndexLoop name k ps) : listsProfile name ps = true := by
  induction ps generalizing k with
  | nil =>
    rw [profileIndexLoop] at h
    exact absurd h (by decide)
  | cons p ps ih =>
    rw [profileIndexLoop] at h
    rw [listsProfile]
    by_cases hempty : p.name = []
    · rw [if_pos hempty] at h
      exact absurd h (by decide)
    rw [if_neg hempty] at h ⊢
    by_cases hname : p.name = name
    · rw [if_pos hname]
    · rw [if_neg hname] at h ⊢
      exact ih (k + 1) h

theorem hasAt_iff {t : List.Vector SofiaProfile maxSofiaProfiles} {name : CString} :
    HasAt t name ↔ listsProfile name t.toList = true := by
  constructor
  · rintro ⟨i, p, hi, -, -⟩
    apply lists_of_profileIndexLoop 0
    rw [virtualIpProfileIndex] at hi
    rw [hi]
    exact Int.natCast_nonneg i
  · intro h
    obtain ⟨i, p, hi, hp, hname⟩ := profileIndexLoop_of_lists 0 h
    rw [Nat.zero_add] at hi
    exact ⟨i, p, hi, hp, hname⟩

/-! ## Arrival -/

/-- What the members send each other for a profile: a statement reaches another node once, as it was
sent, whatever follows the name in memory, and for the profile that all lookups find; and a node
state is handed on as it was sent. -/
structure MessagesArrive (e : Endian) (s : ConfiguredVip) (v : Vip) (name : CString) : Prop where
  statement : ∀ (o : Outcome) (nodeid : NodeId) (junk : List UInt8) (sql : CString),
    v.nodeId ≠ nodeid → 0 ∉ sql → maxSofiaName ≤ (name ++ 0 :: junk).length →
      headerSize + maxSofiaName + sql.length + 1 < 2 ^ 31 →
        deliverBuf e o v nodeid (virtualIpSendSqlBuf e (name ++ 0 :: junk) sql) =
          some (v, [.trackEvent sql name])
  sender : ∀ order : List ConfiguredVip, s ∈ order → ∃ u ∈ order,
    findVirtualIpFromProfile e order name = some u ∧ HasAt (profileTable e u.profiles) name
  receiver : HasAt v.config.profiles name
  nodeState : ∀ (o : Outcome) (nodeid : NodeId) (nm : NodeMsg), -2 ^ 31 ≤ nm.priority →
    nm.priority < 2 ^ 31 → 0 ∉ nm.runtimeUuid → nm.runtimeUuid.length < uuidSize →
      deliverBuf e o v nodeid (virtualIpSendStateBuf e nm) =
        some ((fsmInputNewStateMessage o v nm nodeid).vip,
          (fsmInputNewStateMessage o v nm nodeid).effects)

/-- The names in an array are C strings. -/
theorem terminated_profileTable {e : Endian} {m : Memory.Mem} :
    ∀ p ∈ (profileTable e m).toList, 0 ∉ p.name := by
  intro p hp h0
  rw [profileTable, List.Vector.toList_ofFn] at hp
  obtain ⟨i, rfl⟩ := List.mem_ofFn.mp hp
  simp only [slotProfile, slotName] at h0
  exact Memory.notMem_cstring _ _ _ h0

/-- A statement for a name in the table is handed over for it. -/
theorem deliverSql_of_lists {v : Vip} {name : CString}
    (h : listsProfile name v.config.profiles.toList = true) (sql : CString) :
    deliverSql v name sql = [.trackEvent sql name] := by
  obtain ⟨-, hmem⟩ := mem_slotNames_of_lists h
  obtain ⟨p, hp, hname⟩ := List.mem_map.mp hmem
  have hsome : (v.config.profiles.toList.find? fun q => q.name = name).isSome := by
    rw [List.find?_isSome]
    exact ⟨p, hp, decide_eq_true hname⟩
  obtain ⟨q, hq⟩ := Option.isSome_iff_exists.mp hsome
  have hqn : q.name = name := by
    have hfound := List.find?_some hq
    exact of_decide_eq_true hfound
  rw [deliverSql, hq]
  simp only [hqn]

/-- **Decoding undoes encoding**, and all lookups agree, if and only if no slot before the name is
empty, in the table of the sender and in that of the receiver. -/
theorem messagesArrive_iff (e : Endian) {s r : ConfiguredVip} {v : Vip} {name : CString}
    (hv : v.config.profiles = profileTable e r.profiles) (hname : 0 ∉ name)
    (hlen : name.length < maxSofiaName) :
    MessagesArrive e s v name ↔
      name ∈ (slotNames (profileTable e s.profiles)).takeWhile (· ≠ []) ∧
        name ∈ (slotNames v.config.profiles).takeWhile (· ≠ []) := by
  rw [slotNames, slotNames, ← listsProfile_iff, ← listsProfile_iff]
  constructor
  · intro h
    refine ⟨?_, hasAt_iff.mp h.receiver⟩
    obtain ⟨u, hu, -, hat⟩ := h.sender [s] List.mem_cons_self
    obtain rfl := List.mem_singleton.mp hu
    exact hasAt_iff.mp hat
  · rintro ⟨hs, hr⟩
    constructor
    · intro o nodeid junk sql hother hsql hjunk _
      rw [deliverBuf_sql hname hlen hjunk hsql (hv ▸ terminated_profileTable), deliverCallback,
        if_pos hother, deliverSql_of_lists hr]
    · intro order hmem
      have hsome : (findVirtualIpFromProfile e order name).isSome := by
        rw [findVirtualIpFromProfile, List.find?_isSome]
        exact ⟨s, hmem, hs⟩
      obtain ⟨u, hu⟩ := Option.isSome_iff_exists.mp hsome
      have hlists := List.find?_some hu
      exact ⟨u, List.mem_of_find?_eq_some hu, hu, hasAt_iff.mpr hlists⟩
    · exact hasAt_iff.mpr hr
    · intro o nodeid nm hmin hmax huuid huuidLen
      exact deliverBuf_state hmin hmax huuid huuidLen

/-- An element without a name. -/
def nameless : ProfileElement := ⟨[], [], List.not_mem_nil⟩

/-- `<virtualip address="1.1.1.1">` with profiles of these names. -/
def withProfiles (ps : List ProfileElement) : VirtualIpElement :=
  ⟨[49, 46, 49, 46, 49, 46, 49], [], [], ps⟩

/-- The slots of a record, where every profile has a file. -/
theorem lists_withProfiles {ps : List ProfileElement} {s : ConfiguredVip}
    (hs : configure everyProfile (withProfiles ps) = some s)
    (hps : ∀ p ∈ ps, p.name.length < maxSofiaName) {name : CString} :
    name ∈ (slotNames (profileTable .little s.profiles)).takeWhile (· ≠ []) ↔
      name ∈ (listed everyProfile (withProfiles ps)).takeWhile (· ≠ []) := by
  have hnames := slotNames_configure hs
  rw [← mem_takeWhile_tableNames hps, ← hnames]
  rfl

/-- With two profiles, a node that has their table sends statements for the second. -/
theorem messagesArrive_two : ∃ s, configure everyProfile (withProfiles [lettered 0, lettered 1]) =
    some s ∧ MessagesArrive .little s (Vip.fresh (s.config .little)) (lettered 1).name := by
  obtain ⟨s, hs⟩ := Option.isSome_iff_exists.mp
    (show (configure everyProfile (withProfiles [lettered 0, lettered 1])).isSome by decide)
  have hlists : (lettered 1).name ∈
      (slotNames (profileTable .little s.profiles)).takeWhile (· ≠ []) :=
    (lists_withProfiles hs (by decide)).mpr (by decide)
  have hconfig : (Vip.fresh (s.config .little)).config.profiles = profileTable .little s.profiles :=
    rfl
  exact ⟨s, hs, (messagesArrive_iff .little hconfig (by decide) (by decide)).mpr
    ⟨hlists, hlists⟩⟩

/-- **A profile behind an empty name** is not found. -/
theorem hidden_profile_unfound :
    ¬ ∀ (sys : Platform) (x y : VirtualIpElement) (s r : ConfiguredVip) (v : Vip) (name : CString),
      configure sys x = some s → configure sys y = some r →
        v.config = r.config sys.byteOrder → 0 ∉ name → 1 ≤ name.length →
          name.length < maxSofiaName → name ∈ tableNames sys x → name ∈ tableNames sys y →
            MessagesArrive sys.byteOrder s v name := by
  intro h
  obtain ⟨s, hs⟩ := Option.isSome_iff_exists.mp
    (show (configure everyProfile (withProfiles [lettered 0, nameless, lettered 1])).isSome by
      decide)
  have hmem : (lettered 1).name ∈
      tableNames everyProfile (withProfiles [lettered 0, nameless, lettered 1]) :=
    (mem_tableNames_iff (by decide) (by decide)).mpr (by decide)
  have harrive := h everyProfile _ _ s s (Vip.fresh (s.config .little)) _ hs hs rfl (by decide)
    (by decide) (by decide) hmem hmem
  have hat : HasAt (profileTable .little s.profiles) (lettered 1).name := harrive.receiver
  rw [hasAt_iff, listsProfile_iff] at hat
  exact absurd ((lists_withProfiles hs (by decide)).mp hat) (by decide)

end CpgFailover
