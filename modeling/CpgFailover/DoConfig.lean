import CpgFailover.ConfigValue
import CpgFailover.ProfileTable

/-!
# Reading the configuration

`do_config` makes a record of each `<virtualip>` element with a valid address that no earlier one
has, and puts it into `virtual_ip_hash`. It refuses the document for a device that names no
interface, and for nothing else that a document says. A device name is cut to five characters before
the interface is looked up, so a longer name either is refused or silently stands for another
interface; a virtual ip without a device, or without a delay, is taken as it is.

## Main definitions

* `VirtualIpElement`, `Platform`: a `<virtualip>` element, and the machine the module runs on
* `ConfiguredVip`, `configure`: the record made of an element
* `doConfig`: `do_config`
* `Accepted`: a document that it accepts, with profile names that fit
* `installed`: the elements that records are made of
* `Runnable`, `OnlyRunnable`: what a record must be like for its virtual ip to run
* `Sound`, `Refused`: what this asks of the document

## Main results

* `doConfig_success_iff`, `doConfig_hash`: which documents are accepted, and what is then installed
* `Accepted.untouched`: names that fit leave the rest of the record alone
* `onlyRunnable_iff`: when only runnable virtual ips are installed
* `bare_virtualip_installed`: a virtual ip without parameters
-/

namespace CpgFailover

open Bytes (Endian)
open FirstOccurrences (firsts)
open Memory (Mem)

/-! ## The document -/

/-- A `<param>` element; a missing attribute is empty. -/
structure Param where
  name : CString
  value : CString
deriving DecidableEq

/-- A `<virtualip>` element. -/
structure VirtualIpElement where
  address : CString
  cidrNetmask : CString
  params : List Param
  profiles : List ProfileElement
deriving DecidableEq

/-- `"device"`. -/
def deviceText : CString := [100, 101, 118, 105, 99, 101]

/-- `"autoload"`. -/
def autoloadText : CString := [97, 117, 116, 111, 108, 111, 97, 100]

/-- `"autorollback"`. -/
def autorollbackText : CString := [97, 117, 116, 111, 114, 111, 108, 108, 98, 97, 99, 107]

/-- `"rollback-delay"`. -/
def rollbackDelayText : CString :=
  [114, 111, 108, 108, 98, 97, 99, 107, 45, 100, 101, 108, 97, 121]

/-- `"priority"`. -/
def priorityText : CString := [112, 114, 105, 111, 114, 105, 116, 121]

/-- `"/sip_profiles/"`. -/
def sipProfilesText : CString :=
  [47, 115, 105, 112, 95, 112, 114, 111, 102, 105, 108, 101, 115, 47]

/-- `".xml"`. -/
def xmlText : CString := [46, 120, 109, 108]

/-- The machine: its byte order, its files, the addresses of its interfaces, and whether memory is
got and a record is put into the hash for the virtual ip of an address. -/
structure Platform where
  byteOrder : Endian
  confDir : CString
  fileExists : CString → Bool
  linkAddr : CString → Option CString
  alloc : CString → Bool
  insert : CString → Bool

/-- `utils_get_mac_addr`. -/
def utilsGetMacAddr (sys : Platform) (interface : CString) : Option CString :=
  if interface = [] then none else sys.linkAddr interface

/-- `utils_profile_control`. -/
def utilsProfileControl (sys : Platform) (profileName : CString) : Bool :=
  sys.fileExists (snprintf 128 (sys.confDir ++ sipProfilesText ++ profileName ++ xmlText))

/-! ## The records -/

/-- `struct cpg_name`. -/
structure CpgName where
  length : ℕ
  value : CString
deriving DecidableEq

/-- `virtual_ip_t` as `do_config` leaves it: the configuration, with the memory from the profile
table on. -/
structure ConfiguredVip where
  address : CString
  netmask : ℤ
  device : CString
  mac : CString
  priority : ℤ
  groupName : CpgName
  autoload : Bool
  autorollback : Bool
  rollbackDelay : ℤ
  profiles : Mem

/-- The configuration part of the record. -/
def ConfiguredVip.config (e : Endian) (r : ConfiguredVip) : Config where
  address := r.address
  device := r.device
  mac := r.mac
  priority := r.priority
  autorollback := r.autorollback
  rollbackDelay := r.rollbackDelay
  profiles := profileTable e r.profiles

/-- The record before its parameters are read. -/
def VirtualIpElement.allocated (x : VirtualIpElement) : ConfiguredVip where
  address := snprintf 16 x.address
  netmask := utilsGetNetmask x.cidrNetmask
  device := []
  mac := []
  priority := 0
  groupName := ⟨x.address.length, snprintf 255 x.address⟩
  autoload := false
  autorollback := false
  rollbackDelay := 0
  profiles := fun _ => 0

/-- The body of the parameter loop; nothing for `goto out`. -/
def applyParam (sys : Platform) (r : ConfiguredVip) (p : Param) : Option ConfiguredVip :=
  if p.name = deviceText then
    -- `config.device` has room for ten bytes
    let device := snprintf 6 p.value
    (utilsGetMacAddr sys device).map fun mac => { r with device := device, mac := snprintf 18 mac }
  else if p.name = autoloadText then some { r with autoload := p.value = trueText }
  else if p.name = autorollbackText then some { r with autorollback := p.value = trueText }
  else if p.name = rollbackDelayText then
    let delay := atoi p.value
    some { r with rollbackDelay := if delay = 0 then 1 else delay }
  else if p.name = priorityText then some { r with priority := atoi p.value }
  else some r

/-- The record made of an element. -/
def configure (sys : Platform) (x : VirtualIpElement) : Option ConfiguredVip :=
  (x.params.foldlM (applyParam sys) x.allocated).map fun r =>
    { r with
      profiles :=
        (profileLoop sys.byteOrder (utilsProfileControl sys) .zeroed x.profiles).mem }

/-- `find_virtual_ip`. -/
def findVirtualIp (hash : List ConfiguredVip) (address : CString) : Option ConfiguredVip :=
  hash.find? fun r => r.address = address

/-- `switch_core_hash_insert`: a record of the same address is replaced. -/
def hashInsert (hash : List ConfiguredVip) (r : ConfiguredVip) : List ConfiguredVip :=
  (hash.filter fun q => q.address ≠ r.address) ++ [r]

/-- The loop of `do_config`, from a hash on. -/
def doConfigLoop (sys : Platform) :
    List ConfiguredVip → List VirtualIpElement → Status × List ConfiguredVip
  | hash, [] => (.success, hash)
  | hash, x :: xs =>
    if (findVirtualIp hash x.address).isSome then doConfigLoop sys hash xs
    else if ¬ utilsIpIsValid x.address then doConfigLoop sys hash xs
    else if ¬ sys.alloc x.address then (.failure, hash)
    else
      match configure sys x with
      | none => (.failure, hash)
      | some r =>
        if sys.insert r.address then doConfigLoop sys (hashInsert hash r) xs
        else (.failure, hash)

/-- `do_config`, with the empty hash; no document when it cannot be opened. -/
def doConfig (sys : Platform) : Option (List VirtualIpElement) → Status × List ConfiguredVip
  | none => (.failure, [])
  | some doc => doConfigLoop sys [] doc

/-- The elements that records are made of: those with a valid address, each address once. -/
def installed (doc : List VirtualIpElement) : List VirtualIpElement :=
  firsts VirtualIpElement.address (doc.filter fun x => utilsIpIsValid x.address)

/-- The value of the last parameter of a name. -/
def lastValue (ps : List Param) (name : CString) : Option CString :=
  (ps.reverse.find? fun p => p.name = name).map Param.value

/-! ## Parameters -/

section Params

variable {sys : Platform} {x : VirtualIpElement} {r : ConfiguredVip}

@[simp] theorem lastValue_nil (name : CString) : lastValue [] name = none := rfl

@[simp] theorem lastValue_concat (ps : List Param) (p : Param) (name : CString) :
    lastValue (ps ++ [p]) name = if p.name = name then some p.value else lastValue ps name := by
  rw [lastValue, List.reverse_append, List.reverse_singleton, List.singleton_append,
    List.find?_cons]
  by_cases h : p.name = name
  · simp [h]
  · simp [h, lastValue]

theorem mem_of_lastValue {ps : List Param} {name v : CString} (h : lastValue ps name = some v) :
    ∃ p ∈ ps, p.name = name ∧ p.value = v := by
  obtain ⟨p, hp, rfl⟩ := Option.map_eq_some_iff.mp h
  have hname := List.find?_some hp
  exact ⟨p, List.mem_reverse.mp (List.mem_of_find?_eq_some hp), of_decide_eq_true hname, rfl⟩

/-- What `rollback-delay` is set to. -/
def delayOf (value : CString) : ℤ := if atoi value = 0 then 1 else atoi value

/-- Every device of these parameters is known. -/
def Known (sys : Platform) (ps : List Param) : Prop :=
  ∀ p ∈ ps, p.name = deviceText → (utilsGetMacAddr sys (snprintf 6 p.value)).isSome

/-- What the parameters make of a record: of each name the last value counts. -/
def readParams (sys : Platform) (r : ConfiguredVip) (ps : List Param) : ConfiguredVip :=
  { r with
    device := ((lastValue ps deviceText).map (snprintf 6)).getD r.device
    mac := ((lastValue ps deviceText).bind fun v =>
      (utilsGetMacAddr sys (snprintf 6 v)).map (snprintf 18)).getD r.mac
    priority := ((lastValue ps priorityText).map atoi).getD r.priority
    autoload := ((lastValue ps autoloadText).map fun v => decide (v = trueText)).getD r.autoload
    autorollback :=
      ((lastValue ps autorollbackText).map fun v => decide (v = trueText)).getD r.autorollback
    rollbackDelay := ((lastValue ps rollbackDelayText).map delayOf).getD r.rollbackDelay }

/-- **One parameter more**, a case a name. -/
theorem applyParam_readParams {ps : List Param} {p : Param}
    (h : p.name = deviceText → (utilsGetMacAddr sys (snprintf 6 p.value)).isSome) :
    applyParam sys (readParams sys r ps) p = some (readParams sys r (ps ++ [p])) := by
  have hdistinct : [deviceText, autoloadText, autorollbackText, rollbackDelayText,
      priorityText].Nodup := by decide
  simp only [List.nodup_cons, List.mem_cons, List.not_mem_nil, or_false, not_or] at hdistinct
  obtain ⟨⟨h₁₂, h₁₃, h₁₄, h₁₅⟩, ⟨h₂₃, h₂₄, h₂₅⟩, ⟨h₃₄, h₃₅⟩, h₄₅, -⟩ := hdistinct
  rw [applyParam]
  simp only [readParams, lastValue_concat]
  by_cases hdevice : p.name = deviceText
  · obtain ⟨mac, hmac⟩ := Option.isSome_iff_exists.mp (h hdevice)
    simp [hdevice, hmac, h₁₂, h₁₃, h₁₄, h₁₅]
  by_cases hautoload : p.name = autoloadText
  · simp [hautoload, Ne.symm h₁₂, h₂₃, h₂₄, h₂₅]
  by_cases hautorollback : p.name = autorollbackText
  · simp [hautorollback, Ne.symm h₁₃, Ne.symm h₂₃, h₃₄, h₃₅]
  by_cases hdelay : p.name = rollbackDelayText
  · simp [hdelay, delayOf, Ne.symm h₁₄, Ne.symm h₂₄, Ne.symm h₃₄, h₄₅]
  by_cases hpriority : p.name = priorityText
  · simp [hpriority, Ne.symm h₁₅, Ne.symm h₂₅, Ne.symm h₃₅, Ne.symm h₄₅]
  · simp [hdevice, hautoload, hautorollback, hdelay, hpriority]

/-- **All parameters**, if every device is known. -/
theorem foldlM_applyParam {ps : List Param} (h : Known sys ps) :
    ps.foldlM (applyParam sys) r = some (readParams sys r ps) := by
  induction ps using List.reverseRecOn with
  | nil => rfl
  | append_singleton ps p ih =>
    rw [List.foldlM_append, ih fun q hq => h q (List.mem_append_left _ hq)]
    have hstep : applyParam sys (readParams sys r ps) p = some (readParams sys r (ps ++ [p])) :=
      applyParam_readParams (h p (List.mem_append_right _ List.mem_cons_self))
    simpa using hstep

/-- Only then do they go through. -/
theorem known_of_foldlM {ps : List Param} (h : (ps.foldlM (applyParam sys) r).isSome) :
    Known sys ps := by
  induction ps generalizing r with
  | nil => exact fun p hp => absurd hp List.not_mem_nil
  | cons p ps ih =>
    obtain ⟨r₂, hr₂⟩ := Option.isSome_iff_exists.mp h
    rw [List.foldlM_cons] at hr₂
    obtain ⟨r₁, hr₁, hrest⟩ := Option.bind_eq_some_iff.mp hr₂
    intro q hq
    rcases List.mem_cons.mp hq with rfl | hq
    · intro hdevice
      rw [applyParam, if_pos hdevice] at hr₁
      obtain ⟨mac, hmac, -⟩ := Option.map_eq_some_iff.mp hr₁
      rw [hmac]
      rfl
    · exact ih (by rw [hrest]; rfl) q hq

/-- **The record of an element** has its parameters and its profile table. -/
theorem configure_eq (h : configure sys x = some r) : Known sys x.params ∧
    r = { readParams sys x.allocated x.params with
      profiles :=
        (profileLoop sys.byteOrder (utilsProfileControl sys) .zeroed x.profiles).mem } := by
  obtain ⟨r', hr', rfl⟩ := Option.map_eq_some_iff.mp h
  have hknown := known_of_foldlM (by rw [hr']; rfl)
  rw [foldlM_applyParam hknown] at hr'
  exact ⟨hknown, by rw [Option.some.inj hr']⟩

/-- **A record is made** of an element whose devices are all known. -/
theorem configure_isSome_iff : (configure sys x).isSome ↔ Known sys x.params := by
  constructor
  · intro h
    obtain ⟨r, hr⟩ := Option.isSome_iff_exists.mp h
    exact (configure_eq hr).1
  · intro h
    rw [configure, Option.isSome_map, foldlM_applyParam h]
    rfl

/-- The priority of a record is an `int`. -/
theorem configure_priority (h : configure sys x = some r) :
    -2 ^ 31 ≤ r.priority ∧ r.priority < 2 ^ 31 := by
  have hpriority : r.priority = ((lastValue x.params priorityText).map atoi).getD 0 := by
    rw [(configure_eq h).2]
    rfl
  rw [hpriority]
  cases lastValue x.params priorityText with
  | none =>
    rw [Option.map_none, Option.getD_none]
    omega
  | some v => exact Bytes.toInt_bounds (strtol v)

end Params

/-! ## The document as a whole -/

section Document

variable {sys : Platform} {done xs : List VirtualIpElement} {x : VirtualIpElement}
  {hash : List ConfiguredVip} {r : ConfiguredVip}

theorem valid_of_mem_installed (h : x ∈ installed done) : utilsIpIsValid x.address = true :=
  (List.mem_filter.mp (FirstOccurrences.firsts_subset _ h)).2

theorem configure_address (h : configure sys x = some r)
    (hx : utilsIpIsValid x.address = true) : r.address = x.address := by
  have haddr : r.address = snprintf 16 x.address := by
    rw [(configure_eq h).2]
    rfl
  rw [haddr]
  exact List.take_of_length_le (length_le_of_utilsIpIsValid hx)

/-- Nothing stands in the way of a record for the element. -/
def Installable (sys : Platform) (x : VirtualIpElement) : Prop :=
  sys.alloc x.address = true ∧ sys.insert x.address = true ∧
    ∀ p ∈ x.params, p.name = deviceText → (utilsGetMacAddr sys (snprintf 6 p.value)).isSome

/-- The hash holds the records of the elements read so far. -/
def Built (sys : Platform) (done : List VirtualIpElement) (hash : List ConfiguredVip) : Prop :=
  hash.map some = (installed done).map (configure sys)

theorem built_nil (sys : Platform) : Built sys [] [] := rfl

theorem Built.element (h : Built sys done hash) (hr : r ∈ hash) :
    ∃ x ∈ installed done, configure sys x = some r := by
  have hmem : some r ∈ (installed done).map (configure sys) := by
    rw [← h]
    exact List.mem_map_of_mem hr
  exact List.mem_map.mp hmem

theorem Built.record (h : Built sys done hash) (hx : x ∈ installed done) :
    ∃ r ∈ hash, configure sys x = some r := by
  have hmem : configure sys x ∈ hash.map some := by
    rw [h]
    exact List.mem_map_of_mem hx
  obtain ⟨r, hr, he⟩ := List.mem_map.mp hmem
  exact ⟨r, hr, he.symm⟩

theorem Built.mem_address (h : Built sys done hash) (a : CString) :
    a ∈ hash.map ConfiguredVip.address ↔ a ∈ (installed done).map VirtualIpElement.address := by
  simp only [List.mem_map]
  constructor
  · rintro ⟨r, hr, rfl⟩
    obtain ⟨x, hx, hc⟩ := h.element hr
    exact ⟨x, hx, (configure_address hc (valid_of_mem_installed hx)).symm⟩
  · rintro ⟨x, hx, rfl⟩
    obtain ⟨r, hr, hc⟩ := h.record hx
    exact ⟨r, hr, configure_address hc (valid_of_mem_installed hx)⟩

/-- No two records have the same address. -/
theorem Built.eq_of_address (h : Built sys done hash) {r' : ConfiguredVip} (hr : r ∈ hash)
    (hr' : r' ∈ hash) (ha : r.address = r'.address) : r = r' := by
  obtain ⟨x, hx, hc⟩ := h.element hr
  obtain ⟨x', hx', hc'⟩ := h.element hr'
  have hsame : x = x' := by
    apply List.inj_on_of_nodup_map (FirstOccurrences.nodup_firsts _) hx hx'
    rw [← configure_address hc (valid_of_mem_installed hx), ha,
      configure_address hc' (valid_of_mem_installed hx')]
  rw [hsame, hc'] at hc
  exact (Option.some.inj hc).symm

/-- The group of a record has its address for a name. -/
theorem Built.group (h : Built sys done hash) (hr : r ∈ hash) : r.groupName.value = r.address := by
  obtain ⟨x, hx, hc⟩ := h.element hr
  have hvalid := valid_of_mem_installed hx
  have hgroup : r.groupName = ⟨x.address.length, snprintf 255 x.address⟩ := by
    rw [(configure_eq hc).2]
    rfl
  rw [hgroup, configure_address hc hvalid]
  apply List.take_of_length_le
  exact le_trans (length_le_of_utilsIpIsValid hvalid) (by decide)

theorem findVirtualIp_isSome {a : CString} :
    (findVirtualIp hash a).isSome ↔ a ∈ hash.map ConfiguredVip.address := by
  simp [findVirtualIp, List.find?_isSome]

/-- A record of a new address is added. -/
theorem hashInsert_of_notMem (h : r.address ∉ hash.map ConfiguredVip.address) :
    hashInsert hash r = hash ++ [r] := by
  rw [hashInsert, List.filter_eq_self.mpr]
  intro q hq
  apply decide_eq_true
  intro he
  exact h (he ▸ List.mem_map_of_mem hq)

/-- **One element**: it is passed over, ends the loop, or has its record added. -/
theorem doConfigLoop_cons (h : Built sys done hash) (x : VirtualIpElement)
    (xs : List VirtualIpElement) :
    (installed (done ++ [x]) = installed done ∧
      doConfigLoop sys hash (x :: xs) = doConfigLoop sys hash xs) ∨
    (installed (done ++ [x]) = installed done ++ [x] ∧
      ((¬ Installable sys x ∧ (doConfigLoop sys hash (x :: xs)).1 = .failure) ∨
        (Installable sys x ∧ ∃ r, configure sys x = some r ∧
          doConfigLoop sys hash (x :: xs) = doConfigLoop sys (hash ++ [r]) xs))) := by
  rw [doConfigLoop]
  by_cases hfound : x.address ∈ hash.map ConfiguredVip.address
  · left
    rw [if_pos (findVirtualIp_isSome.mpr hfound)]
    exact ⟨FirstOccurrences.firsts_filter_concat_old fun _ => (h.mem_address _).mp hfound, rfl⟩
  rw [if_neg fun hs => hfound (findVirtualIp_isSome.mp hs)]
  by_cases hvalid : utilsIpIsValid x.address = true
  swap
  · left
    rw [if_pos hvalid]
    exact ⟨FirstOccurrences.firsts_filter_concat_old fun hv => absurd hv hvalid, rfl⟩
  right
  refine ⟨FirstOccurrences.firsts_filter_concat_new hvalid
    fun hm => hfound ((h.mem_address _).mpr hm), ?_⟩
  rw [if_neg (not_not.mpr hvalid)]
  by_cases halloc : sys.alloc x.address = true
  swap
  · rw [if_pos halloc]
    exact Or.inl ⟨fun hx => halloc hx.1, rfl⟩
  rw [if_neg (not_not.mpr halloc)]
  cases hc : configure sys x with
  | none =>
    refine Or.inl ⟨fun hx => ?_, rfl⟩
    have hsome := configure_isSome_iff.mpr hx.2.2
    rw [hc] at hsome
    cases hsome
  | some r =>
    have haddr := configure_address hc hvalid
    simp only
    rw [haddr]
    by_cases hinsert : sys.insert x.address = true
    · rw [if_pos hinsert, hashInsert_of_notMem (haddr ▸ hfound)]
      exact Or.inr ⟨⟨halloc, hinsert, configure_isSome_iff.mp (by rw [hc]; rfl)⟩, r, rfl, rfl⟩
    · rw [if_neg hinsert]
      exact Or.inl ⟨fun hx => hinsert hx.2.1, rfl⟩

/-- **The loop**: it goes through if every element that it makes a record of can be installed, and
then the hash holds their records. -/
theorem doConfigLoop_spec (h : Built sys done hash)
    (hdone : ∀ y ∈ installed done, Installable sys y) :
    ((doConfigLoop sys hash xs).1 = .success ↔
        ∀ y ∈ installed (done ++ xs), Installable sys y) ∧
      ((doConfigLoop sys hash xs).1 = .success →
        Built sys (done ++ xs) (doConfigLoop sys hash xs).2) := by
  induction xs generalizing done hash with
  | nil =>
    rw [List.append_nil]
    exact ⟨iff_of_true rfl hdone, fun _ => h⟩
  | cons x xs ih =>
    rw [List.append_cons]
    rcases doConfigLoop_cons h x xs with ⟨hold, hloop⟩ | ⟨hnew, ⟨hx, hfail⟩ | ⟨hx, r, hc, hloop⟩⟩
    · rw [hloop]
      exact ih (by rw [Built, hold]; exact h) (by rwa [hold])
    · have hmem : x ∈ installed (done ++ [x] ++ xs) := by
        apply (FirstOccurrences.firsts_filter_grows _ (done ++ [x]) xs).subset
        rw [← installed, hnew]
        exact List.mem_append_right _ List.mem_cons_self
      rw [hfail]
      exact ⟨iff_of_false (by decide) fun hall => hx (hall x hmem), fun hs => by cases hs⟩
    · rw [hloop]
      apply ih
      · rw [Built, List.map_append, hnew, List.map_append, h, List.map_singleton,
          List.map_singleton, hc]
      · rw [hnew]
        intro y hy
        rcases List.mem_append.mp hy with hy | hy
        · exact hdone y hy
        · obtain rfl := List.mem_singleton.mp hy
          exact hx

/-- **A document is accepted** if every element that a record is made of can be installed. -/
theorem doConfig_success_iff (sys : Platform) (doc : List VirtualIpElement) :
    (doConfig sys (some doc)).1 = .success ↔ ∀ x ∈ installed doc, Installable sys x :=
  (doConfigLoop_spec (built_nil sys) fun _ hy => absurd hy List.not_mem_nil).1

/-- Something stands in the way of a record. -/
def Refused (sys : Platform) (doc : List VirtualIpElement) : Prop :=
  ∃ x ∈ installed doc, ¬ Installable sys x

theorem not_success_of_refused {doc : List VirtualIpElement} (h : Refused sys doc) :
    (doConfig sys (some doc)).1 ≠ .success := by
  intro hs
  obtain ⟨x, hx, hnot⟩ := h
  exact hnot ((doConfig_success_iff sys doc).mp hs x hx)

theorem success_of_not_refused {doc : List VirtualIpElement} (h : ¬ Refused sys doc) :
    (doConfig sys (some doc)).1 = .success := by
  apply (doConfig_success_iff sys doc).mpr
  intro x hx
  by_contra hnot
  exact h ⟨x, hx, hnot⟩

/-- **What is then installed** are the records of these elements. -/
theorem doConfig_hash {doc : List VirtualIpElement}
    (h : (doConfig sys (some doc)).1 = .success) : Built sys doc (doConfig sys (some doc)).2 :=
  (doConfigLoop_spec (built_nil sys) fun _ hy => absurd hy List.not_mem_nil).2 h

/-- `do_config` accepts the document, and the profile names fit their field. A longer one in the last
slot is written over what the virtual ip has behind the table, its state first. -/
structure Accepted (sys : Platform) (doc : List VirtualIpElement) : Prop where
  success : (doConfig sys (some doc)).1 = .success
  fits : ∀ x ∈ doc, ∀ p ∈ x.profiles, p.name.length < maxSofiaName

/-- **The records of such a document** are as they were allocated behind the table. -/
theorem Accepted.untouched {doc : List VirtualIpElement} (h : Accepted sys doc)
    (hr : r ∈ (doConfig sys (some doc)).2) {a : ℕ} (ha : tableSize ≤ a) : r.profiles a = 0 := by
  obtain ⟨x, hx, hc⟩ := (doConfig_hash h.success).element hr
  have hmem : x ∈ doc := List.mem_of_mem_filter (FirstOccurrences.firsts_subset _ hx)
  have hzeroed : Filled sys.byteOrder (met (utilsProfileControl sys) []) .zeroed :=
    filled_zeroed _
  have hfilled := filled_profileLoop hzeroed (h.fits x hmem)
  rw [(configure_eq hc).2]
  apply hfilled.rest
  exact le_trans (Nat.mul_le_mul_right _ hfilled.size) ha

end Document

/-! ## Runnable virtual ips -/

/-- What the virtual ip of an element needs to run: the interface that the element names, with its
address, and a delay that the rollback thread can count out in seconds. -/
structure Runnable (sys : Platform) (x : VirtualIpElement) (r : ConfiguredVip) : Prop where
  device : lastValue x.params deviceText = some r.device
  named : r.device ≠ []
  mac : sys.linkAddr r.device = some r.mac
  delay : 1 ≤ r.rollbackDelay
  seconds : r.rollbackDelay * 60 ≤ intMax

/-- An accepted document has only runnable virtual ips installed. -/
def OnlyRunnable (sys : Platform) (doc : List VirtualIpElement) : Prop :=
  (doConfig sys (some doc)).1 = .success →
    ∀ r ∈ (doConfig sys (some doc)).2, ∃ x ∈ installed doc, x.address = r.address ∧ Runnable sys x r

/-- The element names a device, the last time with no more than five characters and for an interface
with an address of no more than 17, and it gives a delay, the last time zero or one that can be
counted out. -/
def Sound (sys : Platform) (x : VirtualIpElement) : Prop :=
  (∃ v, lastValue x.params deviceText = some v ∧ v.length ≤ 5 ∧
      ∀ mac, sys.linkAddr v = some mac → mac.length ≤ 17) ∧
    ∃ v, lastValue x.params rollbackDelayText = some v ∧
      (atoi v = 0 ∨ 1 ≤ atoi v ∧ atoi v * 60 ≤ intMax)

section Runnable

variable {sys : Platform} {x : VirtualIpElement} {r : ConfiguredVip}

/-- A cut text is the text if it is short enough. -/
theorem snprintf_eq_self_iff {n : ℕ} {s : CString} :
    snprintf (n + 1) s = s ↔ s.length ≤ n := by
  rw [snprintf, Nat.add_sub_cancel]
  constructor
  · intro h
    rw [← h]
    exact List.length_take_le n s
  · exact List.take_of_length_le

theorem delayOf_bounds (v : CString) :
    1 ≤ delayOf v ∧ delayOf v * 60 ≤ intMax ↔
      atoi v = 0 ∨ 1 ≤ atoi v ∧ atoi v * 60 ≤ intMax := by
  rw [delayOf]
  split
  · rename_i h
    exact iff_of_true ⟨le_refl _, by decide⟩ (Or.inl h)
  · rename_i h
    rw [or_iff_right h]

/-- The device of a record is the last one given, cut, and the interface of that name is known. -/
theorem configure_device (h : configure sys x = some r) {v : CString}
    (hv : lastValue x.params deviceText = some v) :
    ∃ mac, snprintf 6 v ≠ [] ∧ sys.linkAddr (snprintf 6 v) = some mac ∧
      r.device = snprintf 6 v ∧ r.mac = snprintf 18 mac := by
  obtain ⟨hknown, hr⟩ := configure_eq h
  obtain ⟨p, hp, hname, rfl⟩ := mem_of_lastValue hv
  obtain ⟨mac, hget⟩ := Option.isSome_iff_exists.mp (hknown p hp hname)
  have hdevice : r.device = snprintf 6 p.value := by
    rw [hr]
    simp [readParams, hv]
  have hmac : r.mac = snprintf 18 mac := by
    rw [hr]
    simp [readParams, hv, hget]
  rw [utilsGetMacAddr] at hget
  split at hget
  · cases hget
  · exact ⟨mac, ‹_›, hget, hdevice, hmac⟩

theorem configure_delay (h : configure sys x = some r) :
    r.rollbackDelay = ((lastValue x.params rollbackDelayText).map delayOf).getD 0 := by
  rw [(configure_eq h).2]
  rfl

/-- A runnable record has not been cut, and has been given a delay. -/
theorem sound_of_runnable (h : configure sys x = some r) (hr : Runnable sys x r) :
    Sound sys x := by
  constructor
  · obtain ⟨mac, -, hlink, hcut, hmac⟩ := configure_device h hr.device
    refine ⟨r.device, hr.device, snprintf_eq_self_iff.mp hcut.symm, ?_⟩
    intro mac' hmac'
    have hself := hr.mac
    rw [hmac'] at hself
    rw [← hcut, hmac'] at hlink
    rw [hmac, ← Option.some.inj hlink] at hself
    exact snprintf_eq_self_iff.mp (Option.some.inj hself).symm
  · have hdelay := configure_delay h
    have hle := hr.delay
    have hsec := hr.seconds
    rw [hdelay] at hle hsec
    cases hv : lastValue x.params rollbackDelayText with
    | none =>
      rw [hv] at hle
      exact absurd hle (by decide)
    | some v =>
      rw [hv] at hle hsec
      exact ⟨v, rfl, (delayOf_bounds v).mp ⟨hle, hsec⟩⟩

/-- What has not been cut stands for itself. -/
theorem runnable_of_sound (h : configure sys x = some r) (hx : Sound sys x) :
    Runnable sys x r := by
  obtain ⟨⟨v, hv, hlen, hmaclen⟩, t, ht, hbounds⟩ := hx
  obtain ⟨mac, hne, hlink, hdevice, hmac⟩ := configure_device h hv
  rw [snprintf_eq_self_iff.mpr hlen] at hne hlink hdevice
  rw [snprintf_eq_self_iff.mpr (hmaclen mac hlink)] at hmac
  have hdelay : r.rollbackDelay = delayOf t := by
    rw [configure_delay h, ht]
    rfl
  obtain ⟨hle, hsec⟩ := (delayOf_bounds t).mpr hbounds
  constructor
  · rw [hv, hdevice]
  · rwa [hdevice]
  · rw [hdevice, hmac, hlink]
  · rwa [hdelay]
  · rwa [hdelay]

/-- **A record is runnable** if and only if its element is sound. -/
theorem runnable_iff (h : configure sys x = some r) : Runnable sys x r ↔ Sound sys x :=
  ⟨sound_of_runnable h, runnable_of_sound h⟩

end Runnable

/-- **Only runnable virtual ips are installed** if and only if the document is refused, or every
element that a record is made of names a device of no more than five characters and gives a delay
that is zero or can be counted out. -/
theorem onlyRunnable_iff (sys : Platform) (doc : List VirtualIpElement) :
    OnlyRunnable sys doc ↔ Refused sys doc ∨ ∀ x ∈ installed doc, Sound sys x := by
  by_cases hrefused : Refused sys doc
  · exact iff_of_true (fun hs => absurd hs (not_success_of_refused hrefused)) (Or.inl hrefused)
  rw [or_iff_right hrefused]
  have hs := success_of_not_refused hrefused
  have hbuilt := doConfig_hash hs
  rw [OnlyRunnable, imp_iff_right hs]
  constructor
  · intro h x hx
    obtain ⟨r, hr, hc⟩ := hbuilt.record hx
    obtain ⟨x', hx', haddr, hrun⟩ := h r hr
    -- the record has the address of one element only
    have hsame : x' = x := by
      apply List.inj_on_of_nodup_map (FirstOccurrences.nodup_firsts _) hx' hx
      rw [haddr, configure_address hc (valid_of_mem_installed hx)]
    rw [hsame] at hrun
    exact (runnable_iff hc).mp hrun
  · intro h r hr
    obtain ⟨x, hx, hc⟩ := hbuilt.element hr
    exact ⟨x, hx, (configure_address hc (valid_of_mem_installed hx)).symm,
      (runnable_iff hc).mpr (h x hx)⟩

/-- A machine with one interface, `eth0`, and no profiles. -/
def oneInterface : Platform where
  byteOrder := .little
  confDir := []
  fileExists _ := false
  linkAddr name := if name = [101, 116, 104, 48] then some [48] else none
  alloc _ := true
  insert _ := true

/-- `<virtualip address="1.1.1.1"/>`. -/
def bareVirtualIp : VirtualIpElement := ⟨[49, 46, 49, 46, 49, 46, 49], [], [], []⟩

/-- **A virtual ip without parameters** is installed, with no device and no delay. -/
theorem bare_virtualip_installed :
    ¬ ∀ (sys : Platform) (doc : List VirtualIpElement), OnlyRunnable sys doc := by
  intro h
  have hs : (doConfig oneInterface (some [bareVirtualIp])).1 = .success := by decide
  obtain ⟨r, hr, -⟩ := (doConfig_hash hs).record (x := bareVirtualIp) (by decide)
  obtain ⟨x, hx, -, hrun⟩ := h oneInterface [bareVirtualIp] hs r hr
  have hx : x = bareVirtualIp := by
    have heq : installed [bareVirtualIp] = [bareVirtualIp] := by decide
    rw [heq] at hx
    exact List.mem_singleton.mp hx
  have hdevice := hrun.device
  rw [hx] at hdevice
  cases hdevice

end CpgFailover
