import CpgFailover.Address
import CpgFailover.AddressText
import CpgFailover.Release
import Mathlib.Data.Set.Insert

/-!
# The interface

`utils_add_vip` and `utils_remove_vip` ask the kernel, through the netlink library, to add an
address to an interface or to delete it. A kernel that answers that the address is there already, or
gone already, has done what it is asked for; any other error leaves the interface as it is. So the
bit in the model of a process that says whether its address is on the interface is what the kernel
says, unless a removal fails.

## Main definitions

* `Rtnl`, `Rtnl.Documented`: the netlink library, and what its documentation says
* `ipAddr`, `utilsAddVip`, `utilsRemoveVip`: the functions that ask the kernel
* `Rtnl.place`: where a vip has its address
* `Proc.interfaceCalls`, `Rtnl.calls`: the calls of a step, and what the kernel makes of them
* `Tracks`: the kernel agrees with the process

## Main results

* `utilsAddVip_spec`, `utilsRemoveVip_spec`: what the calls do
* `Tracks.step`: a step of a process keeps the kernel in agreement, and other addresses as they are
-/

namespace CpgFailover

open Agreed (Entry)
open Bytes (toInt)

/-! ## The library -/

/-- An address on an interface: the number of the interface, and the bytes. -/
abbrev Place := ℤ × List UInt8

/-- The netlink library and the kernel behind it. Interfaces keep their numbers. -/
structure Rtnl (κ : Type) where
  nlHandleAlloc : κ → Bool × κ
  nlConnect : κ → Bool × κ
  ifNametoindex : CString → ℕ
  rtnlAddrAlloc : κ → Bool × κ
  nlAddrBuild : κ → List UInt8 → Bool × κ
  rtnlAddrAdd : κ → Place → ℤ × κ
  rtnlAddrDelete : κ → Place → ℤ × κ

/-- What the library does to the addresses. The errors 17 and 99 are `EEXIST` and
`EADDRNOTAVAIL`. -/
structure Rtnl.Documented {κ : Type} (k : Rtnl κ) (has : κ → Set Place) : Prop where
  handle (s : κ) : has (k.nlHandleAlloc s).2 = has s
  connect (s : κ) : has (k.nlConnect s).2 = has s
  alloc (s : κ) : has (k.rtnlAddrAlloc s).2 = has s
  build (s : κ) (q : List UInt8) : has (k.nlAddrBuild s q).2 = has s
  added {s : κ} {a : Place} : 0 ≤ (k.rtnlAddrAdd s a).1 →
    has (k.rtnlAddrAdd s a).2 = insert a (has s)
  present {s : κ} {a : Place} : (k.rtnlAddrAdd s a).1 = -17 → a ∈ has s
  notAdded {s : κ} {a : Place} : (k.rtnlAddrAdd s a).1 < 0 → has (k.rtnlAddrAdd s a).2 = has s
  deleted {s : κ} {a : Place} : 0 ≤ (k.rtnlAddrDelete s a).1 →
    has (k.rtnlAddrDelete s a).2 = has s \ {a}
  absent {s : κ} {a : Place} : (k.rtnlAddrDelete s a).1 = -99 → a ∉ has s
  notDeleted {s : κ} {a : Place} : (k.rtnlAddrDelete s a).1 < 0 →
    has (k.rtnlAddrDelete s a).2 = has s

/-- `cmd_t`. -/
inductive Cmd
  | addIp
  | delIp
deriving DecidableEq

section Functions

variable {κ : Type} (k : Rtnl κ)

/-- `init_handle`, and whether it returns 0. -/
def initHandle (s : κ) : Bool × κ :=
  match k.nlHandleAlloc s with
  | (false, s) => (false, s)
  | (true, s) => k.nlConnect s

/-- The request of `ip_addr`: an address that is there already has been added, and one that is not
there has been removed. -/
def requestAddr (s : κ) (addr : Place) : Cmd → ℤ × κ
  | .addIp =>
    match k.rtnlAddrAdd s addr with
    | (err, s) => (if err = -17 then 0 else if err < 0 then -1 else 0, s)
  | .delIp =>
    match k.rtnlAddrDelete s addr with
    | (err, s) => (if err = -99 then 0 else if err < 0 then -1 else 0, s)

/-- `ip_addr`. -/
def ipAddr (s : κ) (ip4addr interface : CString) (cmd : Cmd) : ℤ × κ :=
  match initHandle k s with
  | (false, s) => (-1, s)
  | (true, s) =>
    let ifaceIdx := toInt (k.ifNametoindex interface)
    if ifaceIdx < 0 then (-1, s)
    else
      match k.rtnlAddrAlloc s with
      | (false, s) => (-1, s)
      | (true, s) =>
        match inetPton ip4addr with
        | none => (-1, s)
        | some binaddr =>
          match k.nlAddrBuild s binaddr with
          | (false, s) => (-1, s)
          | (true, s) => requestAddr k s (ifaceIdx, binaddr) cmd

/-- What `utils_add_vip` and `utils_remove_vip` have in common. -/
def utilsChangeVip (s : κ) (ip dev : CString) (cmd : Cmd) : Status × κ :=
  if ip ≠ [] ∧ dev ≠ [] then
    match ipAddr k s ip dev cmd with
    | (ret, s) => (if ret < 0 then .failure else .success, s)
  else (.failure, s)

/-- `utils_add_vip`. -/
def utilsAddVip (s : κ) (ip dev : CString) : Status × κ := utilsChangeVip k s ip dev .addIp

/-- `utils_remove_vip`. -/
def utilsRemoveVip (s : κ) (ip dev : CString) : Status × κ := utilsChangeVip k s ip dev .delIp

/-- Where a vip of this address has it, on this interface. -/
def Rtnl.place (ip dev : CString) : Place := (toInt (k.ifNametoindex dev), (inetPton ip).getD [])

end Functions

/-! ## What the calls do -/

section Spec

variable {κ : Type} {k : Rtnl κ} {has : κ → Set Place}

/-- The addresses with this one, or without it. -/
def Cmd.apply (a : Place) (before : Set Place) : Cmd → Set Place
  | .addIp => insert a before
  | .delIp => before \ {a}

theorem has_initHandle (h : k.Documented has) (s : κ) :
    has (initHandle k s).2 = has s := by
  rw [initHandle]
  have hhandle := h.handle s
  cases hr : k.nlHandleAlloc s with
  | mk ok s₁ =>
    rw [hr] at hhandle
    cases ok with
    | false => exact hhandle
    | true => exact (h.connect s₁).trans hhandle

/-- **The request** is done, or has failed and left the interface as it was. -/
theorem requestAddr_spec (h : k.Documented has) (s : κ) (a : Place) (cmd : Cmd) :
    ((requestAddr k s a cmd).1 = 0 ∧ has (requestAddr k s a cmd).2 = cmd.apply a (has s)) ∨
      ((requestAddr k s a cmd).1 = -1 ∧ has (requestAddr k s a cmd).2 = has s) := by
  cases cmd with
  | addIp =>
    simp only [requestAddr, Cmd.apply]
    split_ifs with hexist herr
    · -- it is there already
      left
      refine ⟨rfl, ?_⟩
      rw [h.notAdded (by rw [hexist]; decide), Set.insert_eq_of_mem (h.present hexist)]
    · exact Or.inr ⟨rfl, h.notAdded herr⟩
    · exact Or.inl ⟨rfl, h.added (not_lt.mp herr)⟩
  | delIp =>
    simp only [requestAddr, Cmd.apply]
    split_ifs with habsent herr
    · -- it is not there
      left
      refine ⟨rfl, ?_⟩
      rw [h.notDeleted (by rw [habsent]; decide), Set.sdiff_singleton_eq_self (h.absent habsent)]
    · exact Or.inr ⟨rfl, h.notDeleted herr⟩
    · exact Or.inl ⟨rfl, h.deleted (not_lt.mp herr)⟩

/-- **`ip_addr`** does what it is asked for, or has failed and left the interface as it was. -/
theorem ipAddr_spec (h : k.Documented has) (s : κ) (ip dev : CString) (cmd : Cmd) :
    ((ipAddr k s ip dev cmd).1 = 0 ∧
        has (ipAddr k s ip dev cmd).2 = cmd.apply (k.place ip dev) (has s)) ∨
      ((ipAddr k s ip dev cmd).1 = -1 ∧ has (ipAddr k s ip dev cmd).2 = has s) := by
  have hinit := has_initHandle h s
  rw [ipAddr]
  cases hr : initHandle k s with
  | mk ok s₁ =>
    rw [hr] at hinit
    cases ok with
    | false => exact Or.inr ⟨rfl, hinit⟩
    | true =>
      simp only
      by_cases hidx : toInt (k.ifNametoindex dev) < 0
      · rw [if_pos hidx]
        exact Or.inr ⟨rfl, hinit⟩
      rw [if_neg hidx]
      have halloc := h.alloc s₁
      cases hr₂ : k.rtnlAddrAlloc s₁ with
      | mk ok₂ s₂ =>
        rw [hr₂] at halloc
        cases ok₂ with
        | false => exact Or.inr ⟨rfl, halloc.trans hinit⟩
        | true =>
          simp only
          cases hq : inetPton ip with
          | none => exact Or.inr ⟨rfl, halloc.trans hinit⟩
          | some q =>
            simp only
            have hbuild := h.build s₂ q
            cases hr₃ : k.nlAddrBuild s₂ q with
            | mk ok₃ s₃ =>
              rw [hr₃] at hbuild
              have hsame : has s₃ = has s := (hbuild.trans halloc).trans hinit
              cases ok₃ with
              | false => exact Or.inr ⟨rfl, hsame⟩
              | true =>
                have hplace : k.place ip dev = (toInt (k.ifNametoindex dev), q) := by
                  rw [Rtnl.place, hq]
                  rfl
                rw [hplace, ← hsame]
                exact requestAddr_spec h s₃ _ cmd

theorem utilsChangeVip_spec (h : k.Documented has) (s : κ) (ip dev : CString)
    (cmd : Cmd) :
    ((utilsChangeVip k s ip dev cmd).1 = .success ∧
        has (utilsChangeVip k s ip dev cmd).2 = cmd.apply (k.place ip dev) (has s)) ∨
      ((utilsChangeVip k s ip dev cmd).1 = .failure ∧
        has (utilsChangeVip k s ip dev cmd).2 = has s) := by
  rw [utilsChangeVip]
  split_ifs
  · rcases ipAddr_spec h s ip dev cmd with ⟨hret, hhas⟩ | ⟨hret, hhas⟩
    · exact Or.inl ⟨if_neg (by rw [hret]; decide), hhas⟩
    · exact Or.inr ⟨if_pos (by rw [hret]; decide), hhas⟩
  · exact Or.inr ⟨rfl, rfl⟩

/-- **`utils_add_vip`** adds the address, or fails and leaves the interface as it was. -/
theorem utilsAddVip_spec (h : k.Documented has) (s : κ) (ip dev : CString) :
    ((utilsAddVip k s ip dev).1 = .success ∧
        has (utilsAddVip k s ip dev).2 = insert (k.place ip dev) (has s)) ∨
      ((utilsAddVip k s ip dev).1 = .failure ∧ has (utilsAddVip k s ip dev).2 = has s) :=
  utilsChangeVip_spec h s ip dev .addIp

/-- **`utils_remove_vip`** removes the address, or fails and leaves the interface as it was. -/
theorem utilsRemoveVip_spec (h : k.Documented has) (s : κ) (ip dev : CString) :
    ((utilsRemoveVip k s ip dev).1 = .success ∧
        has (utilsRemoveVip k s ip dev).2 = has s \ {k.place ip dev}) ∨
      ((utilsRemoveVip k s ip dev).1 = .failure ∧ has (utilsRemoveVip k s ip dev).2 = has s) :=
  utilsChangeVip_spec h s ip dev .delIp

end Spec

/-! ## The calls of a step -/

/-- What the kernel makes of a call, and whether the last removal has failed. A call that did not
turn out as the kernel answers is none of its calls. -/
def Rtnl.call {κ : Type} (k : Rtnl κ) (s : κ × Bool) : Effect → Option (κ × Bool)
  | .addVip ip dev ok =>
    match utilsAddVip k s.1 ip dev with
    | (status, t) => if ok = decide (status = .success) then some (t, s.2) else none
  | .removeVip ip dev =>
    match utilsRemoveVip k s.1 ip dev with
    | (status, t) => some (t, decide (status = .failure))
  | _ => some s

/-- What it makes of the calls of an action. -/
def Rtnl.calls {κ : Type} (k : Rtnl κ) (s : κ × Bool) (cs : List Effect) : Option (κ × Bool) :=
  cs.foldlM k.call s

/-- The calls of a step that may be about the interface: those of a callback, and the last one of a
stop. -/
def Proc.interfaceCalls (p : Proc) : Input → List Effect
  | .deliver _ o e => (p.handleEntry o e).2
  | .down i =>
    if p.downs[i]?.map Down.pc = some .removeVip then
      [.removeVip p.vip.config.address p.vip.config.device]
    else []
  | _ => []

/-- A call that is about the interface is about the address of this configuration. -/
def Effect.About (c : Config) : Effect → Prop
  | .addVip ip dev _ | .removeVip ip dev => ip = c.address ∧ dev = c.device
  | _ => True

/-- Where a vip has its address. -/
def Config.place {κ : Type} (k : Rtnl κ) (c : Config) : Place := k.place c.address c.device

/-- The kernel has the address on the interface whenever the process has, and otherwise only if it
could not be removed. -/
structure Tracks {κ : Type} (k : Rtnl κ) (has : κ → Set Place) (c : Config) (address : Bool)
    (s : κ × Bool) : Prop where
  bound : address = true → c.place k ∈ has s.1
  free : c.place k ∈ has s.1 → address = true ∨ s.2 = true

/-- The kernel differs at this address at most. -/
def SameBut {κ : Type} (has : κ → Set Place) (a : Place) (s t : κ) : Prop :=
  ∀ x ≠ a, x ∈ has t ↔ x ∈ has s

section About

variable {o : Outcome} {v : Vip}

theorem about_of_apart {c : Config} {e : Effect} (h : e.apart = true) : e.About c := by
  cases e <;> simp_all [Effect.apart, Effect.About]

theorem about_goDown (v : Vip) : ∀ c ∈ (goDown v).effects, c.About v.config := by
  intro c hc
  simp only [goDown, List.mem_append, List.mem_map, List.mem_singleton] at hc
  rcases hc with ((⟨t, -, rfl⟩ | ⟨t, -, rfl⟩) | rfl) | ⟨p, -, rfl⟩
  · trivial
  · trivial
  · exact ⟨rfl, rfl⟩
  · trivial

theorem about_becomeMaster {calls : List Effect} (hcalls : ∀ c ∈ calls, c.apart = true) :
    ∀ c ∈ (becomeMaster o v calls).effects, c.About v.config := by
  intro c hc
  simp only [becomeMaster] at hc
  split_ifs at hc
  · simp only [virtualIpSendState, List.mem_append, List.mem_cons, List.not_mem_nil,
      or_false] at hc
    rcases hc with ((rfl | rfl) | hc) | rfl
    · exact ⟨rfl, rfl⟩
    · trivial
    · exact about_of_apart (hcalls c hc)
    · trivial
  · rcases List.mem_append.mp hc with hc | hc
    · simp only [List.mem_cons, List.not_mem_nil, or_false] at hc
      rcases hc with rfl | rfl | rfl
      · exact ⟨rfl, rfl⟩
      · trivial
      · exact ⟨rfl, rfl⟩
    · exact about_goDown { v with state := .master } c hc
  · rcases List.mem_append.mp hc with hc | hc
    · obtain rfl := List.mem_singleton.mp hc
      exact ⟨rfl, rfl⟩
    · exact about_goDown { v with state := .master } c hc

/-- The calls of a transaction are about the address of its vip. -/
theorem about_fsmDoTransaction (o : Outcome) (v : Vip) (e : Event) :
    ∀ c ∈ (fsmDoTransaction o v e).effects, c.About v.config := by
  have hto := fsmTo_fsmDoTransaction o v e
  generalize fsmDoTransaction o v e = r at hto ⊢
  cases hto with
  | down => exact about_goDown v
  | resign =>
    rw [failTransition, List.nil_append]
    exact about_goDown v
  | @claim calls _ hc =>
    apply about_becomeMaster
    rcases hc with ⟨-, rfl⟩ | ⟨-, rfl⟩
    · simp
    · exact apart_recoverCalls v.config
  | cleanUp => exact fun c hc => about_of_apart (apart_cleanUpCalls v c hc)
  | nodeup => exact fun c hc => about_of_apart (by
      obtain rfl := List.mem_singleton.mp hc
      rfl)
  | backupup =>
    intro c hc
    apply about_of_apart
    simp only [backupup, virtualIpSendState, virtualIpSendAllSql, List.mem_append,
      List.mem_singleton, List.mem_map] at hc
    rcases hc with rfl | ⟨p, -, rfl⟩ <;> rfl
  | request _ hl hn =>
    rw [rollback_cons hl hn]
    cases o.threadCreate <;> simp [Effect.About]
  | goUp =>
    rw [goUp]
    cases o.threadCreate <;> simp [Effect.About]
  | stay | observe | resume => exact fun c hc => absurd hc List.not_mem_nil

/-- So are those of a callback. -/
theorem about_handle (o : Outcome) (v : Vip) (e : Entry NodeId Msg) :
    ∀ c ∈ (handle o v e).2, c.About v.config := by
  refine (handle_rule (R := fun v w cs => w.config = v.config ∧ ∀ c ∈ cs, c.About v.config)
    ?_ ?_ ?_ ?_ ?_ ?_ v e ?_).2
  · exact fun v => ⟨rfl, by simp⟩
  · intro u v w cs cs' hu hv
    refine ⟨hv.1.trans hu.1, fun c hc => ?_⟩
    rcases List.mem_append.mp hc with hc | hc
    · exact hu.2 c hc
    · exact hu.1 ▸ hv.2 c hc
  · exact fun v e _ => ⟨fsmDoTransaction_config o v e, about_fsmDoTransaction o v e⟩
  · exact fun v x => ⟨rfl, by simp⟩
  · exact fun v nm y => ⟨learn_config o v nm y, by simp⟩
  · exact fun v n => ⟨rfl, by simp⟩
  · exact fun _ v sql name => ⟨rfl, by simp [Effect.About]⟩

/-- And those of a step. -/
theorem Proc.about_interfaceCalls (p : Proc) (i : Input) :
    ∀ c ∈ p.interfaceCalls i, c.About p.vip.config := by
  intro c hc
  cases i with
  | deliver t o e => exact about_handle _ _ e c hc
  | down i =>
    rw [interfaceCalls] at hc
    split_ifs at hc
    · obtain rfl := List.mem_singleton.mp hc
      exact ⟨rfl, rfl⟩
    · exact absurd hc List.not_mem_nil
  | _ => exact absurd hc List.not_mem_nil

end About

section Tracks

variable {κ : Type} {k : Rtnl κ} {has : κ → Set Place} {c : Config} {a : Bool} {s s' : κ × Bool}

theorem SameBut.refl (x : Place) (s : κ) : SameBut has x s s := fun _ _ => Iff.rfl

theorem SameBut.trans {x : Place} {s t u : κ} (h : SameBut has x s t) (h' : SameBut has x t u) :
    SameBut has x s u := fun y hy => (h' y hy).trans (h y hy)

/-- **One call.** -/
theorem Tracks.call (hk : k.Documented has) (h : Tracks k has c a s) {e : Effect}
    (he : e.About c) (hs : k.call s e = some s') :
    Tracks k has c (Effect.bound a e) s' ∧ SameBut has (c.place k) s.1 s'.1 := by
  cases e with
  | addVip ip dev ok =>
    obtain ⟨rfl, rfl⟩ := he
    have hadd := utilsAddVip_spec hk s.1 c.address c.device
    rw [Rtnl.call] at hs
    cases hr : utilsAddVip k s.1 c.address c.device with
    | mk status t =>
      rw [hr] at hs hadd
      obtain ⟨hok, hs⟩ := Option.ite_none_right_eq_some.mp hs
      obtain rfl := Option.some.inj hs
      rcases hadd with ⟨hstatus, hhas⟩ | ⟨hstatus, hhas⟩
      · obtain rfl : status = .success := hstatus
        obtain rfl : ok = true := hok
        have hmem : c.place k ∈ has t := by
          rw [show has t = _ from hhas]
          exact Set.mem_insert _ _
        refine ⟨⟨fun _ => hmem, fun _ => Or.inl rfl⟩, fun x hx => ?_⟩
        show x ∈ has t ↔ x ∈ has s.1
        rw [show has t = _ from hhas]
        exact Set.mem_insert_iff.trans (or_iff_right hx)
      · obtain rfl : status = .failure := hstatus
        obtain rfl : ok = false := hok
        refine ⟨⟨fun ha => ?_, fun hm => ?_⟩, fun x _ => ?_⟩
        · exact (show has t = has s.1 from hhas) ▸ h.bound ha
        · exact h.free ((show has t = has s.1 from hhas) ▸ hm)
        · show x ∈ has t ↔ x ∈ has s.1
          rw [show has t = has s.1 from hhas]
  | removeVip ip dev =>
    obtain ⟨rfl, rfl⟩ := he
    have hremove := utilsRemoveVip_spec hk s.1 c.address c.device
    rw [Rtnl.call] at hs
    cases hr : utilsRemoveVip k s.1 c.address c.device with
    | mk status t =>
      rw [hr] at hs hremove
      obtain rfl := Option.some.inj hs
      refine ⟨⟨fun ha => (by cases ha), fun hm => Or.inr ?_⟩, fun x hx => ?_⟩
      -- only a removal that fails leaves the address
      · rcases hremove with ⟨-, hhas⟩ | ⟨hstatus, -⟩
        · rw [show has t = _ from hhas] at hm
          exact absurd rfl hm.2
        · exact decide_eq_true hstatus
      · show x ∈ has t ↔ x ∈ has s.1
        rcases hremove with ⟨-, hhas⟩ | ⟨-, hhas⟩
        · rw [show has t = _ from hhas]
          exact and_iff_left hx
        · rw [show has t = has s.1 from hhas]
  | _ =>
    obtain rfl := Option.some.inj hs
    exact ⟨h, .refl _ _⟩

/-- **The calls of an action**, in the order they are made. -/
theorem Tracks.calls (hk : k.Documented has) (h : Tracks k has c a s) {cs : List Effect}
    (hc : ∀ e ∈ cs, e.About c) (hs : k.calls s cs = some s') :
    Tracks k has c (cs.foldl Effect.bound a) s' ∧ SameBut has (c.place k) s.1 s'.1 := by
  induction cs generalizing a s with
  | nil =>
    obtain rfl := Option.some.inj hs
    exact ⟨h, .refl _ _⟩
  | cons e cs ih =>
    rw [Rtnl.calls, List.foldlM_cons] at hs
    obtain ⟨t, ht, hs⟩ := Option.bind_eq_some_iff.mp hs
    obtain ⟨hone, hsame⟩ := h.call hk (hc e List.mem_cons_self) ht
    obtain ⟨hall, hrest⟩ := ih hone (fun e' he' => hc e' (List.mem_cons_of_mem _ he')) hs
    exact ⟨hall, hsame.trans hrest⟩

variable {p p' : Proc} {i : Input}

/-- The bit of the process goes by the calls of the step. -/
theorem Proc.step_bound (hs : p.step i = some p') :
    p'.address = (p.interfaceCalls i).foldl Effect.bound p.address := by
  cases stepTo_of_step hs with
  | start | rollbackStart => exact cmdStart_address _ _
  | stop => exact cmdStop_address _ _
  | @rollbackStop r => exact cmdStop_address p (some r.id)
  | @down i _ hd =>
    cases downTo_of_downStep hd with
    | removed hi hpc => simp [interfaceCalls, hi, hpc, Effect.bound]
    | awaitRollback hi hpc | noRollback hi hpc | rollbackJoined hi hpc | awaitVip hi hpc
    | noVip hi hpc | vipJoined hi hpc => simp [interfaceCalls, hi, hpc, setDown]
  | deliver o e =>
    show ((p.handleEntry o e).2.foldl perform _).address = _
    rw [foldl_perform_address]
    rfl
  | @tick r => exact (tick_rest p r).2.2
  | cpgInitialize | contextSet | located | unlocated | join | dispatchFails | exitLoop | leave
  | finalize | finish | rollbackWait => rfl

/-- **A step of a process** keeps the kernel in agreement with it, and touches no other address. -/
theorem Tracks.step (hk : k.Documented has) (h : Tracks k has p.vip.config p.address s)
    (hp : p.step i = some p') (hs : k.calls s (p.interfaceCalls i) = some s') :
    Tracks k has p'.vip.config p'.address s' ∧
      SameBut has (p.vip.config.place k) s.1 s'.1 := by
  rw [Proc.step_config hp, Proc.step_bound hp]
  exact h.calls hk (p.about_interfaceCalls i) hs

end Tracks

/-! ## Stops that come to their end -/

/-- A start finds no stop in progress, unless it is refused. -/
def WaitsForStop (p : Proc) : Input → Prop
  | .start _ | .rollbackStart _ _ => p.vip.state = .idle → p.downs = []
  | _ => True

instance (p : Proc) : DecidablePred (WaitsForStop p)
  | .start _ | .rollbackStart _ _ | .stop | .down _ | .cpgInitialize _ _ | .contextSet _ _
  | .localGet _ _ _ | .join _ _ | .deliver _ _ _ | .dispatchFails _ | .exitLoop _ | .leave _
  | .finalize _ | .finish _ | .tick _ | .rollbackStop _ | .rollbackWait _ => by
    unfold WaitsForStop
    infer_instance

/-- While nothing is being stopped the address is on the interface exactly if the state serves it;
and only an idle vip is being stopped, once. -/
structure Orderly (p : Proc) : Prop where
  settled : p.downs = [] → p.address = p.vip.state.serves
  stopping : p.downs ≠ [] → p.vip.state = .idle ∧ p.downs.length = 1

section Orderly

variable {p p' : Proc} {i : Input}

theorem orderly_fresh (c : Config) : Orderly (Proc.fresh c) :=
  ⟨fun _ => rfl, fun h => absurd rfl h⟩

/-- A step that moves a thread. -/
theorem Orderly.congr (h : Orderly p) (hstate : p'.vip.state = p.vip.state)
    (haddr : p'.address = p.address) (hdowns : p'.downs = p.downs) : Orderly p' := by
  refine ⟨fun hd => ?_, fun hd => ?_⟩
  · rw [haddr, hstate]
    exact h.settled (hdowns ▸ hd)
  · rw [hstate, hdowns]
    exact h.stopping (hdowns ▸ hd)

theorem Orderly.cmdStart (h : Orderly p) (hw : p.vip.state = .idle → p.downs = [])
    (created : Bool) : Orderly (p.cmdStart created) := by
  by_cases hs : p.vip.state = .idle
  · have haddr : p.address = false := by
      rw [h.settled (hw hs), hs]
      rfl
    cases created with
    | true =>
      rw [Proc.cmdStart_created hs]
      exact ⟨fun _ => haddr, fun hd => absurd (hw hs) hd⟩
    | false =>
      rw [Proc.cmdStart_failed hs]
      exact ⟨fun _ => haddr, fun hd => absurd (hw hs) hd⟩
  · rwa [Proc.cmdStart_running hs]

theorem Orderly.cmdStop (h : Orderly p) (caller : Option ThreadId) :
    Orderly (p.cmdStop caller) := by
  by_cases hs : p.vip.state = .idle
  · rwa [Proc.cmdStop_idle hs]
  · have hnone : p.downs = [] := by
      by_contra hd
      exact hs (h.stopping hd).1
    rw [Proc.cmdStop_running hs]
    refine ⟨fun hd => by simp at hd, fun _ => ⟨rfl, by simp [hnone]⟩⟩

theorem Orderly.handleEntry (h : Orderly p) (o : Outcome) (e : Entry NodeId Msg) :
    Orderly (p.handleEntry o e).1 := by
  have hdowns : (p.handleEntry o e).1.downs = p.downs := (Proc.handleEntry_rest p o e).2
  refine ⟨fun hd => ?_, fun hd => ?_⟩
  · exact Proc.follows_handleEntry (h.settled (hdowns ▸ hd)) o e
  · obtain ⟨hidle, hlen⟩ := h.stopping (hdowns ▸ hd)
    rw [hdowns, Proc.handleEntry_vip]
    exact ⟨handle_idle hidle e, hlen⟩

/-- The next call of a stop. -/
theorem Orderly.down (h : Orderly p) {j : ℕ} (hd : p.downStep j = some p') : Orderly p' := by
  cases Proc.downTo_of_downStep hd with
  | @removed d hj =>
    have hne : p.downs ≠ [] := by
      intro hnil
      rw [hnil] at hj
      cases hj
    obtain ⟨hidle, hlen⟩ := h.stopping hne
    have hlt : j < p.downs.length := (List.getElem?_eq_some_iff.mp hj).1
    have hnil : p.downs.eraseIdx j = [] := by
      apply List.eq_nil_of_length_eq_zero
      rw [List.length_eraseIdx_of_lt hlt, hlen]
    refine ⟨fun _ => ?_, fun hd => absurd hnil hd⟩
    show false = p.vip.state.serves
    rw [hidle]
    rfl
  | awaitRollback | noRollback | rollbackJoined | awaitVip | noVip | vipJoined =>
    refine ⟨fun hd => ?_, fun hd => ?_⟩
    · exact h.settled (by simpa [Proc.setDown] using hd)
    · have hne : p.downs ≠ [] := by
        intro hnil
        exact hd (by simp [Proc.setDown, hnil])
      simpa [Proc.setDown] using h.stopping hne

/-- **A step of a process**, where starts wait for stops. -/
theorem Orderly.step (h : Orderly p) (hw : WaitsForStop p i) (hs : p.step i = some p') :
    Orderly p' := by
  cases Proc.stepTo_of_step hs with
  | start created => exact h.cmdStart hw created
  | stop => exact h.cmdStop none
  | @rollbackStop r => exact (h.cmdStop (some r.id)).congr rfl rfl rfl
  | down hd => exact h.down hd
  | deliver o e => exact h.handleEntry o e
  | @rollbackStart r created =>
    have hsame : Orderly (p.endRollback r.id) := h.congr rfl rfl rfl
    exact hsame.cmdStart hw created
  | @tick r => exact h.congr (by rw [Proc.tick_vip]) (Proc.tick_rest p r).2.2 (Proc.tick_rest p r).2.1
  | cpgInitialize | contextSet | located | unlocated | join | dispatchFails | exitLoop | leave
  | finalize | finish | rollbackWait => exact h.congr rfl rfl rfl

end Orderly

end CpgFailover
