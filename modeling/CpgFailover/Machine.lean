import CpgFailover.Arbiter
import CpgFailover.Interface

/-!
# The module on its machine

The module serves the virtual ips of its configuration at the same time, and every call that it
makes about an address is answered by the kernel of the machine, whose interfaces have addresses
of others as well. `do_config` gives every virtual ip an address of its own, so none of them gets
into another's way.

## Main definitions

* `Machine`, `MachineStep`, `Machine.step`: the module on a kernel
* `loadedModule`: the module after `mod_cpg_load`
* `Machine.Considerate`: starts wait for stops, and nobody else touches the addresses of the module
* `Machine.Agrees`: every virtual ip and the kernel agree

## Main results

* `Machine.Agrees.step`: a step keeps the agreement
* `kernel_follows_vips`: the kernel has the address of each virtual ip while it is served
-/

namespace CpgFailover

open Transition

/-- The module, the kernel, and the virtual ips whose last removal has failed. The last is a history
variable, which no code reads. -/
structure Machine (κ : Type) where
  module : Module
  kernel : κ
  stale : ℕ → Bool

/-- The steps: one of the module, or whatever somebody else does to the kernel. -/
inductive MachineStep (κ : Type)
  | module (l : RuntimeStep)
  | other (s : κ)

/-- The module after `mod_cpg_load`, which goes through the hash in this order. What the records have
behind their tables is as it was allocated, see `Accepted.untouched`. -/
def loadedModule (sys : Platform) (order : List ConfiguredVip) : Module :=
  Module.load (order.map fun r => (r.autoload, r.config sys.byteOrder))

/-- The process that `virtual_ip_start` is called for next. -/
def Module.nextStart (m : Module) : Option Proc :=
  match m.runtime with
  | .starting k => m.proc k
  | _ => none

namespace Machine

section Steps

variable {κ : Type} (k : Rtnl κ)

/-- The module has just been loaded. -/
def start (m : Module) (s : κ) : Machine κ := ⟨m, s, fun _ => false⟩

/-- One step. Only a process makes calls about an address; the runtime thread resets its record. -/
def step (m : Machine κ) : MachineStep κ → Option (Machine κ)
  | .module l =>
    match l with
    | .vip j i =>
      (m.module.proc j).bind fun p =>
        (p.step i).bind fun p' =>
          (k.calls (m.kernel, m.stale j) (p.interfaceCalls i)).map fun s =>
            ⟨m.module.setProc j p', s.1, Function.update m.stale j s.2⟩
    | l => (m.module.step l).map fun m' => { m with module := m' }
  | .other s => some { m with kernel := s }

/-- The steps, by what they do. -/
inductive StepTo (m : Machine κ) : MachineStep κ → Machine κ → Prop
  | vip {j : ℕ} {i : Input} {p p' : Proc} {s : κ × Bool} :
      m.module.proc j = some p → p.step i = some p' →
        k.calls (m.kernel, m.stale j) (p.interfaceCalls i) = some s →
          StepTo m (.module (.vip j i))
            ⟨m.module.setProc j p', s.1, Function.update m.stale j s.2⟩
  | runtime {l : RuntimeStep} {m' : Module} :
      (∀ j i, l ≠ .vip j i) → m.module.step l = some m' →
        StepTo m (.module l) { m with module := m' }
  | other (s : κ) : StepTo m (.other s) { m with kernel := s }

/-- **What a step can do.** -/
theorem stepTo_of_step {m m' : Machine κ} {l : MachineStep κ} (hs : m.step k l = some m') :
    StepTo k m l m' := by
  cases l with
  | other s =>
    obtain rfl := Option.some.inj hs
    exact .other s
  | module l =>
    cases l with
    | vip j i =>
      obtain ⟨p, hp, hs⟩ := Option.bind_eq_some_iff.mp hs
      obtain ⟨p', hp', hs⟩ := Option.bind_eq_some_iff.mp hs
      obtain ⟨s, hcalls, rfl⟩ := Option.map_eq_some_iff.mp hs
      exact .vip hp hp' hcalls
    | arbiter | stopNext | stopReturns | startNext =>
      obtain ⟨m₁, hm, rfl⟩ := Option.map_eq_some_iff.mp hs
      exact .runtime (by simp) hm

variable (has : κ → Set Place)

/-- A start waits for the stop that is in progress, and nobody else touches the addresses of the
module. -/
def Considerate (m : Machine κ) : MachineStep κ → Prop
  | .module (.vip j i) => ∀ p ∈ m.module.proc j, WaitsForStop p i
  | .module (.startNext _) => ∀ p ∈ m.module.nextStart, p.vip.state = .idle → p.downs = []
  | .module _ => True
  | .other s => ∀ v ∈ m.module.vips,
      v.proc.vip.config.place k ∈ has s ↔ v.proc.vip.config.place k ∈ has m.kernel

/-- Every virtual ip and the kernel agree, and no two virtual ips have the same place. -/
structure Agrees (m : Machine κ) : Prop where
  tracks {j : ℕ} {p : Proc} : m.module.proc j = some p →
    Tracks k has p.vip.config p.address (m.kernel, m.stale j)
  orderly {j : ℕ} {p : Proc} : m.module.proc j = some p → Orderly p
  apart {i j : ℕ} {p q : Proc} : m.module.proc i = some p → m.module.proc j = some q → i ≠ j →
    p.vip.config.place k ≠ q.vip.config.place k

end Steps

section Agreement

variable {κ : Type} {k : Rtnl κ} {has : κ → Set Place} {m m' : Machine κ}

/-- Replacing a process by one that has the same place leaves the places apart. -/
theorem Agrees.apart_setProc (h : Agrees k has m) {j : ℕ} {p p' : Proc}
    (hp : m.module.proc j = some p) (hc : p'.vip.config = p.vip.config) {i i' : ℕ} {q q' : Proc}
    (hq : (m.module.setProc j p').proc i = some q)
    (hq' : (m.module.setProc j p').proc i' = some q') (hne : i ≠ i') :
    q.vip.config.place k ≠ q'.vip.config.place k := by
  have hold {n : ℕ} {r : Proc} (hr : (m.module.setProc j p').proc n = some r) :
      ∃ r', m.module.proc n = some r' ∧ r'.vip.config = r.vip.config := by
    rcases Module.proc_of_setProc hr with ⟨rfl, rfl⟩ | ⟨-, hr⟩
    · exact ⟨p, hp, hc.symm⟩
    · exact ⟨r, hr, rfl⟩
  obtain ⟨r, hr, hconfig⟩ := hold hq
  obtain ⟨r', hr', hconfig'⟩ := hold hq'
  rw [← hconfig, ← hconfig']
  exact h.apart hr hr' hne

/-- A call of the runtime thread: it replaces a process by one that has the same address and place,
or none. -/
theorem Agrees.runtime (h : Agrees k has m) {j : ℕ} {p p' : Proc} {u : Module}
    (hproc : u.proc = (m.module.setProc j p').proc) (hp : m.module.proc j = some p)
    (hc : p'.vip.config = p.vip.config) (ha : p'.address = p.address) (ho : Orderly p') :
    Agrees k has { m with module := u } := by
  refine ⟨fun {i q} hq => ?_, fun {i q} hq => ?_, fun {i i' q q'} hq hq' => ?_⟩
  · rcases Module.proc_of_setProc (hproc ▸ hq) with ⟨rfl, rfl⟩ | ⟨-, hq⟩
    · rw [hc, ha]
      exact h.tracks hp
    · exact h.tracks hq
  · rcases Module.proc_of_setProc (hproc ▸ hq) with ⟨rfl, rfl⟩ | ⟨-, hq⟩
    · exact ho
    · exact h.orderly hq
  · exact h.apart_setProc hp hc (hproc ▸ hq) (hproc ▸ hq')

/-- **Each step keeps the agreement.** -/
theorem Agrees.step (hk : k.Documented has) (h : Agrees k has m) {l : MachineStep κ}
    (hok : m.Considerate k has l) (hs : m.step k l = some m') : Agrees k has m' := by
  cases stepTo_of_step k hs with
  | @vip j i p p' s hp hp' hcalls =>
    obtain ⟨htracks, hsame⟩ := (h.tracks hp).step hk hp' hcalls
    refine ⟨fun {n q} hq => ?_, fun {n q} hq => ?_, fun {n n' q q'} hq hq' => ?_⟩
    · show Tracks k has q.vip.config q.address (s.1, Function.update m.stale j s.2 n)
      rcases Module.proc_of_setProc hq with ⟨rfl, rfl⟩ | ⟨hne, hq⟩
      · rw [Function.update_self]
        exact htracks
      · -- the calls are about another address
        rw [Function.update_of_ne hne]
        have hother := hsame _ (h.apart hq hp hne)
        have htrack := h.tracks hq
        exact ⟨fun ha => hother.mpr (htrack.bound ha), fun hm => htrack.free (hother.mp hm)⟩
    · rcases Module.proc_of_setProc hq with ⟨rfl, rfl⟩ | ⟨-, hq⟩
      · exact (h.orderly hp).step (hok p hp) hp'
      · exact h.orderly hq
    · exact h.apart_setProc hp (Proc.step_config hp') hq hq'
  | other s =>
    have hsame {j : ℕ} {p : Proc} (hp : m.module.proc j = some p) :
        p.vip.config.place k ∈ has s ↔ p.vip.config.place k ∈ has m.kernel := by
      obtain ⟨v, hv, rfl⟩ := Option.map_eq_some_iff.mp hp
      exact hok v (List.mem_of_getElem? hv)
    refine ⟨fun {j p} hp => ?_, h.orderly, h.apart⟩
    have htrack := h.tracks hp
    exact ⟨fun ha => (hsame hp).mpr (htrack.bound ha), fun hm => htrack.free ((hsame hp).mp hm)⟩
  | @runtime l mod hl hm =>
    cases Module.stepTo_of_step hm with
    | vip => exact absurd rfl (hl _ _)
    | @stop j p hj hp =>
      refine h.runtime (u := { m.module.setProc j (p.cmdStop (some runtimeThread)) with
        runtime := .stopped j, silenced := j :: m.module.silenced }) rfl hp ?_
        (Proc.cmdStop_address p _) ((h.orderly hp).cmdStop _)
      by_cases hs : p.vip.state = .idle
      · rw [Proc.cmdStop_idle hs]
      · rw [Proc.cmdStop_running hs, goDownReset_config]
    | @start j p created hj hp =>
      have hwait : p.vip.state = .idle → p.downs = [] := by
        apply hok p
        rw [Module.nextStart, hj]
        exact hp
      refine h.runtime (u := { m.module.setProc j (p.cmdStart created) with
        runtime := .starting (j + 1) }) rfl hp ?_ (Proc.cmdStart_address p _)
        ((h.orderly hp).cmdStart hwait created)
      rcases Proc.cmdStart_vip p created with hv | ⟨-, t, hv⟩ <;> rw [hv]
    | stays | returns | fails | stopEnds | stopReturns | skip | startEnds =>
      exact ⟨h.tracks, h.orderly, h.apart⟩

/-- A step of the module leaves the addresses of others as they are. -/
theorem Agrees.foreign (hk : k.Documented has) (h : Agrees k has m) {l : RuntimeStep}
    (hs : m.step k (.module l) = some m') {x : Place}
    (hx : ∀ j p, m.module.proc j = some p → x ≠ p.vip.config.place k) :
    x ∈ has m'.kernel ↔ x ∈ has m.kernel := by
  cases stepTo_of_step k hs with
  | vip hp hp' hcalls => exact ((h.tracks hp).step hk hp' hcalls).2 x (hx _ _ hp)
  | runtime => exact Iff.rfl

end Agreement

end Machine

/-! ## Loaded modules -/

section Loaded

variable {κ : Type} {k : Rtnl κ} {has : κ → Set Place} {sys : Platform}
  {doc : List VirtualIpElement} {order : List ConfiguredVip} {s : κ} {m : Machine κ}

/-- A process of a loaded module is that of a record. -/
theorem proc_loadedModule {j : ℕ} {p : Proc} (h : (loadedModule sys order).proc j = some p) :
    ∃ r, order[j]? = some r ∧ p = Proc.hashed (r.config sys.byteOrder) := by
  obtain ⟨v, hv, rfl⟩ := Option.map_eq_some_iff.mp h
  simp only [loadedModule, Module.load, List.map_map, List.getElem?_map] at hv
  obtain ⟨r, hr, rfl⟩ := Option.map_eq_some_iff.mp hv
  exact ⟨r, hr, rfl⟩

/-- Records at different positions have different places. -/
theorem place_ne_of_ne (hdoc : (doConfig sys (some doc)).1 = .success)
    (horder : order.Perm (doConfig sys (some doc)).2) {i j : ℕ} {r r' : ConfiguredVip}
    (hr : order[i]? = some r) (hr' : order[j]? = some r') (hne : i ≠ j) :
    (r.config sys.byteOrder).place k ≠ (r'.config sys.byteOrder).place k := by
  intro hplace
  have hmem := horder.subset (List.mem_of_getElem? hr)
  have hmem' := horder.subset (List.mem_of_getElem? hr')
  obtain ⟨q, hq, -⟩ := inetPton_of_valid (doConfig_group hdoc hmem).1
  obtain ⟨q', hq', -⟩ := inetPton_of_valid (doConfig_group hdoc hmem').1
  have hbytes : (inetPton r.address).getD [] = (inetPton r'.address).getD [] :=
    congrArg Prod.snd hplace
  rw [hq, hq'] at hbytes
  have hsame : r = r' := by
    apply eq_of_inetPton hdoc hmem hmem'
    rw [hq, hq']
    exact congrArg some hbytes
  -- no record is in the hash twice
  have hnodup : order.Nodup := horder.nodup_iff.mpr (doConfig_hash hdoc).nodup
  apply hne
  obtain ⟨hi, rfl⟩ := List.getElem?_eq_some_iff.mp hr
  obtain ⟨hj, hrj⟩ := List.getElem?_eq_some_iff.mp hr'
  exact (List.Nodup.getElem_inj_iff hnodup).mp (hsame.trans hrj.symm)

/-- A module that has just been loaded agrees with a kernel without its addresses. -/
theorem agrees_start (hdoc : (doConfig sys (some doc)).1 = .success)
    (horder : order.Perm (doConfig sys (some doc)).2)
    (hs : ∀ r ∈ order, (r.config sys.byteOrder).place k ∉ has s) :
    (Machine.start (loadedModule sys order) s).Agrees k has := by
  refine ⟨fun {j p} hp => ?_, fun {j p} hp => ?_, fun {i j p q} hp hq hne => ?_⟩
  · obtain ⟨r, hr, rfl⟩ := proc_loadedModule hp
    exact ⟨fun ha => (by cases ha), fun hm => absurd hm (hs r (List.mem_of_getElem? hr))⟩
  · obtain ⟨r, -, rfl⟩ := proc_loadedModule hp
    exact ⟨fun _ => rfl, fun hd => absurd rfl hd⟩
  · obtain ⟨r, hr, rfl⟩ := proc_loadedModule hp
    obtain ⟨r', hr', rfl⟩ := proc_loadedModule hq
    exact place_ne_of_ne hdoc horder hr hr' hne

/-- **The kernel follows the virtual ips.** Let the module be loaded from a document that
`do_config` accepts, with profile names that fit, on a kernel without its addresses, and let starts
wait for stops. Then in every run of the module on its kernel, whatever else others do there, a
virtual ip that is served has its address on the interface; and an address is on the interface only
while its virtual ip is served or is being stopped, or if the last `utils_remove_vip` has failed. No
step of the module touches an address of others. -/
theorem kernel_follows_vips (hk : k.Documented has)
    (hdoc : Accepted sys doc)
    (horder : order.Perm (doConfig sys (some doc)).2)
    (hs : ∀ r ∈ order, (r.config sys.byteOrder).place k ∉ has s)
    (h : ReachesWhen (Machine.step k) (Machine.Considerate k has)
      (Machine.start (loadedModule sys order) s) m) :
    (∀ j p, m.module.proc j = some p →
      (p.vip.state.serves = true → p.vip.config.place k ∈ has m.kernel) ∧
        (p.vip.config.place k ∈ has m.kernel →
          p.vip.state.serves = true ∨ p.downs ≠ [] ∨ m.stale j = true)) ∧
      ∀ l m', m.step k (.module l) = some m' → ∀ x,
        (∀ j p, m.module.proc j = some p → x ≠ p.vip.config.place k) →
          (x ∈ has m'.kernel ↔ x ∈ has m.kernel) := by
  have hagrees : m.Agrees k has := h.invariant (I := Machine.Agrees k has)
    (agrees_start hdoc.success horder hs) fun _ _ _ _ hI hok hstep => hI.step hk hok hstep
  refine ⟨fun j p hp => ⟨fun hserves => ?_, fun hm => ?_⟩, fun l m' hstep x hx => ?_⟩
  · have horderly := hagrees.orderly hp
    apply (hagrees.tracks hp).bound
    rw [horderly.settled, hserves]
    -- only an idle vip is being stopped
    by_contra hd
    rw [(horderly.stopping hd).1] at hserves
    cases hserves
  · rcases (hagrees.tracks hp).free hm with ha | hstale
    · by_cases hd : p.downs = []
      · left
        rw [← (hagrees.orderly hp).settled hd, ha]
      · exact Or.inr (Or.inl hd)
    · exact Or.inr (Or.inr hstale)
  · exact hagrees.foreign hk hstep hx

end Loaded

/-! ## A machine -/

/-- A kernel that keeps a list of its addresses, with one interface, `eth0`, of number 2. -/
def listKernel : Rtnl (List Place) where
  nlHandleAlloc s := (true, s)
  nlConnect s := (true, s)
  ifNametoindex dev := if dev = [101, 116, 104, 48] then 2 else 0
  rtnlAddrAlloc s := (true, s)
  nlAddrBuild s _ := (true, s)
  rtnlAddrAdd s a := if a.1 ≠ 2 then (-19, s) else if a ∈ s then (-17, s) else (0, a :: s)
  rtnlAddrDelete s a := if a ∈ s then (0, s.filter (· ≠ a)) else (-99, s)

/-- The addresses in the list. -/
def held (s : List Place) : Set Place := {a | a ∈ s}

theorem documented_listKernel : listKernel.Documented held where
  handle _ := rfl
  connect _ := rfl
  alloc _ := rfl
  build _ _ := rfl
  added := by
    intro s a h
    by_cases hi : a.1 = 2
    · by_cases hm : a ∈ s
      · simp [listKernel, hi, hm] at h
      · ext x
        simp [listKernel, hi, hm, held]
    · simp [listKernel, hi] at h
  present := by
    intro s a h
    by_contra hm
    by_cases hi : a.1 = 2
    · simp [listKernel, hi, show a ∉ s from hm] at h
    · simp [listKernel, hi] at h
  notAdded := by
    intro s a h
    by_cases hi : a.1 = 2
    · by_cases hm : a ∈ s
      · simp [listKernel, hi, hm]
      · simp [listKernel, hi, hm] at h
    · simp [listKernel, hi]
  deleted := by
    intro s a h
    by_cases hm : a ∈ s
    · ext x
      simp [listKernel, hm, held]
    · simp [listKernel, hm] at h
  absent := by
    intro s a h hm
    simp [listKernel, show a ∈ s from hm] at h
  notDeleted := by
    intro s a h
    by_cases hm : a ∈ s
    · simp [listKernel, hm] at h
    · simp [listKernel, hm]

instance (s : List Place) : DecidablePred (· ∈ held s) := fun a =>
  inferInstanceAs (Decidable (a ∈ s))

instance (m : Machine (List Place)) : DecidablePred (m.Considerate listKernel held)
  | .module (.vip _ _) | .module (.startNext _) | .module (.arbiter _) | .module .stopNext
  | .module .stopReturns | .other _ => by
    unfold Machine.Considerate
    infer_instance

/-- `<virtualip address="1.1.1.1">` on `eth0`, which starts on its own. -/
def autoloaded : VirtualIpElement where
  address := [49, 46, 49, 46, 49, 46, 49]
  cidrNetmask := []
  params := [⟨deviceText, [101, 116, 104, 48]⟩, ⟨autoloadText, trueText⟩,
    ⟨priorityText, [49, 48]⟩]
  profiles := []

/-- `<virtualip address="1.1.1.2">` on `eth0`, which an operator has to start. -/
def unattended : VirtualIpElement :=
  { autoloaded with
    address := [49, 46, 49, 46, 49, 46, 50]
    params := [⟨deviceText, [101, 116, 104, 48]⟩, ⟨priorityText, [49, 48]⟩] }

/-- The module with these virtual ips, on a kernel with an address of somebody else. -/
def loadedMachine : Machine (List Place) :=
  Machine.start (loadedModule oneInterface (doConfig oneInterface (some [autoloaded, unattended])).2)
    [(2, [9, 9, 9, 9])]

/-- The same module, once it serves the first address. -/
def servingMachine : Machine (List Place) :=
  (runWhen (Machine.step listKernel) (Machine.Considerate listKernel held) loadedMachine
    (servedVip.map .module)).getD loadedMachine

theorem kernel_follows_vips_serving :
    (∃ p, servingMachine.module.proc 0 = some p ∧ p.vip.state = .master ∧
      p.vip.config.place listKernel ∈ held servingMachine.kernel) ∧
    (∃ p, servingMachine.module.proc 1 = some p ∧ p.vip.state = .idle ∧
      p.vip.config.place listKernel ∉ held servingMachine.kernel) ∧
    ∃ m', servingMachine.step listKernel (.module (.vip 0 .stop)) = some m' ∧
      (2, [9, 9, 9, 9]) ∈ held m'.kernel := by
  obtain ⟨p, hp, hmaster⟩ : ∃ p ∈ servingMachine.module.proc 0, p.vip.state = .master := by
    decide +kernel
  obtain ⟨q, hq, hidle, hdowns, hstale⟩ : ∃ q ∈ servingMachine.module.proc 1,
      q.vip.state = .idle ∧ q.downs = [] ∧ servingMachine.stale 1 = false := by
    decide +kernel
  obtain ⟨m', hm'⟩ := Option.isSome_iff_exists.mp
    (show (servingMachine.step listKernel (.module (.vip 0 .stop))).isSome by decide +kernel)
  have hdoc : Accepted oneInterface [autoloaded, unattended] := ⟨by decide, by decide⟩
  have hfree : ∀ r ∈ (doConfig oneInterface (some [autoloaded, unattended])).2,
      (r.config oneInterface.byteOrder).place listKernel ∉ held [(2, [9, 9, 9, 9])] := by
    decide +kernel
  have hrun : ReachesWhen (Machine.step listKernel) (Machine.Considerate listKernel held)
      loadedMachine servingMachine := reachesWhen_getD _
  obtain ⟨hown, hothers⟩ :=
    kernel_follows_vips documented_listKernel hdoc (List.Perm.refl _) hfree hrun
  have hplaces : ∀ v ∈ servingMachine.module.vips,
      ((2, [9, 9, 9, 9]) : Place) ≠ v.proc.vip.config.place listKernel := by decide +kernel
  refine ⟨⟨p, hp, hmaster, (hown 0 p hp).1 (by rw [hmaster]; rfl)⟩, ⟨q, hq, hidle, fun hm => ?_⟩,
    m', hm', ?_⟩
  · rcases (hown 1 q hq).2 hm with hs | hd | hst
    · rw [hidle] at hs
      cases hs
    · exact hd hdowns
    · rw [hstale] at hst
      cases hst
  · refine (hothers _ m' hm' _ fun j v hv => ?_).mpr (by decide +kernel)
    obtain ⟨hashed, hget, rfl⟩ := Option.map_eq_some_iff.mp hv
    exact hplaces hashed (List.mem_of_getElem? hget)

end CpgFailover
