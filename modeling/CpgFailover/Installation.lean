import CpgFailover.Lib.AgreedFleet
import CpgFailover.Machine
import CpgFailover.Renumbering
import CpgFailover.Routing
import CpgFailover.SingleMaster

/-!
# Several virtual ips on several machines

Every machine has read a document of its own, and its module serves all the virtual ips in it at the
same time; each of them is in a group of its own with its namesakes on the other machines. The
module has one runtime thread for all of them, one `event_handler`, and one order in which it goes
through the hash. None of this ties the groups together: what is proved of the nodes of one virtual
ip holds for each virtual ip of every installation, whatever the others do.

## Main definitions

* `Installation`: the machines and their documents
* `Installation.machines`: the local side of a machine
* `Installation.deployment`: the nodes of a group
* `Installation.projection`: each machine has one process in the group

## Main results

* `Installation.position_unique`: a machine is in a group with one virtual ip
* `installation_plays_groups`: every run is, for each group, a run of its nodes
* `one_master_each`: at most one machine serves each address
-/

namespace CpgFailover

open Agreed Transition

/-- The machines and the documents that their modules have been loaded from, each with the order in
which its module goes through the hash. A machine that is not among the nodes has no virtual ip. -/
structure Installation where
  nodes : List NodeId
  sys : NodeId → Platform
  doc : NodeId → List VirtualIpElement
  order : NodeId → List ConfiguredVip
  zero_notMem : 0 ∉ nodes
  accepted : ∀ n, Accepted (sys n) (doc n)
  hashed : ∀ n, (order n).Perm (doConfig (sys n) (some (doc n))).2
  outside : ∀ n, n ∉ nodes → order n = []

/-- The local steps of a machine: a step of its module, or a statement from sofia. -/
inductive ModuleStep
  | runtime (l : RuntimeStep)
  | event (profileName sql : CString)
deriving DecidableEq

/-- The steps of a process that a machine lets happen: `cpg_local_get` gives the machine's own id,
the dispatch of a member does not fail, and entries are delivered by the groups. -/
def Allowed (n : NodeId) : Input → Prop
  | .localGet _ _ nodeid => nodeid = n
  | .deliver _ _ _ | .dispatchFails _ => False
  | _ => True

instance (n : NodeId) : DecidablePred (Allowed n)
  | .localGet _ _ nodeid => inferInstanceAs (Decidable (nodeid = n))
  | .deliver _ _ _ | .dispatchFails _ => inferInstanceAs (Decidable False)
  | .start _ | .stop | .down _ | .cpgInitialize _ _ | .contextSet _ _ | .join _ _ | .exitLoop _
  | .leave _ | .finalize _ | .finish _ | .tick _ | .rollbackStop _ | .rollbackWait _
  | .rollbackStart _ _ => inferInstanceAs (Decidable True)

namespace Installation

variable (s : Installation)

/-! ## The machines -/

/-- Where the virtual ip of the group comes in the order of the machine. -/
def position (c : CpgName) (n : NodeId) : Option ℕ :=
  (s.order n).findIdx? fun r => r.groupName = c

/-- A local step of a machine. -/
def act (n : NodeId) (m : Module) : ModuleStep → Option (Module × Option (CpgName × Signal Msg))
  | .runtime (.vip k i) =>
    if Allowed n i then
      (m.step (.vip k i)).map fun m' =>
        (m', (s.order n)[k]?.map fun r => (r.groupName, inputSignal i))
    else none
  -- the runtime thread asks no group for anything
  | .runtime l => (m.step l).map fun m' => (m', none)
  | .event profileName sql =>
    (eventMulticasts (s.sys n).byteOrder (s.order n) profileName sql).head?.map fun x =>
      (m, some (x.1, .send x.2))

/-- A machine handles an entry of a group, in the `vip_thread` of its virtual ip. -/
def deliver (c : CpgName) (n : NodeId) (m : Module) (e : Entry NodeId Msg) (o : Outcome) :
    Option (Module × List Effect) :=
  (s.position c n).bind fun k => (m.proc k).bind fun p =>
    (nodeDeliver n p e o).map fun r => (m.setProc k r.1, r.2)

/-- The local side of the machines. -/
def machines : FleetBehaviour NodeId CpgName Msg Module (List Effect) ModuleStep Outcome where
  boot n := loadedModule (s.sys n) (s.order n)
  act := s.act
  deliver := s.deliver
  mcast := multicasts

/-- Nothing has been started yet. -/
def start : Fleet NodeId CpgName Msg Module := Fleet.init s.machines

/-- The steps of an installation. -/
abbrev step : Fleet NodeId CpgName Msg Module → FleetAction NodeId CpgName ModuleStep Outcome →
    Option (Fleet NodeId CpgName Msg Module) := Fleet.step s.machines

/-! ## The nodes of a group -/

/-- The nodes of a group: the machines with a virtual ip in it. -/
def deployment (c : CpgName) : Deployment where
  nodes := s.nodes.filter fun n => (s.position c n).isSome
  config n :=
    match (s.position c n).bind fun k => (s.order n)[k]? with
    | some r => r.config (s.sys n).byteOrder
    | none => plainConfig 0 noProfiles
  zero_notMem h := s.zero_notMem (List.mem_of_mem_filter h)

variable {s} {c c' : CpgName} {n : NodeId} {i j k : ℕ} {r r' : ConfiguredVip}

/-- **A machine is in a group with one virtual ip.** -/
theorem position_unique (hr : (s.order n)[i]? = some r) (hr' : (s.order n)[j]? = some r')
    (hg : r.groupName = r'.groupName) : i = j := by
  have hdoc := (s.accepted n).success
  have hmem := (s.hashed n).subset (List.mem_of_getElem? hr)
  have hmem' := (s.hashed n).subset (List.mem_of_getElem? hr')
  have hsame : r = r' := by
    apply (doConfig_hash hdoc).eq_of_address hmem hmem'
    rw [← (doConfig_hash hdoc).group hmem, ← (doConfig_hash hdoc).group hmem', hg]
  -- no record is in the hash twice
  have hnodup : (s.order n).Nodup := (s.hashed n).nodup_iff.mpr (doConfig_hash hdoc).nodup
  obtain ⟨hi, rfl⟩ := List.getElem?_eq_some_iff.mp hr
  obtain ⟨hj, hrj⟩ := List.getElem?_eq_some_iff.mp hr'
  exact (List.Nodup.getElem_inj_iff hnodup).mp (hsame.trans hrj.symm)

/-- The record at the position. -/
theorem record_of_position (h : s.position c n = some k) :
    ∃ r, (s.order n)[k]? = some r ∧ r.groupName = c := by
  obtain ⟨hk, hc, -⟩ := List.findIdx?_eq_some_iff_getElem.mp h
  exact ⟨_, List.getElem?_eq_getElem hk, of_decide_eq_true hc⟩

/-- Whose record is in the group is at the position. -/
theorem position_of_record (hr : (s.order n)[k]? = some r) :
    s.position r.groupName n = some k := by
  have hsome : (s.position r.groupName n).isSome := by
    rw [position, List.findIdx?_isSome, List.any_eq_true]
    exact ⟨r, List.mem_of_getElem? hr, by simp⟩
  obtain ⟨j, hj⟩ := Option.isSome_iff_exists.mp hsome
  obtain ⟨r', hr', hg⟩ := record_of_position hj
  rw [hj, position_unique hr' hr hg]

theorem config_of_position (h : s.position c n = some k) (hr : (s.order n)[k]? = some r) :
    (s.deployment c).config n = r.config (s.sys n).byteOrder := by
  simp [deployment, h, hr]

theorem mem_nodes_of_position (h : s.position c n = some k) : n ∈ (s.deployment c).nodes := by
  apply List.mem_filter.mpr
  refine ⟨?_, by simp [h]⟩
  by_contra hn
  obtain ⟨r, hr, -⟩ := record_of_position h
  rw [s.outside n hn] at hr
  cases hr

/-- Different groups have different positions. -/
theorem position_ne (h : s.position c n = some i) (h' : s.position c' n = some j) (hc : c' ≠ c) :
    j ≠ i := by
  rintro rfl
  obtain ⟨r, hr, hg⟩ := record_of_position h
  obtain ⟨r', hr', hg'⟩ := record_of_position h'
  obtain rfl := Option.some.inj (hr.symm.trans hr')
  exact hc (hg'.symm.trans hg)

/-! ## The process of a machine in a group -/

section Process

variable (s c n)

/-- The process of the machine in the group, as its node has it. -/
def state (m : Module) : Proc :=
  match (s.position c n).bind m.proc with
  | some q => q.lower
  | none => Proc.fresh ((s.deployment c).config n)

/-- The step of the `k`-th virtual ip that a step of the module is, if it is one. -/
def labelAt (m : Module) (k : ℕ) : ModuleStep → Option Command
  | .runtime (.vip j i) => if j = k then some (.input i.lower) else none
  | .runtime .stopNext => if m.runtime = .stopping k then some (.input .stop) else none
  | .runtime (.startNext created) =>
    if m.runtime = .starting k ∧ ∃ v ∈ m.vips[k]?, v.autoload = true then
      some (.input (.start created))
    else none
  | .runtime _ => none
  | .event profileName sql =>
    if (findVirtualIpFromProfile (s.sys n).byteOrder (s.order n) profileName).map
        ConfiguredVip.groupName = (s.order n)[k]?.map ConfiguredVip.groupName then
      some (.event profileName sql)
    else none

/-- The step of the node that a step of the module is, if it is one. -/
def label (m : Module) (a : ModuleStep) : Option Command :=
  (s.position c n).bind fun k => s.labelAt n m k a

/-- The module has a process for the group, with the configuration of the node. -/
def Has (m : Module) : Prop :=
  ∀ k, s.position c n = some k → ∃ p q, m.proc k = some q ∧ Renumbered p q ∧
    q.vip.config = (s.deployment c).config n

end Process

section Steps

variable {m m' : Module} {p q : Proc} {l : RuntimeStep} {a : ModuleStep}
  {ask : Option (CpgName × Signal Msg)}

theorem state_of_position (h : s.position c n = some k) (hq : m.proc k = some q)
    (hpq : Renumbered p q) : s.state c n m = p := by
  rw [state, h, Option.bind_some, hq]
  exact hpq.eq_lower.symm

/-- The process is all that the state tells of a module. -/
theorem state_congr (h : ∀ k, s.position c n = some k → m'.proc k = m.proc k) :
    s.state c n m' = s.state c n m := by
  cases hp : s.position c n with
  | none => simp [state, hp]
  | some k => simp only [state, hp, Option.bind_some, h k hp]

theorem Has.congr (h : s.Has c n m) (hp : ∀ k, s.position c n = some k → m'.proc k = m.proc k) :
    s.Has c n m' := by
  intro k hk
  rw [hp k hk]
  exact h k hk

/-- The process of the module is that of the node, with other handles. -/
theorem Has.renumbered_state (h : s.Has c n m) (hk : s.position c n = some k)
    (hq : m.proc k = some q) : Renumbered (s.state c n m) q := by
  obtain ⟨p, q', hq', hpq, -⟩ := h k hk
  obtain rfl := Option.some.inj (hq.symm.trans hq')
  rwa [state_of_position hk hq hpq]

/-- What is asked of the group is asked for its virtual ip. -/
theorem to_of_position (h : s.position c n = some k) (hr : (s.order n)[j]? = some r)
    (sig : Signal Msg) :
    Signal.to c (some (r.groupName, sig)) = if j = k then sig else .quiet := by
  by_cases hj : j = k
  · obtain ⟨r', hr', hg⟩ := record_of_position h
    subst hj
    obtain rfl := Option.some.inj (hr.symm.trans hr')
    rw [Signal.to, if_pos hg, if_pos rfl]
  · have hg : r.groupName ≠ c := by
      rintro rfl
      exact hj (Option.some.inj ((position_of_record hr).symm.trans h))
    rw [Signal.to, if_neg hg, if_neg hj]

/-- Without a virtual ip in the group nothing is asked of it. -/
theorem to_of_none (h : s.position c n = none) (hr : (s.order n)[j]? = some r)
    (sig : Signal Msg) : Signal.to c (some (r.groupName, sig)) = .quiet := by
  apply if_neg
  rintro rfl
  rw [position_of_record hr] at h
  cases h

variable (s n) in
/-- **What a step of the module is** for one of its virtual ips: a step, or nothing. -/
theorem runtime_step (hs : m.step l = some m') (hq : m.proc k = some q) (hpq : Renumbered p q) :
    (∃ i p' q', labelAt s n m k (.runtime l) = some (.input i) ∧ p.step i = some p' ∧
      m'.proc k = some q' ∧ Renumbered p' q' ∧ q'.vip.config = q.vip.config) ∨
      labelAt s n m k (.runtime l) = none ∧ m'.proc k = some q := by
  have hset (u : Proc) : (m.setProc k u).proc k = some u := by
    rw [Module.proc_setProc, if_pos rfl, hq, Option.map_some]
  have hother {j : ℕ} (hj : j ≠ k) (u : Proc) : (m.setProc j u).proc k = some q := by
    rw [Module.proc_setProc, if_neg (Ne.symm hj), hq]
  have hstart (created : Bool) : (q.cmdStart created).vip.config = q.vip.config := by
    rcases Proc.cmdStart_vip q created with hv | ⟨-, t, hv⟩ <;> rw [hv]
  cases l with
  | vip j i =>
    obtain ⟨u, hu, hs⟩ := Option.bind_eq_some_iff.mp hs
    obtain ⟨u', hu', rfl⟩ := Option.map_eq_some_iff.mp hs
    by_cases hj : j = k
    · subst hj
      obtain rfl := Option.some.inj (hu.symm.trans hq)
      obtain ⟨p', hp', hpq'⟩ := hpq.step hu'
      exact Or.inl ⟨i.lower, p', u', if_pos rfl, hp', hset u', hpq', Proc.step_config hu'⟩
    · exact Or.inr ⟨if_neg hj, hother hj u'⟩
  | arbiter succeeds =>
    refine Or.inr ⟨rfl, ?_⟩
    cases Module.stepTo_of_step hs <;> exact hq
  | stopReturns =>
    refine Or.inr ⟨rfl, ?_⟩
    cases Module.stepTo_of_step hs
    exact hq
  | stopNext =>
    cases Module.stepTo_of_step hs with
    | @stop j u hj hu =>
      by_cases hjk : j = k
      · subst hjk
        obtain rfl := Option.some.inj (hu.symm.trans hq)
        refine Or.inl ⟨.stop, p.cmdStop none, u.cmdStop (some runtimeThread), if_pos hj, rfl,
          hset _, hpq.cmdStop (if_pos rfl), ?_⟩
        by_cases hi : u.vip.state = .idle
        · rw [Proc.cmdStop_idle hi]
        · rw [Proc.cmdStop_running hi, goDownReset_config]
      · refine Or.inr ⟨if_neg fun hk => hjk ?_, hother hjk _⟩
        exact RuntimePc.stopping.inj (hj.symm.trans hk)
    | @stopEnds j hj hnone =>
      refine Or.inr ⟨if_neg fun hk => ?_, hq⟩
      obtain rfl := RuntimePc.stopping.inj (hj.symm.trans hk)
      rw [hq] at hnone
      cases hnone
  | startNext created =>
    simp only [Module.step] at hs
    split at hs
    · rename_i j hj
      split at hs
      · rename_i v hv
        obtain rfl := Option.some.inj hs
        by_cases hjk : j = k
        · subst hjk
          have hvq : v.proc = q := by
            rw [Module.proc, hv] at hq
            exact Option.some.inj hq
          by_cases hauto : v.autoload = true
          · refine Or.inl ⟨.start created, p.cmdStart created, q.cmdStart created, ?_, rfl, ?_,
              hpq.cmdStart created, hstart created⟩
            · exact if_pos ⟨hj, v, hv, hauto⟩
            · rw [if_pos hauto, hvq]
              exact hset _
          · refine Or.inr ⟨if_neg ?_, by rw [if_neg hauto]; exact hq⟩
            rintro ⟨-, v', hv', hauto'⟩
            obtain rfl := Option.some.inj (hv.symm.trans hv')
            exact hauto hauto'
        · refine Or.inr ⟨if_neg fun hk => hjk ?_, ?_⟩
          · exact RuntimePc.starting.inj (hj.symm.trans hk.1)
          · split_ifs
            · exact hother hjk _
            · exact hq
      · rename_i hnone
        obtain rfl := Option.some.inj hs
        refine Or.inr ⟨if_neg fun hk => ?_, hq⟩
        obtain rfl := RuntimePc.starting.inj (hj.symm.trans hk.1)
        rw [Module.proc, hnone] at hq
        cases hq
    · cases hs

/-- A step of the machine that is allowed is one of the node. -/
theorem permitted_lower {d : Deployment} {i : Input} (hn : n ∈ d.nodes) (h : Allowed n i) :
    Permitted d n i.lower := by
  cases i with
  | start | rollbackStart => exact hn
  | localGet => exact h
  | deliver | dispatchFails => exact h.elim
  | _ => trivial

theorem inputSignal_lower (i : Input) : inputSignal i.lower = inputSignal i := by
  cases i <;> rfl

/-- The local steps of a machine, by what they ask for. -/
inductive ActTo (s : Installation) (n : NodeId) (m : Module) :
    ModuleStep → Module → Option (CpgName × Signal Msg) → Prop
  | vip {k : ℕ} {i : Input} {m' : Module} {r : ConfiguredVip} :
      Allowed n i → m.step (.vip k i) = some m' → (s.order n)[k]? = some r →
        ActTo s n m (.runtime (.vip k i)) m' (some (r.groupName, inputSignal i))
  | quiet {l : RuntimeStep} {m' : Module} :
      (∀ k i, l = .vip k i → (s.order n)[k]? = none) → m.step l = some m' →
        ActTo s n m (.runtime l) m' none
  | event {profileName sql : CString} {k : ℕ} {r : ConfiguredVip} :
      findVirtualIpFromProfile (s.sys n).byteOrder (s.order n) profileName = some r →
        (s.order n)[k]? = some r →
          ActTo s n m (.event profileName sql) m (some (r.groupName, .send (.sql profileName sql)))

/-- **What a local step can do.** -/
theorem actTo_of_act (ha : s.act n m a = some (m', ask)) : ActTo s n m a m' ask := by
  cases a with
  | runtime l =>
    cases l with
    | vip k i =>
      obtain ⟨hi, ha⟩ := Option.ite_none_right_eq_some.mp ha
      obtain ⟨m₁, hs, heq⟩ := Option.map_eq_some_iff.mp ha
      cases heq
      cases hr : (s.order n)[k]? with
      | some r => exact .vip hi hs hr
      | none =>
        refine .quiet ?_ hs
        rintro k' i' heq
        cases heq
        exact hr
    | arbiter | stopNext | stopReturns | startNext =>
      obtain ⟨m₁, hs, heq⟩ := Option.map_eq_some_iff.mp ha
      cases heq
      exact .quiet (by simp) hs
  | event profileName sql =>
    obtain ⟨x, hx, heq⟩ := Option.map_eq_some_iff.mp ha
    cases heq
    cases hf : findVirtualIpFromProfile (s.sys n).byteOrder (s.order n) profileName with
    | none => simp [eventMulticasts, hf] at hx
    | some r =>
      obtain rfl : (r.groupName, Msg.sql profileName sql) = x := by
        simpa [eventMulticasts, hf] using hx
      obtain ⟨k, hk⟩ := List.mem_iff_getElem?.mp (List.mem_of_find?_eq_some hf)
      exact .event hf hk

/-- A statement that the machine multicasts in the group is one that the node does. -/
theorem eventHandler_of_lists {profileName sql : CString} (hpq : Renumbered p q)
    (hc : q.vip.config = r.config (s.sys n).byteOrder)
    (hf : findVirtualIpFromProfile (s.sys n).byteOrder (s.order n) profileName = some r) :
    eventHandler p profileName sql = some (.sql profileName sql) := by
  have hlists := List.find?_some hf
  apply if_pos
  have hconfig : p.vip.config = r.config (s.sys n).byteOrder := by
    rw [← hc, hpq.vip, Vip.shift_config]
  have hmem := listsProfile_iff.mp hlists
  rw [List.takeWhile_map] at hmem
  rw [hconfig]
  exact hmem

/-- It is one for the node if the virtual ip that is found is in the group. -/
theorem event_at_position {profileName : CString} (h : s.position c n = some k)
    (hf : findVirtualIpFromProfile (s.sys n).byteOrder (s.order n) profileName = some r)
    (hr : (s.order n)[j]? = some r) :
    (findVirtualIpFromProfile (s.sys n).byteOrder (s.order n) profileName).map
      ConfiguredVip.groupName = (s.order n)[k]?.map ConfiguredVip.groupName ↔ j = k := by
  obtain ⟨r', hr', -⟩ := record_of_position h
  rw [hf, hr', Option.map_some, Option.map_some]
  constructor
  · intro hg
    exact position_unique hr hr' (Option.some.inj hg)
  · rintro rfl
    rw [Option.some.inj (hr.symm.trans hr')]

/-- What the runtime thread does to a virtual ip asks nothing of the group. -/
theorem quiet_of_label {i : Input} (h : s.position c n = some k)
    (hno : ∀ j i, l = .vip j i → (s.order n)[j]? = none)
    (hl : labelAt s n m k (.runtime l) = some (.input i)) :
    Permitted (s.deployment c) n i ∧ inputSignal i = .quiet := by
  cases l with
  | vip j i' =>
    obtain ⟨rfl, -⟩ := Option.ite_none_right_eq_some.mp hl
    obtain ⟨r, hr, -⟩ := record_of_position h
    rw [hno j i' rfl] at hr
    cases hr
  | arbiter | stopReturns => cases hl
  | stopNext =>
    obtain ⟨-, hl⟩ := Option.ite_none_right_eq_some.mp hl
    cases hl
    exact ⟨trivial, rfl⟩
  | startNext created =>
    obtain ⟨-, hl⟩ := Option.ite_none_right_eq_some.mp hl
    cases hl
    exact ⟨mem_nodes_of_position h, rfl⟩

/-- **What a local step of a machine** is for its node. -/
theorem act_label (h : s.Has c n m) (ha : s.act n m a = some (m', ask)) : s.Has c n m' ∧
    (∀ b, s.label c n m a = some b →
      nodeAct (s.deployment c) n (s.state c n m) b = some (s.state c n m', Signal.to c ask)) ∧
      (s.label c n m a = none →
        s.state c n m' = s.state c n m ∧ Signal.to c ask = .quiet) := by
  cases hpos : s.position c n with
  | none =>
    -- the machine has no virtual ip in the group
    refine ⟨fun k hk => absurd (hpos.symm.trans hk) (by simp), ?_, fun _ =>
      ⟨state_congr fun k hk => absurd (hpos.symm.trans hk) (by simp), ?_⟩⟩
    · intro b hb
      rw [label, hpos] at hb
      cases hb
    · cases actTo_of_act ha with
      | vip _ _ hr | event _ hr => exact to_of_none hpos hr _
      | quiet => rfl
  | some k =>
    obtain ⟨p, q, hq, hpq, hconfig⟩ := h k hpos
    have hstate : s.state c n m = p := state_of_position hpos hq hpq
    have hlabel : s.label c n m a = labelAt s n m k a := by rw [label, hpos, Option.bind_some]
    rw [hlabel, hstate]
    have hhas {p' q' : Proc} (hq' : m'.proc k = some q') (hpq' : Renumbered p' q')
        (hc' : q'.vip.config = q.vip.config) : s.Has c n m' := by
      intro k' hk'
      obtain rfl := Option.some.inj (hpos.symm.trans hk')
      exact ⟨p', q', hq', hpq', hc'.trans hconfig⟩
    cases actTo_of_act ha with
    | @vip j i _ r hi hs hr =>
      rw [to_of_position hpos hr]
      by_cases hj : j = k
      · subst hj
        obtain ⟨i', p', q', hl, hp', hq', hpq', hc'⟩ :=
          (runtime_step s n hs hq hpq).resolve_right fun hno => by simp [labelAt] at hno
        obtain rfl : i.lower = i' := by simpa [labelAt] using hl
        refine ⟨hhas hq' hpq' hc', fun b hb => ?_, fun hnone => by simp [labelAt] at hnone⟩
        obtain rfl : Command.input i.lower = b := by simpa [labelAt] using hb
        rw [state_of_position hpos hq' hpq', if_pos rfl, nodeAct,
          if_pos (permitted_lower (mem_nodes_of_position hpos) hi), hp', Option.map_some,
          inputSignal_lower]
      · obtain hq' : m'.proc k = some q := by
          rcases runtime_step s n hs hq hpq with ⟨i', p', q', hl, -⟩ | ⟨-, hq'⟩
          · simp [labelAt, hj] at hl
          · exact hq'
        refine ⟨hhas hq' hpq rfl, fun b hb => by simp [labelAt, hj] at hb, fun _ => ?_⟩
        exact ⟨state_of_position hpos hq' hpq, if_neg hj⟩
    | @quiet l _ hl hs =>
      rcases runtime_step s n hs hq hpq with
        ⟨i, p', q', hlab, hp', hq', hpq', hc'⟩ | ⟨hlab, hq'⟩
      · refine ⟨hhas hq' hpq' hc', fun b hb => ?_, fun hnone => by rw [hlab] at hnone; cases hnone⟩
        obtain rfl := Option.some.inj (hlab.symm.trans hb)
        obtain ⟨hi, hsig⟩ := quiet_of_label hpos hl hlab
        rw [state_of_position hpos hq' hpq', nodeAct, if_pos hi, hp', Option.map_some, hsig]
        rfl
      · refine ⟨hhas hq' hpq rfl, fun b hb => ?_, fun _ =>
          ⟨state_of_position hpos hq' hpq, rfl⟩⟩
        rw [hlab] at hb
        cases hb
    | @event profileName sql j r hf hr =>
      refine ⟨h, fun b hb => ?_, fun hnone => ⟨hstate, ?_⟩⟩
      · obtain ⟨hg, hb⟩ := Option.ite_none_right_eq_some.mp hb
        obtain rfl := Option.some.inj hb
        have hj : j = k := (event_at_position hpos hf hr).mp hg
        have hr' : (s.order n)[k]? = some r := hj ▸ hr
        have hevent : eventHandler p profileName sql = some (.sql profileName sql) :=
          eventHandler_of_lists hpq (hconfig.trans (config_of_position hpos hr')) hf
        rw [to_of_position hpos hr, if_pos hj, nodeAct, hevent, hstate]
        rfl
      · rw [to_of_position hpos hr, if_neg]
        intro hj
        rw [labelAt, if_pos ((event_at_position hpos hf hr).mpr hj)] at hnone
        cases hnone

/-- Node states are multicast whatever the handles are. -/
theorem multicasts_shift (calls : List Effect) :
    multicasts (calls.map Effect.shift) = multicasts calls := by
  induction calls with
  | nil => rfl
  | cons e calls ih =>
    cases e with
    | sendState nm => exact congrArg (Msg.nodeState nm :: ·) ih
    | _ => exact ih

/-- **An entry** is handled by a machine as by its node. -/
theorem deliver_self {e : Entry NodeId Msg} {o : Outcome} {calls : List Effect} (h : s.Has c n m)
    (hd : s.deliver c n m e o = some (m', calls)) : s.Has c n m' ∧
      ∃ calls', nodeDeliver n (s.state c n m) e o = some (s.state c n m', calls') ∧
        multicasts calls' = multicasts calls := by
  obtain ⟨k, hpos, hd⟩ := Option.bind_eq_some_iff.mp hd
  obtain ⟨p, q, hq, hpq, hconfig⟩ := h k hpos
  obtain ⟨u, hu, hd⟩ := Option.bind_eq_some_iff.mp hd
  obtain rfl := Option.some.inj (hu.symm.trans hq)
  obtain ⟨⟨u', calls₁⟩, hu', heq⟩ := Option.map_eq_some_iff.mp hd
  cases heq
  obtain ⟨⟨th, hth, hphase⟩, hu'⟩ := Option.ite_none_right_eq_some.mp hu'
  obtain ⟨hpq', hcalls⟩ := hpq.handleEntry o e
  have hu' := Option.some.inj hu'
  rw [hu'] at hpq' hcalls
  have hq' : (m.setProc k u').proc k = some u' := by
    rw [Module.proc_setProc, if_pos rfl, hu, Option.map_some]
  refine ⟨fun k' hk' => ?_, (p.handleEntry o e).2, ?_, ?_⟩
  · obtain rfl := Option.some.inj (hpos.symm.trans hk')
    refine ⟨_, u', hq', hpq', ?_⟩
    have hsame := congrArg (fun r => r.1.vip.config) hu'
    rw [← hconfig, ← hsame]
    show (u.handleEntry _ e).1.vip.config = _
    rw [Proc.handleEntry_vip, handle_config]
  · rw [state_of_position hpos hu hpq, state_of_position hpos hq' hpq', nodeDeliver, if_pos]
    have hth' : (⟨th.id, th.phase⟩ : VipThread) ∈ u.vipThreads := hth
    obtain ⟨t, -, ht⟩ := hpq.mem_vipThreads hth'
    exact ⟨_, ht, hphase⟩
  · rw [← multicasts_shift, ← hcalls]

/-- **An entry of another group** is none of its node's business. -/
theorem deliver_other {e : Entry NodeId Msg} {o : Outcome} {calls : List Effect} (hc : c' ≠ c)
    (h : s.Has c n m) (hd : s.deliver c' n m e o = some (m', calls)) :
    s.Has c n m' ∧ s.state c n m' = s.state c n m := by
  obtain ⟨j, hpos, hd⟩ := Option.bind_eq_some_iff.mp hd
  obtain ⟨u, hu, hd⟩ := Option.bind_eq_some_iff.mp hd
  obtain ⟨r, -, heq⟩ := Option.map_eq_some_iff.mp hd
  cases heq
  have hsame (k : ℕ) (hk : s.position c n = some k) : (m.setProc j r.1).proc k = m.proc k := by
    rw [Module.proc_setProc, if_neg (position_ne hk hpos hc).symm]
  exact ⟨h.congr hsame, state_congr hsame⟩

/-- A module that has been loaded. -/
theorem has_boot (n : NodeId) : s.Has c n (s.machines.boot n) ∧
    s.state c n (s.machines.boot n) = Proc.fresh ((s.deployment c).config n) := by
  have hproc {k : ℕ} (hk : s.position c n = some k) : (s.machines.boot n).proc k =
      some (Proc.hashed ((s.deployment c).config n)) := by
    obtain ⟨r, hr, -⟩ := record_of_position hk
    rw [config_of_position hk hr]
    show (loadedModule (s.sys n) (s.order n)).proc k = _
    simp [loadedModule, Module.load, Module.proc, hr]
  refine ⟨fun k hk => ⟨_, _, hproc hk, renumbered_hashed _, rfl⟩, ?_⟩
  cases hpos : s.position c n with
  | none => simp [state, hpos]
  | some k => exact state_of_position hpos (hproc hpos) (renumbered_hashed _)

end Steps

/-! ## Runs -/

variable (s c)

/-- **Each machine has one process in the group.** -/
def projection : Projection s.machines c (cluster (s.deployment c)) where
  state := s.state c
  label := s.label c
  inv := s.Has c
  boot := has_boot
  act h ha := (act_label h ha).1
  step h ha hl := (act_label h ha).2.1 _ hl
  idle h ha hl := (act_label h ha).2.2 hl
  deliver := deliver_self
  other := deliver_other

/-- The group as its nodes see it, with this transcript. -/
abbrev view (F : Fleet NodeId CpgName Msg Module)
    (tr : List (Record NodeId Proc (List Effect))) : Cluster := (s.projection c).view F tr

/-- Every step meets the condition, as far as the group sees it and whatever it has handled. -/
def Holds (ok : Cluster → ClusterStep → Prop) (F : Fleet NodeId CpgName Msg Module)
    (l : FleetAction NodeId CpgName ModuleStep Outcome) : Prop :=
  ∀ l' ∈ (s.projection c).seen F l, ∀ tr, ok (s.view c F tr) l'

/-- The machine is a member of the group and serves the address. -/
def Serves (F : Fleet NodeId CpgName Msg Module) (n : NodeId) : Prop :=
  F.up n = true ∧ (F.seat c n).conn.isMember = true ∧
    ∃ k ∈ s.position c n, ∃ q ∈ (F.st n).proc k, q.vip.state.serves = true

instance (F : Fleet NodeId CpgName Msg Module) (n : NodeId) : Decidable (s.Serves c F n) := by
  unfold Serves
  infer_instance

instance (F : Fleet NodeId CpgName Msg Module)
    (l : FleetAction NodeId CpgName ModuleStep Outcome) : Decidable (s.Holds c Heedful F l) :=
  -- the condition does not read the transcript
  decidable_of_iff (∀ l' ∈ (s.projection c).seen F l, Heedful (s.view c F []) l')
    ⟨fun h l' hl' _ => h l' hl', fun h l' hl' => h l' hl' []⟩

end Installation

section Results

variable {s : Installation} {c : CpgName} {F : Fleet NodeId CpgName Msg Module}

/-- **Every run of an installation is, for each group, a run of its nodes**: whatever the other
virtual ips of the machines do, and under any condition on the steps that the group sees. -/
theorem installation_plays_groups {ok : Cluster → ClusterStep → Prop}
    (h : ReachesWhen s.step (s.Holds c ok) s.start F) :
    ∃ g, ReachesWhen (s.deployment c).step ok (s.deployment c).start g ∧ g.log = F.log c ∧
      ∀ n, (g.site n).up = F.up n ∧ (g.site n).conn = (F.seat c n).conn ∧
        (g.site n).outbox = (F.seat c n).outbox ∧
          ∀ k q, s.position c n = some k → (F.st n).proc k = some q → Renumbered (g.proc n) q := by
  obtain ⟨hinv, tr, hr⟩ := (s.projection c).reaches (fun F l hl => hl) h
  refine ⟨_, hr, rfl, fun n => ⟨rfl, rfl, rfl, fun k q hk hq => ?_⟩⟩
  exact (hinv n).renumbered_state hk hq

/-- **One master each.** In every run of an installation, at most one machine serves the address of
a group whose nodes have distinct priorities, if its starts are clean and none of its nodes takes
over from start with a list that misses a member; whatever happens to the other virtual ips. -/
theorem one_master_each (hd : (s.deployment c).Distinct)
    (h : ReachesWhen s.step (s.Holds c Heedful) s.start F) {n m : NodeId}
    (hn : s.Serves c F n) (hm : s.Serves c F m) : n = m := by
  obtain ⟨hinv, tr, hr⟩ := (s.projection c).reaches (fun F l hl => hl) h
  have hserves {n : NodeId} (hn : s.Serves c F n) : (s.view c F tr).Serves n := by
    obtain ⟨hup, hmember, k, hk, q, hq, hserves⟩ := hn
    have hproc := (hinv n).renumbered_state hk hq
    refine ⟨⟨hup, hmember⟩, ?_⟩
    show (s.state c n (F.st n)).vip.state.serves = true
    rwa [← Vip.shift_state, ← hproc.vip]
  exact Cluster.serves_unique And.left And.right hr hd (hserves hn) (hserves hm)

end Results

/-! ## Two machines with two virtual ips -/

/-- `<virtualip address="1.1.1.k">` on `eth0`, with a priority of two digits. -/
def sharedVip (k tens : UInt8) : VirtualIpElement where
  address := [49, 46, 49, 46, 49, 46, 48 + k]
  cidrNetmask := []
  params := [⟨deviceText, [101, 116, 104, 48]⟩, ⟨autoloadText, trueText⟩,
    ⟨priorityText, [48 + tens, 48]⟩]
  profiles := []

/-- The document of a machine; each of the two is preferred for one of the virtual ips. -/
def sharedDoc (n : NodeId) : List VirtualIpElement :=
  if n = 10 then [sharedVip 1 2, sharedVip 2 1]
  else if n = 30 then [sharedVip 1 1, sharedVip 2 2]
  else []

/-- Two machines that share two virtual ips. -/
def twoMachines : Installation where
  nodes := [10, 30]
  sys _ := oneInterface
  doc := sharedDoc
  order n := (doConfig oneInterface (some (sharedDoc n))).2
  zero_notMem := by simp
  accepted n := by
    unfold sharedDoc
    split_ifs <;> exact ⟨by decide, by decide⟩
  hashed n := List.Perm.refl _
  outside n hn := by
    obtain ⟨h₁, h₂⟩ : n ≠ 10 ∧ n ≠ 30 := by simpa using hn
    rw [sharedDoc, if_neg h₁, if_neg h₂]
    rfl

/-- The group of `1.1.1.k`. -/
def sharedGroup (k : UInt8) : CpgName := ⟨7, [49, 46, 49, 46, 49, 46, 48 + k]⟩

/-- The steps of an installation. -/
abbrev SharedStep := FleetAction NodeId CpgName ModuleStep Outcome

/-- The runtime thread starts all virtual ips of a machine. -/
def autostart (n : NodeId) : List SharedStep :=
  List.replicate 3 (.act n (.runtime (.startNext true)))

/-- The thread of the `k`-th virtual ip connects to its group. -/
def joinsGroup (n : NodeId) (k : ℕ) : List SharedStep :=
  ([.cpgInitialize 1 [.ok], .contextSet 1 .ok, .localGet 1 .ok n, .join 1 [.ok]] : List Input).map
    fun i => .act n (.runtime (.vip k i))

/-- The machine handles the next entries of a group. -/
def handlesNext (c : CpgName) (n : NodeId) (j : ℕ) : List SharedStep :=
  List.replicate j (.deliver c n allSucceed)

/-- The first machine of a group comes to serve the address, and a second one joins it. -/
def groupUp (c : CpgName) (k : ℕ) (n m : NodeId) : List SharedStep :=
  joinsGroup n k ++ [.confchg c [] [n]] ++ handlesNext c n 1 ++ [.order c n] ++ handlesNext c n 1 ++
    [.order c n] ++ handlesNext c n 1 ++ joinsGroup m k ++ [.confchg c [] [m]] ++
    handlesNext c n 1 ++ handlesNext c m 1 ++ [.order c n, .order c m] ++ handlesNext c n 2 ++
    handlesNext c m 2

/-- Each machine serves one address, until the first one crashes and the second takes over. -/
def sharedRun : List SharedStep :=
  autostart 10 ++ autostart 30 ++ groupUp (sharedGroup 1) 0 10 30 ++
    groupUp (sharedGroup 2) 1 30 10 ++ [.crash 10, .confchg (sharedGroup 1) [10] []] ++
    handlesNext (sharedGroup 1) 30 1

/-- The machines after the takeover. -/
def sharedFleet : Fleet NodeId CpgName Msg Module :=
  (runWhen twoMachines.step (fun F l => twoMachines.Holds (sharedGroup 1) Heedful F l ∧
    twoMachines.Holds (sharedGroup 2) Heedful F l) twoMachines.start sharedRun).getD
      twoMachines.start

/-- The machines are in order for both groups. -/
theorem reaches_sharedFleet : ReachesWhen twoMachines.step
    (fun F l => twoMachines.Holds (sharedGroup 1) Heedful F l ∧
      twoMachines.Holds (sharedGroup 2) Heedful F l) twoMachines.start sharedFleet :=
  reachesWhen_getD _

/-- The second machine serves both addresses. -/
theorem serves_sharedFleet : twoMachines.Serves (sharedGroup 1) sharedFleet 30 ∧
    twoMachines.Serves (sharedGroup 2) sharedFleet 30 := by
  decide +kernel

theorem installation_plays_groups_takenOver : ∃ g,
    ReachesWhen (twoMachines.deployment (sharedGroup 1)).step Heedful
      (twoMachines.deployment (sharedGroup 1)).start g ∧
        (g.site 10).up = false ∧ (g.vip 30).state = .master := by
  have hrun := reaches_sharedFleet.mono fun _ _ h => h.1
  obtain ⟨g, hg, -, hsites⟩ := installation_plays_groups hrun
  obtain ⟨q, hq, hmaster⟩ : ∃ q ∈ (sharedFleet.st 30).proc 0, q.vip.state = .master := by
    decide +kernel
  have hpos : twoMachines.position (sharedGroup 1) 30 = some 0 := by decide +kernel
  have hproc : Renumbered (g.proc 30) q := (hsites 30).2.2.2 0 q hpos hq
  refine ⟨g, hg, ?_, ?_⟩
  · rw [(hsites 10).1]
    decide +kernel
  · show (g.proc 30).vip.state = .master
    rw [← hmaster, hproc.vip, Vip.shift_state]

theorem one_master_each_takenOver :
    (twoMachines.Serves (sharedGroup 1) sharedFleet 30 ∧
      ¬ twoMachines.Serves (sharedGroup 1) sharedFleet 10) ∧
      twoMachines.Serves (sharedGroup 2) sharedFleet 30 ∧
        ¬ twoMachines.Serves (sharedGroup 2) sharedFleet 10 := by
  obtain ⟨h₁, h₂⟩ := serves_sharedFleet
  have hrun₁ := reaches_sharedFleet.mono fun _ _ h => h.1
  have hrun₂ := reaches_sharedFleet.mono fun _ _ h => h.2
  have hd₁ : (twoMachines.deployment (sharedGroup 1)).Distinct := by decide +kernel
  have hd₂ : (twoMachines.deployment (sharedGroup 2)).Distinct := by decide +kernel
  refine ⟨⟨h₁, fun h => ?_⟩, h₂, fun h => ?_⟩
  · exact absurd (one_master_each hd₁ hrun₁ h h₁) (by decide)
  · exact absurd (one_master_each hd₂ hrun₂ h h₂) (by decide)

end CpgFailover
