import CpgFailover.Cluster
import CpgFailover.Election.History

/-!
# Processes in the group

What a process of the cluster looks like at each stage of its connection, as long as a vip is
started only on a clean record and after the thread of its last activation has ended. While a
process is a member its local steps keep its part in the election, or end it.

## Main definitions

* `CleanStart`: a start finds a clean record and no living thread
* `Stage`: the invariant of the single processes of a cluster

## Main results

* `stage_rule`: each step of the cluster keeps the invariant
* `Stage.quiet`: a local step of a member keeps its part in the election, or ends it
-/

namespace CpgFailover

open Agreed Transition

/-- A start of an idle vip finds the list empty, no remembered master, and no living `vip_thread`.
-/
def CleanStart (_ : NodeId) (p : Proc) : Command → Prop
  | .input (.start _) | .input (.rollbackStart _ _) =>
    p.vip.state = .idle → p.vip.nodeList = [] ∧ p.vip.masterId = 0 ∧ p.vipThreads = []
  | _ => True

instance (n : NodeId) (p : Proc) (c : Command) : Decidable (CleanStart n p c) := by
  unfold CleanStart
  split <;> infer_instance

/-- The phases in which `vip_thread` is connected to the group. -/
def VipPhase.connected : VipPhase → Bool
  | .dispatching | .leaving => true
  | _ => false

/-- The phases in which `vip_thread` knows its node id and may still come to dispatch. -/
def VipPhase.knowing : VipPhase → Bool
  | .join | .dispatching => true
  | _ => false

/-- A process of the cluster at each stage of its connection. -/
structure Stage (d : Deployment) (n : NodeId) (k : Kind) (p : Proc) : Prop where
  config : p.vip.config = d.config n
  single : ∀ th ∈ p.vipThreads, p.vipThreads = [th]
  place : ∀ th ∈ p.vipThreads, th.phase.connected = true ↔ k ≠ .out
  held : k ≠ .out → p.vipThreads ≠ []
  node : p.vipThreads ≠ [] → n ∈ d.nodes
  ending : ∀ th ∈ p.vipThreads, th.phase = .leaving → p.vip.state = .idle
  self : ∀ th ∈ p.vipThreads, th.phase.knowing = true → p.vip.state ≠ .idle → p.vip.nodeId = n
  fresh : k ≠ .active → p.vip.state ≠ .idle → (Peer.ofVip p.vip).Fresh

variable {d : Deployment} {n : NodeId} {k : Kind} {p p' : Proc}

theorem stage_boot (d : Deployment) (n : NodeId) : Stage d n .out (Proc.fresh (d.config n)) where
  config := rfl
  single th h := by cases h
  place th h := by cases h
  held h := absurd rfl h
  node h := absurd rfl h
  ending th h := by cases h
  self th h := by cases h
  fresh _ h := absurd rfl h

/-! ## Local steps -/

/-- A step that leaves the thread and the election alone. -/
theorem Stage.kept (h : Stage d n k p) (hc : p'.vip.config = p.vip.config)
    (ht : p'.vipThreads = p.vipThreads) (hp : Peer.ofVip p'.vip = Peer.ofVip p.vip)
    (hs : p'.vip.state = p.vip.state) : Stage d n k p' where
  config := hc.trans h.config
  single := by rw [ht]; exact h.single
  place := by rw [ht]; exact h.place
  held := by rw [ht]; exact h.held
  node := by rw [ht]; exact h.node
  ending := by rw [ht, hs]; exact h.ending
  self := by
    have hself : p'.vip.nodeId = p.vip.nodeId := congrArg Peer.self hp
    rw [ht, hs, hself]
    exact h.self
  fresh := by rw [hs, hp]; exact h.fresh

/-- A step that ends the activation. -/
theorem Stage.reset (h : Stage d n k p) (hc : p'.vip.config = p.vip.config)
    (ht : p'.vipThreads = p.vipThreads) (hs : p'.vip.state = .idle) : Stage d n k p' where
  config := hc.trans h.config
  single := by rw [ht]; exact h.single
  place := by rw [ht]; exact h.place
  held := by rw [ht]; exact h.held
  node := by rw [ht]; exact h.node
  ending _ _ _ := hs
  self _ _ _ h' := absurd hs h'
  fresh _ h' := absurd hs h'

/-- A start, which an idle vip gets on a clean record outside the group. -/
theorem Stage.start (h : Stage d n k p) (hn : n ∈ d.nodes)
    (hclean : p.vip.state = .idle → p.vip.nodeList = [] ∧ p.vip.masterId = 0 ∧ p.vipThreads = [])
    (created : Bool) : Stage d n k (p.cmdStart created) := by
  by_cases hs : p.vip.state = .idle
  · obtain ⟨hl, hm, ht⟩ := hclean hs
    have hk : k = .out := by
      by_contra hk
      exact h.held hk ht
    subst hk
    have hfresh (v : Vip) (hs : v.state = .start) (hl : v.nodeList = []) (hm : v.masterId = 0) :
        (Peer.ofVip v).Fresh := ⟨by simp [hs], hl, hm⟩
    cases created with
    | true =>
      rw [Proc.cmdStart_created hs, ht]
      refine ⟨h.config, ?_, ?_, fun hk => absurd rfl hk, fun _ => hn, ?_, ?_, fun _ _ => ?_⟩
      · simp
      · simp [VipPhase.connected]
      · simp
      · simp [VipPhase.knowing]
      · exact hfresh _ rfl hl hm
    | false =>
      rw [Proc.cmdStart_failed hs]
      refine ⟨h.config, ?_, ?_, fun hk => absurd rfl hk, h.node, ?_, ?_, fun _ _ => ?_⟩
      · simp [ht]
      · simp [ht]
      · simp [ht]
      · simp [ht]
      · exact hfresh _ rfl hl hm
  · rw [Proc.cmdStart_running hs]
    exact h

/-- A stop, up to the first wait of `go_down`. -/
theorem Stage.stop (h : Stage d n k p) (caller : Option ThreadId) :
    Stage d n k (p.cmdStop caller) := by
  by_cases hs : p.vip.state = .idle
  · rwa [Proc.cmdStop_idle hs]
  · rw [Proc.cmdStop_running hs]
    exact h.reset rfl rfl rfl

/-- The thread moves to another phase, and with it the connection. -/
theorem Stage.move (h : Stage d n k p) {t : ThreadId} {here next : VipPhase} {k' : Kind}
    (ht : ⟨t, here⟩ ∈ p.vipThreads) (hplace : next.connected = true ↔ k' ≠ .out)
    (hend : next = .leaving → p.vip.state = .idle)
    (hself : next.knowing = true → p.vip.state ≠ .idle → p.vip.nodeId = n)
    (hfresh : k' ≠ .active → p.vip.state ≠ .idle → (Peer.ofVip p.vip).Fresh) :
    Stage d n k' (p.moveVip t next) := by
  have hth : (p.moveVip t next).vipThreads = [⟨t, next⟩] := by
    simp [Proc.moveVip, h.single _ ht]
  refine ⟨h.config, ?_, ?_, ?_, fun _ => h.node (List.ne_nil_of_mem ht), ?_, ?_, hfresh⟩
  · simp [hth]
  · simpa [hth] using hplace
  · simp [hth]
  · simpa [hth] using hend
  · simpa [hth] using hself

/-- The thread has ended. -/
theorem Stage.alone (h : Stage d n .out p) : Stage d n .out { p with vipThreads := [] } where
  config := h.config
  single th ht := by cases ht
  place th ht := by cases ht
  held hk := absurd rfl hk
  node ht := absurd rfl ht
  ending th ht := by cases ht
  self th ht := by cases ht
  fresh := h.fresh

/-- `cpg_local_get` has given the node's own id. -/
theorem Stage.located (h : Stage d n .out p) :
    Stage d n .out { p with vip := { p.vip with nodeId := n } } where
  config := h.config
  single := h.single
  place := h.place
  held := h.held
  node := h.node
  ending := h.ending
  self _ _ _ _ := rfl
  fresh := h.fresh

/-- A thread in an unconnected phase belongs to a process outside the group. -/
theorem Stage.kind_eq_out (h : Stage d n k p) {t : ThreadId} {ph : VipPhase}
    (ht : ⟨t, ph⟩ ∈ p.vipThreads) (hph : ph.connected = false) : k = .out := by
  by_contra hk
  exact absurd ((h.place _ ht).mpr hk) (by simp [hph])

/-- Each local step keeps the invariant. -/
theorem Stage.step (h : Stage d n k p) {i : Input} (hc : CleanStart n p (.input i))
    (hp : Permitted d n i) (hs : p.step i = some p') :
    Stage d n ((inputSignal i).kind k) p' := by
  cases Proc.stepTo_of_step hs with
  | start created => exact h.start hp hc created
  | stop => exact h.stop none
  | down hd =>
    obtain ⟨ht, -, r, v, hv⟩ := Proc.downStep_vip hd
    exact h.kept (by rw [hv]) ht (by rw [hv]; rfl) (by rw [hv])
  | cpgInitialize ht | contextSet ht =>
    -- not connected before, and not connected by this call
    obtain rfl := h.kind_eq_out ht rfl
    refine h.move ht ?_ ?_ ?_ h.fresh <;> split_ifs <;> simp [VipPhase.connected, VipPhase.knowing,
      inputSignal, Signal.kind]
  | located ht =>
    obtain rfl := h.kind_eq_out ht rfl
    obtain rfl : _ = n := hp
    have hloc := h.located
    exact hloc.move ht (by simp [VipPhase.connected, inputSignal, Signal.kind]) (by simp)
      (fun _ _ => rfl) hloc.fresh
  | unlocated ht =>
    obtain rfl := h.kind_eq_out ht rfl
    exact h.move ht (by simp [VipPhase.connected, inputSignal, Signal.kind]) (by simp)
      (by simp [VipPhase.knowing]) h.fresh
  | join ht =>
    -- the one call that connects, if one of its attempts succeeds
    obtain rfl := h.kind_eq_out ht rfl
    have hself := h.self _ ht rfl
    have hfresh := h.fresh (by simp)
    refine h.move ht ?_ ?_ ?_ fun _ => hfresh
    · simp only [inputSignal]
      split_ifs with hok <;> simp [VipPhase.connected, Signal.kind]
    · split_ifs <;> simp
    · exact fun _ => hself
  | deliver => exact absurd hp id
  | dispatchFails => exact absurd hp id
  | exitLoop ht hidle =>
    have hk : k ≠ .out := (h.place _ ht).mp rfl
    refine h.move ht ?_ (fun _ => hidle) ?_ h.fresh
    · simpa [VipPhase.connected, inputSignal, Signal.kind] using hk
    · simp [VipPhase.knowing]
  | leave ht =>
    have hidle := h.ending _ ht rfl
    refine h.move ht ?_ ?_ ?_ fun _ hr => absurd hidle hr <;>
      simp [VipPhase.connected, VipPhase.knowing, inputSignal, Signal.kind]
  | finalize ht =>
    obtain rfl := h.kind_eq_out ht rfl
    refine h.move ht ?_ ?_ ?_ h.fresh <;> simp [VipPhase.connected, VipPhase.knowing, inputSignal,
      Signal.kind]
  | @finish t ht =>
    obtain rfl := h.kind_eq_out ht rfl
    have hnil : p.vipThreads.filter (fun th => th.id ≠ t) = [] := by simp [h.single _ ht]
    rw [hnil]
    exact h.alone
  | tick => exact h.kept (by simp) (by simp) (by simp) (by simp)
  | @rollbackStop r => exact (h.stop (some r.id)).kept rfl rfl rfl rfl
  | rollbackWait => exact h.kept rfl rfl rfl rfl
  | @rollbackStart r created =>
    exact (h.kept rfl rfl rfl rfl : Stage d n k (p.endRollback r.id)).start hp hc created

/-- A statement from sofia does not touch the process. -/
theorem nodeAct_event {name sql : CString} {sig : Signal Msg}
    (h : nodeAct d n p (.event name sql) = some (p', sig)) : p' = p ∧ ∃ m, sig = .send m := by
  obtain ⟨m, -, he⟩ := Option.map_eq_some_iff.mp h
  cases he
  exact ⟨rfl, m, rfl⟩

theorem nodeAct_input {i : Input} {sig : Signal Msg}
    (h : nodeAct d n p (.input i) = some (p', sig)) :
    Permitted d n i ∧ p.step i = some p' ∧ sig = inputSignal i := by
  obtain ⟨hp, h⟩ := Option.ite_none_right_eq_some.mp h
  obtain ⟨q, hq, he⟩ := Option.map_eq_some_iff.mp h
  cases he
  exact ⟨hp, hq, rfl⟩

theorem Stage.act (h : Stage d n k p) {c : Command} {sig : Signal Msg} (hc : CleanStart n p c)
    (ha : nodeAct d n p c = some (p', sig)) : Stage d n (sig.kind k) p' := by
  cases c with
  | input i =>
    obtain ⟨hp, hs, rfl⟩ := nodeAct_input ha
    exact h.step hc hp hs
  | event name sql =>
    obtain ⟨rfl, m, rfl⟩ := nodeAct_event ha
    exact h

/-! ## Handling an entry -/

/-- What a member's handling of an entry is. -/
theorem nodeDeliver_eq_some {e : Entry NodeId Msg} {o : Outcome} {calls : List Effect}
    (h : nodeDeliver n p e o = some (p', calls)) :
    (∃ th ∈ p.vipThreads, th.phase = .dispatching) ∧ ∃ o' : Outcome, o'.malloc = o.malloc ∧
      o'.addVip = o.addVip ∧ o'.sendGarp = o.sendGarp ∧ p'.vip = (handle o' p.vip e).1 ∧
      p'.vipThreads = p.vipThreads ∧ calls = (handle o' p.vip e).2 := by
  obtain ⟨ht, h⟩ := Option.ite_none_right_eq_some.mp h
  have hp : p' = _ := (congrArg Prod.fst (Option.some.inj h)).symm
  have hcalls : calls = _ := (congrArg Prod.snd (Option.some.inj h)).symm
  refine ⟨ht, p.withHandle o, rfl, rfl, rfl, ?_, ?_, ?_⟩
  · rw [hp, Proc.handleEntry_vip]
  · rw [hp, Proc.handleEntry_vipThreads]
  · rw [hcalls, Proc.handleEntry_calls]

theorem Stage.deliver (h : Stage d n k p) {e : Entry NodeId Msg} {o : Outcome}
    {calls : List Effect} (hd : nodeDeliver n p e o = some (p', calls)) :
    Stage d n .active p' := by
  obtain ⟨⟨th, hth, hph⟩, o', -, -, -, hv, ht, -⟩ := nodeDeliver_eq_some hd
  have hone := h.single th hth
  have hk : k ≠ .out := (h.place th hth).mp (by simp [hph, VipPhase.connected])
  refine ⟨by rw [hv, handle_config, h.config], ?_, ?_, fun _ => ?_, ?_, ?_, ?_, by simp⟩
  · rw [ht]
    exact h.single
  · rw [ht]
    exact fun th hth => iff_of_true ((h.place th hth).mpr hk) (by simp)
  · rw [ht]
    exact h.held hk
  · rw [ht]
    exact h.node
  · rw [ht, hone]
    simp [hph]
  · intro th' hth' _ hrun
    -- whoever still runs kept its id, and ran before
    rw [hv] at hrun ⊢
    obtain ⟨hrun', hself⟩ := handle_running hrun
    exact hself.trans (h.self th hth (by simp [hph, VipPhase.knowing]) hrun')

/-- A process whose join is ordered. -/
theorem Stage.enter (h : Stage d n .joining p) : Stage d n .admitted p := by
  refine ⟨h.config, h.single, ?_, fun _ => h.held (by simp), h.node, h.ending, h.self,
    fun _ => h.fresh (by simp)⟩
  exact fun th hth => (h.place th hth).trans (by simp)

/-- **Each step of the cluster keeps the invariant of the single processes.** -/
theorem stage_rule {ok : Cluster → ClusterStep → Prop}
    (hok : ∀ {g n c}, ok g (.act n c) → CleanStart n (g.proc n) c) :
    Group.SiteRule (cluster d) ok (Stage d) where
  boot := stage_boot d
  act h hi ha := hi.act (hok h) ha
  deliver _ hi _ hd := hi.deliver hd
  enter := Stage.enter

/-! ## Local steps of a member -/

/-- A stop keeps the election's part of an idle record and ends any other. -/
theorem cmdStop_peer (p : Proc) (caller : Option ThreadId) :
    Peer.ofVip (p.cmdStop caller).vip = Peer.ofVip p.vip ∨ (p.cmdStop caller).vip.state = .idle := by
  by_cases hs : p.vip.state = .idle
  · exact Or.inl (by rw [Proc.cmdStop_idle hs])
  · exact Or.inr (by rw [Proc.cmdStop_running hs]; rfl)

/-- A start changes nothing while the thread of the vip lives. -/
theorem cmdStart_of_living {q : Proc} (hc : q.vip.state = .idle → q.vip.nodeList = [] ∧
    q.vip.masterId = 0 ∧ q.vipThreads = []) (hlive : q.vipThreads ≠ []) (created : Bool) :
    q.cmdStart created = q :=
  Proc.cmdStart_running (fun hs => hlive (hc hs).2.2) created

/-- A local step of a connected process keeps its part in the election, or ends it: the vip is not
started while its thread lives, and its node id is not asked for again. -/
theorem Stage.step_peer (h : Stage d n k p) (hk : k ≠ .out) {i : Input}
    (hc : CleanStart n p (.input i)) (hp : Permitted d n i) (hs : p.step i = some p') :
    Peer.ofVip p'.vip = Peer.ofVip p.vip ∨ p'.vip.state = .idle := by
  have hlive := h.held hk
  cases Proc.stepTo_of_step hs with
  | start created => exact Or.inl (by rw [cmdStart_of_living hc hlive])
  | stop => exact cmdStop_peer p none
  | down hd =>
    obtain ⟨-, -, r, v, hv⟩ := Proc.downStep_vip hd
    exact Or.inl (by rw [hv]; rfl)
  | located ht =>
    -- a connected thread is past `cpg_local_get`
    exact absurd (h.kind_eq_out ht rfl) hk
  | deliver => exact absurd hp id
  | tick => exact Or.inl (by simp)
  | @rollbackStop r => exact cmdStop_peer p (some r.id)
  | @rollbackStart r created =>
    have hkeep : (p.endRollback r.id).cmdStart created = p.endRollback r.id :=
      cmdStart_of_living (q := p.endRollback r.id) hc hlive created
    exact Or.inl (by rw [hkeep]; rfl)
  | cpgInitialize | contextSet | unlocated | join | dispatchFails | exitLoop | leave | finalize
  | finish | rollbackWait => exact Or.inl rfl

theorem Stage.act_peer (h : Stage d n k p) (hk : k ≠ .out) {c : Command} {sig : Signal Msg}
    (hc : CleanStart n p c) (ha : nodeAct d n p c = some (p', sig)) :
    Peer.ofVip p'.vip = Peer.ofVip p.vip ∨ p'.vip.state = .idle := by
  cases c with
  | input i =>
    obtain ⟨hp, hs, -⟩ := nodeAct_input ha
    exact h.step_peer hk hc hp hs
  | event name sql =>
    obtain ⟨rfl, -⟩ := nodeAct_event (d := d) (n := n) ha
    exact Or.inl rfl

/-- A local step of a member keeps its stage, and its part in the election unless it ends it. -/
theorem Stage.quiet (h : Stage d n .active p) (hq : Quiet (cluster d) CleanStart n p p') :
    Stage d n .active p' ∧
      (Peer.ofVip p'.vip = Peer.ofVip p.vip ∨ p'.vip.state = .idle) := by
  obtain ⟨c, sig, hc, ha, hsig⟩ := hq
  have hkind : sig.kind .active = .active := by
    rcases hsig with rfl | ⟨m, rfl⟩ <;> rfl
  exact ⟨hkind ▸ h.act hc ha, h.act_peer (by simp) hc ha⟩

/-- What a member was after one entry it still is at the next, unless it has gone down. -/
theorem Stage.quiets (h : Stage d n .active p)
    (hq : Relation.ReflTransGen (Quiet (cluster d) CleanStart n) p p') :
    Stage d n .active p' ∧
      (Peer.ofVip p'.vip = Peer.ofVip p.vip ∨ p'.vip.state = .idle) := by
  induction hq with
  | refl => exact ⟨h, Or.inl rfl⟩
  | tail _ hs ih =>
    obtain ⟨hst, hpeer⟩ := ih
    obtain ⟨hst', hpeer'⟩ := hst.quiet hs
    refine ⟨hst', ?_⟩
    rcases hpeer' with he | hi
    · rcases hpeer with he' | hi'
      · exact Or.inl (he.trans he')
      · have hrole := congrArg Peer.role he
        rw [Peer.ofVip_role, Peer.ofVip_role, hi'] at hrole
        exact Or.inr (Role.ofState_eq_idle.mp hrole)
    · exact Or.inr hi

end CpgFailover
