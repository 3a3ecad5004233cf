import CpgFailover.Membership

/-!
# The turns of a cluster

The handlings of a cluster, read as turns of abstract members, are a chronicle of the election, as
long as every start is clean, and a history if `node_add` never lacks memory.

## Main definitions

* `Cluster.turns`: the turns of a cluster
* `CleanStarts`, `Provided`, `Regular`: clean starts, and memory for every list
* `OnHandling`: a condition on every handling of a node

## Main results

* `sendState_handle`: a callback announces the role it ends in
* `Cluster.chronicle`, `Cluster.history`: the turns of a cluster are a chronicle, and a history
* `Cluster.held_of_member`: what a member is now it was after its last turn
-/

namespace CpgFailover

open Agreed Transition

/-! ## What a callback announces -/

/-- Departures make nobody but a new master announce itself. -/
theorem sendState_nodesDown {o : Outcome} {v : Vip} {left : List NodeId} {nm : NodeMsg}
    (h : Effect.sendState nm ∈ (nodesDown o v left).2) : nm.priority = v.config.priority ∧
      nm.state = .master ∧ (nodesDown o v left).1.state.serves = true := by
  induction left generalizing v with
  | nil => simp [nodesDown] at h
  | cons x left ih =>
    simp only [nodesDown] at h ⊢
    rcases List.mem_append.mp h with h | h
    · obtain ⟨he, -, hm⟩ := sendState_mem h
      have hm : (fsmInputNodeDown o v x).vip.state = .master := by
        rcases hm with hm | hm
        · rcases nodeDownEvent_cases v x with he' | he' <;> simp [he'] at hm
        · exact hm
      refine ⟨?_, ?_, ?_⟩
      · rw [he]
        exact congrArg Config.priority (fsmDoTransaction_config o (forget v x) _)
      · rw [he]
        exact hm
      · -- the new master stays the leader through the departures that follow
        have hl := (Peer.loseAll_of_leader (Peer.won o)
          (p := Peer.ofVip (fsmInputNodeDown o v x).vip) (by simp [hm, State.serves]) left).1
        rw [← Peer.ofVip_nodesDown] at hl
        rw [← Role.ofState_eq_leader]
        exact (congrArg Peer.role hl).trans (by simp [hm, State.serves])
    · obtain ⟨hp, hs⟩ := ih h
      exact ⟨hp.trans (congrArg Config.priority (fsmDoTransaction_config o (forget v x) _)), hs⟩

/-- **A callback announces the role it ends in.** -/
theorem sendState_handle {o : Outcome} {v : Vip} {e : Entry NodeId Msg} {nm : NodeMsg}
    (h : Effect.sendState nm ∈ (handle o v e).2) : nm.priority = v.config.priority ∧
      nm.state ≠ .idle ∧ Role.ofState (handle o v e).1.state = Role.ofState nm.state := by
  have hone {w : Vip} {ev : Event} (hw : w.config = v.config)
      (h : Effect.sendState nm ∈ (fsmDoTransaction o w ev).effects) :
      nm.priority = v.config.priority ∧ nm.state ≠ .idle ∧
        Role.ofState (fsmDoTransaction o w ev).vip.state = Role.ofState nm.state := by
    obtain ⟨he, hi, -⟩ := sendState_mem h
    have hconf := fsmDoTransaction_config o w ev
    rw [he]
    exact ⟨congrArg Config.priority (hconf.trans hw), hi, rfl⟩
  cases e with
  | confchg members left joined =>
    simp only [handle, confchgCallback] at h ⊢
    have hdown (h : Effect.sendState nm ∈
        (nodesDown o { v with memberListEntries := members.length } left).2) :
        nm.priority = v.config.priority ∧ nm.state ≠ .idle ∧ Role.ofState
          (nodesDown o { v with memberListEntries := members.length } left).1.state =
            Role.ofState nm.state := by
      obtain ⟨hp, hm, hs⟩ := sendState_nodesDown h
      refine ⟨hp, by simp [hm], ?_⟩
      rw [hm, Role.ofState_eq_leader.mpr hs]
      rfl
    split_ifs at h ⊢ with hj
    · rcases List.mem_append.mp h with h | h
      · rw [fsmInputNodeUp_vip]
        exact hdown h
      · refine hone ?_ h
        exact handle_config (o := o) v (.confchg members left [])
    · exact hdown h
  | message y m =>
    cases m with
    | sql name sql => cases (mem_handle_sql h).2
    | nodeState nm' =>
      simp only [handle, deliverCallback, fsmInputNewStateMessage] at h ⊢
      cases hev : stateMessageEvent (learn o v nm' y) nm' y with
      | some ev =>
        rw [hev] at h
        exact hone (learn_config o v nm' y) h
      | none =>
        rw [hev] at h
        simp at h

/-! ## Conditions on the steps of a cluster -/

/-- Every start is clean. -/
def CleanStarts (g : Cluster) : ClusterStep → Prop
  | .act n c => CleanStart n (g.proc n) c
  | _ => True

/-- `node_add` gets the memory it asks for. -/
def Provided : ClusterStep → Prop
  | .deliver _ o => o.malloc = true
  | _ => True

/-- Every start is clean, and there is memory for every list. -/
def Regular (g : Cluster) (l : ClusterStep) : Prop := CleanStarts g l ∧ Provided l

/-- A condition on every handling of an entry: on the node, its record, the entry and the outcome of
the calls. -/
def OnHandling (W : NodeId → Vip → Entry NodeId Msg → Outcome → Prop) (g : Cluster) :
    ClusterStep → Prop
  | .deliver n o =>
    match (g.site n).conn with
    | .member _ next => ∀ e ∈ g.log[next]?, W n (g.vip n) e o
    | _ => True
  | _ => True

instance (g : Cluster) (l : ClusterStep) : Decidable (CleanStarts g l) := by
  unfold CleanStarts
  split <;> infer_instance

instance : (l : ClusterStep) → Decidable (Provided l)
  | .deliver _ _ => by unfold Provided; infer_instance
  | .act _ _ | .boot _ | .crash _ | .order _ | .confchg _ _ => isTrue trivial

instance (g : Cluster) (l : ClusterStep) : Decidable (Regular g l) := by
  unfold Regular
  infer_instance

instance {W : NodeId → Vip → Entry NodeId Msg → Outcome → Prop}
    [∀ n v e o, Decidable (W n v e o)] (g : Cluster) (l : ClusterStep) :
    Decidable (OnHandling W g l) := by
  unfold OnHandling
  repeat' split
  all_goals infer_instance

theorem OnHandling.apply {g : Cluster} {W : NodeId → Vip → Entry NodeId Msg → Outcome → Prop}
    {n : NodeId}
    {o : Outcome} {since next : ℕ} {e : Entry NodeId Msg} (h : OnHandling W g (.deliver n o))
    (hc : (g.site n).conn = .member since next) (he : g.log[next]? = some e) :
    W n (g.vip n) e o := by
  simp only [OnHandling, hc] at h
  exact h e he

/-- A step that is provided for allocates what it handles. -/
theorem Provided.onHandling {l : ClusterStep} (h : Provided l) (g : Cluster) :
    OnHandling (fun _ _ _ o => o.malloc = true) g l := by
  cases l with
  | deliver n o =>
    simp only [OnHandling]
    split
    · exact fun _ _ => h
    · trivial
  | _ => trivial

theorem OnHandling.and {g : Cluster} {l : ClusterStep}
    {W W' : NodeId → Vip → Entry NodeId Msg → Outcome → Prop} (h : OnHandling W g l)
    (h' : OnHandling W' g l) : OnHandling (fun n v e o => W n v e o ∧ W' n v e o) g l := by
  cases l with
  | deliver n o =>
    simp only [OnHandling] at h h' ⊢
    split
    · rename_i hc
      simp only [hc] at h h'
      exact fun e he => ⟨h e he, h' e he⟩
    · trivial
  | _ => trivial

/-! ## The history of a cluster -/

/-- A handling as a turn. -/
def turnOf (r : Record NodeId Proc (List Effect)) : Turn :=
  ⟨r.node, r.pos, Peer.ofVip r.pre.vip, Peer.ofVip r.post.vip, claimed r.out⟩

namespace Cluster

/-- The turns of a cluster. -/
def turns (g : Cluster) : List Turn := g.transcript.map turnOf

theorem turnOf_mem {g : Cluster} {r : Record NodeId Proc (List Effect)} (hr : r ∈ g.transcript) :
    turnOf r ∈ g.turns := List.mem_map_of_mem hr

variable {d : Deployment} {ok : Cluster → ClusterStep → Prop} {g : Cluster}

theorem stages (hok : ∀ {g l}, ok g l → CleanStarts g l)
    (h : ReachesWhen d.step ok d.start g) : Group.SiteSound (Stage d) g :=
  Group.site_invariant (stage_rule (d := d) fun hc => hok hc) h

theorem sound (hok : ∀ {g l}, ok g l → CleanStarts g l)
    (h : ReachesWhen d.step ok d.start g) : Group.Sound (cluster d) CleanStart g :=
  .of_reachesWhen (fun hc => hok hc) h

/-- What a record of the transcript is. -/
theorem record_eq (h : Group.Sound (cluster d) CleanStart g) {r : Record NodeId Proc (List Effect)}
    (hr : r ∈ g.transcript) : ∃ e o, g.log[r.pos]? = some e ∧
      (∃ th ∈ r.pre.vipThreads, th.phase = .dispatching) ∧
      r.post.vip = (handle o r.pre.vip e).1 ∧ r.out = (handle o r.pre.vip e).2 := by
  obtain ⟨e, x, he, hd, -⟩ := h.record r hr
  obtain ⟨ht, o, -, -, -, hv, -, hc⟩ := nodeDeliver_eq_some (n := r.node) hd
  exact ⟨e, o, he, ht, hv, hc⟩

/-- A condition on every handling holds of every record. -/
theorem record_heeds {W : NodeId → Vip → Entry NodeId Msg → Outcome → Prop}
    (hok : ∀ {g l}, ok g l → OnHandling W g l) (h : ReachesWhen d.step ok d.start g) :
    ∀ r ∈ g.transcript, ∃ e o, g.log[r.pos]? = some e ∧
      nodeDeliver r.node r.pre e o = some (r.post, r.out) ∧ W r.node r.pre.vip e o :=
  Group.record_condition (W := fun n (p : Proc) e o => W n p.vip e o)
    (fun hd hc he => (hok hd).apply hc he) h

/-- What a record of the transcript is, if there is memory. -/
theorem record_provided (hok : ∀ {g l}, ok g l → Provided l) (h : ReachesWhen d.step ok d.start g)
    {r : Record NodeId Proc (List Effect)} (hr : r ∈ g.transcript) : ∃ e o,
      g.log[r.pos]? = some e ∧ o.malloc = true ∧ r.post.vip = (handle o r.pre.vip e).1 ∧
        r.out = (handle o r.pre.vip e).2 := by
  obtain ⟨e, x, he, hd, hx⟩ := record_heeds (fun hl => (hok hl).onHandling _) h r hr
  obtain ⟨-, o, hm, -, -, hv, -, hc⟩ := nodeDeliver_eq_some (n := r.node) hd
  exact ⟨e, o, he, hm.trans hx, hv, hc⟩

theorem record_config (h : Group.SiteSound (Stage d) g) {r : Record NodeId Proc (List Effect)}
    (hr : r ∈ g.transcript) : r.pre.vip.config = d.config r.node := by
  by_cases hj : JoinsAt g.log r.pos r.node
  · exact (h.first r hr hj).config
  · exact (h.later r hr hj).config

/-- Whoever says something else than a statement says it while handling an entry. -/
theorem said_eq (h : Group.Sound (cluster d) CleanStart g) (hs : Group.SiteSound (Stage d) g)
    {k : ℕ} {y : NodeId} {nm : NodeMsg}
    (hy : SaidBy (cluster d) g.log g.transcript y (.nodeState nm) k) :
    nm.priority = d.prio y ∧ nm.state ≠ .idle ∧ ∃ r ∈ g.transcript, r.node = y ∧ r.pos < k ∧
      Stays g.log y r.pos k ∧ Role.ofState r.post.vip.state = Role.ofState nm.state := by
  rcases hy with ⟨r, hr, rfl, hk, hst, hm⟩ | ⟨p, c, p', hc⟩
  · have hmem : Effect.sendState nm ∈ r.out := by
      obtain ⟨c, hc, he⟩ := List.mem_filterMap.mp hm
      split at he
      · obtain rfl : _ = nm := by simpa using he
        exact hc
      · cases he
    obtain ⟨e, o, -, -, hv, hout⟩ := record_eq h hr
    rw [hout] at hmem
    obtain ⟨hp, hi, hrole⟩ := sendState_handle hmem
    refine ⟨?_, hi, r, hr, rfl, hk, hst, hv ▸ hrole⟩
    rw [hp, record_config hs hr]
    rfl
  · cases c with
    | input i =>
      obtain ⟨-, -, he⟩ := nodeAct_input hc
      cases i <;> simp [inputSignal] at he
      split_ifs at he
    | event name sql =>
      obtain ⟨m, hm, he⟩ := Option.map_eq_some_iff.mp hc
      unfold eventHandler at hm
      split_ifs at hm
      cases hm
      simp at he

/-- **The turns of a cluster are a chronicle of the election**, whatever their calls come to. -/
theorem chronicle (hok : ∀ {g l}, ok g l → CleanStarts g l)
    (h : ReachesWhen d.step ok d.start g) : Chronicle d.prio g.log g.turns := by
  have hg := sound hok h
  have hs := stages hok h
  constructor
  case wellFormed => exact hg.log
  case zero =>
    rintro k n hj rfl
    obtain ⟨p, hp⟩ := hs.joined k 0 hj
    exact d.zero_notMem (hp.node (hp.held (by simp)))
  case kept =>
    intro t ht
    obtain ⟨r, hr, rfl⟩ := List.mem_map.mp ht
    obtain ⟨e, x, -, -, hv⟩ := hg.record r hr
    obtain ⟨e, o, he, -, hpost, -⟩ := record_eq hg hr
    refine ⟨e, he, fun hrun => ?_, hv⟩
    simp only [turnOf] at hrun ⊢
    rw [hpost] at hrun ⊢
    exact Peer.retains_handle (by simpa using hrun)
  case unique =>
    intro t ht t' ht' hn hk
    obtain ⟨r, hr, rfl⟩ := List.mem_map.mp ht
    obtain ⟨r', hr', rfl⟩ := List.mem_map.mp ht'
    rw [hg.unique r hr r' hr' hn hk]
  case join =>
    intro t ht hj
    obtain ⟨r, hr, rfl⟩ := List.mem_map.mp ht
    have hst := hs.first r hr hj
    obtain ⟨-, -, -, ⟨th, hth, hph⟩, -, -⟩ := record_eq hg hr
    by_cases hi : r.pre.vip.state = .idle
    · exact Or.inl (by simp [turnOf, hi])
    · exact Or.inr ⟨hst.fresh (by simp) hi, hst.self th hth (by simp [hph, VipPhase.knowing]) hi⟩
  case next =>
    intro t ht hj
    obtain ⟨r, hr, rfl⟩ := List.mem_map.mp ht
    rcases hg.origin r hr with hj' | ⟨r', hr', hn, hk, hv, hq⟩
    · exact absurd hj' hj
    · refine ⟨_, turnOf_mem hr', hn, hk, hv, ?_⟩
      have hst := hs.after r' hr'
      rw [hn] at hst
      rcases (hst.quiets hq).2 with he | hi
      · exact Or.inr he
      · exact Or.inl (by simp [turnOf, hi])
  case said =>
    intro k y nm hk
    obtain ⟨hp, hi, r, hr, hn, hlt, hst, hrole⟩ := said_eq hg hs (hg.said hk)
    exact ⟨hp, hi, _, turnOf_mem hr, hn, hlt, hst, hrole⟩

/-- **If there is memory for every list, the turns are a history of the election.** -/
theorem history (hok : ∀ {g l}, ok g l → Regular g l)
    (h : ReachesWhen d.step ok d.start g) : History d.prio g.log g.turns where
  toChronicle := chronicle (fun hl => (hok hl).1) h
  turn t ht := by
    have hg := sound (fun hl => (hok hl).1) h
    have hs := stages (fun hl => (hok hl).1) h
    obtain ⟨r, hr, rfl⟩ := List.mem_map.mp ht
    obtain ⟨e, x, -, -, hv⟩ := hg.record r hr
    obtain ⟨e, o, he, hm, hpost, hout⟩ := record_provided (fun hl => (hok hl).2) h hr
    have hprio : r.pre.vip.config.priority = d.prio r.node := by
      rw [record_config hs hr]
      rfl
    refine ⟨e, Peer.won o, he, ?_, ?_, hv⟩
    · simp only [turnOf]
      rw [← hprio, hpost, Peer.ofVip_handle hm]
    · simp only [turnOf]
      rw [← hprio, hout]
      exact claimed_handle hm

/-- **What a running member is now it was after its last turn**, once it has handled its join. -/
theorem held_of_member (hok : ∀ {g l}, ok g l → CleanStarts g l)
    (h : ReachesWhen d.step ok d.start g) {n : NodeId} {since next : ℕ}
    (hm : (g.site n).conn = .member since next) (hlt : since < next)
    (hrun : (g.vip n).state ≠ .idle) : Held g.turns next n (Peer.ofVip (g.vip n)) := by
  have hg := sound hok h
  obtain ⟨r, hr, rfl, hk, hq⟩ := (hg.current hm).2.2 hlt
  refine ⟨_, turnOf_mem hr, rfl, hk, ?_, by simpa using hrun⟩
  rcases (((stages hok h).after r hr).quiets hq).2 with he | hi
  · exact he.symm
  · exact absurd hi hrun

/-- Only nodes of the deployment join. -/
theorem joined_mem (hok : ∀ {g l}, ok g l → CleanStarts g l)
    (h : ReachesWhen d.step ok d.start g) {k : ℕ} {n : NodeId} (hj : JoinsAt g.log k n) :
    n ∈ d.nodes := by
  obtain ⟨p, hp⟩ := (stages hok h).joined k n hj
  exact hp.node (hp.held (by simp))

end Cluster

end CpgFailover
