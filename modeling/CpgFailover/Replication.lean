import CpgFailover.Election.Turns

/-!
# Replication of the statements

A member hands the statements it gets from the group to its sofia, unless they come from the node
id its record holds. As long as nobody gets a statement of its own on a record without a node id,
every other member that gets it hands it over once, in the agreed order, and the sender does not.

## Main definitions

* `Placed`: the node id and the configuration of a process
* `Deployment.Configured`: a profile that every node is configured with
* `Recognises`: a node gets its own statements on a record with its node id

## Main results

* `placed_rule`: each step of the cluster keeps node ids and configurations
* `sql_replicated`: who hands over which statements
* `own_statement_echoed`: a stopped node may hand over its own
-/

namespace CpgFailover

open Agreed Transition

/-- Every node is configured with a profile of this name. -/
def Deployment.Configured (d : Deployment) (name : CString) : Prop :=
  ∀ n ∈ d.nodes, name ∈ (d.config n).usedProfiles.map SofiaProfile.name

instance (d : Deployment) (name : CString) : Decidable (d.Configured name) := by
  unfold Deployment.Configured
  infer_instance

/-- A node gets its own statements on a record with a node id. -/
def Recognises (n : NodeId) (v : Vip) (e : Entry NodeId Msg) (_ : Outcome) : Prop :=
  match e with
  | .message y (.sql _ _) => y = n → v.nodeId ≠ 0
  | _ => True

instance (n : NodeId) (v : Vip) (e : Entry NodeId Msg) (o : Outcome) :
    Decidable (Recognises n v e o) :=
  match e with
  | .confchg _ _ _ | .message _ (.sql _ _) | .message _ (.nodeState _) => by
    unfold Recognises
    infer_instance

/-! ## Node ids -/

/-- A process has the configuration of its node, and its record the node id or none; only the nodes
of the deployment run threads and connect. -/
structure Placed (d : Deployment) (n : NodeId) (k : Kind) (p : Proc) : Prop where
  config : p.vip.config = d.config n
  self : p.vip.nodeId = 0 ∨ p.vip.nodeId = n
  running : p.vipThreads ≠ [] → n ∈ d.nodes
  node : k ≠ .out → n ∈ d.nodes

section Placed

variable {d : Deployment} {n : NodeId} {k : Kind} {p p' : Proc}

theorem placed_boot (d : Deployment) (n : NodeId) : Placed d n .out (Proc.fresh (d.config n)) where
  config := rfl
  self := Or.inl rfl
  running h := absurd rfl h
  node h := absurd rfl h

/-- A callback keeps the node id, or clears it. -/
theorem handle_nodeId (o : Outcome) (v : Vip) (e : Entry NodeId Msg) :
    (handle o v e).1.nodeId = v.nodeId ∨ (handle o v e).1.nodeId = 0 := by
  refine handle_vip (R := fun v w => w.nodeId = v.nodeId ∨ w.nodeId = 0) (fun _ => Or.inl rfl) ?_ ?_
    (fun _ _ => Or.inl rfl) (fun v nm y => Or.inl (learn_nodeId o v nm y))
    (fun _ _ => Or.inl rfl) v e
  · intro u v w h h'
    rcases h' with h' | h'
    · rw [h']
      exact h
    · exact Or.inr h'
  · intro v e _
    rcases fsmDoTransaction_moved o v e with h | ⟨s, r, rt, vt, h⟩
    · exact Or.inr (by rw [h]; rfl)
    · exact Or.inl (by rw [h])

/-- Each local step leaves the configuration, and the node id of the node or none. -/
theorem Placed.vip (h : Placed d n k p) {i : Input} (hp : Permitted d n i)
    (hs : p.step i = some p') :
    p'.vip.config = d.config n ∧ (p'.vip.nodeId = 0 ∨ p'.vip.nodeId = n) := by
  rcases Proc.step_vip hs with ⟨-, t, hv⟩ | ⟨-, hv⟩ | ⟨t, x, rfl, hv⟩ | ⟨t, o, e, rfl, -⟩ |
    ⟨r, t, hv⟩
  · rw [hv]
    exact ⟨h.config, h.self⟩
  · rw [hv]
    exact ⟨h.config, Or.inl rfl⟩
  · obtain rfl : x = n := hp
    rw [hv]
    exact ⟨h.config, Or.inr rfl⟩
  · exact absurd hp id
  · rw [hv]
    exact ⟨h.config, h.self⟩

theorem Placed.act (h : Placed d n k p) {c : Command} {sig : Signal Msg}
    (ha : nodeAct d n p c = some (p', sig)) : Placed d n (sig.kind k) p' := by
  cases c with
  | event name sql =>
    obtain ⟨rfl, m, rfl⟩ := nodeAct_event ha
    exact h
  | input i =>
    obtain ⟨hp, hs, rfl⟩ := nodeAct_input ha
    obtain ⟨hconfig, hself⟩ := h.vip hp hs
    refine ⟨hconfig, hself, fun hne => ?_, fun hk => ?_⟩
    · by_cases hnil : p.vipThreads = []
      · rcases Proc.step_vipThreads hs hnil with ht | ⟨created, rfl⟩ | ⟨t, created, rfl⟩
        · exact absurd ht hne
        · exact hp
        · exact hp
      · exact h.running hnil
    · cases i with
      | join t results =>
        -- whoever joins does so in a thread
        cases Proc.stepTo_of_step hs with
        | join ht => exact h.running (List.ne_nil_of_mem ht)
      | leave => exact absurd rfl hk
      | _ => exact h.node hk

theorem Placed.deliver (h : Placed d n k p) {e : Entry NodeId Msg} {o : Outcome}
    {calls : List Effect} (hd : nodeDeliver n p e o = some (p', calls)) :
    Placed d n .active p' := by
  obtain ⟨⟨th, hth, -⟩, o', -, -, -, hv, ht, -⟩ := nodeDeliver_eq_some hd
  have hn : n ∈ d.nodes := h.running (List.ne_nil_of_mem hth)
  refine ⟨by rw [hv, handle_config, h.config], ?_, fun _ => hn, fun _ => hn⟩
  rw [hv]
  rcases handle_nodeId o' p.vip e with he | he
  · rw [he]
    exact h.self
  · exact Or.inl he

/-- **Each step of the cluster keeps node ids and configurations.** -/
theorem placed_rule (d : Deployment) (ok : Cluster → ClusterStep → Prop) :
    Group.SiteRule (cluster d) ok (Placed d) where
  boot := placed_boot d
  act _ hi ha := hi.act ha
  deliver _ hi _ hd := hi.deliver hd
  enter h := ⟨h.config, h.self, h.running, fun _ => h.node (by simp)⟩

end Placed

/-! ## Statements -/

/-- A configured profile is found by its name. -/
theorem deliverSql_of_used {v : Vip} {name : CString}
    (h : name ∈ v.config.usedProfiles.map SofiaProfile.name) (sql : CString) :
    deliverSql v name sql = [.trackEvent sql name] := by
  obtain ⟨p, hp, rfl⟩ := List.mem_map.mp h
  have hmem : p ∈ v.config.profiles.toList := (List.takeWhile_sublist _).mem hp
  have hsome : (v.config.profiles.toList.find? fun q => q.name = p.name).isSome := by
    rw [List.find?_isSome]
    exact ⟨p, hmem, by simp⟩
  obtain ⟨q, hq⟩ := Option.isSome_iff_exists.mp hsome
  apply (deliverSql_cases v p.name sql).resolve_right
  intro hnil
  rw [deliverSql, hq] at hnil
  cases hnil

section Statements

variable {d : Deployment} {ok : Cluster → ClusterStep → Prop} {g : Cluster}

/-- The record of a node when it handled an entry. -/
theorem Cluster.placed_record (h : ReachesWhen d.step ok d.start g)
    {r : Record NodeId Proc (List Effect)} (hr : r ∈ g.transcript) :
    ∃ k, Placed d r.node k r.pre := by
  have hsite := Group.site_invariant (placed_rule d ok) h
  by_cases hj : JoinsAt g.log r.pos r.node
  · exact ⟨_, hsite.first r hr hj⟩
  · exact ⟨_, hsite.later r hr hj⟩

/-- Only nodes of the deployment send. -/
theorem Cluster.sender_mem (h : ReachesWhen d.step ok d.start g) {k : ℕ} {y : NodeId} {m : Msg}
    (hk : g.log[k]? = some (.message y m)) : y ∈ d.nodes := by
  have hg := Group.Sound.of_reaches h.reaches
  have hlen : k ≤ g.log.length := Nat.le_of_lt (List.getElem?_eq_some_iff.mp hk).1
  obtain ⟨j, -, hj, -⟩ := hg.log.exists_joinsAt hlen (hg.log.message_at hk)
  obtain ⟨s, hs⟩ := (Group.site_invariant (placed_rule d ok) h).joined j y hj
  exact hs.node (by simp)

/-- What a node does with a statement that it gets. -/
theorem Cluster.out_of_sql (h : ReachesWhen d.step ok d.start g)
    (hok : ∀ {g l}, ok g l → OnHandling Recognises g l)
    {r : Record NodeId Proc (List Effect)} (hr : r ∈ g.transcript) {y : NodeId} {name sql : CString}
    (he : g.log[r.pos]? = some (.message y (.sql name sql))) (hname : d.Configured name) :
    r.out = if r.node = y then [] else [.trackEvent sql name] := by
  obtain ⟨k, hplaced⟩ := Cluster.placed_record h hr
  obtain ⟨e, o, he', hd, hw⟩ := Group.record_condition
    (W := fun n p e o => Recognises n p.vip e o) (fun hk hc he => (hok hk).apply hc he) h r hr
  obtain rfl := Option.some.inj (he.symm.trans he')
  obtain ⟨⟨th, hth, -⟩, o', -, -, -, -, -, hout⟩ := nodeDeliver_eq_some (n := r.node) hd
  have hnode : r.node ∈ d.nodes := hplaced.running (List.ne_nil_of_mem hth)
  have hused : name ∈ r.pre.vip.config.usedProfiles.map SofiaProfile.name := by
    rw [hplaced.config]
    exact hname _ hnode
  have hy : y ≠ 0 := fun h0 => d.zero_notMem (h0 ▸ Cluster.sender_mem h he)
  rw [hout]
  simp only [handle, deliverCallback]
  by_cases hown : r.node = y
  · -- its own statement, on a record with its node id
    have hself : r.pre.vip.nodeId = y := (hplaced.self.resolve_left (hw hown.symm)).trans hown
    rw [if_neg (not_not.mpr hself), if_pos hown]
  · have hother : r.pre.vip.nodeId ≠ y := by
      rcases hplaced.self with hz | hn
      · rw [hz]
        exact Ne.symm hy
      · rw [hn]
        exact hown
    rw [if_pos hother, if_neg hown]
    exact deliverSql_of_used hused sql

/-- A statement that a node hands to sofia is one it gets, from another node. -/
theorem Cluster.sql_of_out (h : ReachesWhen d.step ok d.start g)
    (hok : ∀ {g l}, ok g l → OnHandling Recognises g l)
    {r : Record NodeId Proc (List Effect)} (hr : r ∈ g.transcript) {name sql : CString}
    (hout : Effect.trackEvent sql name ∈ r.out) :
    ∃ y, y ≠ r.node ∧ g.log[r.pos]? = some (.message y (.sql name sql)) := by
  obtain ⟨k, hplaced⟩ := Cluster.placed_record h hr
  obtain ⟨e, o, he, hd, hw⟩ := Group.record_condition
    (W := fun n p e o => Recognises n p.vip e o) (fun hk hc he => (hok hk).apply hc he) h r hr
  obtain ⟨-, o', -, -, -, -, -, hcalls⟩ := nodeDeliver_eq_some (n := r.node) hd
  rw [hcalls] at hout
  cases e with
  | confchg members left joined => exact absurd hout (trackEvent_notMem_handle _ rfl _ _)
  | message y m =>
    cases m with
    | nodeState nm => exact absurd hout (trackEvent_notMem_handle _ rfl _ _)
    | sql name' sql' =>
      obtain ⟨hother, heq⟩ := mem_handle_sql hout
      cases heq
      refine ⟨y, ?_, he⟩
      rintro rfl
      exact hother (hplaced.self.resolve_left (hw rfl))

end Statements

/-- **Replication of the statements.** In every run in which nobody gets a statement of its own on a
record without a node id: every node handles entries in the agreed order, each at most once; whoever
gets a statement for a profile configured everywhere hands it to its sofia, once, unless it is the
sender, and then makes no call at all; and nobody hands over anything else. -/
theorem sql_replicated {d : Deployment} {g : Cluster}
    (h : ReachesWhen d.step (OnHandling Recognises) d.start g) :
    (∀ n, (g.recordsOf n).Pairwise fun r r' => r.pos < r'.pos) ∧
      (∀ r ∈ g.transcript, ∀ (y : NodeId) (name sql : CString),
        g.log[r.pos]? = some (.message y (.sql name sql)) → d.Configured name →
          r.out = if r.node = y then [] else [.trackEvent sql name]) ∧
      ∀ r ∈ g.transcript, ∀ name sql : CString, Effect.trackEvent sql name ∈ r.out →
        ∃ y, y ≠ r.node ∧ g.log[r.pos]? = some (.message y (.sql name sql)) := by
  refine ⟨fun n => Group.recordsOf_sorted h n, ?_, ?_⟩
  · intro r hr y name sql he hname
    exact Cluster.out_of_sql h id hr he hname
  · intro r hr name sql hout
    exact Cluster.sql_of_out h id hr hout

/-- The sofia of the first node has a statement for its profile. -/
def sendStatement : List ClusterStep := [.act 1 (.event [101, 120, 116] [115]), .order 1]

/-- Two nodes have got a statement that the first has sent. -/
def statementSent : Cluster :=
  (runWhen serving.step (OnHandling Recognises) serving.start (firstUp 1 ++ secondUp 1 2 ++
    sendStatement ++ deliveries 1 1 ++ deliveries 2 1)).getD serving.start

set_option maxRecDepth 10000 in
theorem sql_replicated_statementSent :
    (∃ r ∈ statementSent.transcript, r.node = 2 ∧ r.out = [.trackEvent [115] [101, 120, 116]]) ∧
      ∃ r ∈ statementSent.transcript, r.node = 1 ∧ r.pos = 6 ∧ r.out = [] := by
  obtain ⟨-, hout, -⟩ :=
    sql_replicated (d := serving) (g := statementSent) (reachesWhen_getD _)
  have hlog : statementSent.log[6]? = some (.message 1 (.sql [101, 120, 116] [115])) := by
    decide +kernel
  have hname : serving.Configured [101, 120, 116] := by decide +kernel
  have h₂ : ∃ r ∈ statementSent.transcript, r.node = 2 ∧ r.pos = 6 := by decide +kernel
  have h₁ : ∃ r ∈ statementSent.transcript, r.node = 1 ∧ r.pos = 6 := by decide +kernel
  constructor
  · obtain ⟨r, hr, hn, hk⟩ := h₂
    have hr' := hout r hr 1 _ _ (hk ▸ hlog) hname
    rw [hn] at hr'
    exact ⟨r, hr, hn, hr'⟩
  · obtain ⟨r, hr, hn, hk⟩ := h₁
    have hr' := hout r hr 1 _ _ (hk ▸ hlog) hname
    rw [hn] at hr'
    exact ⟨r, hr, hn, hk, hr'⟩

/-- A node that is alone sends a statement and is stopped before it gets it back. -/
def stoppedSender : Cluster :=
  (run serving.step serving.start (firstUp 1 ++ sendStatement ++ [.act 1 (.input .stop)] ++
    deliveries 1 1)).getD serving.start

set_option maxRecDepth 10000 in
/-- **A stopped node may hand its own statement to its sofia**: `go_down` has cleared the node id by
which it would recognise it. -/
theorem own_statement_echoed : ¬ ∀ (d : Deployment) (g : Cluster), Reaches d.step d.start g →
    ∀ r ∈ g.transcript, ∀ (y : NodeId) (name sql : CString),
      g.log[r.pos]? = some (.message y (.sql name sql)) → d.Configured name →
        r.out = if r.node = y then [] else [.trackEvent sql name] := by
  intro h
  have hr : ∃ r ∈ stoppedSender.transcript, r.node = 1 ∧ r.pos = 3 ∧ r.out ≠ [] := by
    decide +kernel
  obtain ⟨r, hr, hn, hk, hout⟩ := hr
  have hlog : stoppedSender.log[3]? = some (.message 1 (.sql [101, 120, 116] [115])) := by
    decide +kernel
  have hnone := h serving stoppedSender (reaches_getD _) r hr 1 _ _ (hk ▸ hlog) (by decide +kernel)
  rw [if_pos hn] at hnone
  exact hout hnone

end CpgFailover
