import CpgFailover.Election.Following
import CpgFailover.SingleMaster

/-!
# No leaderless group

When no configuration change and no state message is left to deliver, some member serves the
address, provided nobody came to wait for a master in vain. Without that proviso a group can be
left without a master: two nodes that start together both become backups.

## Main definitions

* `Cluster.Quiescent`: nothing but statements is undelivered
* `Mindful`: clean starts, memory for every list, and no entry makes a member wait in vain

## Main results

* `quiescent_leader`: a quiescent group has a member that serves the address
* `leaderless_group`: without the proviso, it may have none
-/

namespace CpgFailover

open Agreed Transition

/-- The position of the next entry a member handles. -/
def nextOf : Conn → ℕ
  | .member _ next => next
  | _ => 0

namespace Cluster

/-- Nothing is left to be told to or by a member of the view: it is connected and not about to
leave, and only statements wait in its outbox or are still to be handled by it. -/
def Settled (g : Cluster) (n : NodeId) : Prop :=
  g.Member n ∧ (g.vip n).state ≠ .idle ∧ (∀ m ∈ (g.site n).outbox, m.isStatement = true) ∧
    ∀ e ∈ g.log.drop (nextOf (g.site n).conn), isStatement e = true

/-- No configuration change and no state message is undelivered. -/
def Quiescent (g : Cluster) : Prop := ∀ n ∈ g.view, g.Settled n

instance (g : Cluster) (n : NodeId) : Decidable (g.Settled n) := by
  unfold Settled
  infer_instance

instance (g : Cluster) : Decidable g.Quiescent := by
  unfold Quiescent
  infer_instance

end Cluster

/-- The calls that take the address succeed, and the entry does not make the vip wait in vain. -/
def Mindfully (_ : NodeId) (v : Vip) (e : Entry NodeId Msg) (o : Outcome) : Prop :=
  o.addVip = true ∧ o.sendGarp = true ∧ (Peer.ofVip v).Watchful v.config.priority e

instance (n : NodeId) (v : Vip) (e : Entry NodeId Msg) (o : Outcome) :
    Decidable (Mindfully n v e o) := by
  unfold Mindfully
  infer_instance

/-- Clean starts, calls that succeed, memory for every list, and no entry that makes a member wait in
vain. -/
def Mindful (g : Cluster) (l : ClusterStep) : Prop := Regular g l ∧ OnHandling Mindfully g l

theorem Mindful.clean {g : Cluster} {l : ClusterStep} (h : Mindful g l) : CleanStarts g l := h.1.1

instance (g : Cluster) (l : ClusterStep) : Decidable (Mindful g l) := by
  unfold Mindful
  infer_instance

/-- A vip that is not idle after a join announces itself. -/
theorem sendState_of_joined {o : Outcome} {v : Vip} {members left joined : List NodeId}
    (hj : joined ≠ []) (hrun : (handle o v (.confchg members left joined)).1.state ≠ .idle) :
    ∃ nm, Effect.sendState nm ∈ (handle o v (.confchg members left joined)).2 := by
  simp only [handle, confchgCallback, if_pos hj, fsmInputNodeUp_vip] at hrun ⊢
  generalize nodesDown o { v with memberListEntries := members.length } left = r at hrun ⊢
  refine ⟨nodeMsg o r.1, List.mem_append_right _ ?_⟩
  unfold fsmInputNodeUp fsmDoTransaction
  cases hs : r.1.state with
  | idle => exact absurd hs hrun
  | start | backup => simp [table, nodeup, virtualIpSendState]
  | master | rback => simp [table, backupup, virtualIpSendState]

/-! ## Quiescent states -/

namespace Cluster

variable {d : Deployment} {ok : Cluster → ClusterStep → Prop} {g : Cluster}

theorem Settled.conn {n : NodeId} (h : g.Settled n) :
    ∃ since next, (g.site n).conn = .member since next := by
  have hm := h.1.2
  cases hc : (g.site n).conn with
  | out => simp [hc, Conn.isMember] at hm
  | joining => simp [hc, Conn.isMember] at hm
  | member since next => exact ⟨since, next, rfl⟩

/-- Only statements are still to be handled. -/
theorem Settled.statement {n : NodeId} (h : g.Settled n) {since next : ℕ}
    (hc : (g.site n).conn = .member since next) {i : ℕ} (hi : next ≤ i) {e : Entry NodeId Msg}
    (he : g.log[i]? = some e) : isStatement e = true := by
  apply h.2.2.2 e
  rw [hc]
  refine List.mem_of_getElem? (i := i - next) ?_
  rw [nextOf, List.getElem?_drop, Nat.add_sub_of_le hi, he]

/-- The entry that is no statement has been handled. -/
theorem Settled.lt_next {n : NodeId} (h : g.Settled n) {since next : ℕ}
    (hc : (g.site n).conn = .member since next) {i : ℕ} {e : Entry NodeId Msg}
    (he : g.log[i]? = some e) (hs : isStatement e = false) : i < next := by
  by_contra hge
  have := h.statement hc (Nat.le_of_not_lt hge) he
  simp [hs] at this

theorem Settled.view_eq {n : NodeId} (h : g.Settled n) {since next k : ℕ}
    (hc : (g.site n).conn = .member since next) (hk : next ≤ k) :
    viewAfter (g.log.take k) = viewAfter (g.log.take next) := by
  apply viewAfter_of_messages hk
  intro i hi _ e he
  have hs := h.statement hc hi he
  cases e with
  | confchg => simp [isStatement] at hs
  | message y m => exact ⟨y, m, rfl⟩

/-- What a settled member knows: it has handled its join, takes part, and has stayed. -/
theorem Settled.held (hok : ∀ {g l}, ok g l → CleanStarts g l)
    (hr : ReachesWhen d.step ok d.start g) {n : NodeId} (h : g.Settled n) {since next : ℕ}
    (hc : (g.site n).conn = .member since next) : since < next ∧ JoinsAt g.log since n ∧
      next ≤ g.log.length ∧ Stays g.log n since g.log.length ∧
        Held g.turns next n (Peer.ofVip (g.vip n)) := by
  obtain ⟨-, hsn, hnl, -, hj, hst⟩ := (sound hok hr).member hc
  have hlt : since < next := by
    obtain ⟨ms, l, j, he, -⟩ := hj
    exact h.lt_next hc he rfl
  exact ⟨hlt, hj, hnl, hst, held_of_member hok hr hc hlt h.2.1⟩

/-- **In a quiescent state everybody has heard everybody** since its own join. -/
theorem heard_of_quiescent (hok : ∀ {g l}, ok g l → CleanStarts g l)
    (hr : ReachesWhen d.step ok d.start g) (hq : g.Quiescent) {n m : NodeId} (hn : n ∈ g.view)
    (hm : m ∈ g.view) {since next : ℕ} (hc : (g.site n).conn = .member since next) :
    Heard g.log since next m := by
  have hg := sound hok hr
  obtain ⟨hlt, hj, hnl, hst, -⟩ := (hq n hn).held hok hr hc
  obtain ⟨since', next', hc'⟩ := (hq m hm).conn
  obtain ⟨hlt', hj', hnl', hst', hheld'⟩ := (hq m hm).held hok hr hc'
  -- the later of the two joins, which both have handled
  obtain ⟨i, hni, hmi, ms, left, joined, he, hne⟩ : ∃ i, since ≤ i ∧ since' ≤ i ∧
      ∃ ms left joined, g.log[i]? = some (.confchg ms left joined) ∧ joined ≠ [] := by
    obtain ⟨ms, l, js, he, hin⟩ := hj
    obtain ⟨ms', l', js', he', hin'⟩ := hj'
    rcases le_total since since' with hle | hle
    · exact ⟨since', hle, le_rfl, ms', l', js', he', List.ne_nil_of_mem hin'⟩
    · exact ⟨since, le_rfl, hle, ms, l, js, he, List.ne_nil_of_mem hin⟩
  have hi' : i < next' := (hq m hm).lt_next hc' he rfl
  obtain ⟨r, hrt, rfl, rfl⟩ := (hg.current hc').1 i hmi hi'
  -- `m` has announced itself while handling it, because it has taken part ever since
  have hrun : r.post.vip.state ≠ .idle := by
    obtain ⟨q, t, ht, htn, htk, rfl, hrun⟩ := (chronicle hok hr).held_back hheld'
      (hst'.mono le_rfl hnl') (Nat.lt_succ_of_le hmi) hi'
    have heq : t = turnOf r :=
      (chronicle hok hr).unique t ht _ (turnOf_mem hrt) htn (Nat.succ.inj htk)
    simpa [heq, turnOf] using hrun
  obtain ⟨e, o, he', -, hpost, hout⟩ := record_eq hg hrt
  obtain rfl := Option.some.inj (he.symm.trans he')
  rw [hpost] at hrun
  obtain ⟨nm, hnm⟩ := sendState_of_joined hne hrun
  rw [← hout] at hnm
  have hmc : Msg.nodeState nm ∈ (cluster d).mcast r.out :=
    List.mem_filterMap.mpr ⟨_, hnm, rfl⟩
  rcases hg.heard r hrt (hst'.mono hmi le_rfl) _ hmc with hbox | ⟨k, hk, hmsg⟩
  · have := (hq _ hm).2.2.1 _ hbox
    simp [Msg.isStatement] at this
  · have hkn : k < next := (hq n hn).lt_next hc hmsg rfl
    exact ⟨k, nm, by omega, hkn, hmsg, hst'.mono (by omega) hnl⟩

/-- With calls that succeed, whoever claims the address is the leader. -/
theorem leader_of_claims (hr : ReachesWhen d.step Mindful d.start g) :
    ∀ t ∈ g.turns, t.claims → t.post.role = .leader := by
  intro t ht hc
  obtain ⟨r, hrt, rfl⟩ := List.mem_map.mp ht
  obtain ⟨e, o, -, hd, hm, ha, hg, -⟩ := record_heeds (W := fun n v e o => o.malloc = true ∧
    Mindfully n v e o) (fun hl => (hl.1.2.onHandling _).and hl.2) hr r hrt
  obtain ⟨-, o', hm', ha', hg', hv, -, hout⟩ := nodeDeliver_eq_some hd
  rw [hm] at hm'
  have hwon : Peer.won o' = true := by simp [Peer.won, ha', hg', ha, hg]
  have hclaims : claimed r.out := hc
  rw [hout, claimed_handle hm', hwon] at hclaims
  have hrole := Peer.role_handle_claims hclaims
  rw [← hwon, ← Peer.ofVip_handle hm', ← hv] at hrole
  exact hrole

theorem watchful (hr : ReachesWhen d.step Mindful d.start g) :
    ∀ t ∈ g.turns, ∀ e, g.log[t.pos]? = some e → t.pre.Watchful (d.prio t.node) e := by
  intro t ht e he
  obtain ⟨r, hrt, rfl⟩ := List.mem_map.mp ht
  obtain ⟨e', o, he', -, -, -, hw⟩ := record_heeds And.right hr r hrt
  obtain rfl := Option.some.inj (he.symm.trans he')
  rwa [record_config (stages Mindful.clean hr) hrt] at hw

theorem Settled.view (hok : ∀ {g l}, ok g l → CleanStarts g l)
    (hr : ReachesWhen d.step ok d.start g) {n : NodeId} (h : g.Settled n) {since next : ℕ}
    (hc : (g.site n).conn = .member since next) : viewAfter (g.log.take next) = g.view := by
  obtain ⟨-, -, hnl, -⟩ := h.held hok hr hc
  rw [← h.view_eq hc hnl, List.take_length]
  rfl

/-- In a quiescent state everybody's list holds the view. -/
theorem mem_list_of_quiescent (hok : ∀ {g l}, ok g l → Regular g l)
    (hr : ReachesWhen d.step ok d.start g) (hq : g.Quiescent) {n m : NodeId} (hn : n ∈ g.view) :
    m ∈ ids (g.vip n).nodeList ↔ m ∈ g.view := by
  have hist := history hok hr
  have hclean {g : Cluster} {l : ClusterStep} (hl : ok g l) : CleanStarts g l := (hok hl).1
  obtain ⟨since, next, hc⟩ := (hq n hn).conn
  obtain ⟨-, -, hnl, hst, hheld⟩ := (hq n hn).held hclean hr hc
  refine ⟨fun hm => ?_, fun hm => ?_⟩
  · rw [← (hq n hn).view hclean hr hc]
    exact ((hist.sound hheld).announced m hm).mem_view
  · exact hist.mem_of_heard hheld (hst.mono le_rfl hnl) (heard_of_quiescent hclean hr hq hn hm hc)

/-- In a quiescent state some member heads its list: the head of any member's list does. -/
theorem exists_heads (hok : ∀ {g l}, ok g l → Regular g l)
    (hr : ReachesWhen d.step ok d.start g) (hd : d.Distinct) (hq : g.Quiescent)
    (hne : g.view ≠ []) : ∃ x ∈ g.view, (Peer.ofVip (g.vip x)).Heads := by
  have hist := history hok hr
  have hclean {g : Cluster} {l : ClusterStep} (hl : ok g l) : CleanStarts g l := (hok hl).1
  have hsound {y : NodeId} (hy : y ∈ g.view) :
      ∃ k, (Peer.ofVip (g.vip y)).Sound d.prio g.log k y := by
    obtain ⟨since, next, hc⟩ := (hq y hy).conn
    exact ⟨next, hist.sound ((hq y hy).held hclean hr hc).2.2.2.2⟩
  have hfirst {y : NodeId} (hy : y ∈ g.view) : nodeFirst (g.vip y).nodeList ∈ g.view := by
    refine (mem_list_of_quiescent hok hr hq hy).mp (nodeFirst_mem fun hnil => ?_)
    have := (mem_list_of_quiescent hok hr hq hy).mpr hy
    simp [hnil] at this
  obtain ⟨n, hn⟩ := List.exists_mem_of_ne_nil _ hne
  have hx := hfirst hn
  obtain ⟨k, hs⟩ := hsound hn
  obtain ⟨k', hs'⟩ := hsound hx
  refine ⟨_, hx, ?_⟩
  -- both heads come first in the view
  have hle := hs.le_nodeFirst ((mem_list_of_quiescent hok hr hq hn).mpr (hfirst hx))
  have hle' := hs'.le_nodeFirst ((mem_list_of_quiescent hok hr hq hx).mpr hx)
  have hmem {y : NodeId} (hy : y ∈ g.view) : y ∈ viewAfter (g.log.take g.log.length) := by
    rwa [List.take_length]
  have heq := hist.eq_of_prio (Cluster.distinct hclean hr hd) le_rfl le_rfl (hmem hx)
    (hmem (hfirst hx)) (le_antisymm hle' hle)
  exact hs'.self.trans heq

/-- In a quiescent state whoever has claimed the address in its present membership serves it, if
every claim succeeds. -/
theorem serves_of_lead (hr : ReachesWhen d.step Mindful d.start g) (hq : g.Quiescent) {n x : NodeId}
    (hx : x ∈ g.view) {since next : ℕ} (hc : (g.site x).conn = .member since next)
    (hn : Lead g.log g.turns n next) : g.Serves n := by
  have hg := sound Mindful.clean hr
  have hnv : n ∈ g.view := by
    rw [← (hq x hx).view Mindful.clean hr hc]
    exact hn.mem_view
  obtain ⟨since', next', hc'⟩ := (hq n hnv).conn
  obtain ⟨-, -, -, -, hheld⟩ := (hq n hnv).held Mindful.clean hr hc'
  have hlead : Lead g.log g.turns n next' := by
    obtain ⟨t, ht, rfl, hk, hcl, hst⟩ := hn
    obtain ⟨r, hrt, rfl⟩ := List.mem_map.mp ht
    refine ⟨_, ht, rfl, (hg.current hc').2.1 r hrt rfl, hcl, fun k hk hk' => ?_⟩
    rcases Nat.lt_or_ge next k with hlt | hge
    · rw [(hq x hx).view_eq hc (Nat.le_of_lt hlt), (hq x hx).view Mindful.clean hr hc]
      exact hnv
    · exact hst k hk hge
  have hrole := (history And.left hr).leader_of_lead (leader_of_claims hr) hlead hheld
  exact ⟨(hq n hnv).1, by simpa using hrole⟩

/-- In a quiescent state the node that comes first serves the address, or its master does. -/
theorem exists_serves (h : ReachesWhen d.step Mindful d.start g) (hd : d.Distinct)
    (hq : g.Quiescent) (hne : g.view ≠ []) : ∃ n, g.Serves n := by
  obtain ⟨x, hx, hheads⟩ := exists_heads And.left h hd hq hne
  obtain ⟨since, next, hc⟩ := (hq x hx).conn
  obtain ⟨-, -, -, -, hheld⟩ := (hq x hx).held Mindful.clean h hc
  have hfollow := (history And.left h).following (watchful h) hheld
  have hmember := (hq x hx).1
  cases hs : (g.vip x).state with
  | idle => exact absurd hs (hq x hx).2.1
  | master => exact ⟨x, hmember, by rw [hs]; rfl⟩
  | rback => exact ⟨x, hmember, by rw [hs]; rfl⟩
  | backup =>
    have hm := hfollow.backup (by simp [hs]) hheads
    exact ⟨_, serves_of_lead h hq hx hc (hfollow.lead (Or.inr (by simp [hs])) hm)⟩
  | start =>
    have hall : ∀ m ∈ viewAfter (g.log.take next), m ∈ ids (g.vip x).nodeList := by
      rw [(hq x hx).view Mindful.clean h hc]
      exact fun m hm => (mem_list_of_quiescent And.left h hq hx).mpr hm
    have hm := hfollow.start (by simp [hs]) hall hheads
    exact ⟨_, serves_of_lead h hq hx hc (hfollow.lead (Or.inl (by simp [hs])) hm)⟩

end Cluster

/-- **No leaderless group.** In every run of clean starts in which every call that takes the address
succeeds, `node_add` never lacks memory and no entry makes a member wait in vain, a quiescent group
with a member has a live member that serves the address. -/
theorem quiescent_leader {d : Deployment} (hd : d.Distinct) {g : Cluster}
    (h : ReachesWhen d.step Mindful d.start g) (hq : g.Quiescent) (hne : g.view ≠ []) :
    ∃ n, g.Serves n :=
  Cluster.exists_serves h hd hq hne

/-- The takeover, and the announcement of the new master. -/
def takeoverHeard : List ClusterStep :=
  takeover ++ [.order 2] ++ deliveries 2 1 ++ deliveries 3 1

/-- The cluster after the new master has been heard. -/
def settledDown : Cluster :=
  (runWhen staggered.step Mindful staggered.start takeoverHeard).getD staggered.start

set_option maxRecDepth 10000 in
theorem quiescent_leader_settledDown : settledDown.Quiescent ∧ settledDown.view = [2, 3] ∧
    ∃ n, settledDown.Serves n := by
  have hq : settledDown.Quiescent := by decide +kernel
  have hv : settledDown.view = [2, 3] := by decide +kernel
  refine ⟨hq, hv, quiescent_leader (by decide +kernel) (reachesWhen_getD _) hq ?_⟩
  rw [hv]
  exact List.cons_ne_nil _ _

/-- The calls that take the address succeed. -/
def Succeeding (_ : NodeId) (_ : Vip) (_ : Entry NodeId Msg) (o : Outcome) : Prop :=
  o.addVip = true ∧ o.sendGarp = true

instance (n : NodeId) (v : Vip) (e : Entry NodeId Msg) (o : Outcome) :
    Decidable (Succeeding n v e o) := by
  unfold Succeeding
  infer_instance

/-- Two nodes start together: both are in the view before either has announced itself. -/
def startTogether : List ClusterStep :=
  launch 1 0 ++ launch 2 0 ++ [.confchg [] [1], .confchg [] [2]] ++ deliveries 1 2 ++
    deliveries 2 1 ++ [.order 1, .order 1, .order 2] ++ deliveries 1 3 ++ deliveries 2 3

/-- The cluster after both have heard both. -/
def startedTogether : Cluster :=
  (runWhen staggered.step (fun g l => Regular g l ∧ OnHandling Succeeding g l) staggered.start
    startTogether).getD staggered.start

set_option maxRecDepth 10000 in
/-- **A quiescent group can be without a master**: of two nodes that start together, each completes
its list before it has heard a master, and becomes a backup. -/
theorem leaderless_group : ¬ ∀ (d : Deployment) (g : Cluster), d.Distinct →
    ReachesWhen d.step (OnHandling Succeeding) d.start g → g.Quiescent → g.view ≠ [] →
      ∃ n, g.Serves n := by
  intro h
  have hr : ReachesWhen staggered.step (fun g l => Regular g l ∧ OnHandling Succeeding g l)
      staggered.start startedTogether := reachesWhen_getD _
  have hv : startedTogether.view = [1, 2] := by decide +kernel
  obtain ⟨n, hn⟩ := h staggered startedTogether (by decide +kernel) (hr.mono fun _ _ hk => hk.2)
    (by decide +kernel) (by simp [hv])
  -- whoever serves is in the view, and neither of the two does
  have hmem : n ∈ startedTogether.view := by
    simpa [Group.view] using (Cluster.lead_of_serves And.left hr hn).mem_view
  have h₁ : ¬ startedTogether.Serves 1 := by decide +kernel
  have h₂ : ¬ startedTogether.Serves 2 := by decide +kernel
  rw [hv] at hmem
  rcases List.mem_cons.mp hmem with rfl | hmem
  · exact h₁ hn
  · obtain rfl := List.mem_singleton.mp hmem
    exact h₂ hn

end CpgFailover
