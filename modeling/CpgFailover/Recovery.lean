import CpgFailover.SingleMaster
import CpgFailover.QuiescentLeader

/-!
# Failover keeps the calls

When the master departs, its calls survive only if a backup takes over and recovers them: a member
still in start takes the address without recovering anything, and a backup that is not first deletes
the rows of the departed master, trusting that another backup has taken over. The module says
exactly when that trust is justified, for each departure of a run.

## Main definitions

* `Cluster.Pending`, `Cluster.Done`: a member still has an entry to handle; nobody has
* `Recovers`: a backup has taken over and recovered the calls
* `Cluster.Kept`: the calls survive a departure
* `Cluster.Prepared`: the first of the backups' lists is a backup in its turn, and no member in
  start is

## Main results

* `failover_keeps_calls`: the calls survive a departure if and only if the members are prepared
* `calls_lost`: they may not be
-/

namespace CpgFailover

open Agreed Transition

/-! ## The recovery branch -/

section Vip

variable {o : Outcome} {v : Vip}

theorem nodesDown_master (h : v.state = .master) (left : List NodeId) :
    (nodesDown o v left).1.state = .master := by
  induction left generalizing v with
  | nil => exact h
  | cons x left ih =>
    apply ih
    rw [fsmInputNodeDown_master h]
    exact h

/-- **A backup that asks for the address recovers the calls** of its autorecover profiles. -/
theorem nodesDown_recovers (hv : v.state = .backup) (ho : o.addVip = true ∧ o.sendGarp = true)
    {left : List NodeId} (hc : claimed (nodesDown o v left).2) :
    recoverCalls v.config <:+: (nodesDown o v left).2 ∧ (nodesDown o v left).1.state = .master := by
  induction left generalizing v with
  | nil => exact absurd hc not_claimed_nil
  | cons x left ih =>
    have hs : (forget v x).state = .backup := hv
    simp only [nodesDown] at hc ⊢
    by_cases hm : v.masterId = x
    · have hr : fsmInputNodeDown o v x = react o (forget v x) := by
        rw [fsmInputNodeDown_of_eq hm, hv]
        rfl
      rw [hr] at hc ⊢
      by_cases hf : (forget v x).nodeId = nodeFirst (forget v x).nodeList
      · -- the recovery branch of `react`; the master takes the other departures
        have hbecome : react o (forget v x) =
            becomeMaster o (forget v x) (recoverCalls v.config) := if_pos hf
        have hstate : (becomeMaster o (forget v x) (recoverCalls v.config)).vip.state = .master := by
          rw [becomeMaster_vip, if_pos ho]
        rw [hbecome]
        constructor
        · simp only [becomeMaster, ho.1, ho.2, if_true]
          exact (List.infix_append _ _ _).trans (List.prefix_append _ _).isInfix
        · exact nodesDown_master hstate left
      · have hstay : react o (forget v x) = ⟨.success, forget v x, cleanUpCalls (forget v x)⟩ :=
          if_neg hf
        rw [hstay] at hc ⊢
        have hclean : ¬ claimed (cleanUpCalls (forget v x)) := by simp [claimed, cleanUpCalls]
        obtain ⟨hi, hmaster⟩ := ih hs ((claimed_append.mp hc).resolve_left hclean)
        exact ⟨hi.trans (List.suffix_append _ _).isInfix, hmaster⟩
    · have hr : fsmInputNodeDown o v x = noop (forget v x) := by
        rw [fsmInputNodeDown_of_ne hm, hv]
        rfl
      rw [hr] at hc ⊢
      obtain ⟨hi, hmaster⟩ := ih hs ((claimed_append.mp hc).resolve_left not_claimed_nil)
      exact ⟨hi.trans (List.suffix_append _ _).isInfix, hmaster⟩

theorem handle_recovers (hv : v.state = .backup) (ho : o.addVip = true ∧ o.sendGarp = true)
    {members left joined : List NodeId}
    (hc : claimed (handle o v (.confchg members left joined)).2) :
    recoverCalls v.config <:+: (handle o v (.confchg members left joined)).2 ∧
      (handle o v (.confchg members left joined)).1.state = .master := by
  simp only [handle, confchgCallback] at hc ⊢
  split_ifs at hc ⊢ with hj
  · have hdown := (claimed_append.mp hc).resolve_right (not_claimed_nodeUp o _)
    obtain ⟨hi, hm⟩ :=
      nodesDown_recovers (v := { v with memberListEntries := members.length }) hv ho hdown
    rw [fsmInputNodeUp_vip]
    exact ⟨hi.trans (List.prefix_append _ _).isInfix, hm⟩
  · exact nodesDown_recovers (v := { v with memberListEntries := members.length }) hv ho hc

end Vip

/-! ## Departures of a run -/

/-- A backup has taken over while handling the entry, recovered the calls of its autorecover
profiles, and is the master. -/
def Recovers (r : Record NodeId Proc (List Effect)) : Prop :=
  r.pre.vip.state = .backup ∧ claimed r.out ∧ recoverCalls r.pre.vip.config <:+: r.out ∧
    r.post.vip.state = .master

/-- Clean starts, memory for every list, and the calls that take the address succeed. -/
def Obliged (g : Cluster) (l : ClusterStep) : Prop := Regular g l ∧ OnHandling Succeeding g l

theorem Obliged.clean {g : Cluster} {l : ClusterStep} (h : Obliged g l) : CleanStarts g l := h.1.1

instance (g : Cluster) (l : ClusterStep) : Decidable (Obliged g l) := by
  unfold Obliged
  infer_instance

namespace Cluster

/-- The member has the entry at position `k` still to handle. -/
def Pending (g : Cluster) (k : ℕ) (n : NodeId) : Prop :=
  match (g.site n).conn with
  | .member _ next => next ≤ k
  | _ => False

/-- No member has the entry at position `k` still to handle. -/
def Done (g : Cluster) (k : ℕ) : Prop := ∀ n ∈ viewAfter (g.log.take (k + 1)), ¬ g.Pending k n

instance (g : Cluster) (k : ℕ) (n : NodeId) : Decidable (g.Pending k n) := by
  unfold Pending
  match (g.site n).conn with
  | .out | .joining => exact isFalse id
  | .member _ next => infer_instance

instance (g : Cluster) (k : ℕ) : Decidable (g.Done k) := by
  unfold Done
  infer_instance

/-- A leader of a cluster, by its transcript. -/
instance (g : Cluster) (n : NodeId) (k : ℕ) : Decidable (Lead g.log g.turns n k) :=
  decidable_of_iff (∃ r ∈ g.transcript, r.node = n ∧ r.pos < k ∧ claimed r.out ∧
    Stays g.log n r.pos k) (by
    constructor
    · rintro ⟨r, hr, h⟩
      exact ⟨_, turnOf_mem hr, h⟩
    · rintro ⟨t, ht, h⟩
      obtain ⟨r, hr, rfl⟩ := List.mem_map.mp ht
      exact ⟨r, hr, h⟩)

/-- A member was in the state before it handled the entry at position `k`. -/
def Was (g : Cluster) (k : ℕ) (s : State) (r : Record NodeId Proc (List Effect)) : Prop :=
  r ∈ g.transcript ∧ r.pos = k ∧ r.pre.vip.state = s

/-- The calls survive the departures at position `k`: whoever takes over while handling them is a
backup and recovers the calls; and when all have handled them, exactly one member has. -/
structure Kept (g : Cluster) (k : ℕ) : Prop where
  recovers : ∀ r ∈ g.transcript, r.pos = k → claimed r.out → Recovers r
  successor : g.Done k → ∃ r ∈ g.transcript, r.pos = k ∧ Recovers r ∧
    ∀ r' ∈ g.transcript, r'.pos = k → claimed r'.out → r' = r

/-- The members are prepared for the departures at position `k`: no member in start is in its turn;
and when all have handled them, whoever is first of what remains of a backup's list was a backup in
its turn. -/
structure Prepared (g : Cluster) (k : ℕ) (left : List NodeId) : Prop where
  starts : ∀ s, g.Was k .start s → ¬ (Peer.ofVip s.pre.vip).InTurn left
  successor : g.Done k → ∀ b, g.Was k .backup b → ∃ r, g.Was k .backup r ∧
    r.node = nodeFirst (Peer.remaining b.pre.vip.nodeList left) ∧
      (Peer.ofVip r.pre.vip).InTurn left

section Departures

variable {d : Deployment} {g : Cluster} {k : ℕ} {members left joined : List NodeId}
  {r : Record NodeId Proc (List Effect)}

/-- Whoever is in its turn asks for the address. -/
theorem claimed_of_inTurn (h : ReachesWhen d.step Obliged d.start g)
    (he : g.log[k]? = some (.confchg members left joined)) (hr : r ∈ g.transcript) (hk : r.pos = k)
    (hs : r.pre.vip.state = .start ∨ r.pre.vip.state = .backup)
    (ht : (Peer.ofVip r.pre.vip).InTurn left) : claimed r.out := by
  have hist := history And.left h
  obtain ⟨e, ok, he', -, hclaims, -⟩ := hist.turn _ (turnOf_mem hr)
  obtain rfl : e = .confchg members left joined := by
    subst hk
    exact Option.some.inj (he'.symm.trans he)
  have hnodup := Group.left_nodup h k members left joined he
  have hrole : (Peer.ofVip r.pre.vip).role = .start ∨ (Peer.ofVip r.pre.vip).role = .backup := by
    simpa using hs
  exact hclaims.mpr (Peer.claimsOnLosses_of_inTurn (p := { Peer.ofVip r.pre.vip with size := _ })
    hrole hnodup ht)

/-- Whoever asks for the address while handling departures is in start or a backup, in its turn. -/
theorem inTurn_of_claimed (h : ReachesWhen d.step Obliged d.start g)
    (he : g.log[k]? = some (.confchg members left joined)) (hr : r ∈ g.transcript) (hk : r.pos = k)
    (hc : claimed r.out) : (r.pre.vip.state = .start ∨ r.pre.vip.state = .backup) ∧
      (Peer.ofVip r.pre.vip).InTurn left := by
  obtain ⟨e, ok, he', -, hclaims, -⟩ := (history And.left h).turn _ (turnOf_mem hr)
  obtain rfl : e = .confchg members left joined := by
    subst hk
    exact Option.some.inj (he'.symm.trans he)
  rcases Peer.claims_cases (hclaims.mp hc) with ⟨ms, l, js, heq, hrole, hturn⟩ | ⟨y, nm, heq, -⟩
  · cases heq
    exact ⟨by simpa [turnOf] using hrole, hturn⟩
  · cases heq

/-- A backup that asks for the address while handling departures recovers the calls. -/
theorem recovers_of_claimed (h : ReachesWhen d.step Obliged d.start g)
    (he : g.log[k]? = some (.confchg members left joined)) (hr : g.Was k .backup r)
    (hc : claimed r.out) : Recovers r := by
  obtain ⟨hr, rfl, hb⟩ := hr
  obtain ⟨e, o, he', hd, ha, hg⟩ := record_heeds And.right h r hr
  obtain rfl := Option.some.inj (he.symm.trans he')
  obtain ⟨-, o', -, ha', hg', hv, -, hout⟩ := nodeDeliver_eq_some hd
  rw [hout] at hc
  obtain ⟨hi, hm⟩ := handle_recovers hb ⟨ha'.trans ha, hg'.trans hg⟩ hc
  exact ⟨hb, by rwa [hout], by rwa [hout], by rwa [hv]⟩

/-- A backup has handled an entry before. -/
theorem Was.held (h : ReachesWhen d.step Obliged d.start g) (hr : g.Was k .backup r) :
    Held g.turns k r.node (Peer.ofVip r.pre.vip) := by
  obtain ⟨hr, rfl, hb⟩ := hr
  have hist := history And.left h
  have hrole : (turnOf r).pre.role = .backup := by simp [turnOf, hb]
  rcases hist.pred (turnOf_mem hr) (by simp [hrole]) with hj | hheld
  · rcases hist.join (turnOf r) (turnOf_mem hr) hj with hidle | ⟨⟨hstart, -⟩, -⟩
    · simp [hrole] at hidle
    · simp [hrole] at hstart
  · exact hheld

/-- **The backups agree on the successor**: a backup in its turn is first of what remains of every
backup's list. -/
theorem first_of_backups (hd : d.Distinct) (h : ReachesWhen d.step Obliged d.start g)
    (he : g.log[k]? = some (.confchg members left joined)) {b : Record NodeId Proc (List Effect)}
    (hb : g.Was k .backup b) (hr : g.Was k .backup r) (ht : (Peer.ofVip r.pre.vip).InTurn left) :
    r.node = nodeFirst (Peer.remaining b.pre.vip.nodeList left) := by
  have hist := history And.left h
  have hheld := hr.held h
  have hheld' := hb.held h
  have hsound := hist.sound hheld
  have hsound' := hist.sound hheld'
  have hrb : (Peer.ofVip r.pre.vip).role = .backup := by simpa using hr.2.2
  have hbb : (Peer.ofVip b.pre.vip).role = .backup := by simpa using hb.2.2
  have hlen : k ≤ g.log.length := Nat.le_of_lt (List.getElem?_eq_some_iff.mp he).1
  obtain ⟨hrt, rfl, -⟩ := hr
  have hn₀ : r.node ≠ 0 := hist.node_ne_zero (turnOf_mem hrt)
  have hstays : r.node ∉ left :=
    not_mem_left hist.wellFormed he (hist.held_mem_view hheld) (hist.mem_view (turnOf_mem hrt))
  have hfirst : r.node = nodeFirst (Peer.remaining r.pre.vip.nodeList left) := by
    have hself : r.pre.vip.nodeId = r.node := hsound.self
    rw [← hself]
    exact ht.first (by rwa [hsound.self]) (by rwa [hsound.self])
  obtain ⟨-, hmem, hmax⟩ := hsound.le_of_first hn₀ hfirst
  -- the first of the other backup's list is on this one, and the other way round
  have hmem' : r.node ∈ ids (Peer.remaining b.pre.vip.nodeList left) := by
    refine (Peer.mem_ids_remaining hsound'.ordered).mpr ⟨?_, hstays⟩
    exact (hist.backup_ids hheld' hbb).mpr (hsound.announced _ hmem)
  have hf := nodeFirst_mem (l := Peer.remaining b.pre.vip.nodeList left) (by
    intro hnil
    rw [hnil] at hmem'
    simp at hmem')
  obtain ⟨hfl, hfleft⟩ := (Peer.mem_ids_remaining hsound'.ordered).mp hf
  have hann := hsound'.announced _ hfl
  have hle := hmax _ ((hist.backup_ids hheld hrb).mpr hann) hfleft
  have hle' := (hsound'.toKnown.change hist.wellFormed he .backup).le_nodeFirst hmem'
  exact hist.eq_of_prio (Cluster.distinct Obliged.clean h hd) hlen hlen (hist.held_mem_view hheld)
    hann.mem_view (le_antisymm hle' hle)

end Departures

end Cluster

/-- **Failover keeps the calls.** In a run of clean starts in which `node_add` never lacks memory and
the calls that take the address succeed, and for every departure of a leader in it that some backup
handles, the calls survive the departure if and only if the members are prepared for it. -/
theorem failover_keeps_calls {d : Deployment} (hd : d.Distinct) {g : Cluster}
    (h : ReachesWhen d.step Obliged d.start g) :
    ∀ k members left joined, g.log[k]? = some (.confchg members left joined) →
      (∃ x ∈ left, Lead g.log g.turns x k) → (∃ b, g.Was k .backup b) →
        (g.Kept k ↔ g.Prepared k left) := by
  rintro k members left joined he - ⟨b, hb⟩
  have hist := Cluster.history And.left h
  constructor
  · intro hkept
    constructor
    · rintro s ⟨hs, hk, hstart⟩ ht
      have hc := Cluster.claimed_of_inTurn h he hs hk (Or.inl hstart) ht
      obtain ⟨hb, -⟩ := hkept.recovers s hs hk hc
      rw [hstart] at hb
      cases hb
    · intro hdone b hb
      obtain ⟨r, hr, hk, hrec, -⟩ := hkept.successor hdone
      have hwas : g.Was k .backup r := ⟨hr, hk, hrec.1⟩
      have hturn := (Cluster.inTurn_of_claimed h he hr hk hrec.2.1).2
      exact ⟨r, hwas, Cluster.first_of_backups hd h he hb hwas hturn, hturn⟩
  · intro hprep
    -- nobody in start asks for the address
    have hbackup : ∀ r ∈ g.transcript, r.pos = k → claimed r.out → g.Was k .backup r := by
      intro r hr hk hc
      obtain ⟨hs | hb, hturn⟩ := Cluster.inTurn_of_claimed h he hr hk hc
      · exact absurd hturn (hprep.starts r ⟨hr, hk, hs⟩)
      · exact ⟨hr, hk, hb⟩
    constructor
    · intro r hr hk hc
      exact Cluster.recovers_of_claimed h he (hbackup r hr hk hc) hc
    · intro hdone
      obtain ⟨r, hr, -, hturn⟩ := hprep.successor hdone b hb
      have hc := Cluster.claimed_of_inTurn h he hr.1 hr.2.1 (Or.inr hr.2.2) hturn
      refine ⟨r, hr.1, hr.2.1, Cluster.recovers_of_claimed h he hr hc, ?_⟩
      intro r' hr' hk' hc'
      have hr'' := hbackup r' hr' hk' hc'
      have hpos : r'.pos = r.pos := hk'.trans hr.2.1.symm
      have hnode : r'.node = r.node :=
        hist.backup_claims_unique (Cluster.turnOf_mem hr') (Cluster.turnOf_mem hr.1) hpos
          (by simp [turnOf, hr''.2.2]) (by simp [turnOf, hr.2.2]) hc' hc
      exact (Cluster.sound Obliged.clean h).unique r' hr' r hr.1 hnode hpos

/-- The cluster of three nodes after the takeover. -/
def callsKept : Cluster :=
  (runWhen serving.step Obliged serving.start (firstUp 1 ++ secondUp 1 2 ++ [.crash 1,
    .confchg [1] []] ++ deliveries 2 1)).getD serving.start

set_option maxRecDepth 10000 in
theorem failover_keeps_calls_callsKept : callsKept.Kept 6 := by
  refine (failover_keeps_calls (d := serving) (by decide +kernel) (reachesWhen_getD _) 6 [2] [1] []
    (by decide +kernel) (by decide +kernel) ?_).mpr ⟨?_, fun _ => ?_⟩
  · exact (by decide +kernel : ∃ b ∈ callsKept.transcript, b.pos = 6 ∧ b.pre.vip.state = .backup)
  · have h : ∀ s ∈ callsKept.transcript, s.pos = 6 → s.pre.vip.state ≠ .start := by decide +kernel
    rintro s ⟨hs, hk, hstart⟩
    exact absurd hstart (h s hs hk)
  · have h : ∀ b ∈ callsKept.transcript, b.pos = 6 → ∃ r ∈ callsKept.transcript, (r.pos = 6 ∧
        r.pre.vip.state = .backup) ∧
          r.node = nodeFirst (Peer.remaining b.pre.vip.nodeList [1]) ∧
            (Peer.ofVip r.pre.vip).InTurn [1] := by decide +kernel
    rintro b ⟨hb, hk, -⟩
    obtain ⟨r, hr, hwas, hfirst⟩ := h b hb hk
    exact ⟨r, ⟨hr, hwas⟩, hfirst⟩

/-- A third node joins and is ahead of the backup; the master dies before the backup has announced
itself to it. The third node takes over from start, and the backup deletes the rows. -/
def overtaken : Cluster :=
  (runWhen serving.step Obliged serving.start (firstUp 1 ++ secondUp 1 2 ++ launch 3 0 ++
    [.confchg [] [3]] ++ deliveries 1 1 ++ deliveries 3 1 ++ [.order 1, .order 3] ++
    deliveries 3 2 ++ [.crash 1, .confchg [1] []] ++ deliveries 3 1 ++ deliveries 2 4)).getD
      serving.start

set_option maxRecDepth 10000 in
/-- **The calls may be lost**: a member in start takes over, while the backup deletes the rows. -/
theorem calls_lost : ¬ ∀ (d : Deployment) (g : Cluster), d.Distinct →
    ReachesWhen d.step Obliged d.start g → ∀ k members left joined,
      g.log[k]? = some (.confchg members left joined) → (∃ x ∈ left, Lead g.log g.turns x k) →
        (∃ b, g.Was k .backup b) → g.Kept k := by
  intro h
  have hkept := h serving overtaken (by decide +kernel) (reachesWhen_getD _) 9 [2, 3] [1] []
    (by decide +kernel) (by decide +kernel)
    (by decide +kernel : ∃ b ∈ overtaken.transcript, b.pos = 9 ∧ b.pre.vip.state = .backup)
  have hstart : ∃ r ∈ overtaken.transcript, r.pos = 9 ∧ claimed r.out ∧
      r.pre.vip.state = .start := by decide +kernel
  obtain ⟨r, hr, hk, hc, hs⟩ := hstart
  obtain ⟨hb, -⟩ := hkept.recovers r hr hk hc
  rw [hs] at hb
  cases hb

end CpgFailover
