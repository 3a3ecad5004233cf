import CpgFailover.Election.Turns

/-!
# Backup agreement

Two members that are backups after the same prefix of the agreed log know the same nodes, have
different priorities, and never both take over.

## Main definitions

* `Cluster.After`: the record of a node after a prefix of the log

## Main results

* `backup_agreement`: agreement of the backups, for arbitrary priorities
-/

namespace CpgFailover

open Agreed Transition

namespace Cluster

/-- The record of `n` is `v` after it has handled the first `k` entries. -/
def After (g : Cluster) (n : NodeId) (k : ℕ) (v : Vip) : Prop :=
  ∃ r ∈ g.transcript, r.node = n ∧ r.pos + 1 = k ∧ r.post.vip = v

/-- Handling the entry at position `k`, `n` makes these calls. -/
def Calls (g : Cluster) (n : NodeId) (k : ℕ) (calls : List Effect) : Prop :=
  ∃ r ∈ g.transcript, r.node = n ∧ r.pos = k ∧ r.out = calls

theorem After.held {g : Cluster} {n : NodeId} {k : ℕ} {v : Vip} (h : g.After n k v)
    (hv : v.state ≠ .idle) : Held g.turns k n (Peer.ofVip v) := by
  obtain ⟨r, hr, rfl, rfl, rfl⟩ := h
  exact ⟨_, turnOf_mem hr, rfl, rfl, rfl, by simpa using hv⟩

end Cluster

/-- Of two members that were backups after the same prefix, at most one asks for the address while
handling the next entry. -/
theorem backup_calls_unique {d : Deployment} {g : Cluster}
    (h : History d.prio g.log g.turns) {n m : NodeId} {k : ℕ} {v w : Vip} (hn : g.After n k v)
    (hm : g.After m k w) (hne : n ≠ m) (hv : v.state = .backup) (hw : w.state = .backup)
    {calls calls' : List Effect} (hc : g.Calls n k calls) (hc' : g.Calls m k calls') :
    ¬ (claimed calls ∧ claimed calls') := by
  rintro ⟨hcl, hcl'⟩
  have hheld := hn.held (by simp [hv])
  have hheld' := hm.held (by simp [hw])
  obtain ⟨s, hs, rfl, rfl, rfl⟩ := hc
  obtain ⟨s', hs', rfl, hk, rfl⟩ := hc'
  have ht := Cluster.turnOf_mem hs
  have ht' := Cluster.turnOf_mem hs'
  -- whoever claims has the record it had after the entry before
  have hpre := h.held_unique hheld (h.held_of_claims ht hcl)
  have hturn : Held g.turns s.pos s'.node (turnOf s').pre := hk ▸ h.held_of_claims ht' hcl'
  have hpre' := h.held_unique hheld' hturn
  refine hne (h.backup_claims_unique ht ht' hk.symm ?_ ?_ hcl hcl')
  · rw [← hpre]
    simpa using hv
  · rw [← hpre']
    simpa using hw

/-- **Backup agreement.** On first activations and with memory for every list, two members that are
backups after the same prefix of the agreed log hold the same node ids, are configured with
different priorities, do not both head what any departures leave of their lists, and do not both ask
for the address while handling the next entry. -/
theorem backup_agreement {d : Deployment} {g : Cluster}
    (h : ReachesWhen d.step Regular d.start g) {n m : NodeId} {k : ℕ} {v w : Vip}
    (hn : g.After n k v) (hm : g.After m k w) (hne : n ≠ m) (hv : v.state = .backup)
    (hw : w.state = .backup) :
    (∀ x, x ∈ ids v.nodeList ↔ x ∈ ids w.nodeList) ∧
      (d.config n).priority ≠ (d.config m).priority ∧
      (∀ left : List NodeId, ¬ (n = nodeFirst (left.foldl nodeRemove v.nodeList) ∧
        m = nodeFirst (left.foldl nodeRemove w.nodeList))) ∧
      ∀ calls calls', g.Calls n k calls → g.Calls m k calls' →
        ¬ (claimed calls ∧ claimed calls') := by
  have hist := Cluster.history id h
  have hp := hn.held (by simp [hv])
  have hq := hm.held (by simp [hw])
  have hpb : (Peer.ofVip v).role = .backup := by simpa using hv
  have hqb : (Peer.ofVip w).role = .backup := by simpa using hw
  refine ⟨fun x => ?_, hist.backup_prio_ne hp hq hpb hqb hne, fun left hfirst => ?_,
    fun calls calls' => backup_calls_unique hist hn hm hne hv hw⟩
  · exact (hist.backup_ids hp hpb).trans (hist.backup_ids hq hqb).symm
  · obtain ⟨hpf, hqf⟩ := hfirst
    have hzero {y : NodeId} {u : Vip} (hy : g.After y k u) : y ≠ 0 := by
      obtain ⟨r, hr, rfl, -⟩ := hy
      exact hist.node_ne_zero (Cluster.turnOf_mem hr)
    have hnl := ((hist.sound hp).le_of_first (hzero hn) hpf).1
    have hml := ((hist.sound hq).le_of_first (hzero hm) hqf).1
    exact hne (hist.backup_first_unique hp hq hpb hqb (hzero hn) (hzero hm) hnl hml hpf hqf)

/-- The cluster after all three nodes have come up. -/
def allUp : Cluster :=
  (runWhen staggered.step Regular staggered.start (firstUp 1 ++ secondUp 1 2 ++ thirdUp)).getD
    staggered.start

/-- A record of the transcript, by its index. -/
theorem Cluster.After.of_getElem? {g : Cluster} {i k : ℕ} {n : NodeId} {s : State}
    (h : (g.transcript[i]?).map (fun r => (r.node, r.pos + 1, r.post.vip.state)) = some (n, k, s)) :
    ∃ v, g.After n k v ∧ v.state = s := by
  obtain ⟨r, hr, he⟩ := Option.map_eq_some_iff.mp h
  cases he
  exact ⟨_, ⟨r, List.mem_of_getElem? hr, rfl, rfl, rfl⟩, rfl⟩

set_option maxRecDepth 10000 in
theorem backup_agreement_allUp : ∃ v w, allUp.After 2 10 v ∧ allUp.After 3 10 w ∧
    v.state = .backup ∧ w.state = .backup ∧ ∀ x, x ∈ ids v.nodeList ↔ x ∈ ids w.nodeList := by
  obtain ⟨v, hv, hvs⟩ := Cluster.After.of_getElem? (g := allUp) (i := 17) (n := 2) (k := 10)
    (s := .backup) (by decide +kernel)
  obtain ⟨w, hw, hws⟩ := Cluster.After.of_getElem? (g := allUp) (i := 20) (n := 3) (k := 10)
    (s := .backup) (by decide +kernel)
  exact ⟨v, w, hv, hw, hvs, hws,
    (backup_agreement (reachesWhen_getD _) hv hw (by decide) hvs hws).1⟩

end CpgFailover
