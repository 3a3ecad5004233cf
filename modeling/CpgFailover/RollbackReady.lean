import CpgFailover.Election.Following
import CpgFailover.RollbackTimer
import CpgFailover.SingleMaster

/-!
# Rollback to a ready node

A master begins a rollback on any state message of a higher priority, a joining node's included, and
when the delay is over it gives way without a look at the target. The target is ready then if it
still takes part in the group and has come to know everybody in its view; otherwise it is gone, or
still in `ST_START`.

## Main definitions

* `Cluster.Participates`: a live member whose vip runs
* `Cluster.Acquainted`: a member that has come to know everybody in its view

## Main results

* `targets_other`: no node targets itself
* `rollback_ready`: the target of a rollback that is over is ready exactly if it has come to know
  its group
* `rollback_to_starter`: a rollback may be over while its target is in `ST_START`
-/

namespace CpgFailover

open Agreed Transition

namespace Cluster

/-- A live member whose vip has not been stopped and has not gone down. -/
def Participates (g : Cluster) (n : NodeId) : Prop := g.Member n ∧ (g.vip n).state ≠ .idle

/-- Since it joined, the member has handled a state message after which everybody in its view had
been heard. -/
def Acquainted (g : Cluster) (n : NodeId) : Prop :=
  ∃ since next j, (g.site n).conn = .member since next ∧ since < j ∧ j < next ∧
    Completes g.log since j

instance (g : Cluster) (n : NodeId) : Decidable (g.Participates n) := by
  unfold Participates
  infer_instance

end Cluster

/-! ## The target is another node -/

/-- The record is not aimed at the node `n` it is on. -/
def AimsElsewhere (n : NodeId) (v : Vip) : Prop :=
  (v.state = .idle ∨ v.nodeId = n) ∧ (v.rollbackNodeId = 0 ∨ v.rollbackNodeId ≠ n)

section Target

variable {d : Deployment} {ok : Cluster → ClusterStep → Prop} {g : Cluster} {n : NodeId} {v : Vip}
  {p p' : Proc} {k : Kind}

/-- A request aims at the head of the list, which is another node. -/
theorem AimsElsewhere.fsm (h : AimsElsewhere n v) (o : Outcome) {e : Event} (he : e ≠ .startup) :
    AimsElsewhere n (fsmDoTransaction o v e).vip := by
  obtain ⟨hself, htarget⟩ := h
  have hto := fsmTo_fsmDoTransaction o v e
  generalize fsmDoTransaction o v e = r at hto ⊢
  cases hto with
  | stay | cleanUp | nodeup | backupup => exact ⟨hself, htarget⟩
  | down | resign => exact ⟨Or.inl rfl, Or.inl rfl⟩
  | claim _ hc =>
    have hn : v.nodeId = n := hself.resolve_left fun hi => by
      rcases hc with ⟨hs, -⟩ | ⟨hs, -⟩ <;> rw [hi] at hs <;> cases hs
    rw [becomeMaster_vip]
    split_ifs
    exacts [⟨Or.inr hn, htarget⟩, ⟨Or.inl rfl, Or.inl rfl⟩]
  | observe hs | resume hs =>
    have hn : v.nodeId = n := hself.resolve_left fun hi => by rw [hi] at hs; cases hs
    exact ⟨Or.inr hn, htarget⟩
  | @request m l hs hl hm =>
    have hn : v.nodeId = n := hself.resolve_left fun hi => by rw [hi] at hs; cases hs
    rw [rollback_cons hl hm]
    rw [hn] at hm
    cases o.threadCreate <;> exact ⟨Or.inr hn, Or.inr hm⟩
  | goUp => exact absurd rfl he

/-- No callback aims a record at its own node. -/
theorem AimsElsewhere.handle (h : AimsElsewhere n v) (o : Outcome) (e : Entry NodeId Msg) :
    AimsElsewhere n (handle o v e).1 := by
  refine handle_vip (R := fun v w => AimsElsewhere n v → AimsElsewhere n w) (fun _ => id)
    (fun hu hw h => hw (hu h)) ?_ ?_ ?_ (fun _ _ => id) v e h
  · exact fun v e he h => h.fsm o he
  · rintro v x ⟨hself, htarget⟩
    refine ⟨hself, ?_⟩
    -- the departure of the target leaves none
    show (if v.rollbackNodeId = x then 0 else v.rollbackNodeId) = 0 ∨
      (if v.rollbackNodeId = x then 0 else v.rollbackNodeId) ≠ n
    split_ifs
    exacts [Or.inl rfl, htarget]
  · intro v nm y h
    rw [learn_eq]
    exact h

/-- A process at its stage that does not aim at itself. -/
structure Targets (d : Deployment) (n : NodeId) (k : Kind) (p : Proc) : Prop where
  stage : Stage d n k p
  other : p.vip.rollbackNodeId = 0 ∨ p.vip.rollbackNodeId ≠ n

theorem Targets.act (h : Targets d n k p) {c : Command} {sig : Signal Msg} (hc : CleanStart n p c)
    (ha : nodeAct d n p c = some (p', sig)) : Targets d n (sig.kind k) p' := by
  refine ⟨h.stage.act hc ha, ?_⟩
  cases c with
  | event name sql =>
    obtain ⟨rfl, -⟩ := nodeAct_event ha
    exact h.other
  | input i =>
    obtain ⟨hp, hs, -⟩ := nodeAct_input ha
    rcases Proc.step_vip hs with ⟨-, t, hv⟩ | ⟨-, hv⟩ | ⟨t, x, rfl, hv⟩ | ⟨t, o, e, rfl, -⟩ |
      ⟨r, t, hv⟩
    · rw [hv]
      exact h.other
    · rw [hv]
      exact Or.inl rfl
    · rw [hv]
      exact h.other
    · exact absurd hp id
    · rw [hv]
      exact h.other

theorem Targets.deliver (h : Targets d n k p) {e : Entry NodeId Msg} {o : Outcome}
    {calls : List Effect} (hd : nodeDeliver n p e o = some (p', calls)) :
    Targets d n .active p' := by
  refine ⟨h.stage.deliver hd, ?_⟩
  obtain ⟨⟨th, hth, hph⟩, o', -, -, -, hv, -⟩ := nodeDeliver_eq_some hd
  have haims : AimsElsewhere n p.vip := by
    refine ⟨?_, h.other⟩
    by_cases hi : p.vip.state = .idle
    · exact Or.inl hi
    · exact Or.inr (h.stage.self th hth (by rw [hph]; rfl) hi)
  rw [hv]
  exact (haims.handle o' e).2

/-- Each step of the cluster aims no node at itself. -/
theorem targets_rule (hok : ∀ {g n c}, ok g (.act n c) → CleanStart n (g.proc n) c) :
    Group.SiteRule (cluster d) ok (Targets d) where
  boot n := ⟨stage_boot d n, Or.inl rfl⟩
  act hk hi ha := hi.act (hok hk) ha
  deliver _ hi _ hd := hi.deliver hd
  enter h := ⟨h.stage.enter, h.other⟩

/-- **No node targets itself.** -/
theorem targets_other (hok : ∀ {g l}, ok g l → CleanStarts g l) (h : ReachesWhen d.step ok d.start g)
    (hup : (g.site n).up = true) : (g.vip n).rollbackNodeId = 0 ∨ (g.vip n).rollbackNodeId ≠ n :=
  ((Group.site_invariant (targets_rule (d := d) fun hc => hok hc) h).site n hup).other

end Target

/-! ## The target is ready -/

section Ready

variable {d : Deployment} {ok : Cluster → ClusterStep → Prop} {g g' : Cluster} {n y : NodeId}

/-- A running process with the address is a member. -/
theorem Cluster.serves_of_up (hok : ∀ {g l}, ok g l → CleanStarts g l)
    (h : ReachesWhen d.step ok d.start g) (hup : (g.site n).up = true)
    (hs : (g.vip n).state.serves = true) : g.Serves n := by
  refine ⟨⟨hup, ?_⟩, hs⟩
  have hstage := (Cluster.stages hok h).site n hup
  have hrun : (g.vip n).state ≠ .idle := fun hi => by simp [hi, State.serves] at hs
  -- outside the group it would be in start
  have hfresh (hk : (g.site n).conn.kind ≠ .active) : False := by
    have hstart := (hstage.fresh hk hrun).1
    rw [Peer.ofVip_role, Role.ofState_eq_start] at hstart
    have hstart' : (g.vip n).state = .start := hstart
    simp [hstart', State.serves] at hs
  cases hc : (g.site n).conn with
  | member since next => rfl
  | out | joining => exact (hfresh (by simp [hc, Conn.kind])).elim

/-- A backup has come to know its group. -/
theorem Cluster.acquainted_of_backup (hok : ∀ {g l}, ok g l → Regular g l)
    (h : ReachesWhen d.step ok d.start g) (hy : g.Member y) (hb : (g.vip y).state = .backup) :
    g.Acquainted y := by
  obtain ⟨-, hconn⟩ := hy
  cases hc : (g.site y).conn with
  | out | joining => simp [hc, Conn.isMember] at hconn
  | member since next =>
    have hclean {g : Cluster} {l : ClusterStep} (hl : ok g l) : CleanStarts g l := (hok hl).1
    obtain ⟨-, -, hnl, -, hj, hst⟩ := (Cluster.sound hclean h).member hc
    have hlt := Cluster.since_lt_next hclean h hc (by simp [hb]) (by simp [hb])
    have hheld := Cluster.held_of_member hclean h hc hlt (by simp [hb])
    obtain ⟨j, hij, hjk, hcomplete⟩ := (Cluster.history hok h).completes_of_backup hheld hlt hj
      (hst.mono le_rfl hnl) (by simp [hb])
    exact ⟨since, next, j, hc, hij, hjk, hcomplete⟩

/-- Whoever takes part and has come to know its group is a backup, or serves the address. -/
theorem Cluster.backup_of_acquainted (hok : ∀ {g l}, ok g l → Regular g l)
    (h : ReachesWhen d.step ok d.start g) (hy : g.Participates y) (ha : g.Acquainted y) :
    (g.vip y).state = .backup ∨ g.Serves y := by
  obtain ⟨hmember, hrun⟩ := hy
  obtain ⟨since, next, j, hc, hij, hjk, hcomplete⟩ := ha
  have hclean {g : Cluster} {l : ClusterStep} (hl : ok g l) : CleanStarts g l := (hok hl).1
  obtain ⟨-, -, hnl, -, -, hst⟩ := (Cluster.sound hclean h).member hc
  have hheld := Cluster.held_of_member hclean h hc (hij.trans hjk) hrun
  have hrole :=
    (Cluster.history hok h).role_of_completes hheld (hst.mono le_rfl hnl) hij hjk hcomplete
  cases hs : (g.vip y).state with
  | idle => exact absurd hs hrun
  | start => exact absurd (by simp [hs]) hrole
  | backup => exact Or.inl rfl
  | master | rback => exact Or.inr ⟨hmember, by rw [hs]; rfl⟩

/-- **A rollback to a ready node.** In every run of clean starts in which `node_add` never lacks
memory and no member takes over from start with a list that misses a member: when a rollback thread
stops a node that serves the address, the target of the rollback is a live member in `ST_BACKUP` if
and only if it still takes part in the group and has come to know everybody in its view. -/
theorem rollback_ready (hd : d.Distinct) (h : ReachesWhen d.step Heedful d.start g) {t : ThreadId}
    (hstop : d.step g (.act n (.input (.rollbackStop t))) = some g')
    (hs : (g.vip n).state.serves = true) :
    g.Member (g.vip n).rollbackNodeId ∧ (g.vip (g.vip n).rollbackNodeId).state = .backup ↔
      g.Participates (g.vip n).rollbackNodeId ∧ g.Acquainted (g.vip n).rollbackNodeId := by
  have hup : (g.site n).up = true := by
    cases Group.stepTo_of_step hstop with
    | act hup => exact hup
  have hserves := Cluster.serves_of_up Heedful.clean h hup hs
  constructor
  · rintro ⟨hm, hb⟩
    exact ⟨⟨hm, by simp [hb]⟩, Cluster.acquainted_of_backup And.left h hm hb⟩
  · rintro ⟨hp, ha⟩
    refine ⟨hp.1, (Cluster.backup_of_acquainted And.left h hp ha).resolve_right fun hy => ?_⟩
    -- it would be the node itself
    have heq := Cluster.serves_unique And.left And.right h hd hy hserves
    rcases targets_other Heedful.clean h hup with hz | hne
    · have hz' : n = 0 := heq.symm.trans hz
      obtain ⟨-, hconn⟩ := hserves.1
      cases hc : (g.site n).conn with
      | out | joining => simp [hc, Conn.isMember] at hconn
      | member since next =>
        obtain ⟨-, -, -, -, hj, -⟩ := (Cluster.sound Heedful.clean h).member hc
        exact d.zero_notMem (hz' ▸ Cluster.joined_mem Heedful.clean h hj)
    · exact hne heq

end Ready

/-- Two nodes; the first is to give way to the second, without a delay in its configuration. -/
def impatient : Deployment where
  nodes := [1, 2]
  config n := { plainConfig (if n = 1 then 10 else 20) noProfiles with
    autorollback := true, rollbackDelay := 0 }
  zero_notMem := by decide

/-- The calls of the master succeed, and it gets its rollback thread. -/
def threadStarts : Outcome := { allSucceed with threadCreate := some 0 }

/-- The first node serves the address, the second joins and announces itself, and the first hears
it. -/
def higherJoins : List ClusterStep :=
  firstUp 1 ++ launch 2 0 ++ [.confchg [] [2]] ++ deliveries 1 1 ++ deliveries 2 1 ++
    [.order 1, .order 2, .deliver 1 allSucceed, .deliver 1 threadStarts]

/-- The cluster at the end of the rollback, which the second node knows nothing of. -/
def hasty : Cluster := (run impatient.step impatient.start higherJoins).getD impatient.start

/-- The cluster at the end of the rollback, when the second node has heard everybody. -/
def prepared : Cluster :=
  (runWhen impatient.step Heedful impatient.start (higherJoins ++ deliveries 2 2)).getD
    impatient.start

set_option maxRecDepth 10000 in
theorem rollback_ready_prepared : prepared.Member 2 ∧ (prepared.vip 2).state = .backup ∧
    prepared.Participates 2 ∧ prepared.Acquainted 2 := by
  have htarget : (prepared.vip 1).rollbackNodeId = 2 := by decide +kernel
  obtain ⟨g', hg'⟩ : ∃ g', impatient.step prepared (.act 1 (.input (.rollbackStop 1))) = some g' :=
    Option.isSome_iff_exists.mp (by decide +kernel)
  have hreach : ReachesWhen impatient.step Heedful impatient.start prepared := reachesWhen_getD _
  have hiff := rollback_ready (by decide) hreach hg' (by decide +kernel)
  rw [htarget] at hiff
  have hready : prepared.Member 2 ∧ (prepared.vip 2).state = .backup := by decide +kernel
  obtain ⟨hp, ha⟩ := hiff.mp hready
  exact ⟨hready.1, hready.2, hp, ha⟩

set_option maxRecDepth 10000 in
/-- **A rollback may be over while its target is in start.** -/
theorem rollback_to_starter : ¬ ∀ (d : Deployment) (g g' : Cluster) (n : NodeId) (t : ThreadId),
    d.Distinct → Reaches d.step d.start g →
      d.step g (.act n (.input (.rollbackStop t))) = some g' → (g.vip n).state.serves = true →
        g.Member (g.vip n).rollbackNodeId ∧ (g.vip (g.vip n).rollbackNodeId).state = .backup := by
  intro h
  obtain ⟨g', hg'⟩ : ∃ g', impatient.step hasty (.act 1 (.input (.rollbackStop 1))) = some g' :=
    Option.isSome_iff_exists.mp (by decide +kernel)
  obtain ⟨-, hb⟩ := h impatient hasty g' 1 1 (by decide) (reaches_getD _) hg' (by decide +kernel)
  exact absurd hb (by decide +kernel)

end CpgFailover
