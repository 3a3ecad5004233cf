import CpgFailover.Election.Leadership
import CpgFailover.Election.Turns

/-!
# Single master

At most one live member serves the address, provided `node_add` never lacks memory and no member in
start takes over with a list that misses a member of the group. Without the second proviso two
members can serve at once: a member that joins while the master dies may know the master and itself,
but not the backup that takes over too.

## Main definitions

* `StartKnows`: a starting vip in its turn knows every member that remains
* `Heedful`: clean starts, memory for every list, and starting vips that know

## Main results

* `single_master`: at most one live member serves the address
* `two_masters`: without that, two may
-/

namespace CpgFailover

open Agreed Transition

/-- A vip in `ST_START` that is in its turn knows every member of the new configuration that has not
just joined. -/
def StartKnows (_ : NodeId) (v : Vip) (e : Entry NodeId Msg) (_ : Outcome) : Prop :=
  match e with
  | .confchg members left joined => v.state = .start → (Peer.ofVip v).InTurn left →
      ∀ m ∈ members, m ∉ joined → m ∈ ids v.nodeList
  | .message _ _ => True

instance (n : NodeId) (v : Vip) (e : Entry NodeId Msg) (o : Outcome) :
    Decidable (StartKnows n v e o) :=
  match e with
  | .confchg _ _ _ | .message _ _ => by unfold StartKnows; infer_instance

/-- Clean starts, memory for every list, and nobody takes over from start with a list that misses a
member. -/
def Heedful (g : Cluster) (l : ClusterStep) : Prop := Regular g l ∧ OnHandling StartKnows g l

theorem Heedful.clean {g : Cluster} {l : ClusterStep} (h : Heedful g l) : CleanStarts g l := h.1.1

instance (g : Cluster) (l : ClusterStep) : Decidable (Heedful g l) := by
  unfold Heedful
  infer_instance

/-- The nodes have pairwise distinct priorities. -/
def Deployment.Distinct (d : Deployment) : Prop :=
  ∀ n ∈ d.nodes, ∀ m ∈ d.nodes, d.prio n = d.prio m → n = m

instance (d : Deployment) : Decidable d.Distinct := by
  unfold Deployment.Distinct
  infer_instance

section Runs

variable {d : Deployment} {ok : Cluster → ClusterStep → Prop} {g : Cluster}

theorem Cluster.distinct (hok : ∀ {g l}, ok g l → CleanStarts g l)
    (h : ReachesWhen d.step ok d.start g) (hd : d.Distinct) : CpgFailover.Distinct d.prio g.log :=
  fun _ _ n m hn hm hp =>
    hd n (Cluster.joined_mem hok h hn) m (Cluster.joined_mem hok h hm) hp

theorem Cluster.startsComplete (hok : ∀ {g l}, ok g l → OnHandling StartKnows g l)
    (h : ReachesWhen d.step ok d.start g) : StartsComplete g.log g.turns := by
  intro t ht hs members left joined he hturn
  obtain ⟨r, hr, rfl⟩ := List.mem_map.mp ht
  obtain ⟨e, o, he', -, hw⟩ := Cluster.record_heeds hok h r hr
  obtain rfl := Option.some.inj (he.symm.trans he')
  exact hw (by simpa [turnOf] using hs) hturn

/-- A member that is out of start has handled its join. -/
theorem Cluster.since_lt_next (hok : ∀ {g l}, ok g l → CleanStarts g l)
    (h : ReachesWhen d.step ok d.start g) {n : NodeId} {since next : ℕ}
    (hc : (g.site n).conn = .member since next) (hi : (g.vip n).state ≠ .idle)
    (hs : (g.vip n).state ≠ .start) : since < next := by
  obtain ⟨hup, hsn, -⟩ := (Cluster.sound hok h).member hc
  by_contra hge
  obtain rfl : next = since := by omega
  have hstage := (Cluster.stages hok h).site n hup
  rw [hc] at hstage
  have hfresh := (hstage.fresh (by simp [Conn.kind]) hi).1
  rw [Peer.ofVip_role, Role.ofState_eq_start] at hfresh
  exact hs hfresh

/-- A live member that serves the address leads. -/
theorem Cluster.lead_of_serves (hok : ∀ {g l}, ok g l → Regular g l)
    (h : ReachesWhen d.step ok d.start g) {n : NodeId} (hn : g.Serves n) :
    Lead g.log g.turns n g.log.length := by
  obtain ⟨⟨hup, hconn⟩, hserves⟩ := hn
  have hclean {g : Cluster} {l : ClusterStep} (hl : ok g l) : CleanStarts g l := (hok hl).1
  have hg := Cluster.sound hclean h
  have hist := Cluster.history hok h
  cases hc : (g.site n).conn with
  | out => simp [hc, Conn.isMember] at hconn
  | joining => simp [hc, Conn.isMember] at hconn
  | member since next =>
    have hrun : (g.vip n).state ≠ .idle := by
      intro hi
      simp [hi, State.serves] at hserves
    obtain ⟨-, hsn, hnl, -, -, hst⟩ := hg.member hc
    have hlt : since < next := Cluster.since_lt_next hclean h hc hrun fun hs => by
      simp [hs, State.serves] at hserves
    have hheld := Cluster.held_of_member hclean h hc hlt hrun
    have hlead := hist.lead_of_leader hheld (by simpa using hserves)
    exact hlead.extend (hst.mono hsn le_rfl) hnl

/-- No two live members serve the address. -/
theorem Cluster.serves_unique (hok : ∀ {g l}, ok g l → Regular g l)
    (hknows : ∀ {g l}, ok g l → OnHandling StartKnows g l) (h : ReachesWhen d.step ok d.start g)
    (hd : d.Distinct) {n m : NodeId} (hn : g.Serves n) (hm : g.Serves m) : n = m :=
  (Cluster.history hok h).lead_unique (Cluster.distinct (fun hl => (hok hl).1) h hd)
    (Cluster.startsComplete hknows h) (Cluster.lead_of_serves hok h hn)
    (Cluster.lead_of_serves hok h hm)

end Runs

/-- **Single master.** In every run of clean starts in which `node_add` never lacks memory and no
member takes over from start with a list that misses a member, at most one live member serves the
address. -/
theorem single_master {d : Deployment} (hd : d.Distinct) {g : Cluster}
    (h : ReachesWhen d.step Heedful d.start g) {n m : NodeId} (hn : g.Serves n)
    (hm : g.Serves m) : n = m :=
  Cluster.serves_unique And.left And.right h hd hn hm

/-- All three nodes come up, the master dies, and the others handle its departure. -/
def takeover : List ClusterStep :=
  firstUp 1 ++ secondUp 1 2 ++ thirdUp ++ [.crash 1, .confchg [1] []] ++ deliveries 2 1 ++
    deliveries 3 1

/-- The cluster after the takeover. -/
def takenOver : Cluster :=
  (runWhen staggered.step Heedful staggered.start takeover).getD staggered.start

set_option maxRecDepth 10000 in
theorem single_master_takenOver : takenOver.Serves 2 ∧ ¬ takenOver.Serves 1 ∧
    ¬ takenOver.Serves 3 := by
  have h₂ : takenOver.Serves 2 := by decide +kernel
  refine ⟨h₂, fun h₁ => ?_, fun h₃ => ?_⟩
  · exact absurd (single_master (by decide +kernel) (reachesWhen_getD _) h₁ h₂) (by decide)
  · exact absurd (single_master (by decide +kernel) (reachesWhen_getD _) h₃ h₂) (by decide)

/-- A third node joins and hears the master and itself; the master dies before the backup has
announced itself. The third node takes over from start, and so does the backup. -/
def overlappingJoin : List ClusterStep :=
  firstUp 1 ++ secondUp 1 2 ++ launch 3 0 ++ [.confchg [] [3]] ++ deliveries 1 1 ++ deliveries 3 1 ++
    [.order 1, .order 3] ++ deliveries 3 2 ++ [.crash 1, .confchg [1] []] ++ deliveries 3 1 ++
    deliveries 2 4

/-- The cluster after the overlapping join. -/
def overlapped : Cluster :=
  (run staggered.step staggered.start overlappingJoin).getD staggered.start

set_option maxRecDepth 10000 in
/-- **Two members can serve the address at once.** -/
theorem two_masters : ¬ ∀ (d : Deployment) (g : Cluster), d.Distinct →
    Reaches d.step d.start g → ∀ n m, g.Serves n → g.Serves m → n = m := by
  intro h
  have h₂ : overlapped.Serves 2 := by decide +kernel
  have h₃ : overlapped.Serves 3 := by decide +kernel
  have heq := h staggered overlapped (by decide +kernel) (reaches_getD _) 2 3 h₂ h₃
  exact absurd heq (by decide)

end CpgFailover
