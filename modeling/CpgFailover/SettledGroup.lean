import CpgFailover.CleanUp
import CpgFailover.QuiescentLeader

/-!
# The settled group

When nothing but statements is left to deliver, the group is in order: one member serves the
address, all others wait, and every member has written down the same: the serving member as its
master, and the same list of nodes. The master announces itself when it takes the address and with
every arrival, so each member has heard it; and whoever announces itself as a master later has
claimed the address as well, and is the same.

## Main definitions

* `Aware`: the steps of runs in which nobody waits in vain and nobody takes over unaware
* `servingSender`: the serving node whose state an entry carries

## Main results

* `Peer.master_handle`: a member names the last serving node it has heard
* `History.names`: a member names the master, if no other one has been heard since
* `settled_group`: the settled group is in order
-/

namespace CpgFailover

open Agreed Transition

/-- The serving node whose state an entry carries, if it does. -/
def servingSender (e : Entry NodeId Msg) : Option NodeId := (servingMessage e).map Prod.fst

theorem servingSender_eq_some {e : Entry NodeId Msg} {y : NodeId} : servingSender e = some y ↔
    ∃ nm, e = .message y (.nodeState nm) ∧ nm.state.serves = true := by
  cases e with
  | confchg => simp [servingSender, servingMessage]
  | message x m =>
    cases m with
    | sql => simp [servingSender, servingMessage]
    | nodeState nm =>
      by_cases hs : nm.state.serves = true
      · simp [servingSender, servingMessage, hs]
      · simp [servingSender, servingMessage, hs]

/-- **A member names the last serving node it has heard.** -/
theorem Peer.master_handle {prio : ℤ} {ok : Bool} {p : Peer} {e : Entry NodeId Msg}
    (h : (p.handle prio ok e).role ≠ .idle) :
    (p.handle prio ok e).master = (servingSender e).getD p.master := by
  cases e with
  | confchg members left joined =>
    show (p.change ok members left).master = p.master
    simp only [handle] at h
    rcases change_cases ok p members left with ⟨he, -⟩ | ⟨-, hi, -⟩ | ⟨-, -, -, he⟩
    · rw [he]
    · exact absurd hi h
    · cases ok with
      | true => rw [he, if_pos rfl]
      | false => simp [he] at h
  | message y m =>
    cases m with
    | sql => rfl
    | nodeState nm =>
      have hnote : (p.note y nm).master =
          (servingSender (.message y (.nodeState nm))).getD p.master := by
        by_cases hs : nm.state.serves = true <;> simp [note, servingSender, servingMessage, hs]
      simp only [handle] at h ⊢
      rcases hear_cases prio ok p y nm with ⟨he, -⟩ | ⟨-, hi, -⟩ | ⟨-, -, -, -, -, he⟩ |
        ⟨-, -, -, -, -, he⟩
      · rw [he, hnote]
      · exact absurd hi h
      · rw [he]
        exact hnote
      · cases ok with
        | true => rw [he, claim, if_pos rfl]; exact hnote
        | false => simp [he, claim] at h

/-- **Whom a member names**: the sender of a message of a serving node, if it has been a member
since and all such messages since are from the same node. -/
theorem History.names {prio : NodeId → ℤ} {log : List (Entry NodeId Msg)} {turns : List Turn}
    (h : History prio log turns) {k : ℕ} {n : NodeId} {p : Peer} (hp : Held turns k n p) {q : ℕ}
    {x : NodeId} (hs : Stays log n q k) (hqk : q < k) (hq : log[q]?.bind servingSender = some x)
    (hsince : ∀ i y, q < i → i < k → log[i]?.bind servingSender = some y → y = x) :
    p.master = x := by
  refine h.held_rule (P := fun k n p => Stays log n q k → q < k →
    (∀ i y, q < i → i < k → log[i]?.bind servingSender = some y → y = x) → p.master = x)
    ?_ ?_ hp hs hqk hsince
  · -- nobody has been a member since before its own join
    intro t ht hj _ hs hqk _
    rcases Nat.lt_or_ge q t.pos with hlt | hge
    · exact absurd hj (h.wellFormed.not_joinsAt (hs t.pos hlt (Nat.le_succ _)))
    · obtain rfl : q = t.pos := by omega
      obtain ⟨ms, l, j, hk, -⟩ := hj
      rw [hk] at hq
      cases hq
  · intro t ht hrun _ ih hs hqk hsince
    obtain ⟨e, ok, he, hpost, -⟩ := h.turn t ht
    rw [hpost] at hrun ⊢
    rw [Peer.master_handle hrun]
    rcases Nat.lt_or_ge q t.pos with hlt | hge
    · have hold : t.pre.master = x :=
        ih (hs.mono le_rfl (Nat.le_succ _)) hlt fun i y hi hik => hsince i y hi (by omega)
      cases hsender : servingSender e with
      | none => exact hold
      | some y => exact hsince t.pos y hlt (Nat.lt_succ_self _) (by rw [he]; exact hsender)
    · obtain rfl : q = t.pos := by omega
      rw [he, Option.bind_some] at hq
      rw [hq]
      rfl

/-! ## Announcements of the master -/

/-- Who asks for the address and gets it announces itself. -/
theorem sendState_of_claimed {o : Outcome} {v : Vip} {e : Entry NodeId Msg}
    (ho : o.addVip = true ∧ o.sendGarp = true) (h : claimed (handle o v e).2) :
    ∃ nm, Effect.sendState nm ∈ (handle o v e).2 := by
  refine handle_rule (R := fun _ _ cs => claimed cs → ∃ nm, Effect.sendState nm ∈ cs)
    (fun _ h => absurd h not_claimed_nil) ?_ ?_ (fun _ _ h => absurd h not_claimed_nil)
    (fun _ _ _ h => absurd h not_claimed_nil) (fun _ _ h => absurd h not_claimed_nil) v e ?_ h
  · intro u v w cs cs' hu hv hc
    obtain ⟨a, b, ok, hmem⟩ := hc
    rcases List.mem_append.mp hmem with hmem | hmem
    · obtain ⟨nm, hnm⟩ := hu ⟨a, b, ok, hmem⟩
      exact ⟨nm, List.mem_append_left _ hnm⟩
    · obtain ⟨nm, hnm⟩ := hv ⟨a, b, ok, hmem⟩
      exact ⟨nm, List.mem_append_right _ hnm⟩
  · intro v e he hc
    have hto := fsmTo_fsmDoTransaction o v e
    generalize fsmDoTransaction o v e = r at hto hc ⊢
    cases hto with
    | claim => exact ⟨nodeMsg o { v with state := .master }, by
        simp [becomeMaster, virtualIpSendState, ho.1, ho.2]⟩
    | down => exact absurd hc (not_claimed_goDown v)
    | resign =>
      rw [failTransition, List.nil_append] at hc
      exact absurd hc (not_claimed_goDown v)
    | cleanUp => simp [claimed, cleanUpCalls] at hc
    | nodeup => exact ⟨nodeMsg o v, by simp [nodeup, virtualIpSendState]⟩
    | backupup => exact ⟨nodeMsg o v, by simp [backupup, virtualIpSendState]⟩
    | request => exact absurd hc (not_claimed_rollback o v)
    | goUp => exact absurd rfl he
    | stay | observe | resume => exact absurd hc not_claimed_nil
  · intro _ v sql name hc
    simp [claimed] at hc

/-! ## The lists -/

/-- Lists that know the same nodes are the same, if the priorities tell the nodes apart. -/
theorem Peer.Known.roster_eq {prio : NodeId → ℤ} {log : List (Entry NodeId Msg)} {k k' : ℕ}
    {n m : NodeId} {p q : Peer} (hp : p.Known prio log k n) (hq : q.Known prio log k' m)
    (hids : ∀ x, x ∈ ids p.roster ↔ x ∈ ids q.roster)
    (hd : ∀ x ∈ ids p.roster, ∀ y ∈ ids p.roster, prio x = prio y → x = y) :
    p.roster = q.roster := by
  have hmem {r : Peer} {j : ℕ} {z : NodeId} (hr : r.Known prio log j z) (a : Node) :
      a ∈ r.roster ↔ a.nodeid ∈ ids r.roster ∧ a.priority = prio a.nodeid := by
    refine ⟨fun ha => ⟨List.mem_map_of_mem ha, hr.priority a ha⟩, fun ⟨ha, hprio⟩ => ?_⟩
    obtain ⟨b, hb, he⟩ := mem_ids.mp ha
    have hsame : b = a := by
      cases a
      cases b
      simp only at he hprio
      have hb' := hr.priority _ hb
      simp only at hb'
      rw [he] at hb'
      rw [he, hprio, hb']
    exact hsame ▸ hb
  have hperm : p.roster.Perm q.roster := by
    rw [List.perm_ext_iff_of_nodup hp.ordered.nodup.of_map hq.ordered.nodup.of_map]
    intro a
    rw [hmem hp, hmem hq, hids]
  refine hperm.eq_of_pairwise (fun a b ha hb hab hba => ?_) hp.ordered.sorted hq.ordered.sorted
  -- nodes of the same priority are the same
  obtain ⟨hai, hap⟩ := (hmem hp a).mp ha
  obtain ⟨hbi, hbp⟩ := (hmem hq b).mp hb
  have hprio : a.priority = b.priority := le_antisymm hba hab
  have hid : a.nodeid = b.nodeid := by
    apply hd _ hai _ ((hids _).mpr hbi)
    rw [← hap, ← hbp, hprio]
  cases a
  cases b
  simp only at hprio hid
  rw [hprio, hid]

/-! ## Quiescent groups -/

/-- Clean starts, memory for every list, calls that succeed, no entry that makes a member wait in
vain, and nobody takes over from start with a list that misses a member. -/
def Aware (g : Cluster) (l : ClusterStep) : Prop := Mindful g l ∧ OnHandling StartKnows g l

theorem Aware.regular {g : Cluster} {l : ClusterStep} (h : Aware g l) : Regular g l := h.1.1

theorem Aware.clean {g : Cluster} {l : ClusterStep} (h : Aware g l) : CleanStarts g l := h.regular.1

instance (g : Cluster) (l : ClusterStep) : Decidable (Aware g l) := by
  unfold Aware
  infer_instance

namespace Cluster

variable {d : Deployment} {g : Cluster} {n x : NodeId} {since next : ℕ}

/-- A settled member has taken part ever since it joined. -/
theorem Settled.running {ok : Cluster → ClusterStep → Prop}
    (hok : ∀ {g l}, ok g l → CleanStarts g l) (hr : ReachesWhen d.step ok d.start g)
    (h : g.Settled n) (hc : (g.site n).conn = .member since next) {i : ℕ} (hi : since ≤ i)
    (hin : i < next) :
    ∃ r ∈ g.transcript, r.node = n ∧ r.pos = i ∧ r.post.vip.state ≠ .idle := by
  obtain ⟨-, -, hnl, hst, hheld⟩ := h.held hok hr hc
  obtain ⟨r, hrt, rfl, rfl⟩ := ((sound hok hr).current hc).1 i hi hin
  refine ⟨r, hrt, rfl, rfl, ?_⟩
  obtain ⟨q, t, ht, htn, htk, rfl, hrun⟩ := (chronicle hok hr).held_back hheld
    (hst.mono le_rfl hnl) (Nat.lt_succ_of_le hi) hin
  have heq : t = turnOf r :=
    (chronicle hok hr).unique t ht _ (turnOf_mem hrt) htn (Nat.succ.inj htk)
  simpa [heq, turnOf] using hrun

/-- The claim of a member that serves was made in its present membership. -/
theorem since_le_of_claim {ok : Cluster → ClusterStep → Prop}
    (hok : ∀ {g l}, ok g l → CleanStarts g l) (hr : ReachesWhen d.step ok d.start g)
    (h : g.Settled x) (hc : (g.site x).conn = .member since next) {i : ℕ}
    (hs : Stays g.log x i g.log.length) : since ≤ i := by
  obtain ⟨-, hj, hnl, -⟩ := h.held hok hr hc
  have hlt : since < g.log.length := by
    obtain ⟨ms, l, j, he, -⟩ := hj
    exact (List.getElem?_eq_some_iff.mp he).1
  by_contra hgt
  exact (sound hok hr).log.not_joinsAt (hs since (by omega) hlt.le) hj

/-- **The master announces itself to every member**: when it takes the address, or when the member
joins, whichever comes later. -/
theorem announces_of_serves (h : ReachesWhen d.step Aware d.start g) (hq : g.Quiescent)
    (hx : g.Serves x) (hn : n ∈ g.view) (hc : (g.site n).conn = .member since next) :
    ∃ r ∈ g.transcript, r.node = x ∧ since ≤ r.pos ∧ Stays g.log x r.pos g.log.length ∧
      ∃ nm, nm.state.serves = true ∧ Effect.sendState nm ∈ r.out := by
  have hm : ReachesWhen d.step Mindful d.start g := h.mono fun _ _ ha => ha.1
  have hg := sound Aware.clean h
  have hist := history Aware.regular h
  have hlead := lead_of_serves Aware.regular h hx
  have hxv : x ∈ g.view := by simpa [Group.view] using hlead.mem_view
  obtain ⟨since', next', hc'⟩ := (hq x hxv).conn
  obtain ⟨t, ht, rfl, htl, hcl, hst⟩ := hlead
  -- whoever announces itself as the leader serves
  have hserves {r : Record NodeId Proc (List Effect)} (hr : r ∈ g.transcript)
      (hleads : (turnOf r).post.role = .leader) {nm : NodeMsg}
      (hnm : Effect.sendState nm ∈ r.out) : nm.state.serves = true := by
    obtain ⟨e, o, -, -, hpost, hout⟩ := record_eq hg hr
    rw [hout] at hnm
    obtain ⟨-, -, hrole⟩ := sendState_handle hnm
    rw [← hpost] at hrole
    rw [← Role.ofState_eq_leader, ← hrole]
    exact hleads
  obtain ⟨r, hr, rfl⟩ := List.mem_map.mp ht
  rcases Nat.lt_or_ge r.pos since with hlt | hge
  · -- it hears of the arrival as the master
    obtain ⟨-, hj, -, -, -⟩ := (hq n hn).held Aware.clean h hc
    obtain ⟨ms, left, joined, he, hin⟩ := hj
    have hsince : since < next' := (hq _ hxv).lt_next hc' he rfl
    have hle : since' ≤ r.pos := since_le_of_claim Aware.clean h (hq _ hxv) hc' hst
    obtain ⟨s, hs, hsn, rfl, hrun⟩ :=
      (hq _ hxv).running Aware.clean h hc' (hle.trans hlt.le) hsince
    have hstay : Stays g.log r.node s.pos g.log.length := hst.mono hlt.le le_rfl
    obtain ⟨e, o, he', -, hpost, hout⟩ := record_eq hg hs
    obtain rfl := Option.some.inj (he.symm.trans he')
    rw [hpost] at hrun
    obtain ⟨nm, hnm⟩ := sendState_of_joined (List.ne_nil_of_mem hin) hrun
    rw [← hout] at hnm
    have hheld : Held g.turns (s.pos + 1) s.node (turnOf s).post :=
      held_of_mem (turnOf_mem hs) (by simpa [turnOf, hpost] using hrun)
    have hl : Lead g.log g.turns s.node (s.pos + 1) := by
      rw [hsn]
      exact ⟨_, ht, rfl, Nat.lt_succ_of_lt hlt, hcl,
        hst.mono le_rfl (Nat.succ_le_of_lt (List.getElem?_eq_some_iff.mp he).1)⟩
    have hleads := hist.leader_of_lead (leader_of_claims hm) hl hheld
    exact ⟨s, hs, hsn, le_rfl, hstay, nm, hserves hs hleads hnm, hnm⟩
  · -- it takes the address
    obtain ⟨e, o, -, hd, hw, hgarp, -⟩ := record_heeds (fun ha => ha.1.2) h r hr
    obtain ⟨-, o', -, ha', hg', -, -, hout⟩ := nodeDeliver_eq_some (n := r.node) hd
    have hclaimed : claimed r.out := hcl
    rw [hout] at hclaimed
    obtain ⟨nm, hnm⟩ := sendState_of_claimed ⟨ha'.trans hw, hg'.trans hgarp⟩ hclaimed
    rw [← hout] at hnm
    exact ⟨r, hr, rfl, hge, hst, nm, hserves hr (leader_of_claims hm _ ht hcl) hnm, hnm⟩

/-- **Every member names the master.** -/
theorem masterId_of_serves (hd : d.Distinct) (h : ReachesWhen d.step Aware d.start g)
    (hq : g.Quiescent) (hx : g.Serves x) (hn : n ∈ g.view) : (g.vip n).masterId = x := by
  have hg := sound Aware.clean h
  have hist := history Aware.regular h
  have hlead := lead_of_serves Aware.regular h hx
  have hxv : x ∈ g.view := by simpa [Group.view] using hlead.mem_view
  obtain ⟨since, next, hc⟩ := (hq n hn).conn
  obtain ⟨-, -, hnl, hstn, hheld⟩ := (hq n hn).held Aware.clean h hc
  obtain ⟨r, hr, rfl, hsince, hst, nm, hserves, hnm⟩ := announces_of_serves h hq hx hn hc
  have hmc : Msg.nodeState nm ∈ (cluster d).mcast r.out :=
    List.mem_filterMap.mpr ⟨_, hnm, rfl⟩
  rcases hg.heard r hr hst _ hmc with hbox | ⟨q, hrq, hmsg⟩
  · have hsql := (hq _ hxv).2.2.1 _ hbox
    simp [Msg.isStatement] at hsql
  · have hqn : q < next := (hq n hn).lt_next hc hmsg rfl
    refine hist.names hheld (hstn.mono (hsince.trans hrq.le) hnl) hqn ?_ ?_
    · rw [hmsg, Option.bind_some, servingSender_eq_some]
      exact ⟨nm, rfl, hserves⟩
    · intro i y hqi hin hy
      obtain ⟨e, he, hsender⟩ := Option.bind_eq_some_iff.mp hy
      obtain ⟨nm', rfl, hserves'⟩ := servingSender_eq_some.mp hsender
      -- whoever announces itself as a master has claimed the address, as this one has before
      have hlead' : Lead g.log g.turns r.node i := by
        have hfirst := hist.lead_of_message hmsg hserves
        exact hfirst.extend (hst.mono hrq.le (by omega)) hqi.le
      exact hist.lead_unique (Cluster.distinct Aware.clean h hd)
        (Cluster.startsComplete (fun ha => ha.2) h) (hist.lead_of_message he hserves') hlead'

end Cluster

/-- **The settled group is in order.** In every run of clean starts in which `node_add` never lacks
memory, every call that takes the address succeeds, no entry makes a member wait in vain, and no
member takes over from start with a list that misses a member: when nothing but statements is
undelivered in a group that is not empty, one member serves the address and all others wait; and all
members name it as their master and have the same list, which holds the members of the view. -/
theorem settled_group {d : Deployment} (hd : d.Distinct) {g : Cluster}
    (h : ReachesWhen d.step Aware d.start g) (hq : g.Quiescent) (hne : g.view ≠ []) :
    ∃ x ∈ g.view, g.Serves x ∧ ∀ n ∈ g.view,
      (n ≠ x → (g.vip n).state = .start ∨ (g.vip n).state = .backup) ∧
        (g.vip n).masterId = x ∧ (∀ m, m ∈ ids (g.vip n).nodeList ↔ m ∈ g.view) ∧
        (g.vip n).nodeList = (g.vip x).nodeList ∧
        (g.vip n).memberListEntries = g.view.length := by
  have hist := Cluster.history Aware.regular h
  obtain ⟨x, hx⟩ := Cluster.exists_serves (h.mono fun _ _ ha => ha.1) hd hq hne
  have hxv : x ∈ g.view := by
    simpa [Group.view] using (Cluster.lead_of_serves Aware.regular h hx).mem_view
  have hknown {m : NodeId} (hm : m ∈ g.view) : ∃ k, viewAfter (g.log.take k) = g.view ∧
      (Peer.ofVip (g.vip m)).Known d.prio g.log k m := by
    obtain ⟨since, next, hc⟩ := (hq m hm).conn
    exact ⟨next, (hq m hm).view Aware.clean h hc,
      (hist.sound ((hq m hm).held Aware.clean h hc).2.2.2.2).toKnown⟩
  refine ⟨x, hxv, hx, fun n hn => ⟨fun hne => ?_, Cluster.masterId_of_serves hd h hq hx hn,
    fun m => Cluster.mem_list_of_quiescent Aware.regular h hq hn, ?_, ?_⟩⟩
  · cases hs : (g.vip n).state with
    | idle => exact absurd hs (hq n hn).2.1
    | start => exact Or.inl rfl
    | backup => exact Or.inr rfl
    | master | rback =>
      have hserves : g.Serves n := ⟨(hq n hn).1, by rw [hs]; rfl⟩
      exact absurd (Cluster.serves_unique Aware.regular (fun ha => ha.2) h hd hserves hx) hne
  · obtain ⟨k, -, hkn⟩ := hknown hn
    obtain ⟨k', -, hkx⟩ := hknown hxv
    refine hkn.roster_eq hkx (fun m => ?_) fun y hy z hz hprio => ?_
    · exact (Cluster.mem_list_of_quiescent Aware.regular h hq hn).trans
        (Cluster.mem_list_of_quiescent Aware.regular h hq hxv).symm
    · have hview {m : NodeId} (hm : m ∈ ids (Peer.ofVip (g.vip n)).roster) :
          m ∈ viewAfter (g.log.take g.log.length) := by
        rw [List.take_length]
        exact (Cluster.mem_list_of_quiescent Aware.regular h hq hn).mp hm
      exact hist.eq_of_prio (Cluster.distinct Aware.clean h hd) le_rfl le_rfl (hview hy) (hview hz)
        hprio
  · obtain ⟨k, hk, hkn⟩ := hknown hn
    rw [← hk]
    exact hkn.size

/-- The group after a takeover, when the new master has been heard. -/
def inOrder : Cluster :=
  (runWhen staggered.step Aware staggered.start takeoverHeard).getD staggered.start

set_option maxRecDepth 10000 in
theorem settled_group_inOrder : inOrder.view = [2, 3] ∧ ∃ x ∈ [2, 3], inOrder.Serves x ∧
    ∀ n ∈ [2, 3], (n ≠ x → (inOrder.vip n).state = .start ∨ (inOrder.vip n).state = .backup) ∧
      (inOrder.vip n).masterId = x ∧ (∀ m, m ∈ ids (inOrder.vip n).nodeList ↔ m ∈ [2, 3]) ∧
      (inOrder.vip n).nodeList = (inOrder.vip x).nodeList ∧
      (inOrder.vip n).memberListEntries = 2 := by
  have hq : inOrder.Quiescent := by decide +kernel
  have hv : inOrder.view = [2, 3] := by decide +kernel
  have hne : inOrder.view ≠ [] := by
    rw [hv]
    exact List.cons_ne_nil _ _
  have hrun : ReachesWhen staggered.step Aware staggered.start inOrder := reachesWhen_getD _
  have hsettled := settled_group (by decide +kernel) hrun hq hne
  rw [hv] at hsettled
  exact ⟨hv, hsettled⟩

end CpgFailover
