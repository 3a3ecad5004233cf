import CpgFailover.CleanUp
import CpgFailover.Lib.AgreedTruth
import CpgFailover.Membership

/-!
# Whose rows are deleted

The rows of the recovery table carry the uuid of the FreeSWITCH core whose calls they are. A backup
deletes rows under a uuid that it has heard, at a moment that it does not choose, from a table that
holds the calls of every node. Through all crashes, restarts and departures at once, what it deletes
are the rows of a node that has just departed: never its own, never those of a node in the view.

## Main definitions

* `UuidOf`: the uuid of a node, as it stands in a field
* `OwnUuid`: the cores of a node have the uuids that are its own
* `Ascribes`: the master in the record is remembered with a uuid of its own

## Main results

* `truthful_uuids`: every announcement carries a uuid of its sender
* `cleanUp_spares_members`: only rows of the departed are deleted
-/

namespace CpgFailover

open Agreed Transition

/-- A uuid of the node, as it stands in a field; the cores of the node, one after another, have the
uuids `owns` says. -/
def UuidOf (owns : NodeId → CString → Prop) (n : NodeId) (u : CString) : Prop :=
  ∃ core, owns n core ∧ u = snprintf uuidSize core

/-- `switch_core_get_uuid` on a node gives a uuid of the node. -/
def OwnUuid (owns : NodeId → CString → Prop) (_ : Cluster) : ClusterStep → Prop
  | .deliver n o => owns n o.coreUuid
  | _ => True

/-- Copying a uuid from a field into a field leaves it. -/
theorem UuidOf.snprintf {owns : NodeId → CString → Prop} {n : NodeId} {u : CString}
    (h : UuidOf owns n u) : UuidOf owns n (snprintf uuidSize u) := by
  obtain ⟨core, hcore, rfl⟩ := h
  exact ⟨core, hcore, by simp [CpgFailover.snprintf]⟩

/-- The master in the record, if there is one, is remembered with a uuid of its own. -/
def Ascribes (owns : NodeId → CString → Prop) (c : Config) (v : Vip) : Prop :=
  ∃ last, Remembers c last v ∧ ∀ y nm, last = some (y, nm) → UuidOf owns y nm.uuid

/-- An announcement carries a uuid of its sender. -/
def Honest (owns : NodeId → CString → Prop) (n : NodeId) (m : Msg) : Prop :=
  ∀ nm, m = .nodeState nm → UuidOf owns n nm.runtimeUuid

/-- Only a node of the deployment has a `vip_thread` or a place in the group, and every node knows
its master. -/
structure Informed (owns : NodeId → CString → Prop) (d : Deployment) (n : NodeId) (k : Kind)
    (p : Proc) : Prop where
  node : p.vipThreads ≠ [] ∨ k ≠ .out → n ∈ d.nodes
  knows : Ascribes owns (d.config n) p.vip

/-- The rows that a handling deletes are those of a node that departs with the entry. -/
def DeletesDeparted (owns : NodeId → CString → Prop) (e : Entry NodeId Msg) (calls : List Effect) :
    Prop :=
  ∀ u name, .cleanUpTable u name ∈ calls → ∃ members left joined,
    e = .confchg members left joined ∧ ∃ x ∈ left, x ≠ 0 → UuidOf owns x u

section Handling

variable {owns : NodeId → CString → Prop} {c : Config} {v : Vip} {o : Outcome}
  {e : Entry NodeId Msg} {u name : CString}

/-- A callback is told the truth by an honest message. -/
theorem Ascribes.handle (h : Ascribes owns c v) (he : ∀ y m, e = .message y m → Honest owns y m) :
    Ascribes owns c (handle o v e).1 := by
  obtain ⟨last, hlast, hknown⟩ := h
  refine ⟨_, hlast.handle e, fun y nm hsome => ?_⟩
  rcases Option.or_eq_some_iff.mp hsome with hmsg | ⟨-, hold⟩
  · -- the entry is the announcement of a serving node
    unfold servingMessage at hmsg
    split at hmsg
    · rename_i y' nm'
      split_ifs at hmsg
      cases hmsg
      exact (he y (.nodeState nm) rfl nm rfl).snprintf
    · cases hmsg
  · exact hknown y nm hold

theorem mem_left_of_departures {x : NodeId} {calls : List Effect} {left : List NodeId}
    (h : (x, calls) ∈ departures o v left) : x ∈ left := by
  induction left generalizing v with
  | nil => cases h
  | cons y left ih =>
    rcases List.mem_cons.mp h with heq | hrest
    · obtain ⟨rfl, -⟩ := Prod.mk.inj heq
      exact List.mem_cons_self
    · exact List.mem_cons_of_mem _ (ih hrest)

/-- What is deleted in a callback is deleted for a departure. -/
theorem departure_of_cleanUp (h : .cleanUpTable u name ∈ (handle o v e).2) :
    ∃ members left joined, e = .confchg members left joined ∧ ∃ x calls,
      (x, calls) ∈ departures o { v with memberListEntries := members.length } left ∧
        .cleanUpTable u name ∈ calls := by
  have hcleans {calls : List Effect} (hmem : Effect.cleanUpTable u name ∈ calls) :
      calls.any cleans = true := List.any_eq_true.mpr ⟨_, hmem, rfl⟩
  cases e with
  | confchg members left joined =>
    refine ⟨members, left, joined, rfl, ?_⟩
    have hleft : .cleanUpTable u name ∈
        (nodesDown o { v with memberListEntries := members.length } left).2 := by
      simp only [handle, confchgCallback] at h
      split_ifs at h
      · refine (List.mem_append.mp h).resolve_right fun hup => ?_
        -- an arrival does not clean up
        cases (fsm_cleans (hcleans hup)).1
      · exact h
    rw [nodesDown_calls] at hleft
    obtain ⟨⟨x, calls⟩, hdep, hin⟩ := List.mem_flatMap.mp hleft
    exact ⟨x, calls, hdep, hin⟩
  | message y m =>
    exfalso
    cases m with
    | sql => cases (mem_handle_sql h).2
    | nodeState nm =>
      have hc : (handle o v (.message y (.nodeState nm))).2.any cleans = false :=
        message_cleans nm y
      rw [hcleans h] at hc
      cases hc

/-- What is deleted is the rows of the remembered master, which departs. -/
theorem deletes_of_knows (h : Ascribes owns c v) : DeletesDeparted owns e (handle o v e).2 := by
  intro u name hmem
  obtain ⟨members, left, joined, rfl, x, calls, hdep, hcall⟩ := departure_of_cleanUp hmem
  obtain ⟨last, hlast, hknown⟩ := h
  have hconfchg : Remembers c last { v with memberListEntries := members.length } :=
    ⟨hlast.config, hlast.master⟩
  obtain ⟨w, hw, rfl, rfl⟩ :=
    hconfchg.departures hdep (List.any_eq_true.mpr ⟨_, hcall, rfl⟩)
  refine ⟨members, left, joined, rfl, w.masterId, ?_, fun hx => ?_⟩
  · exact mem_left_of_departures hdep
  · obtain ⟨nm, hsome, huuid⟩ := hw.master hx
    obtain ⟨p, -, heq⟩ := List.mem_map.mp hcall
    cases heq
    rw [huuid]
    exact hknown _ nm hsome

/-- What a callback announces carries the uuid of the core. -/
theorem honest_of_handle {n : NodeId} (ho : owns n o.coreUuid) :
    ∀ m ∈ multicasts (handle o v e).2, Honest owns n m := by
  rintro m hm nm rfl
  obtain ⟨call, hcall, heq⟩ := List.mem_filterMap.mp hm
  cases call <;> cases heq
  refine ⟨o.coreUuid, ho, ?_⟩
  exact handle_calls (P := fun c => ∀ nm, c = .sendState nm →
    nm.runtimeUuid = CpgFailover.snprintf uuidSize o.coreUuid)
    (by
      rintro w ev - c hc nm rfl
      rw [(sendState_mem hc).1, nodeMsg])
    v e (fun _ _ _ _ hc => by cases hc) _ hcall nm rfl

end Handling

/-! ## Steps -/

section Steps

variable {owns : NodeId → CString → Prop} {d : Deployment} {n : NodeId} {k : Kind} {p p' : Proc}

/-- A step that handles no entry tells nothing. -/
theorem Remembers.quiet {c : Config} {last : Option (NodeId × NodeMsg)}
    (h : Remembers c last p.vip) {i : Input} (hs : p.step i = some p')
    (hi : ∀ t o e, i ≠ .deliver t o e) : Remembers c last p'.vip := by
  rcases Proc.step_vip hs with ⟨-, t, hv⟩ | ⟨-, hv⟩ | ⟨t, x, -, hv⟩ | ⟨t, o, e, he, -⟩ | ⟨r, t, hv⟩
  · exact hv ▸ ⟨h.config, h.master⟩
  · exact hv ▸ h.reset
  · exact hv ▸ ⟨h.config, h.master⟩
  · exact absurd he (hi t o e)
  · exact hv ▸ ⟨h.config, h.master⟩

/-- **A local step** of a node keeps it informed. -/
theorem Informed.act (h : Informed owns d n k p) {c : Command} {sig : Signal Msg}
    (ha : nodeAct d n p c = some (p', sig)) :
    Informed owns d n (sig.kind k) p' ∧ ∀ m, sig = .send m → Honest owns n m := by
  cases c with
  | event name sql =>
    obtain ⟨m, hm, heq⟩ := Option.map_eq_some_iff.mp ha
    cases heq
    refine ⟨h, ?_⟩
    rintro _ ⟨⟩ nm rfl
    -- sofia sends statements
    obtain ⟨-, heq⟩ := Option.ite_none_right_eq_some.mp hm
    cases heq
  | input i =>
    obtain ⟨hperm, hs, rfl⟩ := nodeAct_input ha
    have hnot : ∀ t o e, i ≠ .deliver t o e := by
      rintro t o e rfl
      exact hperm
    obtain ⟨last, hlast, hknown⟩ := h.knows
    refine ⟨⟨?_, last, hlast.quiet hs hnot, hknown⟩, ?_⟩
    · intro hplace
      by_cases hthreads : p.vipThreads = []
      · rcases Proc.step_vipThreads hs hthreads with hnone | ⟨created, rfl⟩ | ⟨t, created, rfl⟩
        · refine h.node (Or.inr fun hk => ?_)
          -- without a thread there is nobody to join
          have hkind := hplace.resolve_left (not_not.mpr hnone)
          subst hk
          cases i with
          | join t results =>
            obtain ⟨ht, -⟩ := Proc.vipCall_eq_some hs
            rw [hthreads] at ht
            cases ht
          | _ => exact hkind rfl
        · exact hperm
        · exact hperm
      · exact h.node (Or.inl hthreads)
    · rintro m hm
      cases i with
      | join t results =>
        rw [inputSignal] at hm
        split_ifs at hm
      | _ => cases hm

/-- **A handling** keeps the node informed, announces the truth and deletes the rows of the departed
only. -/
theorem Informed.deliver (h : Informed owns d n k p) {e : Entry NodeId Msg} {o : Outcome}
    {calls : List Effect} (ho : owns n o.coreUuid)
    (he : ∀ y m, e = .message y m → Honest owns y m)
    (hd : nodeDeliver n p e o = some (p', calls)) :
    Informed owns d n .active p' ∧ (∀ m ∈ multicasts calls, Honest owns n m) ∧
      DeletesDeparted owns e calls := by
  obtain ⟨⟨th, hth, -⟩, heq⟩ := Option.ite_none_right_eq_some.mp hd
  cases heq
  have hne : p.vipThreads ≠ [] := List.ne_nil_of_mem hth
  refine ⟨⟨fun _ => h.node (Or.inl hne), ?_⟩, honest_of_handle ho, deletes_of_knows h.knows⟩
  show Ascribes owns (d.config n) (p.handleEntry o e).1.vip
  rw [Proc.handleEntry_vip]
  exact h.knows.handle he

/-- The nodes, what they announce and what they delete. -/
theorem informed_rule (owns : NodeId → CString → Prop) (d : Deployment) :
    Group.TruthRule (cluster d) (OwnUuid owns) (Informed owns d) (Honest owns)
      (fun _ e calls => DeletesDeparted owns e calls) where
  boot n := ⟨fun h => absurd rfl (h.resolve_left (fun hn => hn rfl)), none,
    ⟨rfl, fun hm => absurd rfl hm⟩, fun _ _ h => by cases h⟩
  act _ h ha := h.act ha
  deliver hok h he hd := h.deliver hok he hd
  enter h := ⟨fun _ => h.node (Or.inr (by simp)), h.knows⟩

end Steps

/-! ## Runs -/

section Runs

variable {owns : NodeId → CString → Prop} {d : Deployment} {g : Cluster}

/-- **Every announcement carries a uuid of its sender**, ordered or waiting. -/
theorem truthful_uuids (h : ReachesWhen d.step (OwnUuid owns) d.start g) :
    (∀ (k : ℕ) (y : NodeId) (nm : NodeMsg), g.log[k]? = some (.message y (.nodeState nm)) →
      UuidOf owns y nm.runtimeUuid) ∧
      ∀ n nm, Msg.nodeState nm ∈ (g.site n).outbox → UuidOf owns n nm.runtimeUuid := by
  have ht := Group.truth (informed_rule owns d) h
  exact ⟨fun k y nm hk => ht.said hk nm rfl, fun n nm hm => ht.waiting n _ hm nm rfl⟩

/-- **A clean-up spares the members.** In every run in which no two nodes share a uuid, whenever a
member deletes rows it handles a configuration change, the rows are those of a node that departs
with it, and they are those of no node in the view, its own among them. -/
theorem cleanUp_spares_members
    (hown : ∀ n m u u', owns n u → owns m u' → snprintf uuidSize u = snprintf uuidSize u' → n = m)
    (h : ReachesWhen d.step (OwnUuid owns) d.start g) :
    ∀ r ∈ g.transcript, ∀ u name, .cleanUpTable u name ∈ r.out → ∃ members left joined,
      g.log[r.pos]? = some (.confchg members left joined) ∧ (∃ x ∈ left, UuidOf owns x u) ∧
        r.node ∈ members ∧ ∀ m ∈ members, ¬ UuidOf owns m u := by
  intro r hr u name hmem
  have ht := Group.truth (informed_rule owns d) h
  have hg := Group.Sound.of_reaches h.reaches
  obtain ⟨e, he, hdeletes⟩ := ht.record r hr
  obtain ⟨members, left, joined, rfl, x, hx, huuid⟩ := hdeletes u name hmem
  obtain ⟨hmembers, hleft, hjoined⟩ := hg.log.confchg_at he
  -- the departed is in the view before, so it has joined, and is no member after
  have hview := hleft x hx
  have hlen : r.pos ≤ g.log.length := (hg.bounded r hr).le
  obtain ⟨j, -, hj, -⟩ := hg.log.exists_joinsAt hlen hview
  obtain ⟨s, hs⟩ := ht.joined j x hj
  have hx0 : x ≠ 0 := by
    rintro rfl
    exact d.zero_notMem (hs.node (Or.inr (by simp)))
  have hgone : x ∉ members := by
    rw [hmembers, List.mem_append, not_or]
    exact ⟨by simp [hx], fun hxj => hjoined x hxj hview⟩
  refine ⟨members, left, joined, he, ⟨x, hx, huuid hx0⟩, ?_, ?_⟩
  · obtain ⟨e', o, he', -, hmem'⟩ := hg.record r hr
    rw [viewAfter_take_succ he] at hmem'
    exact hmem'
  · rintro m hm ⟨core, hcore, hu⟩
    obtain ⟨core', hcore', hu'⟩ := huuid hx0
    obtain rfl := hown x m core' core hcore' hcore (hu'.symm.trans hu)
    exact hgone hm

end Runs

/-- The cores of a node have its id for a uuid. -/
def idUuid (n : NodeId) (u : CString) : Prop := n < 256 ∧ u = [UInt8.ofNat n]

instance (n : NodeId) (u : CString) : Decidable (idUuid n u) := by unfold idUuid; infer_instance

instance (g : Cluster) : DecidablePred (OwnUuid idUuid g)
  | .act _ _ | .deliver _ _ | .order _ | .confchg _ _ | .crash _ | .boot _ => by
    unfold OwnUuid
    infer_instance

/-- The same step, on cores with their own uuids. -/
def named : ClusterStep → ClusterStep
  | .deliver n o => .deliver n { o with coreUuid := [UInt8.ofNat n] }
  | l => l

/-- The master of three nodes crashes; the third takes over, and the second cleans up. -/
def masterGone : Cluster :=
  (runWhen serving.step (OwnUuid idUuid) serving.start
    (((firstUp 1 ++ secondUp 1 2 ++ thirdUp ++ [.crash 1, .confchg [1] []] ++ deliveries 2 1 ++
      deliveries 3 1 : List ClusterStep)).map named)).getD serving.start

set_option maxRecDepth 10000 in
theorem cleanUp_spares_members_masterGone : ∃ r ∈ masterGone.transcript, r.node = 2 ∧
    .cleanUpTable [1] [101, 120, 116] ∈ r.out ∧ ∃ members left joined,
      masterGone.log[r.pos]? = some (.confchg members left joined) ∧
        (∃ x ∈ left, UuidOf idUuid x [1]) ∧ r.node ∈ members ∧
          ∀ m ∈ members, ¬ UuidOf idUuid m [1] := by
  obtain ⟨r, hr, hn, hmem⟩ : ∃ r ∈ masterGone.transcript, r.node = 2 ∧
      .cleanUpTable [1] [101, 120, 116] ∈ r.out := by decide +kernel
  have hown (n m : NodeId) (u u' : CString) (hu : idUuid n u) (hu' : idUuid m u')
      (heq : snprintf uuidSize u = snprintf uuidSize u') : n = m := by
    obtain ⟨hn, rfl⟩ := hu
    obtain ⟨hm, rfl⟩ := hu'
    have hbyte : UInt8.ofNat n = UInt8.ofNat m := by simpa [snprintf, uuidSize] using heq
    have hmod := congrArg UInt8.toNat hbyte
    rwa [UInt8.toNat_ofNat_of_lt' hn, UInt8.toNat_ofNat_of_lt' hm] at hmod
  exact ⟨r, hr, hn, hmem, cleanUp_spares_members hown (reachesWhen_getD _) r hr _ _ hmem⟩

end CpgFailover
