import CpgFailover.Address
import CpgFailover.Election.Peer
import Mathlib.Data.List.Perm.Subperm

/-!
# The start of a node

A vip in `ST_START` waits until it has heard every member of its group. It becomes a backup with the
state message that makes its list as long as the member list. Two things can go wrong. The list can
become complete by the departure of the last member that was missing, which no configuration change
looks at. And the departure of a master makes `act` give up when another node heads the list, or
when the list is empty.

## Main definitions

* `Dismissed`, `InTurn`: why a start ends idle, and when a departure finds the node first
* `Vip.callback`, `Unfinished`, `Advances`: callbacks, and when they leave a complete list unnoticed
* `Delivered`: the configuration changes and messages that corosync delivers

## Main results

* `start_dismissed`: a start ends idle for a reason, exactly if departures find the node first
* `start_incomplete`: a vip in `ST_START` misses somebody, exactly if no configuration change finds
  all the members that it leaves on the list
-/

namespace CpgFailover

open Agreed (Entry)
open Transition

/-! ## Ending idle -/

/-- A stop, a duplicate of this node, or a call that fails. -/
def Dismissed (v : Vip) (i : VipInput) : Prop :=
  (∃ o, i = .cmdStop o) ∨
    (∃ o nm nodeid, i = .newStateMessage o nm nodeid ∧ nm.priority = v.config.priority ∧
      nodeid ≠ v.nodeId) ∨
    ∃ c ∈ (v.input i).effects, c.failed = true

/-- In `ST_START` the departure of the remembered master, and a message in a group of one, find this
node at the head of the list as they leave it. -/
def InTurn (v : Vip) : VipInput → Prop
  | .nodeDown _ nodeid =>
    v.state = .start → v.masterId = nodeid → v.nodeId = nodeFirst (nodeRemove v.nodeList nodeid)
  | .newStateMessage o nm nodeid =>
    v.state = .start → ¬ (nm.priority = v.config.priority ∧ nodeid ≠ v.nodeId) →
      v.memberListEntries = 1 →
        v.nodeId = nodeFirst (nodeAdd o.malloc v.nodeList nodeid nm.priority)
  | _ => True

section Dismissed

variable {v : Vip} {i : VipInput} {o : Outcome}

/-- A start in its turn ends idle only because a call fails. -/
theorem failed_of_becomeMaster (h : (becomeMaster o v []).vip.state = .idle) :
    ∃ c ∈ (becomeMaster o v []).effects, c.failed = true := by
  simp only [becomeMaster] at h ⊢
  -- with both calls the node would be a master
  split_ifs at h ⊢ with ha hg
  · exact ⟨.sendGarp v.config.mac v.config.address v.config.device o.sendGarp,
      by simp [failTransition], by simp [Effect.failed, hg]⟩
  · exact ⟨.addVip v.config.address v.config.device o.addVip, by simp [failTransition],
      by simp [Effect.failed, ha]⟩

/-- No call of `go_down` fails. -/
theorem not_failed_goDown (v : Vip) : ∀ c ∈ (goDown v).effects, c.failed = false := by
  simp only [goDown, List.mem_append, List.mem_map, List.mem_singleton]
  rintro c (((⟨t, -, rfl⟩ | ⟨t, -, rfl⟩) | rfl) | ⟨p, -, rfl⟩) <;> rfl

/-- `act` ends idle for a reason if and only if the node is first. -/
theorem act_idle_iff (o : Outcome) (v : Vip) :
    ((act o v).vip.state = .idle → ∃ c ∈ (act o v).effects, c.failed = true) ↔
      v.nodeId = nodeFirst v.nodeList := by
  unfold act
  split_ifs with hf
  · exact iff_of_true failed_of_becomeMaster hf
  · refine iff_of_false (fun h => ?_) hf
    -- the fall-through to `error:` makes no call that could fail
    obtain ⟨c, hc, hfail⟩ := h rfl
    simp [not_failed_goDown v c (by simpa [failTransition] using hc)] at hfail

/-- An input that runs `act` and is neither a stop nor a duplicate. -/
theorem dismissed_act {w : Vip} (hs : v.state = .start) (hact : v.input i = act o w)
    (hstop : ∀ o, i ≠ .cmdStop o)
    (hdup : ∀ o nm y, i = .newStateMessage o nm y →
      ¬ (nm.priority = v.config.priority ∧ y ≠ v.nodeId)) :
    (v.state = .start → (v.input i).vip.state = .idle → Dismissed v i) ↔
      w.nodeId = nodeFirst w.nodeList := by
  rw [← act_idle_iff o w, ← hact]
  constructor
  · intro h hi
    rcases h hs hi with ⟨o', rfl⟩ | ⟨o', nm, y, rfl, hd⟩ | hc
    · exact absurd rfl (hstop o')
    · exact absurd hd (hdup o' nm y rfl)
    · exact hc
  · exact fun h _ hi => Or.inr (Or.inr (h hi))

/-- A state message to a vip in `ST_START`. -/
theorem dismissed_newStateMessage (hs : v.state = .start) (o : Outcome) (nm : NodeMsg) (y : NodeId) :
    (v.state = .start → (v.input (.newStateMessage o nm y)).vip.state = .idle →
      Dismissed v (.newStateMessage o nm y)) ↔ InTurn v (.newStateMessage o nm y) := by
  have hst : (learn o v nm y).state = .start := (learn_state o v nm y).trans hs
  have hr := messageRaises_stateMessageEvent (learn o v nm y) nm y
  generalize hev : stateMessageEvent (learn o v nm y) nm y = event at hr
  have hin : v.input (.newStateMessage o nm y) = match event with
      | some e => table o e .start (learn o v nm y)
      | none => ⟨.failure, learn o v nm y, []⟩ := by
    simp only [Vip.input, fsmInputNewStateMessage, hev, fsmDoTransaction, hst]
    cases event <;> rfl
  cases hr with
  | duplicate hp hy =>
    rw [learn_config] at hp
    rw [learn_nodeId] at hy
    refine iff_of_true (fun _ _ => Or.inr (Or.inl ⟨o, nm, y, rfl, hp, hy⟩)) ?_
    exact fun _ hd _ => absurd ⟨hp, hy⟩ hd
  | alone hd _ hone =>
    rw [learn_config, learn_nodeId] at hd
    rw [learn_memberListEntries] at hone
    rw [dismissed_act (o := o) hs hin (by simp) fun _ _ _ he => by cases he; exact hd]
    rw [learn_nodeId, learn_nodeList]
    exact ⟨fun h _ _ _ => h, fun h => h hs hd hone⟩
  -- the other messages leave `ST_START` for `ST_BACKUP` or not at all
  | complete _ _ hone _ =>
    rw [learn_memberListEntries] at hone
    rw [hin]
    exact iff_of_true (fun _ h => by cases h) fun _ _ h => absurd h hone
  | request hserve =>
    rw [hst] at hserve
    cases hserve
  | quiet _ hone _ =>
    have hne := (hone hst).1
    rw [learn_memberListEntries] at hne
    rw [hin]
    exact iff_of_true (fun _ h => by cases hst.symm.trans h) fun _ _ h => absurd h hne

/-- **One input**: a vip in `ST_START` ends idle for a reason if and only if it is in its turn. -/
theorem dismissed_iff (v : Vip) (i : VipInput) :
    (v.state = .start → (v.input i).vip.state = .idle → Dismissed v i) ↔ InTurn v i := by
  by_cases hs : v.state = .start
  swap
  · refine iff_of_true (fun h => absurd h hs) ?_
    cases i with
    | nodeDown | newStateMessage => exact fun h => absurd h hs
    | nodeUp | cmdStart | cmdStop | localGet | memberList => trivial
  cases i with
  | nodeDown o x =>
    by_cases hm : v.masterId = x
    · have hact : v.input (.nodeDown o x) = act o (forget v x) := by
        rw [Vip.input, fsmInputNodeDown_of_eq hm, hs]
        rfl
      rw [dismissed_act hs hact (by simp) (by simp)]
      exact ⟨fun h _ _ => h, fun h => h hs hm⟩
    -- another departure is none of its business
    · have hnoop : v.input (.nodeDown o x) = noop (forget v x) := by
        rw [Vip.input, fsmInputNodeDown_of_ne hm, hs]
        rfl
      rw [hnoop]
      exact iff_of_true (fun _ h => by cases hs.symm.trans h) fun _ h => absurd h hm
  | newStateMessage o nm y => exact dismissed_newStateMessage hs o nm y
  | cmdStop o => exact iff_of_true (fun _ _ => Or.inl ⟨o, rfl⟩) trivial
  | nodeUp o =>
    have hup : v.input (.nodeUp o) = nodeup o v := by
      rw [Vip.input, fsmInputNodeUp, fsmDoTransaction, hs]
      rfl
    rw [hup]
    exact iff_of_true (fun _ h => by cases hs.symm.trans h) trivial
  | cmdStart o =>
    have hstart : v.input (.cmdStart o) = error v := by
      rw [Vip.input, fsmInputCmdStart, fsmDoTransaction, hs]
      rfl
    rw [hstart]
    exact iff_of_true (fun _ h => by cases hs.symm.trans h) trivial
  | localGet | memberList => exact iff_of_true (fun _ h => by cases hs.symm.trans h) trivial

end Dismissed

/-- **A start ends idle for a reason.** Along every sequence of inputs: whenever a vip goes from
`ST_START` to `ST_IDLE` it is stopped, hears a node with its own priority, or fails to take the
address, if and only if every departure of its remembered master in `ST_START`, and every message in
a group of one, finds it at the head of its list. -/
theorem start_dismissed (v : Vip) (is : List VipInput) :
    Along Vip.step
      (fun v i => v.state = .start → (v.input i).vip.state = .idle → Dismissed v i) v is ↔
      Along Vip.step InTurn v is :=
  along_congr dismissed_iff v is

/-- Node 1 joins a group of two and hears its master, which departs before node 1 has heard itself.
-/
def masterDeparts : List VipInput :=
  [.cmdStart allSucceed, .localGet 1, .memberList 2, .nodeUp allSucceed,
    .newStateMessage allSucceed ⟨20, .master, []⟩ 2, .memberList 1, .nodeDown allSucceed 2]

/-- **A start ends idle for no reason**: the list holds the master that departs and nobody else. -/
theorem start_given_up : ¬ ∀ (c : Config) (is : List VipInput),
    Along Vip.step (fun v i => v.state = .start → (v.input i).vip.state = .idle → Dismissed v i)
      (Vip.fresh c) is := by
  intro h
  have hall := h (plainConfig 10 noProfiles) masterDeparts
  simp only [masterDeparts, Along, Vip.step, Option.some.injEq, forall_eq'] at hall
  obtain ⟨-, -, -, -, -, -, hlast, -⟩ := hall
  rcases hlast (by decide) (by decide) with ⟨o, he⟩ | ⟨o, nm, y, he, -⟩ | ⟨c, hc, hf⟩
  · cases he
  · cases he
  · revert c
    decide

/-! ## Complete lists -/

/-- One callback, as a step of the record. -/
def Vip.callback (v : Vip) (oe : Outcome × Entry NodeId Msg) : Option Vip :=
  some (handle oe.1 v oe.2).1

/-- After the entry the vip is not in `ST_START` with a complete list. -/
def Unfinished (v : Vip) (oe : Outcome × Entry NodeId Msg) : Prop :=
  isStatement oe.2 = false → (handle oe.1 v oe.2).1.state = .start →
    listEntries (handle oe.1 v oe.2).1.nodeList ≠ (handle oe.1 v oe.2).1.memberListEntries

/-- In `ST_START` the remembered master departs, or some member is not on the list yet. -/
def Advances (v : Vip) : Entry NodeId Msg → Prop
  | .confchg memberList leftList _ =>
    v.state = .start → v.masterId ∉ leftList → ∃ x ∈ memberList, x ∉ ids v.nodeList
  | .message _ _ => True

/-- The members of the group after an entry. -/
def groupAfter (group : List NodeId) : Entry NodeId Msg → List NodeId
  | .confchg memberList _ _ => memberList
  | .message _ _ => group

/-- What corosync promises of an entry: a configuration change lists each member once, whoever was
one is in one of its two lists, and a message comes from a member. -/
def Promised (group : List NodeId) : Entry NodeId Msg → Prop
  | .confchg memberList leftList _ => memberList.Nodup ∧ (∀ x ∈ leftList, x ∉ memberList) ∧
      ∀ x ∈ group, x ∈ memberList ∨ x ∈ leftList
  | .message nodeid _ => nodeid ∈ group

/-- The entries of a member of the group, from a moment on. -/
def Delivered (group : List NodeId) : List (Outcome × Entry NodeId Msg) → Prop
  | [] => True
  | (_, e) :: es => Promised group e ∧ Delivered (groupAfter group e) es

/-- A list in order, of members of the group. -/
structure Enlisted (group : List NodeId) (l : List Node) : Prop where
  ordered : WellOrdered l
  subset : ids l ⊆ group

section Complete

variable {o : Outcome} {v : Vip} {group : List NodeId}

theorem Enlisted.sublist {l l' : List Node} (h : Enlisted group l') (hs : l.Sublist l') :
    Enlisted group l :=
  ⟨h.ordered.sublist hs, fun _ hx => h.subset ((hs.map _).subset hx)⟩

/-- **The count is the set**: a list of members is as long as the member list if and only if every
member is on it. -/
theorem Enlisted.length_iff {l : List Node} (h : Enlisted group l) (hd : group.Nodup) :
    listEntries l = group.length ↔ group ⊆ ids l := by
  have hle := h.ordered.nodup.subperm h.subset
  rw [← length_ids]
  constructor
  · intro hlen
    -- distinct members of the group, as many as there are
    have hperm : (ids l).Perm group := hle.perm_of_length_le (le_of_eq hlen.symm)
    exact hperm.symm.subset
  · exact fun hall => le_antisymm hle.length_le (hd.subperm hall).length_le

/-- After the departures of a configuration change the list has another length than the member list
if and only if some member was not on it. -/
theorem Enlisted.missing_iff {l : List Node} (h : Enlisted group l) {members left joined : List NodeId}
    (hp : Promised group (.confchg members left joined)) :
    listEntries (Peer.remaining l left) ≠ members.length ↔ ∃ x ∈ members, x ∉ ids l := by
  obtain ⟨hd, hgone, hcome⟩ := hp
  have hleft : Enlisted members (Peer.remaining l left) := by
    refine ⟨Peer.wellOrdered_remaining h.ordered left, fun x hx => ?_⟩
    obtain ⟨hl, hne⟩ := (Peer.mem_ids_remaining h.ordered).mp hx
    exact (hcome x (h.subset hl)).resolve_right hne
  -- no member is among those who have departed
  have hstay (x : NodeId) (hx : x ∈ members) : x ∈ ids (Peer.remaining l left) ↔ x ∈ ids l :=
    (Peer.mem_ids_remaining h.ordered).trans (and_iff_left fun hl => hgone x hl hx)
  rw [Ne, hleft.length_iff hd]
  constructor
  · intro hn
    by_contra hall
    apply hn
    intro x hx
    exact (hstay x hx).mpr (by_contra fun hl => hall ⟨x, hx, hl⟩)
  · rintro ⟨x, hx, hl⟩ hall
    exact hl ((hstay x hx).mp (hall hx))

/-- A transaction keeps the list or leaves none. -/
theorem Enlisted.fsm (h : Enlisted group v.nodeList) (o : Outcome) (e : Event) :
    Enlisted group (fsmDoTransaction o v e).vip.nodeList := by
  rcases fsmDoTransaction_nodeList o v e with hl | hl <;> rw [hl]
  exacts [h, ⟨WellOrdered.nil, List.nil_subset _⟩]

/-- The departures take off the list those who are members no longer. -/
theorem Enlisted.nodesDown (h : Enlisted group v.nodeList) (o : Outcome) {members left : List NodeId}
    (hp : ∀ x ∈ group, x ∈ members ∨ x ∈ left) : Enlisted members (nodesDown o v left).1.nodeList := by
  -- Induction on the departures, with one member less in the group each time.
  induction left generalizing v group with
  | nil => exact ⟨h.ordered, fun x hx => (hp x (h.subset hx)).resolve_right List.not_mem_nil⟩
  | cons x left ih =>
    have hx : Enlisted (group.filter (· ≠ x)) (forget v x).nodeList := by
      refine ⟨h.ordered.nodeRemove x, fun y hy => ?_⟩
      obtain ⟨hl, hne⟩ := h.ordered.mem_ids_nodeRemove.mp hy
      exact List.mem_filter.mpr ⟨h.subset hl, by simpa using hne⟩
    refine ih (Enlisted.fsm hx o _) fun y hy => ?_
    obtain ⟨hg, hne⟩ := List.mem_filter.mp hy
    rcases hp y hg with hm | hl
    · exact Or.inl hm
    · exact Or.inr ((List.mem_cons.mp hl).resolve_left (by simpa using hne))

/-- The list after a message of a member. -/
theorem Enlisted.learn (h : Enlisted group v.nodeList) (o : Outcome) (nm : NodeMsg) {y : NodeId}
    (hy : y ∈ group) : Enlisted group (learn o v nm y).nodeList := by
  have hadd : Enlisted group (nodeAdd true v.nodeList y nm.priority) := by
    refine ⟨h.ordered.nodeAdd y _, fun x hx => ?_⟩
    rcases mem_ids_nodeAdd.mp hx with rfl | hx
    exacts [hy, h.subset hx]
  rw [learn_nodeList]
  exact hadd.sublist (nodeAdd_sublist _ _ _ _)

/-- **One callback** keeps a list of members. -/
theorem Enlisted.handle (h : Enlisted group v.nodeList) (o : Outcome) {e : Entry NodeId Msg}
    (he : Promised group e) : Enlisted (groupAfter group e) (handle o v e).1.nodeList := by
  cases e with
  | confchg members left joined =>
    have hdown := Enlisted.nodesDown (v := { v with memberListEntries := members.length }) h o he.2.2
    simp only [CpgFailover.handle, confchgCallback, groupAfter]
    split_ifs
    exacts [Enlisted.fsm hdown o _, hdown]
  | message y m =>
    cases m with
    | sql => exact h
    | nodeState nm =>
      have hlearn := h.learn o nm he
      simp only [CpgFailover.handle, deliverCallback, fsmInputNewStateMessage, groupAfter]
      cases stateMessageEvent (CpgFailover.learn o v nm y) nm y with
      | none => exact hlearn
      | some event => exact hlearn.fsm o event

/-- `act` does not leave the vip in `ST_START`. -/
theorem act_state (o : Outcome) (v : Vip) : (act o v).vip.state ≠ .start := by
  unfold act
  split_ifs
  · rw [becomeMaster_vip]
    split_ifs <;> simp
  · simp

/-- Departures do not bring a vip into `ST_START`. -/
theorem nodesDown_state (hs : v.state ≠ .start) (left : List NodeId) :
    (nodesDown o v left).1.state ≠ .start := by
  induction left generalizing v with
  | nil => exact hs
  | cons x left ih =>
    apply ih
    intro h
    rw [fsmInputNodeDown] at h
    rw [fsmDoTransaction_start (nodeDownEvent_ne_startup v x) h] at h
    exact hs h

/-- The departures in `ST_START`: other nodes are taken off the list, and the remembered master
takes the vip out of the state. -/
theorem nodesDown_start (hs : v.state = .start) (left : List NodeId) :
    (v.masterId ∈ left → (nodesDown o v left).1.state ≠ .start) ∧
      (v.masterId ∉ left → (nodesDown o v left).1.state = .start ∧
        (nodesDown o v left).1.nodeList = left.foldl nodeRemove v.nodeList ∧
          (nodesDown o v left).1.memberListEntries = v.memberListEntries) := by
  -- Induction on the departures: that of the master ends the state, the others shorten the list.
  induction left generalizing v with
  | nil => exact ⟨fun h => absurd h List.not_mem_nil, fun _ => ⟨hs, rfl, rfl⟩⟩
  | cons x left ih =>
    by_cases hm : v.masterId = x
    · have hact : fsmInputNodeDown o v x = act o (forget v x) := by
        rw [fsmInputNodeDown_of_eq hm, hs]
        rfl
      refine ⟨fun _ => ?_, fun h => absurd (by simp [hm]) h⟩
      simp only [nodesDown, hact]
      exact nodesDown_state (act_state o _) left
    · have hnoop : (fsmInputNodeDown o v x).vip = forget v x := by
        rw [fsmInputNodeDown_of_ne hm, hs]
        rfl
      obtain ⟨h₁, h₂⟩ := ih (v := forget v x) hs
      have hmem : v.masterId ∈ x :: left ↔ v.masterId ∈ left := by simp [hm]
      rw [hmem]
      simp only [nodesDown, hnoop]
      exact ⟨h₁, h₂⟩

/-- A configuration change in `ST_START`. -/
theorem unfinished_confchg (o : Outcome) (h : Enlisted group v.nodeList)
    {members left joined : List NodeId} (hp : Promised group (.confchg members left joined)) :
    Unfinished v (o, .confchg members left joined) ↔ Advances v (.confchg members left joined) := by
  generalize hd : nodesDown o { v with memberListEntries := members.length } left = d
  -- the arrival at the end only announces
  have hafter : (handle o v (.confchg members left joined)).1 = d.1 := by
    simp only [handle, confchgCallback, hd]
    split_ifs
    · exact fsmInputNodeUp_vip o d.1
    · rfl
  by_cases hs : v.state = .start
  · obtain ⟨h₁, h₂⟩ := nodesDown_start (o := o) (v := { v with memberListEntries := members.length })
      hs left
    rw [hd] at h₁ h₂
    by_cases hm : v.masterId ∈ left
    · refine iff_of_true (fun _ h => ?_) fun _ h => absurd hm h
      rw [hafter] at h
      exact absurd h (h₁ hm)
    · obtain ⟨hds, hlist, hsize⟩ := h₂ hm
      have hmissing : listEntries (left.foldl nodeRemove v.nodeList) ≠ members.length ↔
          ∃ x ∈ members, x ∉ ids v.nodeList := h.missing_iff hp
      simp only [Unfinished, Advances, hafter, hds, hlist, hsize, hs, hmissing]
      exact ⟨fun h _ _ => h rfl trivial, fun h _ _ => h trivial hm⟩
  · refine iff_of_true (fun _ h => ?_) fun h => absurd h hs
    have hds := nodesDown_state (o := o)
      (v := { v with memberListEntries := members.length }) hs left
    rw [hd] at hds
    rw [hafter] at h
    exact absurd h hds

/-- **A state message never leaves a complete list unnoticed.** -/
theorem unfinished_message (o : Outcome) (v : Vip) (y : NodeId) (m : Msg) :
    Unfinished v (o, .message y m) := by
  cases m with
  | sql => exact fun h => by cases h
  | nodeState nm =>
    intro _
    show (fsmInputNewStateMessage o v nm y).vip.state = .start →
      listEntries (fsmInputNewStateMessage o v nm y).vip.nodeList ≠
        (fsmInputNewStateMessage o v nm y).vip.memberListEntries
    have hr := messageRaises_stateMessageEvent (learn o v nm y) nm y
    have hne := stateMessageEvent_ne_startup (learn o v nm y) nm y
    rw [fsmInputNewStateMessage]
    generalize stateMessageEvent (learn o v nm y) nm y = event at hr hne
    intro h
    cases event with
    | none =>
      -- without an event the list is not complete
      cases hr with
      | quiet _ hone _ => exact (hone h).2
    | some e =>
      -- an event in `ST_START` moves on, whatever it is
      replace h : (fsmDoTransaction o (learn o v nm y) e).vip.state = .start := h
      have hst : (learn o v nm y).state = .start := by
        rwa [fsmDoTransaction_start (fun he => hne (congrArg some he)) h] at h
      rw [fsmDoTransaction, hst] at h
      cases hr with
      | duplicate | complete => cases h
      | alone => exact absurd h (act_state o _)
      | request hserve =>
        rw [hst] at hserve
        cases hserve

/-- **One callback**. -/
theorem unfinished_iff (h : Enlisted group v.nodeList) {oe : Outcome × Entry NodeId Msg}
    (he : Promised group oe.2) : Unfinished v oe ↔ Advances v oe.2 := by
  obtain ⟨o, e⟩ := oe
  cases e with
  | confchg members left joined => exact unfinished_confchg o h he
  | message y m => exact iff_of_true (unfinished_message o v y m) trivial

end Complete

/-- **A vip in `ST_START` misses somebody.** Along every sequence of configuration changes and
messages that corosync delivers: after each of them a vip in `ST_START` has a list of another length
than the member list, if and only if every configuration change that it handles in `ST_START` takes
its remembered master away, or has a member that is not on its list. -/
theorem start_incomplete {group : List NodeId} {v : Vip} (hv : Enlisted group v.nodeList)
    {es : List (Outcome × Entry NodeId Msg)} (hes : Delivered group es) :
    Along Vip.callback Unfinished v es ↔ Along Vip.callback (fun v oe => Advances v oe.2) v es := by
  -- Induction on the entries: each leaves a list of members.
  induction es generalizing v group with
  | nil => exact Iff.rfl
  | cons oe es ih =>
    refine and_congr (unfinished_iff hv hes.1) (forall₂_congr fun w hw => ?_)
    obtain rfl := Option.some.inj hw
    exact ih (hv.handle oe.1 hes.1) hes.2

/-- A vip that has been started as node 1. -/
def startedVip : Vip :=
  { Vip.fresh (plainConfig 10 noProfiles) with
    state := .start, nodeId := 1, virtualIpThread := some 0 }

/-- Node 1 joins a group of three and hears itself; one of the others departs unheard, and the third
completes the list. -/
def thirdDeparts : List (Outcome × Entry NodeId Msg) :=
  [(allSucceed, .confchg [3, 2, 1] [] [1]),
    (allSucceed, .message 1 (.nodeState ⟨10, .start, []⟩)), (allSucceed, .confchg [2, 1] [3] []),
    (allSucceed, .message 2 (.nodeState ⟨20, .master, []⟩))]

theorem start_incomplete_thirdDeparts :
    Along Vip.callback Unfinished startedVip thirdDeparts := by
  have hnobody : Enlisted [] startedVip.nodeList := ⟨WellOrdered.nil, by decide⟩
  refine (start_incomplete hnobody ?_).mpr ?_
  · simp [thirdDeparts, Delivered, Promised, groupAfter]
  · simp only [thirdDeparts, Along, Vip.callback, Option.some.injEq, forall_eq']
    -- node 2 is not on the list when node 3 departs
    exact ⟨fun _ _ => ⟨2, by decide, by decide⟩, trivial, fun _ _ => ⟨2, by decide, by decide⟩,
      trivial, trivial⟩

/-- Node 1 joins a group of two and hears itself; the other member departs unheard. -/
def unheardDeparts : List (Outcome × Entry NodeId Msg) :=
  [(allSucceed, .confchg [2, 1] [] [1]), (allSucceed, .message 1 (.nodeState ⟨10, .start, []⟩)),
    (allSucceed, .confchg [1] [2] [])]

/-- **The list is complete and the vip waits on**: the member that was missing has departed. -/
theorem start_stalled : ¬ ∀ (v : Vip) (es : List (Outcome × Entry NodeId Msg)),
    v.state = .start → v.nodeList = [] → Delivered [] es →
      Along Vip.callback Unfinished v es := by
  intro h
  have hdel : Delivered [] unheardDeparts := by
    simp [unheardDeparts, Delivered, Promised, groupAfter]
  have hall := h startedVip unheardDeparts rfl rfl hdel
  simp only [unheardDeparts, Along, Vip.callback, Option.some.injEq, forall_eq'] at hall
  exact hall.2.2.1 rfl (by decide) (by decide)

end CpgFailover
