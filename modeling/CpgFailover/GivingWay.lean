import CpgFailover.Departures
import CpgFailover.Membership
import CpgFailover.RollbackTimer

/-!
# Giving way

A master with autorollback that hears a node of a higher priority begins a rollback, at the end of
which it is stopped. So it is no master any more as long as it knows such a node, unless the
rollback is called off: its target has departed, or is not at the head of the list any more,
although the new head has a higher priority too.

## Main definitions

* `Ranked`: a list in order, with the priorities of the nodes
* `Topped`: a master with autorollback knows nobody of a higher priority
* `Armed`: a vip in `ST_RBACK` has a thread that will stop it
* `GetsMemory`, `GetsThread`: `node_add` gets its memory, and a rollback its thread
* `StandsFirm`: a rollback is not called off while a node of a higher priority is known
* `Yielding`: the invariant of the processes

## Main results

* `Topped.handle`: no callback makes a master that knows a node of a higher priority, but by calling
  a rollback off
* `StandsFirm.topped`: nor does one that stands firm by calling a rollback off
* `Armed.step`, `Armed.deliver`: the thread of a rollback is there until it stops the vip
* `Yielding.act`, `Yielding.deliver`: each step keeps the invariant
-/

namespace CpgFailover

open Agreed

/-- Distinct ids in order of priority, each with the priority of its node. -/
structure Ranked (prio : NodeId → ℤ) (l : List Node) : Prop where
  ordered : WellOrdered l
  priority : ∀ x ∈ l, x.priority = prio x.nodeid

/-- A master with autorollback knows nobody of a higher priority. -/
def Topped (v : Vip) : Prop :=
  v.state = .master → v.config.autorollback = true →
    ∀ x ∈ v.nodeList, x.priority ≤ v.config.priority

/-! ## What the callbacks do to the list -/

section Callbacks

variable {prio : NodeId → ℤ} {o : Outcome} {v : Vip} {l : List Node} {e : Entry NodeId Msg}

theorem ranked_nil (prio : NodeId → ℤ) : Ranked prio [] where
  ordered := .nil
  priority x hx := by cases hx

theorem Ranked.nodeRemove (h : Ranked prio l) (x : NodeId) : Ranked prio (nodeRemove l x) where
  ordered := h.ordered.nodeRemove x
  priority y hy := h.priority y ((nodeRemove_sublist l x).subset hy)

/-- Whoever is on the list after an addition was on it before, or is the new node. -/
theorem mem_nodeAdd {x : Node} {y : NodeId} {p : ℤ} (hx : x ∈ nodeAdd true l y p) :
    x = ⟨y, p⟩ ∨ x ∈ l := by
  by_cases hy : y ∈ ids l
  · rw [nodeAdd_of_mem hy] at hx
    exact Or.inr hx
  · rw [nodeAdd_of_not_mem hy] at hx
    exact mem_insertNode.mp hx

theorem Ranked.nodeAdd (h : Ranked prio l) {y : NodeId} {p : ℤ} (hp : p = prio y) :
    Ranked prio (nodeAdd true l y p) where
  ordered := h.ordered.nodeAdd y p
  priority x hx := by
    rcases mem_nodeAdd hx with rfl | hx
    · exact hp
    · exact h.priority x hx

/-- A transaction leaves the list, or goes down. -/
theorem Ranked.fsm (h : Ranked prio v.nodeList) (o : Outcome) (e : Event) :
    Ranked prio (fsmDoTransaction o v e).vip.nodeList := by
  rcases fsmDoTransaction_moved o v e with hv | ⟨s, r, rt, vt, hv⟩ <;> rw [hv]
  · exact ranked_nil prio
  · exact h

theorem Ranked.nodesDown (h : Ranked prio v.nodeList) (o : Outcome) (left : List NodeId) :
    Ranked prio (nodesDown o v left).1.nodeList := by
  induction left generalizing v with
  | nil => exact h
  | cons x left ih => exact ih (Ranked.fsm (v := forget v x) (h.nodeRemove x) o _)

/-- The list takes the true priorities from the messages. -/
theorem Ranked.handle (hm : o.malloc = true) (h : Ranked prio v.nodeList)
    (he : ∀ y nm, e = .message y (.nodeState nm) → nm.priority = prio y) :
    Ranked prio (handle o v e).1.nodeList := by
  cases e with
  | confchg members left joined =>
    have hleft := Ranked.nodesDown (v := { v with memberListEntries := members.length }) h o left
    simp only [CpgFailover.handle, confchgCallback]
    split_ifs
    · rw [fsmInputNodeUp_vip]
      exact hleft
    · exact hleft
  | message y m =>
    cases m with
    | sql => exact h
    | nodeState nm =>
      have hlearn : Ranked prio (learn o v nm y).nodeList := by
        rw [learn_nodeList, hm]
        exact h.nodeAdd (he y nm rfl)
      simp only [CpgFailover.handle, deliverCallback, fsmInputNewStateMessage]
      cases stateMessageEvent (learn o v nm y) nm y with
      | some ev => exact hlearn.fsm o ev
      | none => exact hlearn

/-- Whoever heads its list knows nobody of a higher priority. -/
theorem Ranked.le_of_first (h : Ranked prio v.nodeList) (hown : v.config.priority = prio v.nodeId)
    (hf : v.nodeId = nodeFirst v.nodeList) : ∀ x ∈ v.nodeList, x.priority ≤ v.config.priority := by
  intro x hx
  cases hl : v.nodeList with
  | nil => simp [hl] at hx
  | cons n l =>
    rw [hl] at h hx
    have hself : v.nodeId = n.nodeid := by rw [hf, hl, nodeFirst]
    rw [hown, hself, ← h.priority n List.mem_cons_self]
    exact h.ordered.priority_le hx

/-- A transaction other than a request makes a master only of a node that heads its list, or of one
in rollback. -/
theorem Topped.fsm (h : Topped v) (hl : Ranked prio v.nodeList)
    (hown : v.state ≠ .idle → v.config.priority = prio v.nodeId) (hs : v.state ≠ .rback)
    {e : Event} (he : e ≠ .startup) (hreq : e ≠ .rbackReq) :
    Topped (fsmDoTransaction o v e).vip ∧ (fsmDoTransaction o v e).vip.state ≠ .rback := by
  have hnot {w : Vip} (hw : w.state ≠ .master) : Topped w := fun hm => absurd hm hw
  have hto := fsmTo_fsmDoTransaction o v e
  generalize fsmDoTransaction o v e = r at hto ⊢
  cases hto with
  | stay | cleanUp | nodeup | backupup => exact ⟨h, hs⟩
  | down | resign => exact ⟨hnot (by simp), by simp⟩
  | claim hf hc =>
    have hrun : v.state ≠ .idle := by
      rcases hc with ⟨hs, -⟩ | ⟨hs, -⟩ <;> simp [hs]
    rw [becomeMaster_vip]
    split_ifs
    · exact ⟨fun _ _ => hl.le_of_first (hown hrun) hf, by simp⟩
    · exact ⟨hnot (by simp), by simp⟩
  | observe => exact ⟨hnot (by simp [observe]), by simp [observe]⟩
  | request => exact absurd rfl hreq
  | resume hr => exact absurd hr hs
  | goUp => exact absurd rfl he

/-- Departures make a master only of a node that heads its list, or of one in rollback. -/
theorem Topped.nodesDown (h : Topped v) (hl : Ranked prio v.nodeList)
    (hown : v.state ≠ .idle → v.config.priority = prio v.nodeId) (hs : v.state ≠ .rback)
    (left : List NodeId) : Topped (nodesDown o v left).1 := by
  induction left generalizing v with
  | nil => exact h
  | cons x left ih =>
    have hforget : Topped (forget v x) := fun hm ha y hy =>
      h hm ha y ((nodeRemove_sublist v.nodeList x).subset hy)
    obtain ⟨htop, hs'⟩ := Topped.fsm (o := o) hforget (hl.nodeRemove x) hown hs
      (nodeDownEvent_ne_startup v x)
      (by rcases nodeDownEvent_cases v x with he | he <;> simp [he])
    refine ih htop (Ranked.fsm (v := forget v x) (hl.nodeRemove x) o _) (fun hrun => ?_) hs'
    -- the node keeps its id while it runs
    rcases fsmDoTransaction_moved o (forget v x) (nodeDownEvent v x) with hv | ⟨s, r, rt, vt, hv⟩
    · exact absurd (congrArg Vip.state hv) hrun
    · have hconfig := congrArg Vip.config hv
      have hid := congrArg Vip.nodeId hv
      have hrun' : v.state ≠ .idle := by
        intro hi
        refine hrun ?_
        show (fsmDoTransaction o (forget v x) (nodeDownEvent v x)).vip.state = .idle
        rw [fsmDoTransaction_idle (v := forget v x) hi (nodeDownEvent_ne_startup v x)]
        exact hi
      show (fsmDoTransaction o (forget v x) (nodeDownEvent v x)).vip.config.priority = _
      rw [hconfig]
      exact (hown hrun').trans (congrArg prio hid.symm)

/-- A request turns a master that knows a node of a higher priority into `ST_RBACK`. -/
theorem topped_request (hl : Ranked prio v.nodeList) (hown : v.config.priority = prio v.nodeId)
    (hs : v.state = .master) : Topped (fsmDoTransaction o v .rbackReq).vip := by
  rw [fsmDoTransaction_request hs]
  by_cases hf : nodeFirst v.nodeList = v.nodeId
  · rw [rollback_self hf]
    exact fun _ _ => hl.le_of_first hown hf.symm
  · cases hn : v.nodeList with
    | nil =>
      rw [rollback, hn]
      intro _ _ x hx
      simp [hn] at hx
    | cons n l =>
      rw [hn] at hf
      rw [rollback_cons hn hf]
      intro hm
      cases ht : o.threadCreate <;> simp [ht] at hm

/-- A message of no higher priority leaves a master what it is. -/
theorem Topped.learn (hm : o.malloc = true) (h : Topped v) {nm : NodeMsg} {y : NodeId}
    (hp : v.state = .master → v.config.autorollback = true → nm.priority ≤ v.config.priority) :
    Topped (learn o v nm y) := by
  intro hmaster hauto x hx
  rw [learn_nodeList, hm] at hx
  rw [learn_state] at hmaster
  rw [learn_config] at hauto ⊢
  rcases mem_nodeAdd hx with rfl | hx
  · exact hp hmaster hauto
  · exact h hmaster hauto x hx

/-- A state message makes no master that knows a node of a higher priority. -/
theorem Topped.newStateMessage (hm : o.malloc = true) (h : Topped v) (hl : Ranked prio v.nodeList)
    (hown : v.state ≠ .idle → v.config.priority = prio v.nodeId) (hs : v.state ≠ .rback)
    {nm : NodeMsg} {y : NodeId} (hp : nm.priority = prio y) :
    Topped (fsmInputNewStateMessage o v nm y).vip := by
  have hlist : Ranked prio (CpgFailover.learn o v nm y).nodeList := by
    rw [learn_nodeList, hm]
    exact hl.nodeAdd hp
  have hmem : (CpgFailover.learn o v nm y).nodeList ≠ [] := by
    rw [learn_nodeList, hm]
    exact nodeAdd_ne_nil _ _ _
  have hraise := messageRaises_stateMessageEvent (CpgFailover.learn o v nm y) nm y
  have hlow (hp : v.state = .master → v.config.autorollback = true →
      nm.priority ≤ v.config.priority) : Topped (CpgFailover.learn o v nm y) := h.learn hm hp
  rw [← learn_state o v nm y] at hs hown hlow
  rw [← learn_config o v nm y] at hown hlow
  rw [← learn_nodeId o v nm y] at hown
  rw [fsmInputNewStateMessage]
  generalize CpgFailover.learn o v nm y = w at *
  generalize stateMessageEvent w nm y = ev at *
  cases hraise with
  | duplicate hp => exact ((hlow fun _ _ => hp.le).fsm hlist hown hs (by simp) (by simp)).1
  | alone _ hstart | complete _ hstart =>
    have htop : Topped w := fun hmaster => by simp [hstart] at hmaster
    exact (htop.fsm hlist hown hs (by simp) (by simp)).1
  | request hserves =>
    have hmaster : w.state = .master := by
      cases hst : w.state <;> simp_all [State.serves]
    exact topped_request hlist (hown (by simp [hmaster])) hmaster
  | quiet _ _ hquiet =>
    apply hlow
    intro hmaster hauto
    by_contra hlt
    exact hquiet (by simp [hmaster, State.serves]) ⟨hmem, hauto, not_le.mp hlt⟩

/-- **No callback makes a master that knows a node of a higher priority**, unless it calls a
rollback off. -/
theorem Topped.handle (hm : o.malloc = true) (h : Topped v) (hl : Ranked prio v.nodeList)
    (hown : v.state ≠ .idle → v.config.priority = prio v.nodeId) (hs : v.state ≠ .rback)
    (he : ∀ y nm, e = .message y (.nodeState nm) → nm.priority = prio y) :
    Topped (handle o v e).1 := by
  cases e with
  | confchg members left joined =>
    have hleft := Topped.nodesDown (o := o)
      (v := { v with memberListEntries := members.length }) h hl hown hs left
    simp only [CpgFailover.handle, confchgCallback]
    split_ifs
    · rw [fsmInputNodeUp_vip]
      exact hleft
    · exact hleft
  | message y m =>
    cases m with
    | sql => exact h
    | nodeState nm => exact h.newStateMessage hm hl hown hs (he y nm rfl)

end Callbacks

/-! ## Conditions on the handling of an entry -/

/-- `node_add` gets the memory it asks for. -/
def GetsMemory (_ : Proc) (_ : Entry NodeId Msg) (o : Outcome) : Prop := o.malloc = true

/-- A rollback that the entry begins gets its thread. -/
def GetsThread (_ : Proc) (_ : Entry NodeId Msg) (o : Outcome) : Prop := o.threadCreate ≠ none

/-- The entry calls no rollback off while a node of a higher priority is known. The departures of a
configuration change leave the target of the rollback at the head of the list, that of the remembered
master apart, or they leave nobody of a higher priority on it. A message of a node of a higher
priority finds the target at the head, and its sender on the list already or behind the target. -/
def StandsFirm (p : Proc) (e : Entry NodeId Msg) (_ : Outcome) : Prop :=
  p.vip.state = .rback →
    match e with
    | .confchg _ left _ => TargetingThroughout p.vip left ∨
        ∀ x ∈ p.vip.nodeList, x.nodeid ∉ left → x.priority ≤ p.vip.config.priority
    | .message y (.nodeState nm) => p.vip.config.priority < nm.priority → Targeting p.vip ∧
        (y ∈ ids p.vip.nodeList ∨ ∀ x ∈ p.vip.nodeList.head?, nm.priority < x.priority)
    | .message _ (.sql _ _) => True

instance (p : Proc) (e : Entry NodeId Msg) (o : Outcome) : Decidable (GetsMemory p e o) := by
  unfold GetsMemory
  infer_instance

instance (p : Proc) (e : Entry NodeId Msg) (o : Outcome) : Decidable (GetsThread p e o) := by
  unfold GetsThread
  infer_instance

instance (p : Proc) (o : Outcome) : (e : Entry NodeId Msg) → Decidable (StandsFirm p e o)
  | .confchg _ _ _ | .message _ (.nodeState _) | .message _ (.sql _ _) => by
    unfold StandsFirm
    infer_instance

section Firm

variable {prio : NodeId → ℤ} {o : Outcome} {p : Proc} {v : Vip} {e : Entry NodeId Msg}

/-- Departures that call a rollback off leave the list without the departed. -/
theorem nodesDown_calledOff (hs : v.state = .rback) {left : List NodeId}
    (h : (nodesDown o v left).1.state = .master) :
    ¬ TargetingThroughout v left ∧ (nodesDown o v left).1.nodeList = without v.nodeList left := by
  by_cases ht : TargetingThroughout v left
  · have hstate := congrArg Upshot.state ((nodesDown_rollback (o := o) hs).1 ht)
    exact absurd (h.symm.trans hstate) (by simp [stillUp])
  · have hlist := congrArg Upshot.nodeList ((nodesDown_rollback (o := o) hs).2 ht)
    exact ⟨ht, hlist.trans (forgets_nodeList v left)⟩

/-- A target at the head of the list stays there when a node is added behind it. -/
theorem Targeting.nodeAdd (h : Targeting v) {y : NodeId} {q : ℤ}
    (hy : y ∈ ids v.nodeList ∨ ∀ x ∈ v.nodeList.head?, q < x.priority) :
    v.rollbackNodeId = nodeFirst (nodeAdd true v.nodeList y q) := by
  rcases hy with hy | hy
  · rw [nodeAdd_of_mem hy]
    exact h.2
  · have hfirst := h.2
    cases hl : v.nodeList with
    | nil =>
      rw [hl] at hfirst
      exact absurd hfirst h.1
    | cons n l =>
      rw [hl] at hfirst hy
      rw [nodeFirst_nodeAdd_of_lt (hy n rfl)]
      exact hfirst

/-- In `ST_RBACK` a state message calls the rollback off only if its sender has a higher priority and
the target is not at the head of the list with the sender on it. -/
theorem newStateMessage_calledOff (hs : v.state = .rback) {nm : NodeMsg} {y : NodeId}
    (h : (fsmInputNewStateMessage o v nm y).vip.state = .master) :
    v.config.priority < nm.priority ∧
      ¬ (v.rollbackNodeId ≠ 0 ∧ v.rollbackNodeId = nodeFirst (learn o v nm y).nodeList) := by
  have hw : (learn o v nm y).state = .rback := (learn_state o v nm y).trans hs
  have hr : (learn o v nm y).rollbackNodeId = v.rollbackNodeId := by rw [learn_eq]
  have hraises := messageRaises_stateMessageEvent (learn o v nm y) nm y
  simp only [fsmInputNewStateMessage] at h
  cases hev : stateMessageEvent (learn o v nm y) nm y with
  | none =>
    rw [hev] at h
    exact absurd (hw.symm.trans h) (by simp)
  | some event =>
    rw [hev] at hraises h
    dsimp only [fsmDoTransaction] at h
    rw [hw] at h
    cases hraises with
    | duplicate => exact absurd (hw.symm.trans h) (by simp)
    | alone _ hstart | complete _ hstart => exact absurd (hw.symm.trans hstart) (by simp)
    | request _ _ _ hlt =>
      refine ⟨by simpa using hlt, fun ht => ?_⟩
      have hstay : rbackStop (learn o v nm y) = ⟨.success, learn o v nm y, []⟩ :=
        if_neg (not_or.mpr ⟨hr ▸ ht.1, not_not.mpr (hr ▸ ht.2)⟩)
      simp only [table, hstay] at h
      exact absurd (hw.symm.trans h) (by simp)

/-- **A callback that stands firm does not make a master that knows a node of a higher priority.** -/
theorem StandsFirm.topped (hf : StandsFirm p e o) (hm : o.malloc = true)
    (hl : Ranked prio p.vip.nodeList) (hs : p.vip.state = .rback) :
    Topped (handle (p.withHandle o) p.vip e).1 := by
  have hf := hf hs
  intro hmaster _ x hx
  rw [handle_config]
  cases e with
  | confchg members left joined =>
    have hdown : (nodesDown (p.withHandle o) { p.vip with memberListEntries := members.length }
        left).1.state = .master ∧ x ∈ (nodesDown (p.withHandle o)
          { p.vip with memberListEntries := members.length } left).1.nodeList := by
      simp only [handle, confchgCallback] at hmaster hx
      split_ifs at hmaster hx
      · rw [fsmInputNodeUp_vip] at hmaster hx
        exact ⟨hmaster, hx⟩
      · exact ⟨hmaster, hx⟩
    obtain ⟨hcalled, hlist⟩ := nodesDown_calledOff
      (v := { p.vip with memberListEntries := members.length }) hs hdown.1
    have hx := hdown.2
    rw [hlist] at hx
    rcases hf with ht | hlow
    · exact absurd (targetingThroughout_size.mpr ht) hcalled
    · have hid := (Peer.mem_ids_remaining hl.ordered).mp (mem_ids.mpr ⟨x, hx, rfl⟩)
      exact hlow x ((Peer.remaining_sublist p.vip.nodeList left).subset hx) hid.2
  | message y m =>
    cases m with
    | sql => exact absurd (hs.symm.trans hmaster) (by simp)
    | nodeState nm =>
      obtain ⟨hlt, hoff⟩ := newStateMessage_calledOff hs hmaster
      obtain ⟨htarget, hy⟩ := hf hlt
      refine absurd ⟨htarget.1, ?_⟩ hoff
      rw [learn_nodeList]
      have hm' : (p.withHandle o).malloc = true := hm
      rw [hm']
      exact htarget.nodeAdd hy

end Firm

/-! ## The thread of a rollback -/

/-- The phases in which a rollback thread has still to stop the vip. -/
def RollbackPc.pending : RollbackPc → Bool
  | .counting | .stopping => true
  | _ => false

/-- Rollback threads have distinct handles, all of them taken, and a vip in `ST_RBACK` has one that
will stop it. -/
structure Armed (p : Proc) : Prop where
  distinct : (p.rollbackThreads.map RollbackThread.id).Nodup
  bound : ∀ r ∈ p.rollbackThreads, r.id < p.nextThread
  pending : p.vip.state = .rback → ∃ r ∈ p.rollbackThreads, r.pc.pending = true

section Armed

variable {p p' : Proc} {r r' : RollbackThread}

theorem armed_fresh (c : Config) : Armed (Proc.fresh c) where
  distinct := List.nodup_nil
  bound r hr := by cases hr
  pending h := by cases h

/-- A step that leaves the rollback threads alone and begins no rollback. -/
theorem Armed.kept (h : Armed p) (ht : p'.rollbackThreads = p.rollbackThreads)
    (hn : p.nextThread ≤ p'.nextThread) (hs : p'.vip.state = .rback → p.vip.state = .rback) :
    Armed p' where
  distinct := by rw [ht]; exact h.distinct
  bound r hr := (h.bound r (ht ▸ hr)).trans_le hn
  pending hr := by rw [ht]; exact h.pending (hs hr)

/-- A thread that has its stop behind it is not the one a rollback waits for. -/
theorem Armed.other (h : Armed p) (hr : r ∈ p.rollbackThreads) (hpc : r.pc.pending = false)
    (hr' : r' ∈ p.rollbackThreads) (hpc' : r'.pc.pending = true) : r'.id ≠ r.id := by
  intro hid
  rw [List.inj_on_of_nodup_map h.distinct hr' hr hid, hpc] at hpc'
  cases hpc'

/-- A rollback thread moves on and keeps its handle. -/
theorem Armed.move (h : Armed p) (hr : r ∈ p.rollbackThreads) (hid : r'.id = r.id)
    (hpc : p.vip.state = .rback → r'.pc.pending = true ∨ r.pc.pending = false) :
    Armed (p.moveRollback r') := by
  have hids : (p.moveRollback r').rollbackThreads.map RollbackThread.id =
      p.rollbackThreads.map RollbackThread.id := by
    simp only [Proc.moveRollback, List.map_map]
    apply List.map_congr_left
    intro th _
    by_cases hth : th.id = r'.id <;> simp [hth]
  refine ⟨hids ▸ h.distinct, fun th hth => ?_, fun hs => ?_⟩
  · obtain ⟨th', hth', hid'⟩ := List.mem_map.mp (hids ▸ List.mem_map_of_mem hth)
    exact hid' ▸ h.bound th' hth'
  · rcases hpc hs with hp | hp
    · exact ⟨r', List.mem_map.mpr ⟨r, hr, if_pos hid.symm⟩, hp⟩
    · obtain ⟨th, hth, hpend⟩ := h.pending hs
      have hne := h.other hr hp hth hpend
      exact ⟨th, List.mem_map.mpr ⟨th, hth, if_neg (hid ▸ hne)⟩, hpend⟩

/-- A rollback thread returns, which no rollback waits for. -/
theorem Armed.gone (h : Armed p) (hr : r ∈ p.rollbackThreads)
    (hpc : p.vip.state = .rback → r.pc.pending = false) : Armed (p.endRollback r.id) := by
  have hsub := List.filter_sublist (p := fun th : RollbackThread => th.id ≠ r.id)
    (l := p.rollbackThreads)
  refine ⟨h.distinct.sublist (hsub.map _), fun th hth => h.bound th (hsub.mem hth), fun hs => ?_⟩
  obtain ⟨th, hth, hpend⟩ := h.pending hs
  have hne := h.other hr (hpc hs) hth hpend
  exact ⟨th, List.mem_filter.mpr ⟨hth, by simpa using hne⟩, hpend⟩

theorem Armed.start (h : Armed p) (created : Bool) : Armed (p.cmdStart created) := by
  by_cases hs : p.vip.state = .idle
  · cases created with
    | true =>
      rw [Proc.cmdStart_created hs]
      exact h.kept rfl (Nat.le_succ _) fun hr => (by cases hr)
    | false =>
      rw [Proc.cmdStart_failed hs]
      exact h.kept rfl le_rfl fun hr => (by cases hr)
  · rwa [Proc.cmdStart_running hs]

theorem Armed.stop (h : Armed p) (caller : Option ThreadId) : Armed (p.cmdStop caller) := by
  by_cases hs : p.vip.state = .idle
  · rwa [Proc.cmdStop_idle hs]
  · rw [Proc.cmdStop_running hs]
    exact h.kept rfl le_rfl fun hr => (by cases hr)

/-- Each local step keeps the thread of a rollback until it stops the vip. -/
theorem Armed.step (h : Armed p) {i : Input} (hi : ∀ t o e, i ≠ .deliver t o e)
    (hs : p.step i = some p') : Armed p' := by
  cases Proc.stepTo_of_step hs with
  | start created => exact h.start created
  | stop => exact h.stop none
  | down hd =>
    obtain ⟨-, ht, r, v, hv⟩ := Proc.downStep_vip hd
    exact h.kept ht (Proc.downStep_nextThread hd).ge fun hr => by rwa [hv] at hr
  | deliver o e => exact absurd rfl (hi _ o e)
  | @tick r hr hpc =>
    by_cases hs : p.vip.state = .rback
    · rw [Proc.tick, if_neg (not_not.mpr hs)]
      refine h.move hr rfl fun _ => Or.inl ?_
      dsimp only
      split_ifs <;> rfl
    · rw [Proc.tick, if_pos hs]
      exact h.gone hr fun hrback => absurd hrback hs
  | @rollbackStop r hr =>
    -- the stop ends the rollback
    have hidle : (p.cmdStop (some r.id)).vip.state = .idle := by
      by_cases hs : p.vip.state = .idle
      · rw [Proc.cmdStop_idle hs]
        exact hs
      · rw [Proc.cmdStop_running hs]
        rfl
    have hmem : r ∈ (p.cmdStop (some r.id)).rollbackThreads := by
      unfold Proc.cmdStop
      split_ifs <;> exact hr
    exact (h.stop (some r.id)).move hmem rfl fun hrback => by rw [hidle] at hrback; cases hrback
  | rollbackWait hr hpc => exact h.move hr rfl fun _ => Or.inr (by rw [hpc]; rfl)
  | @rollbackStart r created hr hpc =>
    exact (h.gone hr fun _ => by rw [hpc]; rfl).start created
  | cpgInitialize | contextSet | located | unlocated | join | dispatchFails | exitLoop | leave
  | finalize | finish => exact h.kept rfl le_rfl id

/-- A callback that begins a rollback arms it, if it gets its thread. -/
theorem Armed.deliver (h : Armed p) {o : Outcome} (ho : o.threadCreate ≠ none)
    (e : Entry NodeId Msg) : Armed (p.handleEntry o e).1 := by
  rcases rback_cases (p.withHandle o) p.vip e with ⟨hcalls, hstate⟩ | ⟨y, nm, rfl, hb⟩
  · refine h.kept (Proc.handleEntry_rollbackThreads hcalls) (Proc.handleEntry_rest p o e).1
      fun hs => ?_
    rw [Proc.handleEntry_vip] at hs
    exact hstate hs
  · obtain ⟨w, -, -, -, hp'⟩ := Proc.handleEntry_begins (o := o) hb ho
    rw [hp']
    refine ⟨?_, fun r hr => ?_, fun _ => ⟨_, List.mem_append_right _ List.mem_cons_self, ?_⟩⟩
    · simp only [List.map_append, List.map_cons, List.map_nil]
      apply h.distinct.append (List.nodup_singleton _)
      intro t hold hnew
      obtain ⟨r, hr, rfl⟩ := List.mem_map.mp hold
      exact absurd (List.mem_singleton.mp hnew) (h.bound r hr).ne
    · rcases List.mem_append.mp hr with hr | hr
      · exact (h.bound r hr).trans (Nat.lt_succ_self _)
      · obtain rfl := List.mem_singleton.mp hr
        exact Nat.lt_succ_self _
    · dsimp only
      split_ifs <;> rfl

end Armed

/-! ## The processes -/

/-- A process at its stage, whose list is in order, and which gives way to whoever it knows. -/
structure Yielding (d : Deployment) (n : NodeId) (k : Kind) (p : Proc) : Prop where
  stage : Stage d n k p
  ranked : Ranked d.prio p.vip.nodeList
  topped : Topped p.vip
  armed : Armed p

section Yielding

variable {d : Deployment} {n : NodeId} {k : Kind} {p p' : Proc}

theorem yielding_boot (d : Deployment) (n : NodeId) :
    Yielding d n .out (Proc.fresh (d.config n)) where
  stage := stage_boot d n
  ranked := ranked_nil d.prio
  topped h := by cases h
  armed := armed_fresh _

/-- Each local step keeps the invariant. -/
theorem Yielding.act (h : Yielding d n k p) {c : Command} {sig : Signal Msg} (hc : CleanStart n p c)
    (ha : nodeAct d n p c = some (p', sig)) : Yielding d n (sig.kind k) p' := by
  have hstage := h.stage.act hc ha
  cases c with
  | event name sql =>
    obtain ⟨rfl, -⟩ := nodeAct_event ha
    exact ⟨hstage, h.ranked, h.topped, h.armed⟩
  | input i =>
    obtain ⟨hp, hs, -⟩ := nodeAct_input ha
    have harmed := h.armed.step (by rintro t o e rfl; exact hp) hs
    rcases Proc.step_vip hs with ⟨-, t, hv⟩ | ⟨-, hv⟩ | ⟨t, x, rfl, hv⟩ | ⟨t, o, e, rfl, -⟩ |
      ⟨r, t, hv⟩
    · refine ⟨hstage, ?_, ?_, harmed⟩ <;> rw [hv]
      · exact h.ranked
      · intro hm
        cases hm
    · refine ⟨hstage, ?_, ?_, harmed⟩ <;> rw [hv]
      · exact ranked_nil d.prio
      · intro hm
        cases hm
    · refine ⟨hstage, ?_, ?_, harmed⟩ <;> rw [hv]
      exacts [h.ranked, h.topped]
    · exact absurd hp id
    · refine ⟨hstage, ?_, ?_, harmed⟩ <;> rw [hv]
      exacts [h.ranked, h.topped]

/-- Each handling keeps the invariant, if its message tells the priority of its sender. -/
theorem Yielding.deliver (h : Yielding d n k p) {e : Entry NodeId Msg} {o : Outcome}
    {calls : List Effect} (hm : GetsMemory p e o) (ho : GetsThread p e o) (hf : StandsFirm p e o)
    (he : ∀ y nm, e = .message y (.nodeState nm) → nm.priority = d.prio y)
    (hd : nodeDeliver n p e o = some (p', calls)) : Yielding d n .active p' := by
  have hstage := h.stage.deliver hd
  obtain ⟨⟨th, hth, hph⟩, hd⟩ := Option.ite_none_right_eq_some.mp hd
  obtain rfl : (p.handleEntry o e).1 = p' :=
    congrArg Prod.fst (Option.some.inj hd)
  have hown : p.vip.state ≠ .idle → p.vip.config.priority = d.prio p.vip.nodeId := by
    intro hrun
    rw [h.stage.config, h.stage.self th hth (by rw [hph]; rfl) hrun]
    rfl
  refine ⟨hstage, ?_, ?_, h.armed.deliver ho e⟩
  · rw [Proc.handleEntry_vip]
    exact h.ranked.handle (o := p.withHandle o) hm he
  · rw [Proc.handleEntry_vip]
    by_cases hs : p.vip.state = .rback
    · exact hf.topped hm h.ranked hs
    · exact h.topped.handle (o := p.withHandle o) hm h.ranked hown hs he

end Yielding

end CpgFailover
