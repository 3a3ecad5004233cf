import CpgFailover.Activation

/-!
# The rollback timer

A vip in `ST_RBACK` waits in a thread of its own, which looks at the state once a second and cannot
tell one stay in `ST_RBACK` from the next. As long as a rollback begins only when no earlier
rollback thread is left, and gets its thread, the thread of the current rollback is the one that was
created when it began, and stops the vip only after it has seen the whole delay pass in it.

## Main definitions

* `Undisturbed`: a rollback begins with no other thread left, and its target does not depart as
  master
* `Spell`: a stay in `ST_RBACK` within a run, with the thread that was created when it began
* `Timed`: the invariant of the runs

## Main results

* `handle_rollback`: how a callback begins a rollback, or continues it
* `Timed.step`: each undisturbed step keeps the invariant
* `rollback_timer`: the thread of a rollback, and what it waits for
* `two_rollback_threads`: a rollback that begins again within a second has two threads
-/

namespace CpgFailover

open Agreed Transition

/-! ## What a callback does to a rollback -/

section Callbacks

variable {o : Outcome} {v w : Vip}

/-- No rollback thread is created, and a vip that is in rollback afterwards was so before, with the
same target and thread. -/
def Continues (v w : Vip) (calls : List Effect) : Prop :=
  (∀ t, Effect.createRollbackThread t ∉ calls) ∧ (w.state = .rback → v.state = .rback ∧
    w.rollbackNodeId = v.rollbackNodeId ∧ w.rollbackThread = v.rollbackThread)

theorem continues_self (v : Vip) : Continues v v [] := ⟨by simp, fun h => ⟨h, rfl, rfl⟩⟩

theorem Continues.trans {u : Vip} {cs cs' : List Effect} (h : Continues u v cs)
    (h' : Continues v w cs') : Continues u w (cs ++ cs') := by
  refine ⟨fun t ht => ?_, fun hs => ?_⟩
  · rcases List.mem_append.mp ht with ht | ht
    exacts [h.1 t ht, h'.1 t ht]
  · obtain ⟨hv, hn, ht⟩ := h'.2 hs
    obtain ⟨hu, hn', ht'⟩ := h.2 hv
    exact ⟨hu, hn.trans hn', ht.trans ht'⟩

theorem continues_goDown (u v : Vip) : Continues u (goDown v).vip (goDown v).effects :=
  ⟨by simp [goDown], fun h => absurd h (by simp)⟩

theorem continues_becomeMaster (u : Vip) {calls : List Effect}
    (hcalls : ∀ t, Effect.createRollbackThread t ∉ calls) :
    Continues u (becomeMaster o v calls).vip (becomeMaster o v calls).effects := by
  refine ⟨fun t => ?_, fun hs => ?_⟩
  · simp only [becomeMaster, failTransition, virtualIpSendState]
    split_ifs <;> simp [goDown, hcalls t]
  · rw [becomeMaster_vip] at hs
    split_ifs at hs
    exact absurd hs (by simp)

/-- A transaction begins a rollback only on a request to a master. -/
theorem continues_fsm {e : Event} (he : e ≠ .startup) (hreq : e = .rbackReq → v.state ≠ .master) :
    Continues v (fsmDoTransaction o v e).vip (fsmDoTransaction o v e).effects := by
  have hstay := continues_self v
  have hto := fsmTo_fsmDoTransaction o v e
  generalize fsmDoTransaction o v e = r at hto ⊢
  cases hto with
  | stay => exact hstay
  | down => exact continues_goDown v v
  | resign => exact continues_goDown v v
  | @claim calls _ hc =>
    apply continues_becomeMaster v
    intro t
    rcases hc with ⟨-, rfl⟩ | ⟨-, rfl⟩ <;> simp [recoverCalls]
  | cleanUp => exact ⟨by simp [cleanUpCalls], hstay.2⟩
  | observe => exact ⟨by simp [observe], fun h => absurd h (by simp [observe])⟩
  | nodeup => exact ⟨by simp [nodeup, virtualIpSendState], hstay.2⟩
  | backupup => exact ⟨by simp [backupup, virtualIpSendState, virtualIpSendAllSql], hstay.2⟩
  | request hs => exact absurd hs (hreq rfl)
  | resume => exact ⟨by simp, fun h => absurd h (by simp)⟩
  | goUp => exact absurd rfl he

/-- A departure is no request. -/
theorem continues_forget (o : Outcome) (v : Vip) (x : NodeId) :
    Continues (forget v x) (fsmInputNodeDown o v x).vip (fsmInputNodeDown o v x).effects := by
  apply continues_fsm (nodeDownEvent_ne_startup v x)
  intro h
  rcases nodeDownEvent_cases v x with he | he <;> rw [he] at h <;> cases h

/-- A departure of another node than the target, or of the target when it is not the master: then
the rollback ends. -/
theorem continues_nodeDown {x : NodeId}
    (hx : v.state = .rback → v.rollbackNodeId = x → v.masterId ≠ x) :
    Continues v (fsmInputNodeDown o v x).vip (fsmInputNodeDown o v x).effects := by
  have hfsm := continues_forget o v x
  refine ⟨hfsm.1, fun hs => ?_⟩
  obtain ⟨hv, hn, ht⟩ := hfsm.2 hs
  refine ⟨hv, ?_, ht⟩
  by_cases hn' : v.rollbackNodeId = x
  · -- without a target `rback_stop` makes the vip a master
    exfalso
    have hm := hx hv hn'
    have hz : (forget v x).rollbackNodeId = 0 := if_pos hn'
    rw [fsmInputNodeDown_of_ne hm, show v.state = .rback from hv] at hs
    simp [table, rbackStop, hz] at hs
  · rw [hn]
    exact if_neg hn'

theorem continues_nodesDown {left : List NodeId}
    (hleft : v.state = .rback → v.rollbackNodeId ∈ left → v.masterId ≠ v.rollbackNodeId) :
    Continues v (nodesDown o v left).1 (nodesDown o v left).2 := by
  induction left generalizing v with
  | nil => exact continues_self v
  | cons x left ih =>
    have hone : Continues v (fsmInputNodeDown o v x).vip (fsmInputNodeDown o v x).effects :=
      continues_nodeDown fun hs hx => hx ▸ hleft hs (hx ▸ List.mem_cons_self)
    refine hone.trans (ih fun hs hmem => ?_)
    -- what remains of the rollback has its target and its master
    obtain ⟨hv, hn, -⟩ := hone.2 hs
    have hm : (fsmInputNodeDown o v x).vip.masterId = v.masterId := by
      rcases fsmDoTransaction_moved o (forget v x) (nodeDownEvent v x) with h | ⟨s, r, rt, vt, h⟩
      · have hidle : (fsmInputNodeDown o v x).vip.state = .idle := congrArg Vip.state h
        rw [hidle] at hs
        cases hs
      · have hkept := congrArg Vip.masterId h
        exact hkept
    rw [hm, hn]
    rw [hn] at hmem
    exact hleft hv (List.mem_cons_of_mem x hmem)

theorem continues_learn (nm : NodeMsg) (y : NodeId) : Continues v (learn o v nm y) [] := by
  refine ⟨by simp, fun hs => ⟨(learn_state o v nm y).symm.trans hs, ?_⟩⟩
  unfold learn
  split_ifs <;> exact ⟨rfl, rfl⟩

/-- The message begins a rollback: it is a request to a master whose list another node heads. -/
def Begins (o : Outcome) (v : Vip) (nm : NodeMsg) (y : NodeId) : Prop :=
  v.state = .master ∧ stateMessageEvent (learn o v nm y) nm y = some .rbackReq ∧
    nodeFirst (learn o v nm y).nodeList ≠ v.nodeId

instance (o : Outcome) (v : Vip) (nm : NodeMsg) (y : NodeId) : Decidable (Begins o v nm y) := by
  unfold Begins
  infer_instance

/-- A request is made only on a list that holds a node. -/
theorem nodeList_ne_nil_of_request {nm : NodeMsg} {y : NodeId}
    (h : stateMessageEvent v nm y = some .rbackReq) : v.nodeList ≠ [] := by
  intro hnil
  unfold stateMessageEvent at h
  cases hs : v.state <;> simp [hs, hnil] at h
  all_goals
    split_ifs at h
    all_goals cases h

/-- A node that heads its list has nobody to hand over to. -/
theorem rollback_self (h : nodeFirst v.nodeList = v.nodeId) : rollback o v = ⟨.success, v, []⟩ := by
  cases hl : v.nodeList with
  | nil => rw [rollback, hl]
  | cons n l =>
    rw [hl] at h
    rw [rollback, hl]
    exact if_neg (not_not.mpr h)

/-- Any other hands over to the node that heads it. -/
theorem rollback_other (hne : v.nodeList ≠ []) (h : nodeFirst v.nodeList ≠ v.nodeId) {t : ThreadId}
    (ht : o.threadCreate = some t) : rollback o v =
      ⟨.success, { v with
        rollbackNodeId := nodeFirst v.nodeList, state := .rback, rollbackThread := some t },
        [.createRollbackThread t]⟩ := by
  cases hl : v.nodeList with
  | nil => exact absurd hl hne
  | cons n l =>
    rw [hl] at h
    rw [rollback_cons hl h, ht, ← hl]
    simp [hl, nodeFirst]

/-- A request to a master. -/
theorem fsmDoTransaction_request (h : v.state = .master) :
    fsmDoTransaction o v .rbackReq = rollback o v := by
  unfold fsmDoTransaction
  rw [h]
  rfl

/-- A message that begins no rollback. -/
theorem continues_message {nm : NodeMsg} {y : NodeId} (h : ¬ Begins o v nm y) :
    Continues v (fsmInputNewStateMessage o v nm y).vip
      (fsmInputNewStateMessage o v nm y).effects := by
  unfold fsmInputNewStateMessage
  dsimp only
  split
  · rename_i event he
    apply (continues_learn (o := o) nm y).trans
    by_cases hreq : event = .rbackReq ∧ v.state = .master
    · -- the master heads its list
      obtain ⟨rfl, hs⟩ := hreq
      have hhead : nodeFirst (learn o v nm y).nodeList = (learn o v nm y).nodeId := by
        by_contra hne
        rw [learn_nodeId] at hne
        exact h ⟨hs, he, hne⟩
      rw [fsmDoTransaction_request ((learn_state o v nm y).trans hs), rollback_self hhead]
      exact continues_self _
    · refine continues_fsm ?_ fun hev hs => hreq ⟨hev, (learn_state o v nm y).symm.trans hs⟩
      rintro rfl
      exact stateMessageEvent_ne_startup _ _ _ he
  · exact continues_learn nm y

/-- A message that begins a rollback, with its thread. -/
theorem message_begins {nm : NodeMsg} {y : NodeId} (h : Begins o v nm y) {t : ThreadId}
    (ht : o.threadCreate = some t) : fsmInputNewStateMessage o v nm y =
      ⟨.success, { learn o v nm y with
        rollbackNodeId := nodeFirst (learn o v nm y).nodeList, state := .rback,
        rollbackThread := some t }, [.createRollbackThread t]⟩ := by
  obtain ⟨hs, he, hhead⟩ := h
  have hne := nodeList_ne_nil_of_request he
  rw [← learn_nodeId o v nm y] at hhead
  unfold fsmInputNewStateMessage
  simp only [he]
  rw [fsmDoTransaction_request ((learn_state o v nm y).trans hs), rollback_other hne hhead ht]

/-- **How a callback begins a rollback, or continues it.** -/
theorem handle_rollback {e : Entry NodeId Msg}
    (hconf : ∀ members left joined, e = .confchg members left joined → v.state = .rback →
      v.rollbackNodeId ∈ left → v.masterId ≠ v.rollbackNodeId) :
    Continues v (handle o v e).1 (handle o v e).2 ∨
      ∃ y nm, e = .message y (.nodeState nm) ∧ Begins o v nm y := by
  cases e with
  | confchg members left joined =>
    have hleft : Continues v (nodesDown o { v with memberListEntries := members.length } left).1
        (nodesDown o { v with memberListEntries := members.length } left).2 :=
      continues_nodesDown (v := { v with memberListEntries := members.length })
        (hconf members left joined rfl)
    apply Or.inl
    simp only [handle, confchgCallback]
    split_ifs
    · exact hleft.trans (continues_fsm (by simp) (by simp))
    · exact hleft
  | message y m =>
    cases m with
    | sql name sql =>
      refine Or.inl ⟨fun t ht => ?_, fun hs => ⟨hs, rfl, rfl⟩⟩
      cases (mem_handle_sql ht).2
    | nodeState nm =>
      by_cases hb : Begins o v nm y
      · exact Or.inr ⟨y, nm, rfl, hb⟩
      · exact Or.inl (continues_message hb)

/-- Departures begin no rollback. -/
theorem nodesDown_rback (o : Outcome) (v : Vip) (left : List NodeId) :
    (∀ t, Effect.createRollbackThread t ∉ (nodesDown o v left).2) ∧
      ((nodesDown o v left).1.state = .rback → v.state = .rback) := by
  induction left generalizing v with
  | nil => exact ⟨by simp [nodesDown], id⟩
  | cons x left ih =>
    have hone := continues_forget o v x
    obtain ⟨hcalls, hstate⟩ := ih (fsmInputNodeDown o v x).vip
    refine ⟨fun t ht => ?_, fun hs => (hone.2 (hstate hs)).1⟩
    rcases List.mem_append.mp ht with ht | ht
    · exact hone.1 t ht
    · exact hcalls t ht

/-- A callback that begins no rollback creates no rollback thread. -/
theorem rback_cases (o : Outcome) (v : Vip) (e : Entry NodeId Msg) :
    ((∀ t, Effect.createRollbackThread t ∉ (handle o v e).2) ∧
      ((handle o v e).1.state = .rback → v.state = .rback)) ∨
    ∃ y nm, e = .message y (.nodeState nm) ∧ Begins o v nm y := by
  cases e with
  | confchg members left joined =>
    apply Or.inl
    obtain ⟨hcalls, hstate⟩ := nodesDown_rback o { v with memberListEntries := members.length } left
    simp only [handle, confchgCallback]
    split_ifs
    · have hup := continues_fsm (o := o)
        (v := (nodesDown o { v with memberListEntries := members.length } left).1)
        (e := .backupUp) (by simp) (by simp)
      refine ⟨fun t ht => ?_, fun hs => hstate (hup.2 hs).1⟩
      rcases List.mem_append.mp ht with ht | ht
      · exact hcalls t ht
      · exact hup.1 t ht
    · exact ⟨hcalls, hstate⟩
  | message y m =>
    rcases handle_rollback (o := o) (v := v) (e := .message y m) (by simp) with h | h
    · exact Or.inl ⟨h.1, fun hs => (h.2 hs).1⟩
    · exact Or.inr h

end Callbacks

/-! ## The condition -/

/-- The phase in which a `go_down` clears the rollback thread of the record next. -/
def DownPc.awaitsRollback : DownPc → Bool
  | .awaitRollback _ => true
  | _ => false

/-- A rollback begins with no rollback thread left and none awaited by a stop, and gets its thread;
and the target of a rollback does not depart as the master. -/
def Undisturbed (p : Proc) : Input → Prop
  | .deliver _ o (.message y (.nodeState nm)) =>
    Begins o p.vip nm y → p.rollbackThreads = [] ∧ o.threadCreate ≠ none ∧
      ∀ d ∈ p.downs, d.pc.awaitsRollback = false
  | .deliver _ _ (.confchg _ left _) =>
    p.vip.state = .rback → p.vip.rollbackNodeId ∈ left → p.vip.masterId ≠ p.vip.rollbackNodeId
  | _ => True

instance (p : Proc) : (i : Input) → Decidable (Undisturbed p i)
  | .deliver _ _ (.confchg _ _ _) | .deliver _ _ (.message _ (.sql _ _))
  | .deliver _ _ (.message _ (.nodeState _))
  | .start _ | .stop | .down _ | .cpgInitialize _ _ | .contextSet _ _ | .localGet _ _ _ | .join _ _
  | .dispatchFails _ | .exitLoop _ | .leave _ | .finalize _ | .finish _ | .tick _
  | .rollbackStop _ | .rollbackWait _ | .rollbackStart _ _ => by unfold Undisturbed; infer_instance

/-! ## Stays in rollback -/

/-- A run of a process. -/
abbrev Trace := List (Input × Proc)

/-- In the run `before`, `q`, `during`, `after` of a new process the vip is in `ST_RBACK` from the
step `q` on through `during`, with the same target; it was not before, the step created `r`, and
`r` has ticked as often as it counts. -/
structure Spell (c : Config) (tr before : Trace) (q : Input × Proc) (during after : Trace)
    (r : RollbackThread) : Prop where
  split : tr = before ++ q :: during ++ after
  outside : (lastState (Proc.fresh c) before).vip.state ≠ .rback
  unborn : r.id ∉ (lastState (Proc.fresh c) before).rollbackThreads.map RollbackThread.id
  created : r.id ∈ q.2.rollbackThreads.map RollbackThread.id
  inside : ∀ x ∈ q :: during, x.2.vip.state = .rback ∧ x.2.vip.rollbackNodeId = r.localId
  ticks : during.countP (fun x => x.1 = .tick r.id) = r.ticks

/-- The thread `r` of a process: the stay it was created in, which goes on if the vip is in
`ST_RBACK`, and how far it has counted. -/
structure Timer (c : Config) (tr : Trace) (p : Proc) (r : RollbackThread) : Prop where
  spell : ∃ before q during after, Spell c tr before q during after r ∧
    (p.vip.state = .rback → after = [])
  target : p.vip.state = .rback → p.vip.rollbackNodeId = r.localId
  counting : r.pc = .counting → r.ticks < rollbackTicks c
  done : r.pc ≠ .counting → r.ticks = rollbackTicks c

section Timer

variable {c : Config} {tr : Trace} {p p' : Proc} {r r' : RollbackThread} {i : Input}

/-- A step that is no turn of the thread. -/
theorem Timer.extend (h : Timer c tr p r) (hid : r'.id = r.id) (hlocal : r'.localId = r.localId)
    (hticks : r'.ticks = r.ticks) (hpc : r'.pc = .counting ↔ r.pc = .counting)
    (hi : i ≠ .tick r.id) (hs : p'.vip.state = .rback →
      p.vip.state = .rback ∧ p'.vip.rollbackNodeId = p.vip.rollbackNodeId) :
    Timer c (tr ++ [(i, p')]) p' r' := by
  obtain ⟨before, q, during, after, hsp, hafter⟩ := h.spell
  refine ⟨?_, fun hs' => ?_, fun hc => ?_, fun hc => ?_⟩
  · by_cases hs' : p'.vip.state = .rback
    · -- the stay goes on
      obtain ⟨hp, hn⟩ := hs hs'
      obtain rfl := hafter hp
      refine ⟨before, q, during ++ [(i, p')], [], ⟨?_, hsp.outside, ?_, ?_, ?_, ?_⟩, fun _ => rfl⟩
      · rw [hsp.split]
        simp
      · rw [hid]
        exact hsp.unborn
      · rw [hid]
        exact hsp.created
      · intro x hx
        rw [hlocal]
        rw [← List.cons_append] at hx
        rcases List.mem_append.mp hx with hx | hx
        · exact hsp.inside x hx
        · obtain rfl := List.mem_singleton.mp hx
          exact ⟨hs', hn.trans (h.target hp)⟩
      · rw [List.countP_append, hid, hticks, hsp.ticks]
        simp [hi]
    · refine ⟨before, q, during, after ++ [(i, p')], ⟨?_, hsp.outside, ?_, ?_, ?_, ?_⟩,
        fun h => absurd h hs'⟩
      · rw [hsp.split, List.append_assoc]
      · rw [hid]
        exact hsp.unborn
      · rw [hid]
        exact hsp.created
      · rw [hlocal]
        exact hsp.inside
      · rw [hid, hticks]
        exact hsp.ticks
  · obtain ⟨hp, hn⟩ := hs hs'
    rw [hn, hlocal]
    exact h.target hp
  · rw [hticks]
    exact h.counting (hpc.mp hc)
  · rw [hticks]
    exact h.done fun h => hc (hpc.mpr h)

/-- A turn of the thread while the vip is in `ST_RBACK`. -/
theorem Timer.tick (h : Timer c tr p r) (hp : p.vip.state = .rback) (hpc : r.pc = .counting)
    (hp' : p'.vip = p.vip) :
    Timer c (tr ++ [(.tick r.id, p')]) p'
      { r with
        ticks := r.ticks + 1
        pc := if r.ticks + 1 < rollbackTicks c then .counting else .stopping } := by
  obtain ⟨before, q, during, after, hsp, hafter⟩ := h.spell
  obtain rfl := hafter hp
  have hlt := h.counting hpc
  refine ⟨⟨before, q, during ++ [(.tick r.id, p')], [], ⟨?_, hsp.outside, hsp.unborn, hsp.created,
    ?_, ?_⟩, fun _ => rfl⟩, fun _ => ?_, ?_, ?_⟩
  · rw [hsp.split]
    simp
  · intro x hx
    rw [← List.cons_append] at hx
    rcases List.mem_append.mp hx with hx | hx
    · exact hsp.inside x hx
    · obtain rfl := List.mem_singleton.mp hx
      exact ⟨hp' ▸ hp, hp' ▸ h.target hp⟩
  · rw [List.countP_append, hsp.ticks]
    simp
  · rw [hp']
    exact h.target hp
  · intro hc
    by_contra hge
    simp [hge] at hc
  · intro hc
    by_contra hne
    have hlt' : r.ticks + 1 < rollbackTicks c := by
      simp only at hne
      omega
    simp [hlt'] at hc

end Timer

/-! ## The invariant -/

/-- At most one rollback thread is left, and it has a timer; a vip in `ST_RBACK` has one, which it
has stored, which has not stopped it, and which every stop in progress would wait for. -/
structure Timed (c : Config) (tr : Trace) (p : Proc) : Prop where
  config : p.vip.config = c
  single : ∀ r ∈ p.rollbackThreads, p.rollbackThreads = [r]
  bound : ∀ r ∈ p.rollbackThreads, r.id < p.nextThread
  callers : ∀ d ∈ p.downs, ∀ t, d.caller = some t → t < p.nextThread
  stored : p.vip.state = .rback → ∃ r, p.rollbackThreads = [r] ∧ p.vip.rollbackThread = some r.id ∧
    (r.pc = .counting ∨ r.pc = .stopping) ∧
      ∀ d ∈ p.downs, d.caller ≠ some r.id ∧ ∀ t, d.pc = .awaitRollback t → t = r.id
  timer : ∀ r ∈ p.rollbackThreads, Timer c tr p r

section Timed

variable {c : Config} {tr : Trace} {p p' : Proc} {r : RollbackThread} {i : Input}

theorem timed_fresh (c : Config) : Timed c [] (Proc.fresh c) where
  config := rfl
  single r h := by cases h
  bound r h := by cases h
  callers d h := by cases h
  stored h := by cases h
  timer r h := by cases h

/-- A thread that has issued its stop belongs to no rollback. -/
theorem Timed.not_rback (h : Timed c tr p) (hr : r ∈ p.rollbackThreads) (hpc : r.pc ≠ .counting)
    (hpc' : r.pc ≠ .stopping) : p.vip.state ≠ .rback := by
  intro hs
  obtain ⟨r₀, ht, -, hpc₀, -⟩ := h.stored hs
  rw [ht] at hr
  obtain rfl := List.mem_singleton.mp hr
  exact hpc₀.elim hpc hpc'

/-- A step that leaves the rollback thread and the stops in progress alone. -/
theorem Timed.keep (h : Timed c tr p) (hi : ∀ t, i ≠ .tick t) (hc : p'.vip.config = p.vip.config)
    (ht : p'.rollbackThreads = p.rollbackThreads) (hd : p'.downs = p.downs)
    (hn : p.nextThread ≤ p'.nextThread) (hs : p'.vip.state = .rback → p.vip.state = .rback ∧
      p'.vip.rollbackNodeId = p.vip.rollbackNodeId ∧ p'.vip.rollbackThread = p.vip.rollbackThread) :
    Timed c (tr ++ [(i, p')]) p' where
  config := hc.trans h.config
  single := by rw [ht]; exact h.single
  bound r hr := (h.bound r (ht ▸ hr)).trans_le hn
  callers d hd' t hdt := (h.callers d (hd ▸ hd') t hdt).trans_le hn
  stored hs' := by
    obtain ⟨hp, -, hst⟩ := hs hs'
    rw [ht, hd, hst]
    exact h.stored hp
  timer r hr := by
    apply (h.timer r (ht ▸ hr)).extend rfl rfl rfl Iff.rfl (hi _)
    intro hs'
    obtain ⟨hp, hn, -⟩ := hs hs'
    exact ⟨hp, hn⟩

/-- A step after which the vip is not in `ST_RBACK`. -/
theorem Timed.outside (h : Timed c tr p) (hout : p'.vip.state ≠ .rback)
    (hc : p'.vip.config = p.vip.config) (hn : p.nextThread ≤ p'.nextThread)
    (hd : ∀ d ∈ p'.downs, ∀ t, d.caller = some t → t < p'.nextThread)
    (ht : ∀ r' ∈ p'.rollbackThreads, p'.rollbackThreads = [r'] ∧ ∃ r ∈ p.rollbackThreads,
      i ≠ .tick r.id ∧ r'.id = r.id ∧ r'.localId = r.localId ∧ r'.ticks = r.ticks ∧
        (r'.pc = .counting ↔ r.pc = .counting)) : Timed c (tr ++ [(i, p')]) p' where
  config := hc.trans h.config
  single r' hr' := (ht r' hr').1
  bound r' hr' := by
    obtain ⟨-, r, hr, -, hid, -⟩ := ht r' hr'
    rw [hid]
    exact (h.bound r hr).trans_le hn
  callers := hd
  stored hs := absurd hs hout
  timer r' hr' := by
    obtain ⟨-, r, hr, hi, hid, hlocal, hticks, hpc⟩ := ht r' hr'
    exact (h.timer r hr).extend hid hlocal hticks hpc hi fun hs => absurd hs hout

/-- The rollback thread, as it was. -/
theorem Timed.same (h : Timed c tr p) (hi : ∀ t, i ≠ .tick t) : ∀ r' ∈ p.rollbackThreads,
    p.rollbackThreads = [r'] ∧ ∃ r ∈ p.rollbackThreads, i ≠ .tick r.id ∧ r'.id = r.id ∧
      r'.localId = r.localId ∧ r'.ticks = r.ticks ∧ (r'.pc = .counting ↔ r.pc = .counting) :=
  fun r' hr' => ⟨h.single r' hr', r', hr', hi _, rfl, rfl, rfl, Iff.rfl⟩

/-- The rollback thread, in another phase after its loop. -/
theorem Timed.moved (h : Timed c tr p) (hi : ∀ t, i ≠ .tick t) (hr : r ∈ p.rollbackThreads)
    (hpc : r.pc ≠ .counting) (pc : RollbackPc) (hpc' : pc ≠ .counting) :
    ∀ r' ∈ (p.moveRollback { r with pc := pc }).rollbackThreads,
      (p.moveRollback { r with pc := pc }).rollbackThreads = [r'] ∧ ∃ r ∈ p.rollbackThreads,
        i ≠ .tick r.id ∧ r'.id = r.id ∧ r'.localId = r.localId ∧ r'.ticks = r.ticks ∧
          (r'.pc = .counting ↔ r.pc = .counting) := by
  have hone : (p.moveRollback { r with pc := pc }).rollbackThreads = [{ r with pc := pc }] := by
    simp [Proc.moveRollback, h.single r hr]
  intro r' hr'
  rw [hone] at hr' ⊢
  obtain rfl := List.mem_singleton.mp hr'
  exact ⟨rfl, r, hr, hi _, rfl, rfl, rfl, iff_of_false hpc' hpc⟩

theorem Timed.gone (h : Timed c tr p) (hr : r ∈ p.rollbackThreads) :
    (p.endRollback r.id).rollbackThreads = [] := by
  simp [Proc.endRollback, h.single r hr]

/-- The callers of the stops in progress stay below the next handle. -/
theorem Timed.callers_le (h : Timed c tr p) {k : ThreadId} (hk : p.nextThread ≤ k) :
    ∀ d ∈ p.downs, ∀ t, d.caller = some t → t < k :=
  fun d hd t ht => (h.callers d hd t ht).trans_le hk

/-- A start, which puts an idle vip in `ST_START`; in `q` the rollback thread may be gone. -/
theorem Timed.start (h : Timed c tr p) {q : Proc} (hv : q.vip = p.vip) (hd : q.downs = p.downs)
    (hn : q.nextThread = p.nextThread) (hq : Timed c (tr ++ [(i, q)]) q)
    (ht : ∀ r' ∈ q.rollbackThreads, q.rollbackThreads = [r'] ∧ ∃ r ∈ p.rollbackThreads,
      i ≠ .tick r.id ∧ r'.id = r.id ∧ r'.localId = r.localId ∧ r'.ticks = r.ticks ∧
        (r'.pc = .counting ↔ r.pc = .counting)) (created : Bool) :
    Timed c (tr ++ [(i, q.cmdStart created)]) (q.cmdStart created) := by
  have hconfig : q.vip.config = p.vip.config := by rw [hv]
  by_cases hs : q.vip.state = .idle
  · cases created with
    | true =>
      rw [Proc.cmdStart_created hs]
      refine h.outside (by simp) hconfig (hn ▸ Nat.le_succ _) ?_ ht
      exact hd ▸ h.callers_le (hn ▸ Nat.le_succ _)
    | false =>
      rw [Proc.cmdStart_failed hs]
      exact h.outside (by simp) hconfig hn.ge (hd ▸ h.callers_le hn.ge) ht
  · rw [Proc.cmdStart_running hs]
    exact hq

/-- The stops in progress after one more, issued by a known thread or none. -/
theorem Timed.callers_stop (h : Timed c tr p) (caller : Option ThreadId)
    (hcaller : ∀ t, caller = some t → t < p.nextThread) :
    ∀ d ∈ (p.cmdStop caller).downs, ∀ t, d.caller = some t → t < p.nextThread := by
  by_cases hs : p.vip.state = .idle
  · rw [Proc.cmdStop_idle hs]
    exact h.callers
  · rw [Proc.cmdStop_running hs]
    intro d hd t ht
    rcases List.mem_append.mp hd with hd | hd
    · exact h.callers d hd t ht
    · obtain rfl := List.mem_singleton.mp hd
      exact hcaller t ht

theorem Timed.stop (h : Timed c tr p) (hi : ∀ t, i ≠ .tick t) :
    Timed c (tr ++ [(i, p.cmdStop none)]) (p.cmdStop none) := by
  have hcallers := h.callers_stop none (by simp)
  by_cases hs : p.vip.state = .idle
  · rw [Proc.cmdStop_idle hs]
    exact h.keep hi rfl rfl rfl le_rfl fun hs => ⟨hs, rfl, rfl⟩
  · rw [Proc.cmdStop_running hs] at hcallers ⊢
    exact h.outside (by simp [goDownReset]) rfl le_rfl hcallers (h.same hi)

/-- The thread has issued its stop. -/
theorem Timed.rollbackStop (h : Timed c tr p) (hi : ∀ t, i ≠ .tick t) (hr : r ∈ p.rollbackThreads)
    (hpc : r.pc = .stopping) :
    Timed c (tr ++ [(i, (p.cmdStop (some r.id)).moveRollback { r with pc := .waiting })])
      ((p.cmdStop (some r.id)).moveRollback { r with pc := .waiting }) := by
  have hcallers := h.callers_stop (some r.id) fun t ht => by
    obtain rfl := Option.some.inj ht
    exact h.bound r hr
  have hmoved := h.moved hi hr (by simp [hpc]) .waiting (by simp)
  by_cases hs : p.vip.state = .idle
  · rw [Proc.cmdStop_idle hs]
    exact h.outside (by simp [hs]) rfl le_rfl h.callers hmoved
  · rw [Proc.cmdStop_running hs] at hcallers ⊢
    exact h.outside (by simp [goDownReset]) rfl le_rfl hcallers hmoved

/-- A turn of the loop of the thread. -/
theorem Timed.tick (h : Timed c tr p) (hr : r ∈ p.rollbackThreads) (hpc : r.pc = .counting) :
    Timed c (tr ++ [(.tick r.id, p.tick r)]) (p.tick r) := by
  by_cases hs : p.vip.state = .rback
  · have hmove : p.tick r = p.moveRollback { r with
        ticks := r.ticks + 1
        pc := if r.ticks + 1 < rollbackTicks c then .counting else .stopping } := by
      unfold Proc.tick
      rw [if_neg (not_not.mpr hs), h.config]
    have hone : (p.tick r).rollbackThreads = [{ r with
        ticks := r.ticks + 1
        pc := if r.ticks + 1 < rollbackTicks c then .counting else .stopping }] := by
      rw [hmove]
      simp [Proc.moveRollback, h.single r hr]
    obtain ⟨hn, hd, -⟩ := Proc.tick_rest p r
    have htimer : Timer c (tr ++ [(.tick r.id, p.tick r)]) (p.tick r) _ :=
      (h.timer r hr).tick hs hpc (Proc.tick_vip p r)
    refine ⟨by rw [Proc.tick_vip, h.config], ?_, ?_, ?_, fun _ => ?_, ?_⟩
    · intro r' hr'
      rw [hone] at hr' ⊢
      rw [List.mem_singleton.mp hr']
    · intro r' hr'
      rw [hone] at hr'
      rw [List.mem_singleton.mp hr', hn]
      exact h.bound r hr
    · rw [hd, hn]
      exact h.callers
    · obtain ⟨r₀, ht, hst, -, hdowns⟩ := h.stored hs
      rw [ht] at hr
      obtain rfl := List.mem_singleton.mp hr
      refine ⟨_, hone, by rw [Proc.tick_vip]; exact hst, ?_, by rw [hd]; exact hdowns⟩
      by_cases hlt : r.ticks + 1 < rollbackTicks c <;> simp [hlt]
    · intro r' hr'
      rw [hone] at hr'
      rw [List.mem_singleton.mp hr']
      exact htimer
  · -- the thread sees that the vip has left `ST_RBACK`, and returns
    have hend : p.tick r = p.endRollback r.id := if_pos hs
    rw [hend]
    refine h.outside hs rfl le_rfl h.callers fun r' hr' => ?_
    rw [h.gone hr] at hr'
    cases hr'

/-- A step of the stops in progress: none is new, and one that waits for a rollback thread waits for
the one that is stored. -/
theorem Timed.downs (h : Timed c tr p) (hi : ∀ t, i ≠ .tick t) (hc : p'.vip.config = p.vip.config)
    (hstate : p'.vip.state = p.vip.state) (hnode : p'.vip.rollbackNodeId = p.vip.rollbackNodeId)
    (ht : p'.rollbackThreads = p.rollbackThreads) (hn : p'.nextThread = p.nextThread)
    (hst : p.vip.state = .rback → p'.vip.rollbackThread = p.vip.rollbackThread)
    (hd : ∀ d' ∈ p'.downs, ∃ d ∈ p.downs, d'.caller = d.caller ∧
      ∀ t, d'.pc = .awaitRollback t → d.pc = .awaitRollback t ∨ p.vip.rollbackThread = some t) :
    Timed c (tr ++ [(i, p')]) p' where
  config := hc.trans h.config
  single := by rw [ht]; exact h.single
  bound := by rw [ht, hn]; exact h.bound
  callers d' hd' t hdt := by
    obtain ⟨d, hmem, hcaller, -⟩ := hd d' hd'
    rw [hn]
    exact h.callers d hmem t (hcaller ▸ hdt)
  stored hs := by
    obtain ⟨r, hr, hst', hpc, hdowns⟩ := h.stored (hstate ▸ hs)
    refine ⟨r, ht.trans hr, (hst (hstate ▸ hs)).trans hst', hpc, fun d' hd' => ?_⟩
    obtain ⟨d, hmem, hcaller, hwait⟩ := hd d' hd'
    refine ⟨hcaller ▸ (hdowns d hmem).1, fun t hdt => ?_⟩
    rcases hwait t hdt with hdt | hdt
    · exact (hdowns d hmem).2 t hdt
    · exact Option.some.inj (hdt.symm.trans hst')
  timer r hr := (h.timer r (ht ▸ hr)).extend rfl rfl rfl Iff.rfl (hi _) fun hs =>
    ⟨hstate ▸ hs, hnode⟩

/-- A `go_down` in progress waits for the thread of a rollback as long as the vip is in it. -/
theorem Timed.down (h : Timed c tr p) {j : ℕ} (hs : p.downStep j = some p') :
    Timed c (tr ++ [(.down j, p')]) p' := by
  have hi : ∀ t, Input.down j ≠ .tick t := by simp
  -- one of the stops in progress comes to its next phase
  have hset {d : Down} (hd : p.downs[j]? = some d) (pc : DownPc)
      (hpc : ∀ t, pc = .awaitRollback t → p.vip.rollbackThread = some t) :
      ∀ d' ∈ p.downs.set j { d with pc := pc }, ∃ d ∈ p.downs, d'.caller = d.caller ∧
        ∀ t, d'.pc = .awaitRollback t → d.pc = .awaitRollback t ∨ p.vip.rollbackThread = some t := by
    intro d' hd'
    rcases List.mem_or_eq_of_mem_set hd' with hd' | rfl
    · exact ⟨d', hd', rfl, fun t ht => Or.inl ht⟩
    · exact ⟨d, List.mem_of_getElem? hd, rfl, fun t ht => Or.inr (hpc t ht)⟩
  cases Proc.downTo_of_downStep hs with
  | @awaitRollback d t hd hpc ht =>
    refine h.downs hi rfl rfl rfl rfl rfl (fun _ => rfl) (hset hd _ fun t' ht' => ?_)
    rw [ht, DownPc.awaitRollback.inj ht']
  | @rollbackJoined d t hd hpc hwait =>
    refine h.downs hi rfl rfl rfl rfl rfl (fun hrback => ?_) (hset hd _ (by simp))
    obtain ⟨r, hr, -, -, hdowns⟩ := h.stored hrback
    obtain ⟨hcaller, hfor⟩ := hdowns d (List.mem_of_getElem? hd)
    obtain rfl := hfor t hpc
    exact absurd ⟨hcaller, by simp [hr]⟩ hwait
  | noRollback hd | awaitVip hd | noVip hd | vipJoined hd =>
    exact h.downs hi rfl rfl rfl rfl rfl (fun _ => rfl) (hset hd _ (by simp))
  | removed hd hpc =>
    refine h.downs hi rfl rfl rfl rfl rfl (fun _ => rfl) fun d' hd' => ?_
    exact ⟨d', List.mem_of_mem_eraseIdx hd', rfl, fun t ht => Or.inl ht⟩

/-- A callback without a new rollback thread leaves the others alone. -/
theorem Proc.handleEntry_rollbackThreads {o : Outcome} {e : Entry NodeId Msg}
    (h : ∀ t, Effect.createRollbackThread t ∉ (p.handleEntry o e).2) :
    (p.handleEntry o e).1.rollbackThreads = p.rollbackThreads := by
  have hfold (q : Proc) (calls : List Effect) (hc : ∀ t, Effect.createRollbackThread t ∉ calls) :
      (calls.foldl Proc.perform q).rollbackThreads = q.rollbackThreads := by
    induction calls generalizing q with
    | nil => rfl
    | cons c calls ih =>
      rw [List.foldl_cons, ih _ fun t ht => hc t (List.mem_cons_of_mem c ht)]
      unfold Proc.perform
      split
      case h_4 t => exact absurd List.mem_cons_self (hc t)
      all_goals rfl
  exact hfold _ _ h

/-- A callback that begins a rollback creates one thread for it, with the next free handle. -/
theorem Proc.handleEntry_begins {o : Outcome} {nm : NodeMsg} {y : NodeId} (hb : Begins o p.vip nm y)
    (ho : o.threadCreate ≠ none) : ∃ w : Vip, w.config = p.vip.config ∧ w.state = .rback ∧
      w.rollbackThread = some p.nextThread ∧ (p.handleEntry o (.message y (.nodeState nm))).1 =
        { p with
          vip := w
          rollbackThreads := p.rollbackThreads ++ [⟨p.nextThread, w.rollbackNodeId, 0,
            if 0 < rollbackTicks p.vip.config then .counting else .stopping⟩]
          nextThread := p.nextThread + 1 } := by
  have hthread : (p.withHandle o).threadCreate = some p.nextThread := by
    obtain ⟨t, ht⟩ := Option.ne_none_iff_exists'.mp ho
    simp [Proc.withHandle, ht]
  have hentry := message_begins (o := p.withHandle o) hb hthread
  generalize hw : ({ learn (p.withHandle o) p.vip nm y with
    rollbackNodeId := nodeFirst (learn (p.withHandle o) p.vip nm y).nodeList, state := .rback,
    rollbackThread := some p.nextThread } : Vip) = w at hentry
  have hconfig : w.config = p.vip.config := by
    rw [← hw]
    exact learn_config _ _ _ _
  refine ⟨w, hconfig, by rw [← hw], by rw [← hw], ?_⟩
  simp only [Proc.handleEntry, handle, deliverCallback, hentry]
  simp [Proc.absorb, Proc.perform, hconfig]

/-- The callback that begins a rollback leaves its thread as the only one. -/
theorem Timed.begin (h : Timed c tr p) (hlast : lastState (Proc.fresh c) tr = p) {t : ThreadId}
    {o : Outcome} {nm : NodeMsg} {y : NodeId} (hb : Begins o p.vip nm y)
    (hnone : p.rollbackThreads = []) (ho : o.threadCreate ≠ none)
    (hd : ∀ d ∈ p.downs, d.pc.awaitsRollback = false) :
    Timed c (tr ++ [(.deliver t o (.message y (.nodeState nm)),
        (p.handleEntry o (.message y (.nodeState nm))).1)])
      (p.handleEntry o (.message y (.nodeState nm))).1 := by
  obtain ⟨w, hconfig, hstate, hstored, hp'⟩ := Proc.handleEntry_begins hb ho
  rw [hnone, List.nil_append, h.config] at hp'
  rw [h.config] at hconfig
  rw [hp']
  refine ⟨hconfig, ?_, ?_, ?_, fun _ => ?_, ?_⟩
  · intro r hr
    rw [List.mem_singleton.mp hr]
  · intro r hr
    rw [List.mem_singleton.mp hr]
    exact Nat.lt_succ_self _
  · intro d hmem t ht
    exact (h.callers d hmem t ht).trans (Nat.lt_succ_self _)
  · refine ⟨_, rfl, hstored, ?_, fun d hmem => ⟨?_, ?_⟩⟩
    · by_cases hlt : 0 < rollbackTicks c <;> simp [hlt]
    · -- the handle of the new thread is free
      intro hcaller
      exact absurd (h.callers d hmem _ hcaller) (lt_irrefl _)
    · intro t ht
      have hnot := hd d hmem
      rw [ht] at hnot
      cases hnot
  · intro r hr
    obtain rfl := List.mem_singleton.mp hr
    refine ⟨⟨tr, _, [], [], ⟨(List.append_nil _).symm, ?_, ?_, by simp, ?_, rfl⟩, fun _ => rfl⟩,
      fun _ => rfl, ?_, ?_⟩
    · rw [hlast, hb.1]
      simp
    · rw [hlast, hnone]
      simp
    · intro x hx
      obtain rfl := List.mem_singleton.mp hx
      exact ⟨hstate, rfl⟩
    · intro hpc
      by_contra hlt
      simp [hlt] at hpc
    · intro hpc
      by_contra hne
      have hlt : 0 < rollbackTicks c := by
        simp only at hne
        omega
      simp [hlt] at hpc

theorem Timed.deliver (h : Timed c tr p) (hlast : lastState (Proc.fresh c) tr = p) {t : ThreadId}
    {o : Outcome} {e : Entry NodeId Msg} (hi : Undisturbed p (.deliver t o e)) :
    Timed c (tr ++ [(.deliver t o e, (p.handleEntry o e).1)]) (p.handleEntry o e).1 := by
  have hconf : ∀ members left joined, e = .confchg members left joined → p.vip.state = .rback →
      p.vip.rollbackNodeId ∈ left → p.vip.masterId ≠ p.vip.rollbackNodeId := by
    rintro members left joined rfl
    exact hi
  rcases handle_rollback (o := p.withHandle o) hconf with hcont | ⟨y, nm, rfl, hb⟩
  · obtain ⟨hn, hd⟩ := Proc.handleEntry_rest p o e
    refine h.keep (by simp) ?_ (Proc.handleEntry_rollbackThreads hcont.1) hd hn fun hs => ?_
    · rw [Proc.handleEntry_vip]
      exact handle_config _ _
    · rw [Proc.handleEntry_vip] at hs ⊢
      exact hcont.2 hs
  · obtain ⟨hnone, ho, hd⟩ := hi hb
    exact h.begin hlast hb hnone ho hd

/-- **Each undisturbed step keeps the invariant.** -/
theorem Timed.step (h : Timed c tr p) (hlast : lastState (Proc.fresh c) tr = p)
    (hi : Undisturbed p i) (hs : p.step i = some p') : Timed c (tr ++ [(i, p')]) p' := by
  cases Proc.stepTo_of_step hs with
  | start created =>
    have hkept : Timed c (tr ++ [(.start created, p)]) p :=
      h.keep (by simp) rfl rfl rfl le_rfl fun hs => ⟨hs, rfl, rfl⟩
    exact h.start rfl rfl rfl hkept (h.same (by simp)) created
  | stop => exact h.stop (by simp)
  | down hd => exact h.down hd
  | deliver => exact h.deliver hlast hi
  | tick hr hpc => exact h.tick hr hpc
  | rollbackStop hr hpc => exact h.rollbackStop (by simp) hr hpc
  | rollbackWait hr hpc =>
    have hout := h.not_rback hr (by simp [hpc]) (by simp [hpc])
    exact h.outside hout rfl le_rfl h.callers
      (h.moved (by simp) hr (by simp [hpc]) .starting (by simp))
  | @rollbackStart r created hr hpc =>
    have hout := h.not_rback hr (by simp [hpc]) (by simp [hpc])
    have hnone : ∀ r' ∈ (p.endRollback r.id).rollbackThreads, False := by
      rw [h.gone hr]
      exact fun r' hr' => by cases hr'
    have hkept : Timed c (tr ++ [(.rollbackStart r.id created, p.endRollback r.id)])
        (p.endRollback r.id) :=
      h.outside hout rfl le_rfl h.callers fun r' hr' => (hnone r' hr').elim
    exact h.start (q := p.endRollback r.id) rfl rfl rfl hkept
      (fun r' hr' => (hnone r' hr').elim) created
  | cpgInitialize | contextSet | located | unlocated | join | dispatchFails | exitLoop | leave
  | finalize | finish =>
    -- calls of `vip_thread`
    exact h.keep (by simp) rfl rfl rfl le_rfl fun hs => ⟨hs, rfl, rfl⟩

end Timed

/-! ## The thread of a rollback -/

/-- **The rollback timer.** In every run of undisturbed steps, with a delay that can be counted out
in an `int`, a vip in `ST_RBACK` has exactly one rollback thread, the stored one, created when the
vip came to `ST_RBACK` last; and a thread that may issue its stop or its start has ticked for the
whole delay within one stay in `ST_RBACK` with one target. -/
theorem rollback_timer (c : Config) (hd : 1 ≤ c.rollbackDelay)
    (hfits : c.rollbackDelay * 60 < 2 ^ 31) {tr : Trace} {p : Proc}
    (h : Path Proc.step Undisturbed (Proc.fresh c) tr p) :
    (p.vip.state = .rback → ∃ r, p.rollbackThreads = [r] ∧ p.vip.rollbackThread = some r.id ∧
      ∃ before q during, Spell c tr before q during [] r) ∧
      ∀ t, ((p.step (.rollbackStop t)).isSome = true ∨
        ∃ created, (p.step (.rollbackStart t created)).isSome = true) →
        ∃ r ∈ p.rollbackThreads, r.id = t ∧ (r.ticks : ℤ) = c.rollbackDelay * 60 ∧
          ∃ before q during after, Spell c tr before q during after r := by
  have htimed : Timed c tr p := by
    induction h with
    | nil => exact timed_fresh c
    | snoc hp hok hs ih => exact ih.step hp.lastState_eq hok hs
  refine ⟨fun hs => ?_, fun t ht => ?_⟩
  · obtain ⟨r, hr, hst, -⟩ := htimed.stored hs
    obtain ⟨before, q, during, after, hsp, hafter⟩ := (htimed.timer r (by simp [hr])).spell
    obtain rfl := hafter hs
    exact ⟨r, hr, hst, before, q, during, hsp⟩
  · have hfound : ∃ r ∈ p.rollbackThreads, r.id = t ∧ r.pc ≠ .counting := by
      rcases ht with ht | ⟨created, ht⟩
      · obtain ⟨p', hs⟩ := Option.isSome_iff_exists.mp ht
        cases Proc.stepTo_of_step hs with
        | @rollbackStop r hr hpc => exact ⟨r, hr, rfl, by simp [hpc]⟩
      · obtain ⟨p', hs⟩ := Option.isSome_iff_exists.mp ht
        cases Proc.stepTo_of_step hs with
        | @rollbackStart r _ hr hpc => exact ⟨r, hr, rfl, by simp [hpc]⟩
    obtain ⟨r, hr, hid, hpc⟩ := hfound
    obtain ⟨before, q, during, after, hsp, -⟩ := (htimed.timer r hr).spell
    refine ⟨r, hr, hid, ?_, before, q, during, after, hsp⟩
    rw [(htimed.timer r hr).done hpc]
    exact rollbackTicks_of_fits (by omega) hfits

/-- A vip that hands over to a node of higher priority, after a minute. -/
def rollbackConfig : Config :=
  { plainConfig 10 noProfiles with autorollback := true }

/-- All calls of a callback succeed, and threads are created. -/
def threaded : Outcome := { allSucceed with threadCreate := some 0 }

/-- A node of higher priority joins the master. -/
def challenged : List Input :=
  threadUp ++ aloneMaster ++
    [.deliver 0 allSucceed (.confchg [1, 2] [] [2]),
      .deliver 0 threaded (.message 2 (.nodeState ⟨20, .start, []⟩))]

/-- The process after the whole delay has passed. -/
def elapsed : Proc :=
  (runWhen Proc.step Undisturbed (Proc.fresh rollbackConfig)
    (challenged ++ List.replicate 60 (.tick 1))).getD (Proc.fresh rollbackConfig)

set_option maxRecDepth 10000 in
theorem rollback_timer_elapsed : elapsed.vip.state = .rback ∧
    (∃ r, elapsed.rollbackThreads = [r] ∧ elapsed.vip.rollbackThread = some r.id) ∧
      ∃ tr r before q during after, Spell rollbackConfig tr before q during after r ∧
        r.ticks = 60 := by
  have hs : elapsed.vip.state = .rback := by decide +kernel
  have hr : ReachesWhen Proc.step Undisturbed (Proc.fresh rollbackConfig) elapsed :=
    reachesWhen_getD _
  obtain ⟨tr, htr⟩ := hr.exists_path
  obtain ⟨hnow, hissue⟩ := rollback_timer rollbackConfig (by decide) (by decide) htr
  obtain ⟨r, hone, hst, -⟩ := hnow hs
  obtain ⟨r', -, -, hticks, before, q, during, after, hsp⟩ :=
    hissue 1 (Or.inl (by decide +kernel))
  exact ⟨hs, ⟨r, hone, hst⟩, tr, r', before, q, during, after, hsp, Int.natCast_inj.mp hticks⟩

/-- A node of still higher priority joins: the rollback ends with its message, and begins again with
that of the other, all within a second. -/
def outbid : List Input :=
  [.deliver 0 allSucceed (.confchg [1, 2, 3] [] [3]),
    .deliver 0 threaded (.message 3 (.nodeState ⟨30, .start, []⟩)),
    .deliver 0 threaded (.message 2 (.nodeState ⟨20, .backup, []⟩))]

set_option maxRecDepth 10000 in
/-- **A rollback that begins again within a second has two threads.** -/
theorem two_rollback_threads : ¬ ∀ (c : Config) (p : Proc), 0 < c.rollbackDelay →
    Reaches Proc.step (Proc.fresh c) p → p.vip.state = .rback → ∃ r, p.rollbackThreads = [r] := by
  intro h
  obtain ⟨r, hr⟩ := h rollbackConfig
    ((run Proc.step (Proc.fresh rollbackConfig) (challenged ++ outbid)).getD
      (Proc.fresh rollbackConfig)) (by decide) (reaches_getD _) (by decide +kernel)
  have htwo : ((run Proc.step (Proc.fresh rollbackConfig) (challenged ++ outbid)).getD
      (Proc.fresh rollbackConfig)).rollbackThreads.length = 2 := by decide +kernel
  rw [hr] at htwo
  simp at htwo

end CpgFailover
