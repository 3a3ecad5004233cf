import CpgFailover.Arbiter

/-!
# Other numbers for the threads

In a module with several virtual ips the runtime thread has a handle too, and stops the vips in its
own name. No process notices: one whose threads have handles one higher, and some of whose stops
come from the runtime thread instead of an operator, takes the same steps.

## Main definitions

* `Vip.shift`, `Effect.shift`, `Result.shift`: the same, with handles one higher
* `Renumbered`: a process with such handles
* `Input.lower`, `Proc.lower`: the input and the process with the other handles

## Main results

* `handle_shift`: a callback does not look at the handles
* `Renumbered.step`: each step has its match
* `Renumbered.eq_lower`: there is one such process
-/

namespace CpgFailover

open Agreed (Entry)

/-! ## Actions -/

/-- The record with thread handles one higher. -/
def Vip.shift (v : Vip) : Vip :=
  { v with
    rollbackThread := v.rollbackThread.map (· + 1)
    virtualIpThread := v.virtualIpThread.map (· + 1) }

/-- The outcome with a thread handle one higher. -/
def Outcome.shift (o : Outcome) : Outcome :=
  { o with threadCreate := o.threadCreate.map (· + 1) }

/-- The call with a thread handle one higher. -/
def Effect.shift : Effect → Effect
  | .createVipThread t => .createVipThread (t + 1)
  | .createRollbackThread t => .createRollbackThread (t + 1)
  | .joinVipThread t => .joinVipThread (t + 1)
  | .joinRollbackThread t => .joinRollbackThread (t + 1)
  | c => c

/-- The result with thread handles one higher. -/
def Result.shift (r : Result) : Result := ⟨r.status, r.vip.shift, r.effects.map Effect.shift⟩

@[simp] theorem Vip.shift_config (v : Vip) : v.shift.config = v.config := rfl

@[simp] theorem Vip.shift_state (v : Vip) : v.shift.state = v.state := rfl

@[simp] theorem Vip.shift_nodeId (v : Vip) : v.shift.nodeId = v.nodeId := rfl

@[simp] theorem Vip.shift_nodeList (v : Vip) : v.shift.nodeList = v.nodeList := rfl

@[simp] theorem Vip.shift_rollbackNodeId (v : Vip) :
    v.shift.rollbackNodeId = v.rollbackNodeId := rfl

section Actions

variable (o : Outcome) (v : Vip)

theorem goDown_shift : goDown v.shift = (goDown v).shift := by
  cases hr : v.rollbackThread <;> cases hv : v.virtualIpThread <;>
    simp [goDown, goDownReset, Result.shift, Vip.shift, Effect.shift, hr, hv]

theorem failTransition_shift (calls : List Effect) :
    failTransition v.shift (calls.map Effect.shift) = (failTransition v calls).shift := by
  simp [failTransition, goDown_shift, Result.shift]

theorem becomeMaster_shift {calls : List Effect} (h : calls.map Effect.shift = calls) :
    becomeMaster o.shift v.shift calls = (becomeMaster o v calls).shift := by
  have hfail (made : List Effect) (hm : made.map Effect.shift = made) :
      failTransition ({ v with state := .master } : Vip).shift made =
        (failTransition { v with state := .master } made).shift := by
    rw [← failTransition_shift, hm]
  have ha : o.shift.addVip = o.addVip := rfl
  have hg : o.shift.sendGarp = o.sendGarp := rfl
  simp only [becomeMaster, ha, hg]
  split_ifs
  · rw [Result.shift, List.map_append, List.map_append, h]
    rfl
  · exact hfail _ rfl
  · exact hfail _ rfl

theorem act_shift : act o.shift v.shift = (act o v).shift := by
  by_cases h : v.nodeId = nodeFirst v.nodeList
  · have h' : v.shift.nodeId = nodeFirst v.shift.nodeList := h
    rw [act, act, if_pos h, if_pos h']
    have hcalls : ([] : List Effect).map Effect.shift = [] := rfl
    exact becomeMaster_shift o v hcalls
  · have h' : v.shift.nodeId ≠ nodeFirst v.shift.nodeList := h
    rw [act, act, if_neg h, if_neg h']
    exact failTransition_shift v []

theorem react_shift : react o.shift v.shift = (react o v).shift := by
  by_cases h : v.nodeId = nodeFirst v.nodeList
  · have h' : v.shift.nodeId = nodeFirst v.shift.nodeList := h
    have hcalls : (recoverCalls v.config).map Effect.shift = recoverCalls v.config := by
      simp [recoverCalls, Effect.shift]
    rw [react, react, if_pos h, if_pos h']
    exact becomeMaster_shift o v hcalls
  · have h' : v.shift.nodeId ≠ nodeFirst v.shift.nodeList := h
    have hcalls : (cleanUpCalls v).map Effect.shift = cleanUpCalls v := by
      simp [cleanUpCalls, Effect.shift]
    rw [react, react, if_neg h, if_neg h', Result.shift, hcalls]
    rfl

theorem rollback_shift : rollback o.shift v.shift = (rollback o v).shift := by
  cases hl : v.nodeList with
  | nil => simp [rollback, hl, Result.shift]
  | cons n l =>
    by_cases hn : n.nodeid = v.nodeId
    · simp [rollback, hl, hn, Result.shift]
    · have hc : o.shift.threadCreate = o.threadCreate.map (· + 1) := rfl
      rw [rollback_cons (v := v.shift) hl hn, rollback_cons hl hn, hc]
      cases o.threadCreate <;> rfl

theorem goUp_shift : goUp o.shift v.shift = (goUp o v).shift := by
  have hc : o.shift.threadCreate = o.threadCreate.map (· + 1) := rfl
  rw [goUp, goUp, hc]
  cases o.threadCreate <;> rfl

theorem rbackStop_shift : rbackStop v.shift = (rbackStop v).shift := by
  by_cases h : v.rollbackNodeId = 0 ∨ v.rollbackNodeId ≠ nodeFirst v.nodeList
  · have h' : v.shift.rollbackNodeId = 0 ∨ v.shift.rollbackNodeId ≠ nodeFirst v.shift.nodeList := h
    rw [rbackStop, rbackStop, if_pos h, if_pos h']
    rfl
  · have h' : ¬ (v.shift.rollbackNodeId = 0 ∨
      v.shift.rollbackNodeId ≠ nodeFirst v.shift.nodeList) := h
    rw [rbackStop, rbackStop, if_neg h, if_neg h']
    rfl

theorem backupup_shift : backupup o.shift v.shift = (backupup o v).shift := by
  simp [backupup, Result.shift, virtualIpSendState, virtualIpSendAllSql, Effect.shift]
  rfl

/-- **No row of the table** looks at the handles. -/
theorem fsmDoTransaction_shift (e : Event) :
    fsmDoTransaction o.shift v.shift e = (fsmDoTransaction o v e).shift := by
  show table o.shift e v.state v.shift = (table o e v.state v).shift
  cases e with
  | startup =>
    cases v.state with
    | idle => exact goUp_shift o v
    | _ => rfl
  | duplicate =>
    cases v.state with
    | start => exact goDown_shift v
    | _ => rfl
  | masterDown =>
    cases v.state with
    | start => exact act_shift o v
    | backup => exact react_shift o v
    | _ => rfl
  | masterUp => cases v.state <;> rfl
  | backupDown =>
    cases v.state with
    | rback => exact rbackStop_shift v
    | _ => rfl
  | backupUp =>
    cases v.state with
    | master | rback => exact backupup_shift o v
    | _ => rfl
  | rbackReq =>
    cases v.state with
    | master => exact rollback_shift o v
    | rback => exact rbackStop_shift v
    | _ => rfl
  | stop =>
    cases v.state with
    | idle => rfl
    | _ => exact goDown_shift v

theorem nodesDown_shift (left : List NodeId) : nodesDown o.shift v.shift left =
    ((nodesDown o v left).1.shift, (nodesDown o v left).2.map Effect.shift) := by
  induction left generalizing v with
  | nil => rfl
  | cons x left ih =>
    have hone : fsmInputNodeDown o.shift v.shift x = (fsmInputNodeDown o v x).shift :=
      fsmDoTransaction_shift o (forget v x) (nodeDownEvent v x)
    simp only [nodesDown, hone]
    show ((nodesDown o.shift (fsmInputNodeDown o v x).vip.shift left).1, _) = _
    rw [ih]
    simp [Result.shift, ih]

theorem learn_shift (nm : NodeMsg) (y : NodeId) :
    learn o.shift v.shift nm y = (learn o v nm y).shift := by
  have hm : o.shift.malloc = o.malloc := rfl
  simp only [learn, hm]
  cases nm.state.serves <;> rfl

theorem newStateMessage_shift (nm : NodeMsg) (y : NodeId) :
    fsmInputNewStateMessage o.shift v.shift nm y = (fsmInputNewStateMessage o v nm y).shift := by
  have he : stateMessageEvent (learn o v nm y).shift nm y =
      stateMessageEvent (learn o v nm y) nm y := rfl
  simp only [fsmInputNewStateMessage, learn_shift, he]
  cases stateMessageEvent (learn o v nm y) nm y with
  | some event => exact fsmDoTransaction_shift o _ event
  | none => rfl

/-- **A callback does not look at the handles.** -/
theorem handle_shift (e : Entry NodeId Msg) : handle o.shift v.shift e =
    ((handle o v e).1.shift, (handle o v e).2.map Effect.shift) := by
  cases e with
  | confchg members left joined =>
    have hdown := nodesDown_shift o { v with memberListEntries := members.length } left
    have hup := fsmDoTransaction_shift o
      (nodesDown o { v with memberListEntries := members.length } left).1 .backupUp
    simp only [handle, confchgCallback]
    rw [show nodesDown o.shift { v.shift with memberListEntries := members.length } left = _
      from hdown]
    split_ifs
    · rw [fsmInputNodeUp, hup]
      simp [fsmInputNodeUp, Result.shift]
    · rfl
  | message y m =>
    cases m with
    | sql name sql =>
      have hcalls : (deliverSql v name sql).map Effect.shift = deliverSql v name sql := by
        rcases deliverSql_cases v name sql with h | h <;> rw [h] <;> rfl
      show (v.shift, if v.nodeId ≠ y then deliverSql v name sql else []) =
        (v.shift, (if v.nodeId ≠ y then deliverSql v name sql else []).map Effect.shift)
      split_ifs
      · rw [hcalls]
      · rfl
    | nodeState nm =>
      simp only [handle, deliverCallback, newStateMessage_shift]
      rfl

end Actions

/-! ## Processes -/

def VipThread.shift (th : VipThread) : VipThread := { th with id := th.id + 1 }

def RollbackThread.shift (r : RollbackThread) : RollbackThread := { r with id := r.id + 1 }

def DownPc.shift : DownPc → DownPc
  | .awaitRollback t => .awaitRollback (t + 1)
  | .awaitVip t => .awaitVip (t + 1)
  | pc => pc

def Down.shift (d : Down) : Down := ⟨d.caller.map (· + 1), d.pc.shift⟩

def DownPc.lower : DownPc → DownPc
  | .awaitRollback t => .awaitRollback (t - 1)
  | .awaitVip t => .awaitVip (t - 1)
  | pc => pc

def Down.lower (d : Down) : Down := ⟨d.caller.map (· - 1), d.pc.lower⟩

/-- The stop as it were if the runtime thread had not issued it. -/
def Down.anonymous (d : Down) : Down :=
  { d with caller := if d.caller = some runtimeThread then none else d.caller }

namespace Down

variable {d d' : Down}

/-- Both go on. -/
theorem moved (h : d'.anonymous = d.shift) {pc pc' : DownPc} (hpc : pc' = pc.shift) :
    ({ d' with pc := pc' } : Down).anonymous = ({ d with pc := pc } : Down).shift := by
  have hcaller := congrArg Down.caller h
  simp only [anonymous, shift] at hcaller ⊢
  rw [hcaller, hpc]

/-- A caller with a handle that has been shifted is the same thread. -/
theorem caller_of_anonymous (h : d'.anonymous = d.shift) {t : ThreadId}
    (hc : d'.caller = some (t + 1)) : d.caller = some t := by
  have hcaller := congrArg Down.caller h
  simp only [anonymous, shift, hc] at hcaller
  rw [if_neg (by simp [runtimeThread])] at hcaller
  obtain ⟨t', ht', heq⟩ := Option.map_eq_some_iff.mp hcaller.symm
  rw [ht', Nat.succ_injective heq]

theorem caller_of_shift (h : d'.anonymous = d.shift) {t : ThreadId} (hc : d.caller = some t) :
    d'.caller = some (t + 1) := by
  have hcaller := congrArg Down.caller h
  simp only [anonymous, shift, hc, Option.map_some] at hcaller
  split_ifs at hcaller
  exact hcaller

theorem pc_shift (h : d'.anonymous = d.shift) : d'.pc = d.pc.shift := congrArg Down.pc h

theorem pc_joinRollback (h : d'.anonymous = d.shift) (hpc : d'.pc = .joinRollback) :
    d.pc = .joinRollback := by
  rw [pc_shift h] at hpc
  cases hd : d.pc <;> simp_all [DownPc.shift]

theorem pc_joinVip (h : d'.anonymous = d.shift) (hpc : d'.pc = .joinVip) : d.pc = .joinVip := by
  rw [pc_shift h] at hpc
  cases hd : d.pc <;> simp_all [DownPc.shift]

theorem pc_removeVip (h : d'.anonymous = d.shift) (hpc : d'.pc = .removeVip) :
    d.pc = .removeVip := by
  rw [pc_shift h] at hpc
  cases hd : d.pc <;> simp_all [DownPc.shift]

theorem pc_awaitRollback (h : d'.anonymous = d.shift) {t' : ThreadId}
    (hpc : d'.pc = .awaitRollback t') : ∃ t, t' = t + 1 ∧ d.pc = .awaitRollback t := by
  rw [pc_shift h] at hpc
  cases hd : d.pc <;> simp_all [DownPc.shift]

theorem pc_awaitVip (h : d'.anonymous = d.shift) {t' : ThreadId} (hpc : d'.pc = .awaitVip t') :
    ∃ t, t' = t + 1 ∧ d.pc = .awaitVip t := by
  rw [pc_shift h] at hpc
  cases hd : d.pc <;> simp_all [DownPc.shift]

end Down

/-- `q` is `p` with thread handles one higher, and some of its stops are the runtime thread's. -/
structure Renumbered (p q : Proc) : Prop where
  vip : q.vip = p.vip.shift
  address : q.address = p.address
  vipThreads : q.vipThreads = p.vipThreads.map VipThread.shift
  rollbackThreads : q.rollbackThreads = p.rollbackThreads.map RollbackThread.shift
  downs : q.downs.map Down.anonymous = p.downs.map Down.shift
  nextThread : q.nextThread = p.nextThread + 1

theorem renumbered_hashed (c : Config) : Renumbered (Proc.fresh c) (Proc.hashed c) :=
  ⟨rfl, rfl, rfl, rfl, rfl, rfl⟩

namespace Renumbered

variable {p q : Proc}

/-! ### Calls -/

theorem perform (h : Renumbered p q) (c : Effect) :
    Renumbered (p.perform c) (q.perform c.shift) := by
  obtain ⟨hvip, haddr, hvt, hrt, hdowns, hnext⟩ := h
  cases c with
  | addVip a b ok =>
    cases ok with
    | true => exact ⟨hvip, rfl, hvt, hrt, hdowns, hnext⟩
    | false => exact ⟨hvip, haddr, hvt, hrt, hdowns, hnext⟩
  | removeVip => exact ⟨hvip, rfl, hvt, hrt, hdowns, hnext⟩
  | createVipThread t =>
    refine ⟨hvip, haddr, ?_, hrt, hdowns, ?_⟩
    · simp [Proc.perform, Effect.shift, hvt, VipThread.shift]
    · simp [Proc.perform, Effect.shift, hnext]
  | createRollbackThread t =>
    refine ⟨hvip, haddr, hvt, ?_, hdowns, ?_⟩
    · simp [Proc.perform, Effect.shift, hrt, hvip, RollbackThread.shift]
    · simp [Proc.perform, Effect.shift, hnext]
  | sendGarp | recover | cleanUpTable | hupall | requestAll | trackEvent | sendState
  | joinVipThread | joinRollbackThread => exact ⟨hvip, haddr, hvt, hrt, hdowns, hnext⟩

theorem foldl_perform (h : Renumbered p q) (calls : List Effect) :
    Renumbered (calls.foldl Proc.perform p) ((calls.map Effect.shift).foldl Proc.perform q) := by
  induction calls generalizing p q with
  | nil => exact h
  | cons c calls ih => exact ih (h.perform c)

/-- A new record, and what else has been done. -/
theorem absorb (h : Renumbered p q) (v : Vip) (calls : List Effect) :
    Renumbered (p.absorb v calls) (q.absorb v.shift (calls.map Effect.shift)) :=
  foldl_perform (p := { p with vip := v }) (q := { q with vip := v.shift })
    ⟨rfl, h.address, h.vipThreads, h.rollbackThreads, h.downs, h.nextThread⟩ calls

theorem withHandle (h : Renumbered p q) (o : Outcome) :
    q.withHandle o = (p.withHandle o).shift := by
  simp only [Proc.withHandle, Outcome.shift, h.nextThread]
  cases o.threadCreate <;> rfl

/-- **An entry is handled** by both. -/
theorem handleEntry (h : Renumbered p q) (o : Outcome) (e : Entry NodeId Msg) :
    Renumbered (p.handleEntry o e).1 (q.handleEntry o e).1 ∧
      (q.handleEntry o e).2 = (p.handleEntry o e).2.map Effect.shift := by
  have hhandle := handle_shift (p.withHandle o) p.vip e
  rw [← h.withHandle, ← h.vip] at hhandle
  simp only [Proc.handleEntry, hhandle]
  exact ⟨h.absorb _ _, trivial⟩

theorem cmdStart (h : Renumbered p q) (created : Bool) :
    Renumbered (p.cmdStart created) (q.cmdStart created) := by
  have hstart := fsmDoTransaction_shift
    ⟨true, true, true, if created then some p.nextThread else none, []⟩ p.vip .startup
  have ho : (⟨true, true, true, if created then some q.nextThread else none, []⟩ : Outcome) =
      Outcome.shift ⟨true, true, true, if created then some p.nextThread else none, []⟩ := by
    rw [h.nextThread]
    cases created <;> rfl
  simp only [Proc.cmdStart, fsmInputCmdStart, ho, h.vip, hstart]
  exact h.absorb _ _

/-- A stop, which the runtime thread may have issued. -/
theorem cmdStop (h : Renumbered p q) {caller caller' : Option ThreadId}
    (hc : (if caller' = some runtimeThread then none else caller') = caller.map (· + 1)) :
    Renumbered (p.cmdStop caller) (q.cmdStop caller') := by
  have hs : q.vip.state = p.vip.state := by rw [h.vip, Vip.shift_state]
  by_cases hi : p.vip.state = .idle
  · rw [Proc.cmdStop_idle hi, Proc.cmdStop_idle (hs.trans hi)]
    exact h
  · rw [Proc.cmdStop_running hi, Proc.cmdStop_running (hs ▸ hi)]
    refine ⟨?_, h.address, h.vipThreads, h.rollbackThreads, ?_, h.nextThread⟩
    · rw [h.vip]
      rfl
    · simp [h.downs, Down.anonymous, Down.shift, DownPc.shift, hc]

/-! ### Threads -/

theorem mem_vipThreads (h : Renumbered p q) {t' : ThreadId} {phase : VipPhase}
    (hm : ⟨t', phase⟩ ∈ q.vipThreads) : ∃ t, t' = t + 1 ∧ ⟨t, phase⟩ ∈ p.vipThreads := by
  rw [h.vipThreads] at hm
  obtain ⟨th, hth, heq⟩ := List.mem_map.mp hm
  cases heq
  exact ⟨th.id, rfl, hth⟩

theorem moveVip (h : Renumbered p q) (t : ThreadId) (phase : VipPhase) :
    Renumbered (p.moveVip t phase) (q.moveVip (t + 1) phase) := by
  refine ⟨h.vip, h.address, ?_, h.rollbackThreads, h.downs, h.nextThread⟩
  simp only [Proc.moveVip, h.vipThreads, List.map_map]
  apply List.map_congr_left
  intro th _
  by_cases ht : th.id = t <;> simp [VipThread.shift, ht]

theorem moveRollback (h : Renumbered p q) (r : RollbackThread) :
    Renumbered (p.moveRollback r) (q.moveRollback r.shift) := by
  refine ⟨h.vip, h.address, h.vipThreads, ?_, h.downs, h.nextThread⟩
  simp only [Proc.moveRollback, h.rollbackThreads, List.map_map]
  apply List.map_congr_left
  intro th _
  by_cases ht : th.id = r.id <;> simp [RollbackThread.shift, ht]

theorem endRollback (h : Renumbered p q) (t : ThreadId) :
    Renumbered (p.endRollback t) (q.endRollback (t + 1)) := by
  refine ⟨h.vip, h.address, h.vipThreads, ?_, h.downs, h.nextThread⟩
  simp only [Proc.endRollback, h.rollbackThreads, List.filter_map]
  congr 1
  apply List.filter_congr
  intro th _
  simp [RollbackThread.shift]

theorem findRollback (h : Renumbered p q) {t' : ThreadId} {pc : RollbackPc} {r' : RollbackThread}
    (hf : q.findRollback t' pc = some r') :
    ∃ r, r' = r.shift ∧ t' = r.id + 1 ∧ p.findRollback r.id pc = some r := by
  obtain ⟨-, hid, hpc⟩ := Proc.findRollback_eq_some hf
  rw [Proc.findRollback, h.rollbackThreads, List.find?_map] at hf
  obtain ⟨r, hr, rfl⟩ := Option.map_eq_some_iff.mp hf
  refine ⟨r, rfl, hid.symm, ?_⟩
  rw [Proc.findRollback, ← hr]
  congr 1
  funext th
  subst hid
  exact decide_eq_decide.mpr (by simp [RollbackThread.shift])

theorem tick (h : Renumbered p q) (r : RollbackThread) :
    Renumbered (p.tick r) (q.tick r.shift) := by
  have hs : q.vip.state = p.vip.state := by rw [h.vip, Vip.shift_state]
  have hc : q.vip.config = p.vip.config := by rw [h.vip, Vip.shift_config]
  by_cases hb : p.vip.state = .rback
  · simp only [Proc.tick, hs, hc, hb, ne_eq, not_true_eq_false, if_false]
    exact h.moveRollback _
  · simp only [Proc.tick, hs, hb, ne_eq, not_false_eq_true, if_true]
    exact h.endRollback r.id

/-! ### Stops in progress -/

/-- A stop of one process is a stop of the other. -/
theorem down_of_down (h : Renumbered p q) {i : ℕ} {d' : Down} (hd : q.downs[i]? = some d') :
    ∃ d, p.downs[i]? = some d ∧ d'.anonymous = d.shift := by
  have hi := congrArg (·[i]?) h.downs
  simp only [List.getElem?_map, hd, Option.map_some] at hi
  obtain ⟨d, hd, heq⟩ := Option.map_eq_some_iff.mp hi.symm
  exact ⟨d, hd, heq.symm⟩

theorem mem_downs (h : Renumbered p q) {d : Down} (hd : d ∈ p.downs) :
    ∃ d' ∈ q.downs, d'.anonymous = d.shift := by
  have hmem : d.shift ∈ q.downs.map Down.anonymous := h.downs ▸ List.mem_map_of_mem hd
  exact List.mem_map.mp hmem

theorem setDown (h : Renumbered p q) (i : ℕ) {d d' : Down} (hd : d'.anonymous = d.shift) :
    Renumbered (p.setDown i d) (q.setDown i d') := by
  refine ⟨h.vip, h.address, h.vipThreads, h.rollbackThreads, ?_, h.nextThread⟩
  simp only [Proc.setDown, List.map_set, h.downs, hd]

theorem withVip (h : Renumbered p q) {v v' : Vip} (hv : v' = v.shift) :
    Renumbered { p with vip := v } { q with vip := v' } :=
  ⟨hv, h.address, h.vipThreads, h.rollbackThreads, h.downs, h.nextThread⟩

theorem rollbackThread_eq_some (h : Renumbered p q) {t' : ThreadId}
    (ht : q.vip.rollbackThread = some t') : ∃ t, t' = t + 1 ∧ p.vip.rollbackThread = some t := by
  rw [h.vip] at ht
  obtain ⟨t, hp, rfl⟩ := Option.map_eq_some_iff.mp ht
  exact ⟨t, rfl, hp⟩

theorem virtualIpThread_eq_some (h : Renumbered p q) {t' : ThreadId}
    (ht : q.vip.virtualIpThread = some t') : ∃ t, t' = t + 1 ∧ p.vip.virtualIpThread = some t := by
  rw [h.vip] at ht
  obtain ⟨t, hp, rfl⟩ := Option.map_eq_some_iff.mp ht
  exact ⟨t, rfl, hp⟩

theorem mem_rollbackIds (h : Renumbered p q) {t : ThreadId}
    (ht : t ∈ p.rollbackThreads.map RollbackThread.id) :
    t + 1 ∈ q.rollbackThreads.map RollbackThread.id := by
  obtain ⟨r, hr, rfl⟩ := List.mem_map.mp ht
  rw [h.rollbackThreads]
  exact List.mem_map.mpr ⟨r.shift, List.mem_map_of_mem hr, rfl⟩

theorem mem_vipIds (h : Renumbered p q) {t : ThreadId}
    (ht : t ∈ p.vipThreads.map VipThread.id) : t + 1 ∈ q.vipThreads.map VipThread.id := by
  obtain ⟨th, hth, rfl⟩ := List.mem_map.mp ht
  rw [h.vipThreads]
  exact List.mem_map.mpr ⟨th.shift, List.mem_map_of_mem hth, rfl⟩

/-- **The next call of a stop** is that of the other. -/
theorem downStep (h : Renumbered p q) {i : ℕ} {q' : Proc} (hs : q.downStep i = some q') :
    ∃ p', p.downStep i = some p' ∧ Renumbered p' q' := by
  cases Proc.downTo_of_downStep hs with
  | awaitRollback hd' hpc' ht' =>
    obtain ⟨d, hd, heq⟩ := h.down_of_down hd'
    obtain ⟨t, rfl, ht⟩ := h.rollbackThread_eq_some ht'
    have hpc := Down.pc_joinRollback heq hpc'
    refine ⟨p.setDown i { d with pc := .awaitRollback t }, ?_, h.setDown i (Down.moved heq rfl)⟩
    simp only [Proc.downStep, hd, hpc, ht]
  | noRollback hd' hpc' ht' =>
    obtain ⟨d, hd, heq⟩ := h.down_of_down hd'
    have hpc := Down.pc_joinRollback heq hpc'
    have ht : p.vip.rollbackThread = none := by
      rw [h.vip] at ht'
      exact Option.map_eq_none_iff.mp ht'
    refine ⟨p.setDown i { d with pc := .joinVip }, ?_, h.setDown i (Down.moved heq rfl)⟩
    simp only [Proc.downStep, hd, hpc, ht]
  | rollbackJoined hd' hpc' hw' =>
    obtain ⟨d, hd, heq⟩ := h.down_of_down hd'
    obtain ⟨t, rfl, hpc⟩ := Down.pc_awaitRollback heq hpc'
    have hw : ¬ (d.caller ≠ some t ∧ t ∈ p.rollbackThreads.map RollbackThread.id) := by
      rintro ⟨hne, hmem⟩
      exact hw' ⟨fun hc => hne (Down.caller_of_anonymous heq hc), h.mem_rollbackIds hmem⟩
    refine ⟨({ p with vip := { p.vip with rollbackThread := none } } : Proc).setDown i
      { d with pc := .joinVip }, ?_, (h.withVip ?_).setDown i (Down.moved heq rfl)⟩
    · simp only [Proc.downStep, hd, hpc, if_neg hw]
    · rw [h.vip]
      rfl
  | awaitVip hd' hpc' ht' =>
    obtain ⟨d, hd, heq⟩ := h.down_of_down hd'
    obtain ⟨t, rfl, ht⟩ := h.virtualIpThread_eq_some ht'
    have hpc := Down.pc_joinVip heq hpc'
    refine ⟨p.setDown i { d with pc := .awaitVip t }, ?_, h.setDown i (Down.moved heq rfl)⟩
    simp only [Proc.downStep, hd, hpc, ht]
  | noVip hd' hpc' ht' =>
    obtain ⟨d, hd, heq⟩ := h.down_of_down hd'
    have hpc := Down.pc_joinVip heq hpc'
    have ht : p.vip.virtualIpThread = none := by
      rw [h.vip] at ht'
      exact Option.map_eq_none_iff.mp ht'
    refine ⟨p.setDown i { d with pc := .removeVip }, ?_, h.setDown i (Down.moved heq rfl)⟩
    simp only [Proc.downStep, hd, hpc, ht]
  | vipJoined hd' hpc' hw' =>
    obtain ⟨d, hd, heq⟩ := h.down_of_down hd'
    obtain ⟨t, rfl, hpc⟩ := Down.pc_awaitVip heq hpc'
    have hw : t ∉ p.vipThreads.map VipThread.id := fun hmem => hw' (h.mem_vipIds hmem)
    refine ⟨({ p with vip := { p.vip with virtualIpThread := none } } : Proc).setDown i
      { d with pc := .removeVip }, ?_, (h.withVip ?_).setDown i (Down.moved heq rfl)⟩
    · simp only [Proc.downStep, hd, hpc, if_neg hw]
    · rw [h.vip]
      rfl
  | removed hd' hpc' =>
    obtain ⟨d, hd, heq⟩ := h.down_of_down hd'
    have hpc := Down.pc_removeVip heq hpc'
    refine ⟨{ p with address := false, downs := p.downs.eraseIdx i }, ?_, h.vip, rfl, h.vipThreads,
      h.rollbackThreads, ?_, h.nextThread⟩
    · simp only [Proc.downStep, hd, hpc]
    · simp only [← List.eraseIdx_map, h.downs]

/-! ### Steps -/

/-- A call of `vip_thread`. -/
theorem vipCall (h : Renumbered p q) {t' : ThreadId} {here : VipPhase}
    (hm : ⟨t', here⟩ ∈ q.vipThreads) (next : VipPhase) : ⟨t' - 1, here⟩ ∈ p.vipThreads ∧
      Renumbered (p.moveVip (t' - 1) next) (q.moveVip t' next) := by
  obtain ⟨t, rfl, ht⟩ := h.mem_vipThreads hm
  exact ⟨ht, h.moveVip t next⟩

/-- A rollback thread in this place. -/
theorem rollback (h : Renumbered p q) {r' : RollbackThread} {pc : RollbackPc}
    (hf : q.findRollback r'.id pc = some r') :
    ∃ r, r' = r.shift ∧ p.findRollback (r'.id - 1) pc = some r := by
  obtain ⟨r, rfl, -, hr⟩ := h.findRollback hf
  exact ⟨r, rfl, hr⟩

end Renumbered

/-- The input with the handles of the other process. -/
def Input.lower : Input → Input
  | .cpgInitialize t results => .cpgInitialize (t - 1) results
  | .contextSet t result => .contextSet (t - 1) result
  | .localGet t result nodeid => .localGet (t - 1) result nodeid
  | .join t results => .join (t - 1) results
  | .deliver t o e => .deliver (t - 1) o e
  | .dispatchFails t => .dispatchFails (t - 1)
  | .exitLoop t => .exitLoop (t - 1)
  | .leave t => .leave (t - 1)
  | .finalize t => .finalize (t - 1)
  | .finish t => .finish (t - 1)
  | .tick t => .tick (t - 1)
  | .rollbackStop t => .rollbackStop (t - 1)
  | .rollbackWait t => .rollbackWait (t - 1)
  | .rollbackStart t created => .rollbackStart (t - 1) created
  | i => i

/-- **Each step has its match.** -/
theorem Renumbered.step {p q q' : Proc} (h : Renumbered p q) {i : Input}
    (hs : q.step i = some q') : ∃ p', p.step i.lower = some p' ∧ Renumbered p' q' := by
  have hstate : q.vip.state = p.vip.state := by rw [h.vip, Vip.shift_state]
  cases i with
  | start created =>
    obtain rfl := Option.some.inj hs
    exact ⟨_, rfl, h.cmdStart created⟩
  | stop =>
    obtain rfl := Option.some.inj hs
    exact ⟨_, rfl, h.cmdStop rfl⟩
  | down i => exact h.downStep hs
  | cpgInitialize t results | contextSet t result | join t results | dispatchFails t | leave t
  | finalize t =>
    obtain ⟨ht, rfl⟩ := Proc.vipCall_eq_some hs
    obtain ⟨hm, hmove⟩ := h.vipCall ht _
    exact ⟨_, if_pos hm, hmove⟩
  | localGet t result nodeid =>
    obtain ⟨u, hu, rfl⟩ := Option.map_eq_some_iff.mp hs
    obtain ⟨ht, rfl⟩ := Proc.vipCall_eq_some hu
    obtain ⟨hm, hmove⟩ := h.vipCall ht (if decide (result = .ok) then .join else .finalizing)
    refine ⟨_, by rw [Input.lower, Proc.step, Proc.vipCall, if_pos hm, Option.map_some], ?_⟩
    by_cases hr : result = .ok
    · rw [if_pos hr, if_pos hr]
      exact hmove.withVip (by rw [hmove.vip]; rfl)
    · rw [if_neg hr, if_neg hr]
      exact hmove
  | exitLoop t =>
    obtain ⟨hidle, hs⟩ := Option.ite_none_right_eq_some.mp hs
    obtain ⟨ht, rfl⟩ := Proc.vipCall_eq_some hs
    obtain ⟨hm, hmove⟩ := h.vipCall ht _
    refine ⟨_, ?_, hmove⟩
    rw [Input.lower, Proc.step, if_pos (hstate ▸ hidle), Proc.vipCall, if_pos hm]
  | deliver t o e =>
    obtain ⟨ht, hs⟩ := Option.ite_none_right_eq_some.mp hs
    obtain rfl := Option.some.inj hs
    exact ⟨_, if_pos (h.vipCall ht .dispatching).1, (h.handleEntry o e).1⟩
  | finish t =>
    obtain ⟨ht, hs⟩ := Option.ite_none_right_eq_some.mp hs
    obtain rfl := Option.some.inj hs
    obtain ⟨t, rfl, hm⟩ := h.mem_vipThreads ht
    refine ⟨_, if_pos hm, h.vip, h.address, ?_, h.rollbackThreads, h.downs, h.nextThread⟩
    simp only [h.vipThreads, List.filter_map]
    congr 1
    apply List.filter_congr
    intro th _
    simp [VipThread.shift]
  | tick t =>
    obtain ⟨r', hf, rfl⟩ := Option.map_eq_some_iff.mp hs
    obtain ⟨-, rfl, -⟩ := Proc.findRollback_eq_some hf
    obtain ⟨r, rfl, hr⟩ := h.rollback hf
    exact ⟨_, by rw [Input.lower, Proc.step, hr, Option.map_some], h.tick r⟩
  | rollbackStop t =>
    obtain ⟨r', hf, rfl⟩ := Option.map_eq_some_iff.mp hs
    obtain ⟨-, rfl, -⟩ := Proc.findRollback_eq_some hf
    obtain ⟨r, rfl, hr⟩ := h.rollback hf
    refine ⟨_, by rw [Input.lower, Proc.step, hr, Option.map_some], ?_⟩
    exact (h.cmdStop (by simp [RollbackThread.shift, runtimeThread])).moveRollback
      { r with pc := .waiting }
  | rollbackWait t =>
    obtain ⟨hd, hs⟩ := Option.ite_none_left_eq_some.mp hs
    obtain ⟨r', hf, rfl⟩ := Option.map_eq_some_iff.mp hs
    obtain ⟨-, rfl, -⟩ := Proc.findRollback_eq_some hf
    obtain ⟨r, rfl, hr⟩ := h.rollback hf
    have hno : ¬ ∃ d ∈ p.downs, d.caller = some (r.shift.id - 1) := by
      rintro ⟨d, hmem, hc⟩
      obtain ⟨d', hmem', heq⟩ := h.mem_downs hmem
      exact hd ⟨d', hmem', Down.caller_of_shift heq hc⟩
    exact ⟨_, by rw [Input.lower, Proc.step, if_neg hno, hr, Option.map_some],
      h.moveRollback { r with pc := .starting }⟩
  | rollbackStart t created =>
    obtain ⟨r', hf, rfl⟩ := Option.map_eq_some_iff.mp hs
    obtain ⟨-, rfl, -⟩ := Proc.findRollback_eq_some hf
    obtain ⟨r, rfl, hr⟩ := h.rollback hf
    refine ⟨_, ?_, (h.endRollback r.id).cmdStart created⟩
    rw [Input.lower, Proc.step, hr]
    rfl

/-! ## The other process -/

/-- The process whose threads have handles one lower, and whose stops do not come from the runtime
thread. -/
def Proc.lower (q : Proc) : Proc where
  vip := { q.vip with
    rollbackThread := q.vip.rollbackThread.map (· - 1)
    virtualIpThread := q.vip.virtualIpThread.map (· - 1) }
  address := q.address
  vipThreads := q.vipThreads.map fun th => { th with id := th.id - 1 }
  rollbackThreads := q.rollbackThreads.map fun r => { r with id := r.id - 1 }
  downs := q.downs.map fun d => d.anonymous.lower
  nextThread := q.nextThread - 1

/-- **There is one such process.** -/
theorem Renumbered.eq_lower {p q : Proc} (h : Renumbered p q) : p = q.lower := by
  have hdown (d : Down) : d.shift.lower = d := by
    obtain ⟨caller, pc⟩ := d
    cases caller <;> cases pc <;> rfl
  have hdowns : q.downs.map (fun d => d.anonymous.lower) = p.downs := by
    have hmap := congrArg (List.map Down.lower) h.downs
    rw [List.map_map, List.map_map] at hmap
    rw [show (fun d : Down => d.anonymous.lower) = Down.lower ∘ Down.anonymous from rfl, hmap]
    simp [Function.comp_def, hdown]
  obtain ⟨v, address, vts, rts, downs, next⟩ := p
  have hr : (v.rollbackThread.map (· + 1)).map (· - 1) = v.rollbackThread := by
    cases v.rollbackThread <;> rfl
  have hv : (v.virtualIpThread.map (· + 1)).map (· - 1) = v.virtualIpThread := by
    cases v.virtualIpThread <;> rfl
  simp only at hdowns
  simp only [Proc.lower, hdowns, h.vip, h.address, h.vipThreads, h.rollbackThreads, h.nextThread]
  simp only [Vip.shift, hr, hv]
  congr 1
  · simp [Function.comp_def, VipThread.shift]
  · simp [Function.comp_def, RollbackThread.shift]

end CpgFailover
