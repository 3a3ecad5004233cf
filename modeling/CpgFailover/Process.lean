import CpgFailover.Callback
import CpgFailover.Lib.Transition

/-!
# One process and its threads

A process runs the state machine of a vip from several threads: `vip_thread`, which calls the
callbacks from inside `cpg_dispatch`; rollback threads; and the callers of the start and stop
commands (operator, arbiter, rollback threads). The threads are interleaved call by call: a whole
callback is one step, and so are a start, and a stop up to its first wait with the assignments of
`go_down`. The source takes no lock around any of them, and what another thread does in the middle
of one is not modelled. `go_down` issued outside `vip_thread` is split at the points where it waits
for a thread, because the others go on meanwhile.

## Main definitions

* `VipPhase`, `RollbackPc`, `DownPc`: the program counters of the three kinds of thread
* `Proc`: a process
* `Input`, `Proc.step`: the steps of a process
* `Proc.StepTo`: the same steps, one case a step
* `Proc.DownTo`: the calls of a `go_down` in progress, one case a call

## Main results

* `goDown_vip_eq`: the split `go_down` ends where the whole one does
* `Proc.stepTo_of_step`: what a step can do
* `Proc.step_vip`: what a step does to the record
* `Proc.step_vipThreads`: only a start creates a `vip_thread`
-/

namespace CpgFailover

/-! ## Calls to corosync -/

/-- `cs_error_t`, as far as `vip_thread` tells its values apart. -/
inductive CsError
  | ok
  | tryAgain
  | other
deriving DecidableEq, Repr

def csMaxRetries : ℕ := 10

/-- The retry loops of `vip_thread`, on the results of successive calls: the result they end with.
-/
def csRetry : ℕ → List CsError → CsError
  | 0, _ => .tryAgain
  | _ + 1, [] => .tryAgain
  | i + 1, result :: rest => if result = .tryAgain then csRetry i rest else result

/-! ## Threads -/

/-- Where `vip_thread` is: before the call of that name, in its loop, or at an exit label. -/
inductive VipPhase
  | cpgInitialize
  | contextSet
  | localGet
  | join
  | dispatching
  | leaving
  | finalizing
  | ending
deriving DecidableEq, Repr

structure VipThread where
  id : ThreadId
  phase : VipPhase
deriving DecidableEq

/-- Where `rollback_thread` is: in its loop, before its stop, in its stop, before its start. -/
inductive RollbackPc
  | counting
  | stopping
  | waiting
  | starting
deriving DecidableEq, Repr

/-- A rollback thread; `ticks` is its loop counter. -/
structure RollbackThread where
  id : ThreadId
  localId : NodeId
  ticks : ℕ
  pc : RollbackPc
deriving DecidableEq

/-- Where a `go_down` outside `vip_thread` is, after it has reset the record. -/
inductive DownPc
  | joinRollback
  | awaitRollback (t : ThreadId)
  | joinVip
  | awaitVip (t : ThreadId)
  | removeVip
deriving DecidableEq

/-- A `go_down` in progress; `caller` is the rollback thread that issued it, if one did. -/
structure Down where
  caller : Option ThreadId
  pc : DownPc
deriving DecidableEq

/-- The process: the record, the address on its interface, its living threads, the `go_down`s in
progress outside `vip_thread`, and the next free thread handle. -/
structure Proc where
  vip : Vip
  address : Bool
  vipThreads : List VipThread
  rollbackThreads : List RollbackThread
  downs : List Down
  nextThread : ThreadId
deriving DecidableEq

/-- A process that has read its configuration. -/
def Proc.fresh (c : Config) : Proc := ⟨Vip.fresh c, false, [], [], [], 0⟩

/-- The number of seconds `rollback_thread` waits for: the delay is in minutes, and the product is an
`int`, which wraps. -/
def rollbackTicks (c : Config) : ℕ := (Int.bmod (c.rollbackDelay * 60) (2 ^ 32)).toNat

/-- A delay that can be counted out in an `int` is. -/
theorem rollbackTicks_of_fits {c : Config} (hd : 0 ≤ c.rollbackDelay)
    (hfits : c.rollbackDelay * 60 < 2 ^ 31) : (rollbackTicks c : ℤ) = c.rollbackDelay * 60 := by
  have hprod : Int.bmod (c.rollbackDelay * 60) (2 ^ 32) = c.rollbackDelay * 60 :=
    Int.bmod_eq_of_le (by omega) (by omega)
  rw [rollbackTicks, hprod, Int.toNat_of_nonneg (by omega)]

/-- Any other is cut short. -/
example (c : Config) : rollbackTicks { c with rollbackDelay := 71582789 } = 44 := rfl

namespace Proc

/-! ## The calls of an action -/

/-- What a call does to the process. A join made by `vip_thread` itself returns at once: it waits
for its own thread, which the thread library refuses. -/
def perform (p : Proc) : Effect → Proc
  | .addVip _ _ true => { p with address := true }
  | .removeVip _ _ => { p with address := false }
  | .createVipThread t =>
    { p with vipThreads := p.vipThreads ++ [⟨t, .cpgInitialize⟩], nextThread := p.nextThread + 1 }
  | .createRollbackThread t =>
    { p with
      -- it reads its target when it starts; without a delay it never sleeps
      rollbackThreads := p.rollbackThreads ++
        [⟨t, p.vip.rollbackNodeId, 0,
          if 0 < rollbackTicks p.vip.config then .counting else .stopping⟩]
      nextThread := p.nextThread + 1 }
  | _ => p

/-- The process after an action left the record `v` and made these calls. -/
def absorb (p : Proc) (v : Vip) (calls : List Effect) : Proc :=
  calls.foldl perform { p with vip := v }

/-- The outcome of a thread creation names the next free handle. -/
def withHandle (p : Proc) (o : Outcome) : Outcome :=
  { o with threadCreate := o.threadCreate.map fun _ => p.nextThread }

/-- `fsm_input_cmd_start`; `created` is the outcome of `switch_thread_create`. -/
def cmdStart (p : Proc) (created : Bool) : Proc :=
  let r := fsmInputCmdStart ⟨true, true, true, if created then some p.nextThread else none, []⟩ p.vip
  p.absorb r.vip r.effects

/-- `fsm_input_cmd_stop` outside `vip_thread`, up to the first wait of `go_down`. -/
def cmdStop (p : Proc) (caller : Option ThreadId) : Proc :=
  if p.vip.state = .idle then p
  -- the rest of `go_down` follows in steps of its own
  else { p with vip := goDownReset p.vip, downs := p.downs ++ [⟨caller, .joinRollback⟩] }

/-- An entry handled inside `cpg_dispatch`. -/
def handleEntry (p : Proc) (o : Outcome) (e : Agreed.Entry NodeId Msg) : Proc × List Effect :=
  let r := handle (p.withHandle o) p.vip e
  (p.absorb r.1 r.2, r.2)

/-! ## Moving threads -/

def moveVip (p : Proc) (t : ThreadId) (phase : VipPhase) : Proc :=
  { p with vipThreads := p.vipThreads.map fun th => if th.id = t then ⟨t, phase⟩ else th }

/-- A call of `vip_thread` `t` made in phase `here`, and where it goes from there. -/
def vipCall (p : Proc) (t : ThreadId) (here : VipPhase) (ok : Bool) (next failed : VipPhase) :
    Option Proc :=
  if ⟨t, here⟩ ∈ p.vipThreads then some (p.moveVip t (if ok then next else failed)) else none

def moveRollback (p : Proc) (r : RollbackThread) : Proc :=
  { p with rollbackThreads := p.rollbackThreads.map fun th => if th.id = r.id then r else th }

def endRollback (p : Proc) (t : ThreadId) : Proc :=
  { p with rollbackThreads := p.rollbackThreads.filter fun th => th.id ≠ t }

def findRollback (p : Proc) (t : ThreadId) (pc : RollbackPc) : Option RollbackThread :=
  p.rollbackThreads.find? fun th => th.id = t ∧ th.pc = pc

/-- One turn of the loop of `rollback_thread`, after its one-second sleep. -/
def tick (p : Proc) (r : RollbackThread) : Proc :=
  -- the rollback has been called off
  if p.vip.state ≠ .rback then p.endRollback r.id
  else
    p.moveRollback { r with
      ticks := r.ticks + 1
      pc := if r.ticks + 1 < rollbackTicks p.vip.config then .counting else .stopping }

def setDown (p : Proc) (i : ℕ) (d : Down) : Proc := { p with downs := p.downs.set i d }

/-- The next call of the `i`-th `go_down`. A thread that joins itself is refused and goes on. -/
def downStep (p : Proc) (i : ℕ) : Option Proc :=
  match p.downs[i]? with
  | none => none
  | some d =>
    match d.pc with
    | .joinRollback =>
      match p.vip.rollbackThread with
      | some t => some (p.setDown i { d with pc := .awaitRollback t })
      | none => some (p.setDown i { d with pc := .joinVip })
    -- the join of a thread that has returned, or of the caller itself, returns
    | .awaitRollback t =>
      if d.caller ≠ some t ∧ t ∈ p.rollbackThreads.map RollbackThread.id then none
      else some ({ p with vip := { p.vip with rollbackThread := none } }.setDown i
        { d with pc := .joinVip })
    | .joinVip =>
      match p.vip.virtualIpThread with
      | some t => some (p.setDown i { d with pc := .awaitVip t })
      | none => some (p.setDown i { d with pc := .removeVip })
    | .awaitVip t =>
      if t ∈ p.vipThreads.map VipThread.id then none
      else some ({ p with vip := { p.vip with virtualIpThread := none } }.setDown i
        { d with pc := .removeVip })
    -- the calls of the profiles are hung up, and the stop is over
    | .removeVip => some { p with address := false, downs := p.downs.eraseIdx i }

end Proc

/-! ## Steps -/

/-- The steps of a process, with the outcomes of the calls they make. -/
inductive Input
  | start (created : Bool)
  | stop
  | down (i : ℕ)
  | cpgInitialize (t : ThreadId) (results : List CsError)
  | contextSet (t : ThreadId) (result : CsError)
  | localGet (t : ThreadId) (result : CsError) (nodeid : NodeId)
  | join (t : ThreadId) (results : List CsError)
  | deliver (t : ThreadId) (o : Outcome) (e : Agreed.Entry NodeId Msg)
  | dispatchFails (t : ThreadId)
  | exitLoop (t : ThreadId)
  | leave (t : ThreadId)
  | finalize (t : ThreadId)
  | finish (t : ThreadId)
  | tick (t : ThreadId)
  | rollbackStop (t : ThreadId)
  | rollbackWait (t : ThreadId)
  | rollbackStart (t : ThreadId) (created : Bool)
deriving DecidableEq

/-- One step of a process: one call of one of its threads, as a whole. -/
def Proc.step (p : Proc) : Input → Option Proc
  | .start created => some (p.cmdStart created)
  | .stop => some (p.cmdStop none)
  | .down i => p.downStep i
  -- a call that fails goes to the label that undoes what the calls before it have done
  | .cpgInitialize t results =>
    p.vipCall t .cpgInitialize (csRetry csMaxRetries results = .ok) .contextSet .ending
  | .contextSet t result => p.vipCall t .contextSet (result = .ok) .localGet .finalizing
  | .localGet t result nodeid =>
    (p.vipCall t .localGet (result = .ok) .join .finalizing).map fun p =>
      if result = .ok then { p with vip := { p.vip with nodeId := nodeid } } else p
  | .join t results =>
    p.vipCall t .join (csRetry csMaxRetries results = .ok) .dispatching .finalizing
  | .deliver t o e => if ⟨t, .dispatching⟩ ∈ p.vipThreads then some (p.handleEntry o e).1 else none
  | .dispatchFails t => p.vipCall t .dispatching false .dispatching .leaving
  | .exitLoop t =>
    if p.vip.state = .idle then p.vipCall t .dispatching true .leaving .leaving else none
  | .leave t => p.vipCall t .leaving true .finalizing .finalizing
  | .finalize t => p.vipCall t .finalizing true .ending .ending
  | .finish t =>
    if ⟨t, .ending⟩ ∈ p.vipThreads then
      some { p with vipThreads := p.vipThreads.filter fun th => th.id ≠ t }
    else none
  | .tick t => (p.findRollback t .counting).map p.tick
  | .rollbackStop t =>
    (p.findRollback t .stopping).map fun r =>
      (p.cmdStop (some t)).moveRollback { r with pc := .waiting }
  | .rollbackWait t =>
    -- the stop has returned; the thread sleeps for a second before it starts the vip again
    if ∃ d ∈ p.downs, d.caller = some t then none
    else (p.findRollback t .waiting).map fun r => p.moveRollback { r with pc := .starting }
  | .rollbackStart t created =>
    (p.findRollback t .starting).map fun _ => (p.endRollback t).cmdStart created

/-! ## What the steps do -/

/-- The split `go_down` ends where the whole one does: it clears the two thread handles. -/
theorem goDown_vip_eq (v : Vip) :
    (goDown v).vip = { goDownReset v with rollbackThread := none, virtualIpThread := none } := rfl

namespace Proc

/-- The steps of a process, by what they do. -/
inductive StepTo (p : Proc) : Input → Proc → Prop
  | start (created : Bool) : StepTo p (.start created) (p.cmdStart created)
  | stop : StepTo p .stop (p.cmdStop none)
  | down {i : ℕ} {p' : Proc} : p.downStep i = some p' → StepTo p (.down i) p'
  | cpgInitialize {t : ThreadId} {results : List CsError} :
      ⟨t, .cpgInitialize⟩ ∈ p.vipThreads → StepTo p (.cpgInitialize t results)
        (p.moveVip t (if csRetry csMaxRetries results = .ok then .contextSet else .ending))
  | contextSet {t : ThreadId} {result : CsError} :
      ⟨t, .contextSet⟩ ∈ p.vipThreads → StepTo p (.contextSet t result)
        (p.moveVip t (if result = .ok then .localGet else .finalizing))
  | located {t : ThreadId} {nodeid : NodeId} :
      ⟨t, .localGet⟩ ∈ p.vipThreads → StepTo p (.localGet t .ok nodeid)
        ({ p with vip := { p.vip with nodeId := nodeid } }.moveVip t .join)
  | unlocated {t : ThreadId} {result : CsError} {nodeid : NodeId} :
      ⟨t, .localGet⟩ ∈ p.vipThreads → result ≠ .ok →
        StepTo p (.localGet t result nodeid) (p.moveVip t .finalizing)
  | join {t : ThreadId} {results : List CsError} :
      ⟨t, .join⟩ ∈ p.vipThreads → StepTo p (.join t results)
        (p.moveVip t (if csRetry csMaxRetries results = .ok then .dispatching else .finalizing))
  | deliver {t : ThreadId} (o : Outcome) (e : Agreed.Entry NodeId Msg) :
      ⟨t, .dispatching⟩ ∈ p.vipThreads → StepTo p (.deliver t o e) (p.handleEntry o e).1
  | dispatchFails {t : ThreadId} :
      ⟨t, .dispatching⟩ ∈ p.vipThreads → StepTo p (.dispatchFails t) (p.moveVip t .leaving)
  | exitLoop {t : ThreadId} :
      ⟨t, .dispatching⟩ ∈ p.vipThreads → p.vip.state = .idle →
        StepTo p (.exitLoop t) (p.moveVip t .leaving)
  | leave {t : ThreadId} :
      ⟨t, .leaving⟩ ∈ p.vipThreads → StepTo p (.leave t) (p.moveVip t .finalizing)
  | finalize {t : ThreadId} :
      ⟨t, .finalizing⟩ ∈ p.vipThreads → StepTo p (.finalize t) (p.moveVip t .ending)
  | finish {t : ThreadId} :
      ⟨t, .ending⟩ ∈ p.vipThreads → StepTo p (.finish t)
        { p with vipThreads := p.vipThreads.filter fun th => th.id ≠ t }
  | tick {r : RollbackThread} :
      r ∈ p.rollbackThreads → r.pc = .counting → StepTo p (.tick r.id) (p.tick r)
  | rollbackStop {r : RollbackThread} :
      r ∈ p.rollbackThreads → r.pc = .stopping → StepTo p (.rollbackStop r.id)
        ((p.cmdStop (some r.id)).moveRollback { r with pc := .waiting })
  | rollbackWait {r : RollbackThread} :
      r ∈ p.rollbackThreads → r.pc = .waiting → (¬ ∃ d ∈ p.downs, d.caller = some r.id) →
        StepTo p (.rollbackWait r.id) (p.moveRollback { r with pc := .starting })
  | rollbackStart {r : RollbackThread} (created : Bool) :
      r ∈ p.rollbackThreads → r.pc = .starting →
        StepTo p (.rollbackStart r.id created) ((p.endRollback r.id).cmdStart created)

/-- A call of `vip_thread`, and where the thread goes from there. -/
theorem vipCall_eq_some {p p' : Proc} {t : ThreadId} {here next failed : VipPhase} {ok : Bool}
    (h : p.vipCall t here ok next failed = some p') :
    ⟨t, here⟩ ∈ p.vipThreads ∧ p' = p.moveVip t (if ok then next else failed) := by
  obtain ⟨ht, h⟩ := Option.ite_none_right_eq_some.mp h
  exact ⟨ht, (Option.some.inj h).symm⟩

theorem findRollback_eq_some {p : Proc} {t : ThreadId} {pc : RollbackPc} {r : RollbackThread}
    (h : p.findRollback t pc = some r) : r ∈ p.rollbackThreads ∧ r.id = t ∧ r.pc = pc := by
  refine ⟨List.mem_of_find?_eq_some h, ?_⟩
  simpa using List.find?_some h

/-- **What a step can do.** -/
theorem stepTo_of_step {p p' : Proc} {i : Input} (hs : p.step i = some p') : StepTo p i p' := by
  cases i with
  | start created =>
    obtain rfl := Option.some.inj hs
    exact .start created
  | stop =>
    obtain rfl := Option.some.inj hs
    exact .stop
  | down i => exact .down hs
  | cpgInitialize t results =>
    obtain ⟨ht, rfl⟩ := vipCall_eq_some hs
    simpa using StepTo.cpgInitialize ht
  | contextSet t result =>
    obtain ⟨ht, rfl⟩ := vipCall_eq_some hs
    simpa using StepTo.contextSet ht
  -- the node id is written only when the call succeeds
  | localGet t result nodeid =>
    obtain ⟨q, hq, rfl⟩ := Option.map_eq_some_iff.mp hs
    obtain ⟨ht, rfl⟩ := vipCall_eq_some hq
    by_cases hr : result = .ok
    · subst hr
      exact .located ht
    · simpa [hr] using StepTo.unlocated ht hr
  | join t results =>
    obtain ⟨ht, rfl⟩ := vipCall_eq_some hs
    simpa using StepTo.join ht
  | deliver t o e =>
    obtain ⟨ht, h⟩ := Option.ite_none_right_eq_some.mp hs
    obtain rfl := Option.some.inj h
    exact .deliver o e ht
  | dispatchFails t =>
    obtain ⟨ht, rfl⟩ := vipCall_eq_some hs
    exact .dispatchFails ht
  | exitLoop t =>
    obtain ⟨hidle, h⟩ := Option.ite_none_right_eq_some.mp hs
    obtain ⟨ht, rfl⟩ := vipCall_eq_some h
    exact .exitLoop ht hidle
  | leave t =>
    obtain ⟨ht, rfl⟩ := vipCall_eq_some hs
    exact .leave ht
  | finalize t =>
    obtain ⟨ht, rfl⟩ := vipCall_eq_some hs
    exact .finalize ht
  | finish t =>
    obtain ⟨ht, h⟩ := Option.ite_none_right_eq_some.mp hs
    obtain rfl := Option.some.inj h
    exact .finish ht
  | tick t =>
    obtain ⟨r, hf, rfl⟩ := Option.map_eq_some_iff.mp hs
    obtain ⟨hr, rfl, hpc⟩ := findRollback_eq_some hf
    exact .tick hr hpc
  | rollbackStop t =>
    obtain ⟨r, hf, rfl⟩ := Option.map_eq_some_iff.mp hs
    obtain ⟨hr, rfl, hpc⟩ := findRollback_eq_some hf
    exact .rollbackStop hr hpc
  | rollbackWait t =>
    obtain ⟨hd, h⟩ := Option.ite_none_left_eq_some.mp hs
    obtain ⟨r, hf, rfl⟩ := Option.map_eq_some_iff.mp h
    obtain ⟨hr, rfl, hpc⟩ := findRollback_eq_some hf
    exact .rollbackWait hr hpc hd
  | rollbackStart t created =>
    obtain ⟨r, hf, rfl⟩ := Option.map_eq_some_iff.mp hs
    obtain ⟨hr, rfl, hpc⟩ := findRollback_eq_some hf
    exact .rollbackStart created hr hpc

/-- The next call of a `go_down`, by what it does: the first five wait for a thread, or are done
with one, and the last takes the address off the interface. -/
inductive DownTo (p : Proc) (i : ℕ) : Proc → Prop
  | awaitRollback {d : Down} {t : ThreadId} :
      p.downs[i]? = some d → d.pc = .joinRollback → p.vip.rollbackThread = some t →
        DownTo p i (p.setDown i { d with pc := .awaitRollback t })
  | noRollback {d : Down} :
      p.downs[i]? = some d → d.pc = .joinRollback → p.vip.rollbackThread = none →
        DownTo p i (p.setDown i { d with pc := .joinVip })
  | rollbackJoined {d : Down} {t : ThreadId} :
      p.downs[i]? = some d → d.pc = .awaitRollback t →
        ¬ (d.caller ≠ some t ∧ t ∈ p.rollbackThreads.map RollbackThread.id) →
          DownTo p i ({ p with vip := { p.vip with rollbackThread := none } }.setDown i
            { d with pc := .joinVip })
  | awaitVip {d : Down} {t : ThreadId} :
      p.downs[i]? = some d → d.pc = .joinVip → p.vip.virtualIpThread = some t →
        DownTo p i (p.setDown i { d with pc := .awaitVip t })
  | noVip {d : Down} :
      p.downs[i]? = some d → d.pc = .joinVip → p.vip.virtualIpThread = none →
        DownTo p i (p.setDown i { d with pc := .removeVip })
  | vipJoined {d : Down} {t : ThreadId} :
      p.downs[i]? = some d → d.pc = .awaitVip t → t ∉ p.vipThreads.map VipThread.id →
        DownTo p i ({ p with vip := { p.vip with virtualIpThread := none } }.setDown i
          { d with pc := .removeVip })
  | removed {d : Down} :
      p.downs[i]? = some d → d.pc = .removeVip →
        DownTo p i { p with address := false, downs := p.downs.eraseIdx i }

/-- **What a `go_down` can do next.** -/
theorem downTo_of_downStep {p p' : Proc} {i : ℕ} (h : p.downStep i = some p') : DownTo p i p' := by
  unfold downStep at h
  split at h
  · cases h
  · rename_i d hd
    split at h
    · rename_i hpc
      split at h
      · rename_i ht
        obtain rfl := Option.some.inj h
        exact .awaitRollback hd hpc ht
      · rename_i ht
        obtain rfl := Option.some.inj h
        exact .noRollback hd hpc ht
    · rename_i t hpc
      obtain ⟨hwait, h⟩ := Option.ite_none_left_eq_some.mp h
      obtain rfl := Option.some.inj h
      exact .rollbackJoined hd hpc hwait
    · rename_i hpc
      split at h
      · rename_i ht
        obtain rfl := Option.some.inj h
        exact .awaitVip hd hpc ht
      · rename_i ht
        obtain rfl := Option.some.inj h
        exact .noVip hd hpc ht
    · rename_i t hpc
      obtain ⟨hwait, h⟩ := Option.ite_none_left_eq_some.mp h
      obtain rfl := Option.some.inj h
      exact .vipJoined hd hpc hwait
    · rename_i hpc
      obtain rfl := Option.some.inj h
      exact .removed hd hpc

/-- A start that is accepted, with its thread. -/
theorem cmdStart_created {p : Proc} (h : p.vip.state = .idle) : p.cmdStart true =
    { p with
      vip := { p.vip with state := .start, virtualIpThread := some p.nextThread }
      vipThreads := p.vipThreads ++ [⟨p.nextThread, .cpgInitialize⟩]
      nextThread := p.nextThread + 1 } := by
  simp [cmdStart, fsmInputCmdStart, fsmDoTransaction, table, goUp, h, absorb, perform]

/-- A start that is accepted, without its thread. -/
theorem cmdStart_failed {p : Proc} (h : p.vip.state = .idle) :
    p.cmdStart false = { p with vip := { p.vip with state := .start } } := by
  simp [cmdStart, fsmInputCmdStart, fsmDoTransaction, table, goUp, h, absorb]

/-- Any other start changes nothing. -/
theorem cmdStart_running {p : Proc} (h : p.vip.state ≠ .idle) (created : Bool) :
    p.cmdStart created = p := by
  cases hs : p.vip.state with
  | idle => exact absurd hs h
  | start | backup | master | rback =>
    simp [cmdStart, fsmInputCmdStart, fsmDoTransaction, table, error, hs, absorb]

theorem cmdStop_idle {p : Proc} (h : p.vip.state = .idle) (caller : Option ThreadId) :
    p.cmdStop caller = p := if_pos h

theorem cmdStop_running {p : Proc} (h : p.vip.state ≠ .idle) (caller : Option ThreadId) :
    p.cmdStop caller =
      { p with vip := goDownReset p.vip, downs := p.downs ++ [⟨caller, .joinRollback⟩] } :=
  if_neg h

/-- The calls of an action do not touch the record. -/
theorem perform_foldl_vip (p : Proc) (calls : List Effect) :
    (calls.foldl perform p).vip = p.vip := by
  -- Induction on the calls, in the order they are made.
  induction calls generalizing p with
  | nil => rfl
  | cons c calls ih =>
    rw [List.foldl_cons, ih]
    unfold perform
    split <;> rfl

@[simp] theorem absorb_vip (p : Proc) (v : Vip) (calls : List Effect) :
    (p.absorb v calls).vip = v := perform_foldl_vip _ _

@[simp] theorem handleEntry_vip (p : Proc) (o : Outcome) (e : Agreed.Entry NodeId Msg) :
    (p.handleEntry o e).1.vip = (handle (p.withHandle o) p.vip e).1 := absorb_vip _ _ _

@[simp] theorem handleEntry_calls (p : Proc) (o : Outcome) (e : Agreed.Entry NodeId Msg) :
    (p.handleEntry o e).2 = (handle (p.withHandle o) p.vip e).2 := rfl

@[simp] theorem moveVip_vip (p : Proc) (t : ThreadId) (phase : VipPhase) :
    (p.moveVip t phase).vip = p.vip := rfl

@[simp] theorem endRollback_vip (p : Proc) (t : ThreadId) : (p.endRollback t).vip = p.vip := rfl

@[simp] theorem endRollback_vipThreads (p : Proc) (t : ThreadId) :
    (p.endRollback t).vipThreads = p.vipThreads := rfl

@[simp] theorem moveRollback_vip (p : Proc) (r : RollbackThread) :
    (p.moveRollback r).vip = p.vip := rfl

@[simp] theorem moveRollback_vipThreads (p : Proc) (r : RollbackThread) :
    (p.moveRollback r).vipThreads = p.vipThreads := rfl

@[simp] theorem tick_vip (p : Proc) (r : RollbackThread) : (p.tick r).vip = p.vip := by
  unfold tick
  split_ifs <;> rfl

@[simp] theorem tick_vipThreads (p : Proc) (r : RollbackThread) :
    (p.tick r).vipThreads = p.vipThreads := by
  unfold tick
  split_ifs <;> rfl

/-- A callback creates no `vip_thread` and ends none. -/
theorem handleEntry_vipThreads (p : Proc) (o : Outcome) (e : Agreed.Entry NodeId Msg) :
    (p.handleEntry o e).1.vipThreads = p.vipThreads := by
  -- the only call that creates one is not among those of a callback
  have hfold (q : Proc) (calls : List Effect) (hc : ∀ t, Effect.createVipThread t ∉ calls) :
      (calls.foldl perform q).vipThreads = q.vipThreads := by
    induction calls generalizing q with
    | nil => rfl
    | cons c calls ih =>
      rw [List.foldl_cons, ih _ fun t ht => hc t (List.mem_cons_of_mem c ht)]
      unfold perform
      split
      case h_3 t => exact absurd List.mem_cons_self (hc t)
      all_goals rfl
  exact hfold _ _ (createVipThread_notMem_handle _ _)

/-- A callback takes handles for its threads, and waits for none outside. -/
theorem handleEntry_rest (p : Proc) (o : Outcome) (e : Agreed.Entry NodeId Msg) :
    p.nextThread ≤ (p.handleEntry o e).1.nextThread ∧ (p.handleEntry o e).1.downs = p.downs := by
  have hfold (q : Proc) (calls : List Effect) : q.nextThread ≤ (calls.foldl perform q).nextThread ∧
      (calls.foldl perform q).downs = q.downs := by
    induction calls generalizing q with
    | nil => exact ⟨le_rfl, rfl⟩
    | cons c calls ih =>
      -- one call takes a handle at most
      have hone : q.nextThread ≤ (q.perform c).nextThread ∧ (q.perform c).downs = q.downs := by
        unfold perform
        split <;> exact ⟨by simp, rfl⟩
      rw [List.foldl_cons]
      exact ⟨hone.1.trans (ih _).1, (ih _).2.trans hone.2⟩
  exact hfold { p with vip := (handle (p.withHandle o) p.vip e).1 } _

/-- A turn of the loop of `rollback_thread` is its own business. -/
theorem tick_rest (p : Proc) (r : RollbackThread) : (p.tick r).nextThread = p.nextThread ∧
    (p.tick r).downs = p.downs ∧ (p.tick r).address = p.address := by
  unfold tick
  split_ifs <;> exact ⟨rfl, rfl, rfl⟩

/-- A `go_down` in progress touches the handles of the record only. -/
theorem downStep_vip {p p' : Proc} {i : ℕ} (h : p.downStep i = some p') :
    p'.vipThreads = p.vipThreads ∧ p'.rollbackThreads = p.rollbackThreads ∧
      ∃ r v, p'.vip = { p.vip with rollbackThread := r, virtualIpThread := v } := by
  cases downTo_of_downStep h <;> exact ⟨rfl, rfl, _, _, rfl⟩

/-- A `go_down` in progress creates no thread. -/
theorem downStep_nextThread {p p' : Proc} {i : ℕ} (h : p.downStep i = some p') :
    p'.nextThread = p.nextThread := by
  cases downTo_of_downStep h <;> rfl

/-- What a start does to the record. -/
theorem cmdStart_vip (p : Proc) (created : Bool) : (p.cmdStart created).vip = p.vip ∨
    p.vip.state = .idle ∧ ∃ t, (p.cmdStart created).vip =
      { p.vip with state := .start, virtualIpThread := t } := by
  by_cases hs : p.vip.state = .idle
  · refine Or.inr ⟨hs, ?_⟩
    cases created with
    | true => exact ⟨_, by rw [cmdStart_created hs]⟩
    | false => exact ⟨p.vip.virtualIpThread, by rw [cmdStart_failed hs]⟩
  · exact Or.inl (by rw [cmdStart_running hs])

/-- What a stop does to the record. -/
theorem cmdStop_vip (p : Proc) (caller : Option ThreadId) : (p.cmdStop caller).vip = p.vip ∨
    p.vip.state ≠ .idle ∧ (p.cmdStop caller).vip = goDownReset p.vip := by
  by_cases hs : p.vip.state = .idle
  · exact Or.inl (by rw [cmdStop_idle hs])
  · exact Or.inr ⟨hs, by rw [cmdStop_running hs]⟩

/-- **What a step does to the record**: an idle vip is started, a running one is reset, its thread
learns the node id, an entry is handled, or nothing but the thread handles change. -/
theorem step_vip {p p' : Proc} {i : Input} (hs : p.step i = some p') :
    (p.vip.state = .idle ∧ ∃ t, p'.vip = { p.vip with state := .start, virtualIpThread := t }) ∨
      (p.vip.state ≠ .idle ∧ p'.vip = goDownReset p.vip) ∨
      (∃ t nodeid, i = .localGet t .ok nodeid ∧ p'.vip = { p.vip with nodeId := nodeid }) ∨
      (∃ t o e, i = .deliver t o e ∧ p'.vip = (handle (p.withHandle o) p.vip e).1) ∨
      ∃ r t, p'.vip = { p.vip with rollbackThread := r, virtualIpThread := t } := by
  have hsame {q : Proc} (hq : q.vip = p.vip) :
      ∃ r t, q.vip = { p.vip with rollbackThread := r, virtualIpThread := t } := ⟨_, _, hq⟩
  have hstart {q : Proc} (hq : q.vip = p.vip) (created : Bool) :
      (p.vip.state = .idle ∧ ∃ t, (q.cmdStart created).vip =
        { p.vip with state := .start, virtualIpThread := t }) ∨
        ∃ r t, (q.cmdStart created).vip =
          { p.vip with rollbackThread := r, virtualIpThread := t } := by
    rcases cmdStart_vip q created with h | ⟨hi, t, h⟩
    · exact Or.inr (hsame (h.trans hq))
    · exact Or.inl ⟨hq ▸ hi, t, by rw [h, hq]⟩
  -- a start and a stop may be ignored; what is left of the calls moves a thread
  cases stepTo_of_step hs with
  | start created =>
    rcases hstart rfl created with h | h
    exacts [Or.inl h, Or.inr (Or.inr (Or.inr (Or.inr h)))]
  | @rollbackStart r created =>
    rcases hstart (endRollback_vip p r.id) created with h | h
    exacts [Or.inl h, Or.inr (Or.inr (Or.inr (Or.inr h)))]
  | stop =>
    rcases cmdStop_vip p none with h | h
    exacts [Or.inr (Or.inr (Or.inr (Or.inr (hsame h)))), Or.inr (Or.inl h)]
  | @rollbackStop r =>
    rcases cmdStop_vip p (some r.id) with h | h
    exacts [Or.inr (Or.inr (Or.inr (Or.inr (hsame h)))), Or.inr (Or.inl h)]
  | down hd =>
    obtain ⟨-, -, r, t, hv⟩ := downStep_vip hd
    exact Or.inr (Or.inr (Or.inr (Or.inr ⟨r, t, hv⟩)))
  | @located t nodeid => exact Or.inr (Or.inr (Or.inl ⟨t, nodeid, rfl, rfl⟩))
  | @deliver t o e => exact Or.inr (Or.inr (Or.inr (Or.inl ⟨t, o, e, rfl, handleEntry_vip p o e⟩)))
  | @tick r => exact Or.inr (Or.inr (Or.inr (Or.inr (hsame (tick_vip p r)))))
  | cpgInitialize | contextSet | unlocated | join | dispatchFails | exitLoop | leave | finalize
  | finish | rollbackWait => exact Or.inr (Or.inr (Or.inr (Or.inr (hsame rfl))))

/-- No step changes the configuration. -/
theorem step_config {p p' : Proc} {i : Input} (hs : p.step i = some p') :
    p'.vip.config = p.vip.config := by
  rcases step_vip hs with ⟨-, t, hv⟩ | ⟨-, hv⟩ | ⟨t, x, -, hv⟩ | ⟨t, o, e, -, hv⟩ | ⟨r, t, hv⟩
  · rw [hv]
  · rw [hv, goDownReset_config]
  · rw [hv]
  · rw [hv, handle_config]
  · rw [hv]

/-- Only a start gives a process without a `vip_thread` one. -/
theorem step_vipThreads {p p' : Proc} {i : Input} (hs : p.step i = some p')
    (hp : p.vipThreads = []) :
    p'.vipThreads = [] ∨ (∃ created, i = .start created) ∨
      ∃ t created, i = .rollbackStart t created := by
  have hstop (caller : Option ThreadId) : (p.cmdStop caller).vipThreads = [] := by
    unfold cmdStop
    split_ifs <;> exact hp
  cases stepTo_of_step hs with
  | start created => exact Or.inr (Or.inl ⟨created, rfl⟩)
  | @rollbackStart r created => exact Or.inr (Or.inr ⟨r.id, created, rfl⟩)
  | stop => exact Or.inl (hstop none)
  | @rollbackStop r => exact Or.inl (hstop (some r.id))
  | down hd => exact Or.inl ((downStep_vip hd).1.trans hp)
  | @tick r => exact Or.inl ((tick_vipThreads p r).trans hp)
  | rollbackWait => exact Or.inl hp
  | cpgInitialize ht | contextSet ht | located ht | unlocated ht | join ht | deliver _ _ ht
  | dispatchFails ht | exitLoop ht | leave ht | finalize ht | finish ht =>
    -- no thread, no call of it
    rw [hp] at ht
    cases ht

end Proc

end CpgFailover
