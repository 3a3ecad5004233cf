import CpgFailover.Inputs
import CpgFailover.Quiescence

/-!
# The threads and the record

A process runs the state machine from several threads, and a `go_down` outside `vip_thread` waits in
the middle. To the record all this is a sequence of whole inputs, in the order in which the threads
enter the state machine: what a process keeps in its record, but for the handles of its threads, and
what it announces, is what one vip does that gets one input after another.

## Main definitions

* `Vip.core`: the record without the handles of the threads
* `Proc.inputsOf`, `Proc.inputsAlong`: the inputs of a step, and of a run
* `Proc.saidBy`, `Proc.saidAlong`: what a step announces, and a run

## Main results

* `blind_table`: no action looks at the handles, but to wait for the threads
* `Proc.step_core`: a step of a process is its inputs
* `proc_refines_inputs`: a run of a process is a sequence of inputs
-/

namespace CpgFailover

open Agreed (Entry)
open Transition

/-- The record without the handles of its threads. -/
def Vip.core (v : Vip) : Vip := { v with rollbackThread := none, virtualIpThread := none }

@[simp] theorem Vip.core_core (v : Vip) : v.core.core = v.core := rfl

@[simp] theorem Vip.core_nodeId (v : Vip) : v.core.nodeId = v.nodeId := rfl

/-! ## Actions -/

/-- The action does not look at the handles: neither the rest of the record nor what is announced
depends on them. -/
def Blind (action : Vip → Result) : Prop :=
  ∀ v, (action v.core).vip.core = (action v).vip.core ∧
    multicasts (action v.core).effects = multicasts (action v).effects

section Actions

variable (o : Outcome)

theorem blind_noop : Blind noop := fun _ => ⟨rfl, rfl⟩

theorem blind_error : Blind error := fun _ => ⟨rfl, rfl⟩

theorem blind_dupWarn : Blind dupWarn := fun _ => ⟨rfl, rfl⟩

theorem blind_observe : Blind observe := fun _ => ⟨rfl, rfl⟩

theorem blind_nodeup : Blind (nodeup o) := fun _ => ⟨rfl, rfl⟩

theorem blind_backupup : Blind (backupup o) := fun _ => ⟨rfl, rfl⟩

theorem blind_goUp : Blind (goUp o) := by
  intro v
  rw [goUp, goUp]
  cases o.threadCreate <;> exact ⟨rfl, rfl⟩

theorem blind_rbackStop : Blind rbackStop := by
  intro v
  by_cases h : v.rollbackNodeId = 0 ∨ v.rollbackNodeId ≠ nodeFirst v.nodeList
  · have h' : v.core.rollbackNodeId = 0 ∨ v.core.rollbackNodeId ≠ nodeFirst v.core.nodeList := h
    rw [rbackStop, rbackStop, if_pos h, if_pos h']
    exact ⟨rfl, rfl⟩
  · have h' : ¬ (v.core.rollbackNodeId = 0 ∨ v.core.rollbackNodeId ≠ nodeFirst v.core.nodeList) := h
    rw [rbackStop, rbackStop, if_neg h, if_neg h']
    exact ⟨rfl, rfl⟩

theorem blind_rollback : Blind (rollback o) := by
  intro v
  cases hl : v.nodeList with
  | nil =>
    have hl' : v.core.nodeList = [] := hl
    rw [rollback, rollback, hl, hl']
    exact ⟨rfl, rfl⟩
  | cons n l =>
    have hl' : v.core.nodeList = n :: l := hl
    by_cases hn : n.nodeid = v.nodeId
    · rw [rollback, rollback, hl, hl']
      simp [hn]
    · rw [rollback_cons hl hn, rollback_cons hl' hn]
      cases o.threadCreate <;> exact ⟨rfl, rfl⟩

/-- It waits for the threads, and that is announced to nobody. -/
theorem blind_goDown : Blind goDown := fun v =>
  ⟨rfl, (multicasts_goDown v.core).trans (multicasts_goDown v).symm⟩

theorem blind_failTransition (calls : List Effect) : Blind fun v => failTransition v calls := by
  intro v
  refine ⟨rfl, ?_⟩
  simp only [failTransition, multicasts_append, multicasts_goDown]

theorem blind_becomeMaster (calls : List Effect) : Blind fun v => becomeMaster o v calls := by
  intro v
  simp only [becomeMaster]
  split_ifs
  · exact ⟨rfl, rfl⟩
  · exact blind_failTransition _ { v with state := .master }
  · exact blind_failTransition _ { v with state := .master }

theorem blind_act : Blind (act o) := by
  intro v
  by_cases h : v.nodeId = nodeFirst v.nodeList
  · have h' : v.core.nodeId = nodeFirst v.core.nodeList := h
    rw [act, act, if_pos h, if_pos h']
    exact blind_becomeMaster o [] v
  · have h' : v.core.nodeId ≠ nodeFirst v.core.nodeList := h
    rw [act, act, if_neg h, if_neg h']
    exact blind_failTransition [] v

theorem blind_react : Blind (react o) := by
  intro v
  by_cases h : v.nodeId = nodeFirst v.nodeList
  · have h' : v.core.nodeId = nodeFirst v.core.nodeList := h
    rw [react, react, if_pos h, if_pos h']
    exact blind_becomeMaster o (recoverCalls v.config) v
  · have h' : v.core.nodeId ≠ nodeFirst v.core.nodeList := h
    rw [react, react, if_neg h, if_neg h']
    exact ⟨rfl, rfl⟩

/-- **No action of the table looks at the handles**, but to wait for the threads. -/
theorem blind_table (e : Event) (s : State) : Blind (table o e s) := by
  cases e with
  | startup =>
    cases s with
    | idle => exact blind_goUp o
    | _ => exact blind_error
  | duplicate =>
    cases s with
    | idle => exact blind_error
    | start => exact blind_goDown
    | _ => exact blind_dupWarn
  | masterDown =>
    cases s with
    | start => exact blind_act o
    | backup => exact blind_react o
    | _ => exact blind_error
  | masterUp =>
    cases s with
    | start => exact blind_observe
    | _ => exact blind_error
  | backupDown =>
    cases s with
    | idle => exact blind_error
    | rback => exact blind_rbackStop
    | _ => exact blind_noop
  | backupUp =>
    cases s with
    | idle => exact blind_error
    | start | backup => exact blind_nodeup o
    | master | rback => exact blind_backupup o
  | rbackReq =>
    cases s with
    | master => exact blind_rollback o
    | rback => exact blind_rbackStop
    | _ => exact blind_error
  | stop =>
    cases s with
    | idle => exact blind_error
    | _ => exact blind_goDown

end Actions

/-! ## Inputs -/

/-- Neither do the writes of an input. -/
theorem VipInput.raise_core (v : Vip) (i : VipInput) :
    i.raise v.core = ((i.raise v).1.core, (i.raise v).2) := by
  cases i with
  | newStateMessage o nm y =>
    have hlearn : learn o v.core nm y = (learn o v nm y).core := by
      rw [learn_eq, learn_eq]
      rfl
    simp only [VipInput.raise, hlearn]
    rfl
  | nodeDown | nodeUp | cmdStart | cmdStop | localGet | memberList => rfl

/-- **An input does not look at the handles.** -/
theorem blind_input (i : VipInput) : Blind fun v => v.input i := by
  intro v
  show (v.core.input i).vip.core = (v.input i).vip.core ∧
    multicasts (v.core.input i).effects = multicasts (v.input i).effects
  have hraise := i.raise_core v
  cases he : (i.raise v).2 with
  | some oe =>
    have he' : (i.raise v.core).2 = some oe := by rw [hraise, he]
    rw [v.input_of_some he, v.core.input_of_some he', hraise]
    exact blind_table oe.1 oe.2 (i.raise v).1.state (i.raise v).1
  | none =>
    have he' : (i.raise v.core).2 = none := by rw [hraise, he]
    obtain ⟨hv, hc⟩ := v.input_of_none he
    obtain ⟨hv', hc'⟩ := v.core.input_of_none he'
    exact ⟨by rw [hv, hv', hraise]; rfl, by rw [hc, hc']⟩

/-- So records that differ in the handles only take inputs alike. -/
theorem inputs_core {v w : Vip} (h : v.core = w.core) (is : List VipInput) :
    (v.inputs is).1.core = (w.inputs is).1.core ∧
      multicasts (v.inputs is).2 = multicasts (w.inputs is).2 := by
  -- induction on the inputs, from any two such records
  induction is generalizing v w with
  | nil => exact ⟨h, rfl⟩
  | cons i is ih =>
    obtain ⟨hv, hcv⟩ := blind_input i v
    obtain ⟨hw, hcw⟩ := blind_input i w
    have hnext : (v.input i).vip.core = (w.input i).vip.core := by
      rw [← hv, ← hw, h]
    have hsaid : multicasts (v.input i).effects = multicasts (w.input i).effects := by
      rw [← hcv, ← hcw, h]
    obtain ⟨hrec, hrest⟩ := ih hnext
    exact ⟨hrec, by simp only [Vip.inputs, multicasts_append, hsaid, hrest]⟩

/-! ## Steps -/

namespace Proc

/-- The outcome of a call of `switch_thread_create`, where no other call is made. -/
def threadOutcome (p : Proc) (created : Bool) : Outcome :=
  ⟨true, true, true, if created then some p.nextThread else none, []⟩

/-- The inputs of the state machine that a step makes. -/
def inputsOf (p : Proc) : Input → List VipInput
  | .start created | .rollbackStart _ created => [.cmdStart (p.threadOutcome created)]
  | .stop | .rollbackStop _ => [.cmdStop (p.threadOutcome false)]
  | .localGet _ result nodeid => if result = .ok then [.localGet nodeid] else []
  | .deliver _ o e => entryInputs (p.withHandle o) e
  -- the other calls move threads, and what is left of a stop waits for them
  | _ => []

/-- What a step announces. -/
def saidBy (p : Proc) : Input → List Msg
  | .deliver _ o e => multicasts (p.handleEntry o e).2
  | _ => []

/-- The inputs of a run. -/
def inputsAlong (p : Proc) : List Input → List VipInput
  | [] => []
  | i :: is => p.inputsOf i ++ ((p.step i).map fun p' => p'.inputsAlong is).getD []

/-- What a run announces. -/
def saidAlong (p : Proc) : List Input → List Msg
  | [] => []
  | i :: is => p.saidBy i ++ ((p.step i).map fun p' => p'.saidAlong is).getD []

section Steps

variable {p p' : Proc}

/-- A start is the input `cmdStart`. -/
theorem cmdStart_core (created : Bool) : (p.cmdStart created).vip.core =
    (p.vip.input (.cmdStart (p.threadOutcome created))).vip.core := by
  rw [cmdStart, absorb_vip]
  rfl

/-- It announces nothing. -/
theorem multicasts_cmdStart (o : Outcome) (v : Vip) :
    multicasts (v.input (.cmdStart o)).effects = [] := by
  show multicasts (table o .startup v.state v).effects = []
  cases v.state with
  | idle =>
    show multicasts (goUp o v).effects = []
    rw [goUp]
    cases o.threadCreate <;> rfl
  | _ => rfl

/-- The part of a stop before it waits is the input `cmdStop`, but for the handles. -/
theorem cmdStop_core (caller : Option ThreadId) (o : Outcome) :
    (p.cmdStop caller).vip.core = (p.vip.input (.cmdStop o)).vip.core := by
  cases hs : p.vip.state with
  | idle =>
    rw [cmdStop_idle hs]
    simp [Vip.input, fsmInputCmdStop, fsmDoTransaction, table, hs, error]
  | _ =>
    rw [cmdStop_running (by simp [hs])]
    simp [Vip.input, fsmInputCmdStop, fsmDoTransaction, table, hs, goDown_vip_eq, Vip.core]

/-- It announces nothing. -/
theorem multicasts_cmdStop (o : Outcome) (v : Vip) :
    multicasts (v.input (.cmdStop o)).effects = [] := by
  show multicasts (table o .stop v.state v).effects = []
  cases v.state with
  | idle => rfl
  | _ => exact multicasts_goDown v

/-- A callback is its inputs, and announces what they announce. -/
theorem handle_core (o : Outcome) (v : Vip) (e : Entry NodeId Msg) :
    (handle o v e).1 = (v.inputs (entryInputs o e)).1 ∧
      multicasts (handle o v e).2 = multicasts (v.inputs (entryInputs o e)).2 := by
  refine ⟨handle_vip_eq_inputs o v e, ?_⟩
  by_cases he : isStatement e = true
  · cases e with
    | confchg => cases he
    | message y m =>
      cases m with
      | nodeState => cases he
      | sql name sql =>
        -- a statement is handed to sofia
        simp only [handle, deliverCallback]
        split_ifs
        · rcases deliverSql_cases v name sql with h | h <;> rw [h] <;> rfl
        · rfl
  · rw [handle_eq_inputs o v (by simpa using he)]

/-- **A step of a process** is its inputs, and announces what they announce. -/
theorem step_core {i : Input} (hs : p.step i = some p') :
    p'.vip.core = (p.vip.inputs (p.inputsOf i)).1.core ∧
      p.saidBy i = multicasts (p.vip.inputs (p.inputsOf i)).2 := by
  have hone (j : VipInput) (h : p'.vip.core = (p.vip.input j).vip.core)
      (hm : multicasts (p.vip.input j).effects = []) :
      p'.vip.core = (p.vip.inputs [j]).1.core ∧ [] = multicasts (p.vip.inputs [j]).2 := by
    simp only [Vip.inputs, List.append_nil]
    exact ⟨h, hm.symm⟩
  cases stepTo_of_step hs with
  | start created => exact hone _ (cmdStart_core created) (multicasts_cmdStart _ _)
  | rollbackStart created => exact hone _ (cmdStart_core created) (multicasts_cmdStart _ _)
  | stop => exact hone _ (cmdStop_core none _) (multicasts_cmdStop _ _)
  | @rollbackStop r => exact hone _ (cmdStop_core (some r.id) _) (multicasts_cmdStop _ _)
  | down hd =>
    obtain ⟨-, -, r, t, hv⟩ := downStep_vip hd
    exact ⟨by rw [hv]; rfl, rfl⟩
  | located => exact ⟨rfl, rfl⟩
  | unlocated _ hr => exact ⟨by simp [inputsOf, hr, Vip.inputs], by simp [inputsOf, hr]; rfl⟩
  | deliver o e =>
    obtain ⟨hv, hm⟩ := handle_core (p.withHandle o) p.vip e
    exact ⟨by rw [handleEntry_vip, hv]; rfl, hm⟩
  | tick => exact ⟨by rw [tick_vip]; rfl, rfl⟩
  | cpgInitialize | contextSet | join | dispatchFails | exitLoop | leave | finalize | finish
  | rollbackWait => exact ⟨rfl, rfl⟩

end Steps

end Proc

/-- **The threads of a process and its record**: after every run of a process, however its threads
take turns and wherever a stop waits for them, its record is, but for the handles of the threads,
the one that the inputs of the run make of it one after another, and what the process has announced
is what they announce, in that order. -/
theorem proc_refines_inputs {p q : Proc} {is : List Input} (h : run Proc.step p is = some q) :
    q.vip.core = (p.vip.inputs (p.inputsAlong is)).1.core ∧
      p.saidAlong is = multicasts (p.vip.inputs (p.inputsAlong is)).2 := by
  induction is generalizing p with
  | nil =>
    obtain rfl := Option.some.inj h
    exact ⟨rfl, rfl⟩
  | cons i is ih =>
    obtain ⟨p', hs, hrun⟩ := Option.bind_eq_some_iff.mp h
    obtain ⟨hcore, hsaid⟩ := Proc.step_core hs
    obtain ⟨hrec, hrest⟩ := ih hrun
    -- the rest of the run starts from a record that differs in the handles only
    obtain ⟨hinputs, hcalls⟩ := inputs_core hcore (p'.inputsAlong is)
    simp only [Proc.inputsAlong, Proc.saidAlong, hs, Option.map_some, Option.getD_some,
      Vip.inputs_append, multicasts_append]
    exact ⟨hrec.trans hinputs, by rw [hsaid, hrest, hcalls]⟩

/-- A master that a second node joins is stopped, and started again while the stop waits for its
`vip_thread`. -/
def restartedMeanwhile : List Input :=
  threadUp ++ aloneMaster ++ [.deliver 0 allSucceed (.confchg [1, 2] [] [2]), .stop, .down 0,
    .start true, .down 0]

theorem proc_refines_inputs_restarted : ∃ q,
    run Proc.step (Proc.fresh (plainConfig 10 noProfiles)) restartedMeanwhile = some q ∧
      q.vip.core = ((Proc.fresh (plainConfig 10 noProfiles)).vip.inputs
        ((Proc.fresh (plainConfig 10 noProfiles)).inputsAlong restartedMeanwhile)).1.core ∧
      multicasts ((Proc.fresh (plainConfig 10 noProfiles)).vip.inputs
          ((Proc.fresh (plainConfig 10 noProfiles)).inputsAlong restartedMeanwhile)).2 =
        [.nodeState ⟨10, .start, []⟩, .nodeState ⟨10, .master, []⟩,
          .nodeState ⟨10, .master, []⟩] ∧
      q.vip.state = .start ∧ q.downs.length = 1 := by
  refine ⟨_, rfl, (proc_refines_inputs rfl).1, ?_, rfl, rfl⟩
  exact (proc_refines_inputs rfl).2.symm.trans rfl

end CpgFailover
