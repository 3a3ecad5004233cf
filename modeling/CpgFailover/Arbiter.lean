import CpgFailover.RollbackTimer

/-!
# The arbiter

The module serves several virtual ips. Every five seconds its runtime thread asks the arbiter, a
script, whether the node is still connected: when it says no all vips are stopped, and when it says
yes again those that start on their own are started. A stop of an idle vip is refused and remembered
nowhere. So a rollback thread that has stopped its vip and is about to start it again does so
whatever the arbiter has said in between.

## Main definitions

* `HashedVip`, `RuntimePc`, `Module`: `virtual_ip_hash` and the runtime thread
* `RuntimeStep`, `Module.step`: the steps of the module, one call of one thread each
* `Patient`, `Module.Patient`: no rollback delay runs out where it would bring a stopped vip back

## Main results

* `Counting.step`: a process whose rollback threads all count keeps them counting
* `arbiter_stop_durable`: between a stop of the arbiter and its next success only an operator starts
* `arbiter_stop_lost`: a rollback thread starts a vip after the arbiter has stopped it
-/

namespace CpgFailover

open Agreed (Entry)
open Transition

/-! ## The module -/

/-- A vip of `virtual_ip_hash`, with the `autoload` of its configuration. -/
structure HashedVip where
  autoload : Bool
  proc : Proc
deriving DecidableEq

/-- Where the runtime thread is: before it asks the arbiter, in `map_vip(virtual_ip_stop)` before
the `k`-th vip or in its `virtual_ip_stop`, or in `map_vip(autostart_vip)` before the `k`-th vip. -/
inductive RuntimePc
  | asking
  | stopping (k : ℕ)
  | stopped (k : ℕ)
  | starting (k : ℕ)
deriving DecidableEq

/-- `globals`: the vips in the order of the hash, and the arbiter's last word. `silenced` is a
history variable, which no code reads: the vips that the arbiter has had stopped since it last
succeeded. -/
structure Module where
  vips : List HashedVip
  isConnected : Bool
  runtime : RuntimePc
  silenced : List ℕ
deriving DecidableEq

/-- The handle of the runtime thread; the threads of the processes are numbered from 1. -/
def runtimeThread : ThreadId := 0

/-- A process that has read its configuration, in a module with a runtime thread. -/
def Proc.hashed (c : Config) : Proc := { Proc.fresh c with nextThread := runtimeThread + 1 }

namespace Module

/-- `mod_cpg_load` is about to start the vips that start on their own. -/
def load (vips : List (Bool × Config)) : Module where
  vips := vips.map fun v => ⟨v.1, Proc.hashed v.2⟩
  isConnected := true
  runtime := .starting 0
  silenced := []

/-- The process of the `k`-th vip. -/
def proc (m : Module) (k : ℕ) : Option Proc := m.vips[k]?.map HashedVip.proc

/-- Replace the process of the `k`-th vip. -/
def setProc (m : Module) (k : ℕ) (p : Proc) : Module :=
  { m with vips := m.vips.modify k fun v => { v with proc := p } }

end Module

/-- The steps of the module: a step of a vip, in which `start` and `stop` are an operator's
commands; what the arbiter says; and the calls of `map_vip`, each of which may have to wait. -/
inductive RuntimeStep
  | vip (k : ℕ) (i : Input)
  | arbiter (succeeds : Bool)
  | stopNext
  | stopReturns
  | startNext (created : Bool)
deriving DecidableEq

namespace Module

/-- One step of the module. -/
def step (m : Module) : RuntimeStep → Option Module
  | .vip k i => (m.proc k).bind fun p => (p.step i).map (m.setProc k)
  | .arbiter succeeds =>
    if m.runtime ≠ .asking then none
    else if succeeds then
      -- a success after a success is no news
      if m.isConnected then some m
      else some { m with isConnected := true, runtime := .starting 0, silenced := [] }
    else some { m with isConnected := false, runtime := .stopping 0 }
  | .stopNext =>
    match m.runtime with
    | .stopping k =>
      match m.proc k with
      | some p =>
        some { m.setProc k (p.cmdStop (some runtimeThread)) with
          runtime := .stopped k, silenced := k :: m.silenced }
      -- the end of the hash
      | none => some { m with runtime := .asking }
    | _ => none
  | .stopReturns =>
    match m.runtime with
    | .stopped k =>
      if ∃ p ∈ m.proc k, ∃ d ∈ p.downs, d.caller = some runtimeThread then none
      else some { m with runtime := .stopping (k + 1) }
    | _ => none
  | .startNext created =>
    match m.runtime with
    | .starting k =>
      match m.vips[k]? with
      | some v =>
        let m' := if v.autoload then m.setProc k (v.proc.cmdStart created) else m
        some { m' with runtime := .starting (k + 1) }
      | none => some { m with runtime := .asking }
    | _ => none

/-- The steps of the module, by what they do. -/
inductive StepTo (m : Module) : RuntimeStep → Module → Prop
  | vip {k : ℕ} {i : Input} {p p' : Proc} :
      m.proc k = some p → p.step i = some p' → StepTo m (.vip k i) (m.setProc k p')
  | stays : m.isConnected = true → StepTo m (.arbiter true) m
  | returns : m.isConnected = false →
      StepTo m (.arbiter true) { m with isConnected := true, runtime := .starting 0, silenced := [] }
  | fails : m.runtime = .asking →
      StepTo m (.arbiter false) { m with isConnected := false, runtime := .stopping 0 }
  | stop {k : ℕ} {p : Proc} : m.runtime = .stopping k → m.proc k = some p →
      StepTo m .stopNext { m.setProc k (p.cmdStop (some runtimeThread)) with
        runtime := .stopped k, silenced := k :: m.silenced }
  | stopEnds {k : ℕ} : m.runtime = .stopping k → m.proc k = none →
      StepTo m .stopNext { m with runtime := .asking }
  | stopReturns {k : ℕ} : m.runtime = .stopped k →
      StepTo m .stopReturns { m with runtime := .stopping (k + 1) }
  | start {k : ℕ} {p : Proc} (created : Bool) : m.runtime = .starting k → m.proc k = some p →
      StepTo m (.startNext created)
        { m.setProc k (p.cmdStart created) with runtime := .starting (k + 1) }
  | skip {k : ℕ} (created : Bool) : m.runtime = .starting k →
      StepTo m (.startNext created) { m with runtime := .starting (k + 1) }
  | startEnds {k : ℕ} (created : Bool) : m.runtime = .starting k →
      StepTo m (.startNext created) { m with runtime := .asking }

/-- **What a step can do.** -/
theorem stepTo_of_step {m m' : Module} {l : RuntimeStep} (hs : m.step l = some m') :
    StepTo m l m' := by
  cases l with
  | vip k i =>
    obtain ⟨p, hp, h⟩ := Option.bind_eq_some_iff.mp hs
    obtain ⟨p', hp', rfl⟩ := Option.map_eq_some_iff.mp h
    exact .vip hp hp'
  | arbiter succeeds =>
    simp only [step] at hs
    split_ifs at hs with hask hok hconn
    · obtain rfl := Option.some.inj hs
      subst hok
      exact .stays hconn
    · obtain rfl := Option.some.inj hs
      subst hok
      exact .returns (by simpa using hconn)
    · obtain rfl := Option.some.inj hs
      obtain rfl : succeeds = false := by simpa using hok
      exact .fails (not_not.mp hask)
  | stopNext =>
    simp only [step] at hs
    split at hs
    · rename_i k hk
      split at hs
      · rename_i p hp
        obtain rfl := Option.some.inj hs
        exact .stop hk hp
      · rename_i hp
        obtain rfl := Option.some.inj hs
        exact .stopEnds hk hp
    · cases hs
  | stopReturns =>
    simp only [step] at hs
    split at hs
    · rename_i k hk
      obtain ⟨-, h⟩ := Option.ite_none_left_eq_some.mp hs
      obtain rfl := Option.some.inj h
      exact .stopReturns hk
    · cases hs
  | startNext created =>
    simp only [step] at hs
    split at hs
    · rename_i k hk
      split at hs
      · rename_i v hv
        obtain rfl := Option.some.inj hs
        have hp : m.proc k = some v.proc := by rw [proc, hv, Option.map_some]
        split_ifs
        · exact .start created hk hp
        · exact .skip created hk
      · obtain rfl := Option.some.inj hs
        exact .startEnds created hk
    · cases hs

/-- The other vips are left alone. -/
theorem proc_setProc (m : Module) (k j : ℕ) (p : Proc) :
    (m.setProc k p).proc j = if j = k then (m.proc k).map fun _ => p else m.proc j := by
  simp only [proc, setProc, List.getElem?_modify]
  split_ifs with hk hj hj
  · subst hj
    cases m.vips[j]? <;> rfl
  · exact absurd hk.symm hj
  · exact absurd hj.symm hk
  · cases m.vips[j]? <;> rfl

/-- The vips come in a row. -/
theorem lt_of_proc {m : Module} {j k : ℕ} {p : Proc} (hj : m.proc j = some p)
    (hk : m.proc k = none) : j < k := by
  have hlt : j < m.vips.length := by
    by_contra hge
    rw [proc, List.getElem?_eq_none (not_lt.mp hge)] at hj
    cases hj
  have hge : m.vips.length ≤ k := by
    by_contra hlt'
    rw [proc, List.getElem?_eq_getElem (not_le.mp hlt')] at hk
    cases hk
  omega

end Module

/-! ## Rollback threads that count -/

/-- Every rollback thread of the process is in its counting loop. -/
def Counting (p : Proc) : Prop := ∀ r ∈ p.rollbackThreads, r.pc = .counting

/-- No rollback delay runs out in this step: no thread ends its loop, and no rollback begins without
a delay. -/
def Patient (p : Proc) : Input → Prop
  | .tick t => p.vip.state = .rback →
      ∀ r ∈ p.rollbackThreads, r.id = t → r.ticks + 1 < rollbackTicks p.vip.config
  | .deliver _ o (.message y (.nodeState nm)) =>
      Begins (p.withHandle o) p.vip nm y → 0 < rollbackTicks p.vip.config
  | _ => True

section Counting

variable {p p' : Proc} {i : Input}

instance : DecidablePred Counting := fun _ => by unfold Counting; infer_instance

instance (p : Proc) : DecidablePred (Patient p)
  | .tick _ | .deliver _ _ (.message _ (.nodeState _)) | .deliver _ _ (.message _ (.sql _ _))
  | .deliver _ _ (.confchg _ _ _) | .start _ | .stop | .down _ | .cpgInitialize _ _ | .contextSet _ _
  | .localGet _ _ _ | .join _ _ | .dispatchFails _ | .exitLoop _ | .leave _ | .finalize _ | .finish _
  | .rollbackStop _ | .rollbackWait _ | .rollbackStart _ _ => by unfold Patient; infer_instance

/-- With a delay every new thread counts. -/
theorem counting_foldl (h : Counting p) (calls : List Effect)
    (hc : (∃ t, Effect.createRollbackThread t ∈ calls) → 0 < rollbackTicks p.vip.config) :
    Counting (calls.foldl Proc.perform p) := by
  induction calls generalizing p with
  | nil => exact h
  | cons c calls ih =>
    have hvip : (p.perform c).vip = p.vip := by simpa using Proc.perform_foldl_vip p [c]
    rw [List.foldl_cons]
    refine ih ?_ ?_
    · cases c with
      | createRollbackThread t =>
        intro r hr
        have hpos := hc ⟨t, List.mem_cons_self⟩
        rcases List.mem_append.mp hr with hr | hr
        · exact h r hr
        · rw [List.mem_singleton.mp hr]
          exact if_pos hpos
      | addVip _ _ ok => cases ok <;> exact h
      | sendGarp | removeVip | recover | cleanUpTable | hupall | requestAll | trackEvent | sendState
      | createVipThread | joinVipThread | joinRollbackThread => exact h
    · rintro ⟨t, ht⟩
      rw [hvip]
      exact hc ⟨t, List.mem_cons_of_mem c ht⟩

theorem counting_cmdStart (h : Counting p) (created : Bool) : Counting (p.cmdStart created) := by
  by_cases hs : p.vip.state = .idle
  · cases created with
    | true => exact (Proc.cmdStart_created hs).symm ▸ h
    | false => exact (Proc.cmdStart_failed hs).symm ▸ h
  · exact (Proc.cmdStart_running hs created).symm ▸ h

theorem counting_cmdStop (h : Counting p) (caller : Option ThreadId) :
    Counting (p.cmdStop caller) := by
  by_cases hs : p.vip.state = .idle
  · exact (Proc.cmdStop_idle hs caller).symm ▸ h
  · exact (Proc.cmdStop_running hs caller).symm ▸ h

/-- One turn of the loop of a rollback thread that is not its last. -/
theorem counting_tick (h : Counting p) {r : RollbackThread}
    (hc : p.vip.state = .rback → r.ticks + 1 < rollbackTicks p.vip.config) :
    Counting (p.tick r) := by
  by_cases hs : p.vip.state = .rback
  · have htick : p.tick r = p.moveRollback { r with ticks := r.ticks + 1, pc := .counting } := by
      rw [Proc.tick, if_neg (not_not.mpr hs), if_pos (hc hs)]
    rw [htick]
    intro r' hr'
    obtain ⟨q, hq, rfl⟩ := List.mem_map.mp hr'
    -- the thread itself, or another
    split_ifs
    · rfl
    · exact h q hq
  · rw [Proc.tick, if_pos hs]
    exact fun r' hr' => h r' (List.mem_of_mem_filter hr')

/-- **A process whose rollback threads all count** keeps them counting while no delay runs out. -/
theorem Counting.step (h : Counting p) (hc : Patient p i) (hs : p.step i = some p') :
    Counting p' := by
  cases Proc.stepTo_of_step hs with
  | start created => exact counting_cmdStart h created
  | stop => exact counting_cmdStop h none
  | down hd =>
    have hsame := (Proc.downStep_vip hd).2.1
    exact fun r hr => h r (hsame ▸ hr)
  | deliver o e =>
    refine counting_foldl (p := { p with vip := (handle (p.withHandle o) p.vip e).1 }) h _ ?_
    rintro ⟨t, ht⟩
    obtain ⟨y, nm, rfl, hb⟩ := (rback_cases (p.withHandle o) p.vip e).resolve_left fun h => h.1 t ht
    rw [handle_config]
    exact hc hb
  | tick hr => exact counting_tick h fun hback => hc hback _ hr rfl
  -- a thread past its loop there is none
  | rollbackStop hr hpc | rollbackWait hr hpc | rollbackStart _ hr hpc =>
    rw [h _ hr] at hpc
    cases hpc
  | cpgInitialize | contextSet | located | unlocated | join | dispatchFails | exitLoop | leave
  | finalize | finish => exact h

/-- What takes a vip out of `ST_IDLE`: a start command, or a rollback thread past its loop. -/
theorem Proc.idle_left (hs : p.step i = some p') (hidle : p.vip.state = .idle)
    (hleft : p'.vip.state ≠ .idle) :
    (∃ created, i = .start created) ∨ ∃ r ∈ p.rollbackThreads, r.pc = .starting := by
  cases Proc.stepTo_of_step hs with
  | start created => exact Or.inl ⟨created, rfl⟩
  | rollbackStart _ hr hpc => exact Or.inr ⟨_, hr, hpc⟩
  | stop => exact absurd (by rw [Proc.cmdStop_idle hidle]; exact hidle) hleft
  | rollbackStop =>
    rw [Proc.moveRollback_vip, Proc.cmdStop_idle hidle] at hleft
    exact absurd hidle hleft
  | down hd =>
    obtain ⟨-, -, r, t, hv⟩ := Proc.downStep_vip hd
    rw [hv] at hleft
    exact absurd hidle hleft
  | deliver o e =>
    rw [Proc.handleEntry_vip] at hleft
    exact absurd (handle_idle hidle e) hleft
  | tick => exact absurd (by rw [Proc.tick_vip]; exact hidle) hleft
  | rollbackWait | cpgInitialize | contextSet | located | unlocated | join | dispatchFails | exitLoop
  | leave | finalize | finish => exact absurd hidle hleft

end Counting

/-! ## The arbiter's stop -/

namespace Module

/-- The process that `virtual_ip_stop` is called for next. -/
def nextStop (m : Module) : Option Proc :=
  match m.runtime with
  | .stopping k => m.proc k
  | _ => none

/-- The arbiter's `virtual_ip_stop` finds no rollback thread of the vip past its counting loop, and
as long as the arbiter fails no rollback delay of a stopped vip runs out. -/
def Patient (m : Module) : RuntimeStep → Prop
  | .stopNext => ∀ p ∈ m.nextStop, Counting p
  | .vip k i => k ∈ m.silenced → ∀ p ∈ m.proc k, CpgFailover.Patient p i
  | _ => True

instance (m : Module) : DecidablePred m.Patient
  | .stopNext | .vip _ _ | .arbiter _ | .stopReturns | .startNext _ => by
    unfold Patient
    infer_instance

/-- Where the runtime is says who has been stopped: those it has passed, everybody when it has gone
through the hash. -/
def Placed (m : Module) : Prop :=
  match m.runtime with
  | .asking => m.isConnected = false → ∀ k p, m.proc k = some p → k ∈ m.silenced
  | .stopping k => m.isConnected = false ∧ ∀ j < k, j ∈ m.silenced
  | .stopped k => m.isConnected = false ∧ ∀ j ≤ k, j ∈ m.silenced
  | .starting _ => m.isConnected = true

/-- The invariant of the runtime: who has been stopped has no rollback thread past its loop. -/
structure Quiet (m : Module) : Prop where
  placed : m.Placed
  counting : ∀ k ∈ m.silenced, ∀ p, m.proc k = some p → Counting p

theorem quiet_load (vips : List (Bool × Config)) : (load vips).Quiet :=
  ⟨rfl, fun _ hk => absurd hk List.not_mem_nil⟩

section Runtime

variable {m m' : Module} {l : RuntimeStep} {k j : ℕ} {p q : Proc}

/-- A process after another has been replaced, or it has been itself. -/
theorem proc_of_setProc (h : (m.setProc k p).proc j = some q) :
    (j = k ∧ q = p) ∨ j ≠ k ∧ m.proc j = some q := by
  rw [proc_setProc] at h
  split_ifs at h with hj
  · obtain ⟨_, -, rfl⟩ := Option.map_eq_some_iff.mp h
    exact Or.inl ⟨hj, rfl⟩
  · exact Or.inr ⟨hj, h⟩

theorem exists_proc_of_setProc (h : (m.setProc k p).proc j = some q) :
    ∃ q', m.proc j = some q' := by
  rw [proc_setProc] at h
  split_ifs at h with hj
  · obtain ⟨q', hq, -⟩ := Option.map_eq_some_iff.mp h
    exact ⟨q', hj ▸ hq⟩
  · exact ⟨q, h⟩

/-- A step of a vip leaves the runtime where it is. -/
theorem Placed.setProc (h : m.Placed) : (m.setProc k p).Placed := by
  unfold Placed at h ⊢
  show match m.runtime with
    | .asking => m.isConnected = false → ∀ j q, (m.setProc k p).proc j = some q → j ∈ m.silenced
    | .stopping k => m.isConnected = false ∧ ∀ j < k, j ∈ m.silenced
    | .stopped k => m.isConnected = false ∧ ∀ j ≤ k, j ∈ m.silenced
    | .starting _ => m.isConnected = true
  cases hr : m.runtime with
  | asking =>
    rw [hr] at h
    intro hoff j q hq
    obtain ⟨q', hq'⟩ := exists_proc_of_setProc hq
    exact h hoff j q' hq'
  | stopping | stopped | starting =>
    rw [hr] at h
    exact h

/-- **Each step keeps the invariant.** -/
theorem Quiet.step (h : m.Quiet) (hok : m.Patient l) (hs : m.step l = some m') : m'.Quiet := by
  have hplaced := h.placed
  unfold Placed at hplaced
  cases stepTo_of_step hs with
  | @vip k i p p' hp hstep =>
    refine ⟨h.placed.setProc, fun j hj q hq => ?_⟩
    rcases proc_of_setProc hq with ⟨rfl, rfl⟩ | ⟨-, hq⟩
    · exact (h.counting j hj p hp).step (hok hj p hp) hstep
    · exact h.counting j hj q hq
  | stays => exact h
  | returns => exact ⟨rfl, fun k hk => absurd hk List.not_mem_nil⟩
  | fails => exact ⟨⟨rfl, fun j hj => absurd hj (Nat.not_lt_zero j)⟩, h.counting⟩
  | @stop k p hk hp =>
    rw [hk] at hplaced
    obtain ⟨hoff, hbelow⟩ := hplaced
    refine ⟨⟨hoff, fun j hj => ?_⟩, fun j hj q hq => ?_⟩
    · rcases Nat.lt_or_ge j k with hlt | hge
      · exact List.mem_cons_of_mem k (hbelow j hlt)
      · obtain rfl : j = k := by omega
        exact List.mem_cons_self
    · -- the vip that is stopped, or one that was stopped before
      rcases proc_of_setProc (m := m) hq with ⟨rfl, rfl⟩ | ⟨hne, hq'⟩
      · refine counting_cmdStop (hok p ?_) _
        rw [nextStop, hk]
        exact hp
      · exact h.counting j ((List.mem_cons.mp hj).resolve_left hne) q hq'
  | @stopEnds k hk hnone =>
    -- the whole hash has been gone through
    rw [hk] at hplaced
    exact ⟨fun _ j p hj => hplaced.2 j (lt_of_proc hj hnone), h.counting⟩
  | @stopReturns k hk =>
    rw [hk] at hplaced
    exact ⟨⟨hplaced.1, fun j hj => hplaced.2 j (Nat.lt_succ_iff.mp hj)⟩, h.counting⟩
  | @start k p created hk hp =>
    rw [hk] at hplaced
    refine ⟨hplaced, fun j hj q hq => ?_⟩
    rcases proc_of_setProc (m := m) hq with ⟨rfl, rfl⟩ | ⟨-, hq'⟩
    · exact counting_cmdStart (h.counting j hj p hp) created
    · exact h.counting j hj q hq'
  | skip _ hk =>
    rw [hk] at hplaced
    exact ⟨hplaced, h.counting⟩
  | startEnds _ hk =>
    rw [hk] at hplaced
    exact ⟨fun hoff => absurd (hplaced.symm.trans hoff) (by simp), h.counting⟩

/-- Everybody has been stopped, and the arbiter still fails. -/
def AllSilenced (m : Module) : Prop :=
  m.isConnected = false ∧ ∀ k p, m.proc k = some p → k ∈ m.silenced

/-- Until the arbiter succeeds everybody stays stopped. -/
theorem AllSilenced.step (h : m.AllSilenced) (hl : l ≠ .arbiter true) (hs : m.step l = some m') :
    m'.AllSilenced := by
  obtain ⟨hoff, hall⟩ := h
  cases stepTo_of_step hs with
  | vip =>
    refine ⟨hoff, fun j q hq => ?_⟩
    obtain ⟨q', hq'⟩ := exists_proc_of_setProc hq
    exact hall j q' hq'
  | stays | returns => exact absurd rfl hl
  | fails => exact ⟨rfl, hall⟩
  | stop =>
    refine ⟨hoff, fun j q hq => ?_⟩
    obtain ⟨q', hq'⟩ := exists_proc_of_setProc (m := m) hq
    exact List.mem_cons_of_mem _ (hall j q' hq')
  | start =>
    refine ⟨hoff, fun j q hq => ?_⟩
    obtain ⟨q', hq'⟩ := exists_proc_of_setProc (m := m) hq
    exact hall j q' hq'
  | stopEnds | stopReturns | skip | startEnds => exact ⟨hoff, hall⟩

end Runtime

end Module

/-- **The arbiter's stop is durable.** The arbiter's stop finds no rollback thread of a vip past its
counting loop, and no rollback delay of a stopped vip runs out while the arbiter fails. Then after
it has failed and all vips have been stopped, and until it succeeds again, a step in which a vip
leaves `ST_IDLE` is an operator's start of this vip. -/
theorem arbiter_stop_durable {vips : List (Bool × Config)} {m₁ m m' : Module} {l : RuntimeStep}
    (h₁ : ReachesWhen Module.step Module.Patient (Module.load vips) m₁)
    (hoff : m₁.isConnected = false) (hdone : m₁.runtime = .asking)
    (h : ReachesWhen Module.step (fun m l => m.Patient l ∧ l ≠ .arbiter true) m₁ m)
    (hl : l ≠ .arbiter true) (hs : m.step l = some m') {k : ℕ} {p p' : Proc}
    (hp : m.proc k = some p) (hp' : m'.proc k = some p') (hidle : p.vip.state = .idle)
    (hleft : p'.vip.state ≠ .idle) : ∃ created, l = .vip k (.start created) := by
  have hquiet₁ : m₁.Quiet :=
    h₁.invariant (Module.quiet_load vips) fun _ _ _ _ hI hok hs => hI.step hok hs
  have hplaced := hquiet₁.placed
  rw [Module.Placed, hdone] at hplaced
  obtain ⟨hquiet, hoff', hall⟩ : m.Quiet ∧ m.AllSilenced :=
    h.invariant (I := fun m => m.Quiet ∧ m.AllSilenced) ⟨hquiet₁, hoff, hplaced hoff⟩
      fun _ _ _ _ hI hok hs => ⟨hI.1.step hok.1 hs, hI.2.step hok.2 hs⟩
  have hcount : Counting p := hquiet.counting k (hall k p hp) p hp
  -- where the runtime starts vips the arbiter has succeeded
  have hstart (j : ℕ) (hj : m.runtime = .starting j) : False := by
    have hon := hquiet.placed
    rw [Module.Placed, hj] at hon
    exact absurd (hon.symm.trans hoff') (by simp)
  have hsame (hq : m.proc k = some p') : False := by
    rw [hp] at hq
    exact hleft (Option.some.inj hq ▸ hidle)
  cases Module.stepTo_of_step hs with
  | @vip j i q q' hq hstep =>
    rcases Module.proc_of_setProc hp' with ⟨rfl, rfl⟩ | ⟨-, hk⟩
    · obtain rfl : p = q := Option.some.inj (hp.symm.trans hq)
      rcases Proc.idle_left hstep hidle hleft with ⟨created, rfl⟩ | ⟨r, hr, hpc⟩
      · exact ⟨created, rfl⟩
      · rw [hcount r hr] at hpc
        cases hpc
    · exact (hsame hk).elim
  | stays | returns => exact absurd rfl hl
  | @stop j q hj hq =>
    -- a stop of an idle vip is refused
    rcases Module.proc_of_setProc (m := m) hp' with ⟨rfl, rfl⟩ | ⟨-, hk⟩
    · obtain rfl : p = q := Option.some.inj (hp.symm.trans hq)
      rw [Proc.cmdStop_idle hidle] at hleft
      exact absurd hidle hleft
    · exact (hsame hk).elim
  | start _ hj | skip _ hj | startEnds _ hj => exact (hstart _ hj).elim
  | fails | stopEnds | stopReturns => exact (hsame hp').elim

/-! ## Runs of a module -/

/-- A vip that starts on its own joins a group, and serves the address. -/
def servedVip : List RuntimeStep :=
  [.startNext true, .startNext true] ++
    ([.cpgInitialize 1 [.ok], .contextSet 1 .ok, .localGet 1 .ok 1, .join 1 [.ok],
      .deliver 1 allSucceed (.confchg [1] [] [1]),
      .deliver 1 allSucceed (.message 1 (.nodeState ⟨10, .start, []⟩))] : List Input).map (.vip 0)

/-- The `vip_thread` ends while a stop waits for it, and the stop goes on to its end. -/
def stopEnding : List Input :=
  [.down 0, .down 0, .exitLoop 1, .leave 1, .finalize 1, .finish 1, .down 0, .down 0]

/-- The vip after the arbiter has failed and has had it stopped. -/
def silencedVip : Module :=
  (runWhen Module.step Module.Patient (Module.load [(true, rollbackConfig)])
    (servedVip ++ [.arbiter false, .stopNext] ++ stopEnding.map (.vip 0) ++
      [.stopReturns, .stopNext])).getD
    (Module.load [(true, rollbackConfig)])

/-- The same vip after a start. -/
def restartedVip : Module := (silencedVip.step (.vip 0 (.start true))).getD silencedVip

set_option maxRecDepth 10000 in
theorem arbiter_stop_durable_restarted :
    ∃ created, RuntimeStep.vip 0 (.start true) = .vip 0 (.start created) := by
  have hs : silencedVip.step (.vip 0 (.start true)) = some restartedVip := by decide +kernel
  obtain ⟨p, hp, hidle⟩ : ∃ p ∈ silencedVip.proc 0, p.vip.state = .idle := by decide +kernel
  obtain ⟨p', hp', hleft⟩ : ∃ p ∈ restartedVip.proc 0, p.vip.state ≠ .idle := by decide +kernel
  exact arbiter_stop_durable (reachesWhen_getD _) (by decide +kernel) (by decide +kernel) .refl
    (by decide) hs hp hp' hidle hleft

/-- Node 2, of higher priority, joins; after a minute the rollback thread stops the vip, and its
stop comes to its end. -/
def handingOver : List RuntimeStep :=
  ([.deliver 1 allSucceed (.confchg [1, 2] [] [2]),
    .deliver 1 threaded (.message 2 (.nodeState ⟨20, .start, []⟩))] ++ List.replicate 60 (.tick 2) ++
    [.rollbackStop 2, .down 0] ++ stopEnding ++ [.rollbackWait 2] : List Input).map (.vip 0)

/-- The arbiter fails while the rollback thread waits, and has the idle vip stopped. -/
def overruledVip : Module :=
  (run Module.step (Module.load [(true, rollbackConfig)])
    (servedVip ++ handingOver ++ [.arbiter false, .stopNext, .stopReturns, .stopNext])).getD
    (Module.load [(true, rollbackConfig)])

set_option maxRecDepth 10000 in
/-- **The arbiter's stop is lost**: the rollback thread starts the vip that it had stopped itself.
-/
theorem arbiter_stop_lost : ¬ ∀ (vips : List (Bool × Config)) (m₁ m m' : Module) (l : RuntimeStep),
    Reaches Module.step (Module.load vips) m₁ → m₁.isConnected = false → m₁.runtime = .asking →
      ReachesWhen Module.step (fun _ l => l ≠ .arbiter true) m₁ m → l ≠ .arbiter true →
        m.step l = some m' → ∀ (k : ℕ) (p p' : Proc), m.proc k = some p → m'.proc k = some p' →
          p.vip.state = .idle → p'.vip.state ≠ .idle → ∃ created, l = .vip k (.start created) := by
  intro h
  obtain ⟨m', hs⟩ : ∃ m', overruledVip.step (.vip 0 (.rollbackStart 2 true)) = some m' :=
    Option.isSome_iff_exists.mp (by decide +kernel)
  have hafter :
      ∃ q ∈ ((overruledVip.step (.vip 0 (.rollbackStart 2 true))).getD overruledVip).proc 0,
      q.vip.state ≠ .idle := by decide +kernel
  obtain ⟨p, hp, hidle⟩ : ∃ p ∈ overruledVip.proc 0, p.vip.state = .idle := by decide +kernel
  obtain ⟨p', hp', hleft⟩ := hafter
  rw [hs, Option.getD_some] at hp'
  obtain ⟨created, hstart⟩ := h _ overruledVip overruledVip m' _ (reaches_getD _) (by decide +kernel)
    (by decide +kernel) .refl (by decide) hs 0 p p' hp hp' hidle hleft
  cases hstart

end CpgFailover
