import CpgFailover.Arbiter
import CpgFailover.Interface
import CpgFailover.Quiescence

/-!
# The module is unloaded

`mod_cpg_shutdown` of `mod_cpg.c`: it has every vip stopped, one after another, waits for each stop
to return, and clears `globals.running`; then the pool of the module goes, with all its records. A
stop that finds a running vip waits for the threads it knows of, a stop that finds an idle one
waits for nobody. So what an unload leaves behind depends on what it finds.

## Main definitions

* `Unload`, `UnloadStep`, `Unload.step`: the module and the thread that shuts it down
* `Concluded`: nothing of a vip is left
* `Stored`: the record knows the thread of a running vip
* `Stoppable`: a stop of the vip waits for everything there is
* `Ending`: a vip that the shutdown has stopped
* `Unload.InOrder`: what an unload needs of its module

## Main results

* `Ending.step`: a vip that is ending goes on ending
* `Ending.returns`: its own threads bring the stop to its end
* `unloaded_concluded`: an unload leaves nothing behind, and none of its stops waits in vain
* `unload_outlived`: a vip that goes down on its own outlives the shutdown
-/

namespace CpgFailover

open Agreed (Entry)
open Transition

/-! ## The threads of a running vip -/

/-- Nothing of the vip is left: it is idle, off the interface, and no thread is there for it. -/
structure Concluded (p : Proc) : Prop where
  idle : p.vip.state = .idle
  vipThreads : p.vipThreads = []
  rollbackThreads : p.rollbackThreads = []
  downs : p.downs = []
  address : p.address = false

/-- A start finds the threads and the stops of the last activation gone, unless it is refused; the
rollback thread that issues it aside. -/
def Proc.Cleared (p : Proc) : Prop := p.vip.state = .idle → p.vipThreads = [] ∧ p.downs = []

instance : DecidablePred Proc.Cleared := fun p =>
  inferInstanceAs (Decidable (p.vip.state = .idle → p.vipThreads = [] ∧ p.downs = []))

/-- Every start finds the vip cleared. -/
def ClearStart (p : Proc) : Input → Prop
  | .start _ | .rollbackStart _ _ => p.Cleared
  | _ => True

instance (p : Proc) : DecidablePred (ClearStart p)
  | .start _ | .rollbackStart _ _ | .stop | .down _ | .cpgInitialize _ _ | .contextSet _ _
  | .localGet _ _ _ | .join _ _ | .deliver _ _ _ | .dispatchFails _ | .exitLoop _ | .leave _
  | .finalize _ | .finish _ | .tick _ | .rollbackStop _ | .rollbackWait _ => by
    unfold ClearStart
    infer_instance

/-- The record knows the `vip_thread`s of a running vip. -/
def Stored (p : Proc) : Prop :=
  p.vip.state ≠ .idle → ∀ th ∈ p.vipThreads, p.vip.virtualIpThread = some th.id

section Stored

variable {o : Outcome} {p p' : Proc} {i : Input}

/-- A callback of a vip that runs on keeps the handle of its thread. -/
theorem handle_virtualIpThread {v : Vip} (e : Entry NodeId Msg)
    (h : (handle o v e).1.state ≠ .idle) :
    v.state ≠ .idle ∧ (handle o v e).1.virtualIpThread = v.virtualIpThread := by
  refine handle_vip (R := fun v w => w.state ≠ .idle →
    v.state ≠ .idle ∧ w.virtualIpThread = v.virtualIpThread) (fun _ h => ⟨h, rfl⟩) ?_ ?_
    (fun _ _ h => ⟨h, rfl⟩) ?_ (fun _ _ h => ⟨h, rfl⟩) v e h
  · intro u v w huv hvw hw
    obtain ⟨hv, hvt⟩ := hvw hw
    obtain ⟨hu, hut⟩ := huv hv
    exact ⟨hu, hvt.trans hut⟩
  · intro v e he hrun
    have hto := fsmTo_fsmDoTransaction o v e
    generalize fsmDoTransaction o v e = r at hto hrun ⊢
    cases hto with
    | down | resign => exact absurd rfl hrun
    | claim _ hs =>
      rw [becomeMaster_vip] at hrun ⊢
      split_ifs at hrun ⊢
      · rcases hs with ⟨hs, -⟩ | ⟨hs, -⟩ <;> exact ⟨by simp [hs], rfl⟩
      · exact absurd rfl hrun
    | request hs hl hn =>
      rw [rollback_cons hl hn]
      cases o.threadCreate <;> exact ⟨by simp [hs], rfl⟩
    | resume hs => exact ⟨by simp [hs], rfl⟩
    | observe hs => exact ⟨by simp [hs], rfl⟩
    | cleanUp hs => exact ⟨by simp [hs], rfl⟩
    | nodeup hs | backupup hs => exact ⟨hs, rfl⟩
    | stay => exact ⟨hrun, rfl⟩
    | goUp => exact absurd rfl he
  · intro v nm y h
    rw [learn_state] at h
    exact ⟨h, by rw [learn_eq]⟩

theorem stored_fresh (c : Config) : Stored (Proc.fresh c) := fun h => absurd rfl h

/-- A step that creates no thread and leaves the handle of a running vip where it is. -/
theorem Stored.kept (h : Stored p)
    (hv : p'.vip.state ≠ .idle →
      p.vip.state ≠ .idle ∧ p'.vip.virtualIpThread = p.vip.virtualIpThread)
    (ht : ∀ th ∈ p'.vipThreads, ∃ th' ∈ p.vipThreads, th'.id = th.id) : Stored p' := by
  intro hrun th hth
  obtain ⟨hrun', hhandle⟩ := hv hrun
  obtain ⟨th', hth', hid⟩ := ht th hth
  rw [hhandle, h hrun' th' hth', hid]

/-- A start of a cleared vip. -/
theorem Stored.cmdStart (h : Stored p) (hc : p.Cleared) (created : Bool) :
    Stored (p.cmdStart created) := by
  by_cases hs : p.vip.state = .idle
  · obtain ⟨hnone, -⟩ := hc hs
    cases created with
    | true =>
      rw [Proc.cmdStart_created hs, hnone]
      intro _ th hth
      rw [List.mem_singleton.mp hth]
    | false =>
      rw [Proc.cmdStart_failed hs]
      intro _ th hth
      rw [hnone] at hth
      cases hth
  · rwa [Proc.cmdStart_running hs]

theorem Stored.cmdStop (h : Stored p) (caller : Option ThreadId) : Stored (p.cmdStop caller) := by
  by_cases hs : p.vip.state = .idle
  · rwa [Proc.cmdStop_idle hs]
  · rw [Proc.cmdStop_running hs]
    exact fun hrun => absurd rfl hrun

theorem exists_id_of_moveVip {t : ThreadId} {phase : VipPhase} {th : VipThread}
    (h : th ∈ (p.moveVip t phase).vipThreads) : ∃ th' ∈ p.vipThreads, th'.id = th.id := by
  obtain ⟨th', hth', rfl⟩ := List.mem_map.mp h
  refine ⟨th', hth', ?_⟩
  split_ifs with hid
  · exact hid
  · rfl

/-- **A step with cleared starts** keeps the thread known. -/
theorem Stored.step (h : Stored p) (ho : Orderly p) (hc : ClearStart p i)
    (hs : p.step i = some p') : Stored p' := by
  have hself {q : Proc} : ∀ th ∈ q.vipThreads, ∃ th' ∈ q.vipThreads, th'.id = th.id :=
    fun th hth => ⟨th, hth, rfl⟩
  cases Proc.stepTo_of_step hs with
  | start created => exact h.cmdStart hc created
  | @rollbackStart r created => exact Stored.cmdStart (p := p.endRollback r.id) h hc created
  | stop => exact h.cmdStop none
  | @rollbackStop r =>
    exact (h.cmdStop (some r.id)).kept (fun hrun => ⟨hrun, rfl⟩) hself
  | @down j q hd =>
    -- only an idle vip is being stopped
    have hne : p.downs ≠ [] := by
      intro hnil
      rw [Proc.downStep, hnil] at hd
      cases hd
    obtain ⟨-, -, r, v, hvip⟩ := Proc.downStep_vip hd
    intro hrun
    rw [hvip] at hrun
    exact absurd (ho.stopping hne).1 hrun
  | @deliver t o e ht =>
    refine h.kept (fun hrun => ?_) fun th hth => ?_
    · rw [Proc.handleEntry_vip] at hrun ⊢
      exact handle_virtualIpThread e hrun
    · rw [Proc.handleEntry_vipThreads] at hth
      exact ⟨th, hth, rfl⟩
  | @tick r =>
    refine h.kept (fun hrun => ?_) fun th hth => ?_
    · rw [Proc.tick_vip] at hrun ⊢
      exact ⟨hrun, rfl⟩
    · rw [Proc.tick_vipThreads] at hth
      exact ⟨th, hth, rfl⟩
  | finish =>
    exact h.kept (fun hrun => ⟨hrun, rfl⟩) fun th hth => ⟨th, List.mem_of_mem_filter hth, rfl⟩
  | rollbackWait => exact h.kept (fun hrun => ⟨hrun, rfl⟩) hself
  | located =>
    exact h.kept (fun hrun => ⟨hrun, rfl⟩) fun th hth => exists_id_of_moveVip (p := p) hth
  | cpgInitialize | contextSet | unlocated | join | dispatchFails | exitLoop | leave | finalize =>
    exact h.kept (fun hrun => ⟨hrun, rfl⟩) fun th hth => exists_id_of_moveVip hth

end Stored

/-! ## A stop that waits for everything -/

/-- A stop waits for everything there is: no other is in progress, an idle vip has no thread, and a
running one has no rollback thread but the one in its record, which counts. -/
structure Stoppable (p : Proc) : Prop where
  downs : p.downs = []
  counting : Counting p
  idle : p.vip.state = .idle → p.vipThreads = [] ∧ p.rollbackThreads = []
  stored : p.vip.state ≠ .idle → ∀ r ∈ p.rollbackThreads, p.vip.rollbackThread = some r.id

/-- The `vip_thread` is known to the record. -/
def VipKnown (p : Proc) : Prop := ∀ th ∈ p.vipThreads, p.vip.virtualIpThread = some th.id

/-- What is left of the vip when a stop has come so far. -/
def Left (p : Proc) : DownPc → Prop
  | .joinRollback =>
    (∀ r ∈ p.rollbackThreads, p.vip.rollbackThread = some r.id) ∧ VipKnown p
  | .awaitRollback t => (∀ r ∈ p.rollbackThreads, r.id = t) ∧ VipKnown p
  | .joinVip => p.rollbackThreads = [] ∧ VipKnown p
  | .awaitVip t => p.rollbackThreads = [] ∧ ∀ th ∈ p.vipThreads, th.id = t
  | .removeVip => p.rollbackThreads = [] ∧ p.vipThreads = []

/-- The shutdown has stopped the vip: its one stop waits for all threads that are left, and when it
has returned there is none. -/
structure Ending (p : Proc) : Prop where
  idle : p.vip.state = .idle
  counting : Counting p
  downs : p.downs = [] ∨ ∃ pc, p.downs = [⟨none, pc⟩] ∧ Left p pc
  gone : p.downs = [] → p.vipThreads = [] ∧ p.rollbackThreads = []

section Ending

variable {o : Outcome} {p p' : Proc} {i : Input}

/-- A callback of an idle vip leaves its thread handles alone. -/
theorem handle_idle_handles {v : Vip} (hv : v.state = .idle) (e : Entry NodeId Msg) :
    (handle o v e).1.rollbackThread = v.rollbackThread ∧
      (handle o v e).1.virtualIpThread = v.virtualIpThread := by
  refine (handle_vip (R := fun v w => v.state = .idle → w.state = .idle ∧
    w.rollbackThread = v.rollbackThread ∧ w.virtualIpThread = v.virtualIpThread)
    (fun _ h => ⟨h, rfl, rfl⟩) ?_ ?_ (fun _ _ h => ⟨h, rfl, rfl⟩) ?_ (fun _ _ h => ⟨h, rfl, rfl⟩)
    v e hv).2
  · intro u v w huv hvw hu
    obtain ⟨hv, hr, ht⟩ := huv hu
    obtain ⟨hw, hr', ht'⟩ := hvw hv
    exact ⟨hw, hr'.trans hr, ht'.trans ht⟩
  · intro v e he hv
    rw [fsmDoTransaction_idle hv he]
    exact ⟨hv, rfl, rfl⟩
  · intro v nm y hv
    rw [learn_state]
    exact ⟨hv, by rw [learn_eq]; exact ⟨rfl, rfl⟩⟩

/-- What is left of a vip does not grow. -/
theorem Left.kept {pc : DownPc} (h : Left p pc) (hr : p'.rollbackThreads ⊆ p.rollbackThreads)
    (ht : ∀ th ∈ p'.vipThreads, ∃ th' ∈ p.vipThreads, th'.id = th.id)
    (hrh : p'.vip.rollbackThread = p.vip.rollbackThread)
    (hth : p'.vip.virtualIpThread = p.vip.virtualIpThread) : Left p' pc := by
  have hknown (h : VipKnown p) : VipKnown p' := by
    intro th hmem
    obtain ⟨th', hmem', hid⟩ := ht th hmem
    rw [hth, h th' hmem', hid]
  have hnone (h : p.rollbackThreads = []) : p'.rollbackThreads = [] :=
    List.eq_nil_iff_forall_not_mem.mpr fun r hmem => by
      have hmem' := hr hmem
      rw [h] at hmem'
      cases hmem'
  cases pc with
  | joinRollback => exact ⟨fun r hmem => by rw [hrh]; exact h.1 r (hr hmem), hknown h.2⟩
  | awaitRollback t => exact ⟨fun r hmem => h.1 r (hr hmem), hknown h.2⟩
  | joinVip => exact ⟨hnone h.1, hknown h.2⟩
  | awaitVip t =>
    refine ⟨hnone h.1, fun th hmem => ?_⟩
    obtain ⟨th', hmem', hid⟩ := ht th hmem
    rw [← hid, h.2 th' hmem']
  | removeVip =>
    refine ⟨hnone h.1, List.eq_nil_iff_forall_not_mem.mpr fun th hmem => ?_⟩
    obtain ⟨th', hmem', -⟩ := ht th hmem
    rw [h.2] at hmem'
    cases hmem'

/-- A step that creates no thread and leaves the stops and the handles of an idle vip alone. -/
theorem Ending.kept (h : Ending p) (hs : p'.vip.state = .idle) (hd : p'.downs = p.downs)
    (hr : p'.rollbackThreads ⊆ p.rollbackThreads)
    (ht : ∀ th ∈ p'.vipThreads, ∃ th' ∈ p.vipThreads, th'.id = th.id)
    (hrh : p'.vip.rollbackThread = p.vip.rollbackThread)
    (hth : p'.vip.virtualIpThread = p.vip.virtualIpThread) : Ending p' where
  idle := hs
  counting r hmem := h.counting r (hr hmem)
  downs := by
    rw [hd]
    exact h.downs.imp_right fun ⟨pc, hpc, hleft⟩ => ⟨pc, hpc, hleft.kept hr ht hrh hth⟩
  gone := by
    intro hnil
    obtain ⟨hvt, hrt⟩ := h.gone (hd ▸ hnil)
    refine ⟨List.eq_nil_iff_forall_not_mem.mpr fun th hmem => ?_,
      List.eq_nil_iff_forall_not_mem.mpr fun r hmem => ?_⟩
    · obtain ⟨th', hmem', -⟩ := ht th hmem
      rw [hvt] at hmem'
      cases hmem'
    · have hmem' := hr hmem
      rw [hrt] at hmem'
      cases hmem'

/-- A vip that the shutdown stops is ending. -/
theorem Stoppable.ending (h : Stoppable p) (hst : Stored p) : Ending (p.cmdStop none) := by
  by_cases hs : p.vip.state = .idle
  · rw [Proc.cmdStop_idle hs]
    exact ⟨hs, h.counting, Or.inl h.downs, fun _ => h.idle hs⟩
  · rw [Proc.cmdStop_running hs, h.downs]
    exact ⟨rfl, h.counting, Or.inr ⟨.joinRollback, rfl, h.stored hs, hst hs⟩,
      fun hnil => by cases hnil⟩

/-- The next call of the stop: it finds what it waits for, or waits until it is gone. -/
theorem Ending.down (h : Ending p) {j : ℕ} (hd : p.downStep j = some p') : Ending p' := by
  obtain ⟨pc, hdowns, hleft⟩ : ∃ pc, p.downs = [⟨none, pc⟩] ∧ Left p pc := by
    refine h.downs.resolve_left fun hnil => ?_
    rw [Proc.downStep, hnil] at hd
    cases hd
  have hthe {d : Down} (hj : p.downs[j]? = some d) : j = 0 ∧ d = ⟨none, pc⟩ := by
    rw [hdowns] at hj
    obtain ⟨hlt, hd⟩ := List.getElem?_eq_some_iff.mp hj
    obtain rfl : j = 0 := by
      rw [List.length_singleton] at hlt
      omega
    exact ⟨rfl, hd.symm⟩
  have hset {q : Proc} {d : Down} {next : DownPc} (hj : p.downs[j]? = some d)
      (hq : q.vip.state = .idle) (hqr : q.rollbackThreads = p.rollbackThreads)
      (hqd : q.downs = p.downs) (hnext : Left q next) :
      Ending (q.setDown j { d with pc := next }) := by
    obtain ⟨rfl, rfl⟩ := hthe hj
    refine ⟨hq, ?_, Or.inr ⟨next, by simp [Proc.setDown, hqd, hdowns], hnext⟩, ?_⟩
    · intro r hmem
      exact h.counting r (hqr ▸ hmem)
    · intro hnil
      simp [Proc.setDown, hqd, hdowns] at hnil
  cases Proc.downTo_of_downStep hd with
  | @awaitRollback d t hj hpc ht =>
    obtain ⟨-, rfl⟩ := hthe hj
    obtain rfl : pc = .joinRollback := hpc
    refine hset hj h.idle rfl rfl ⟨fun r hmem => ?_, hleft.2⟩
    exact Option.some.inj ((hleft.1 r hmem).symm.trans ht)
  | @noRollback d hj hpc ht =>
    obtain ⟨-, rfl⟩ := hthe hj
    obtain rfl : pc = .joinRollback := hpc
    refine hset hj h.idle rfl rfl ⟨List.eq_nil_iff_forall_not_mem.mpr fun r hmem => ?_, hleft.2⟩
    have hr := hleft.1 r hmem
    rw [ht] at hr
    cases hr
  | @rollbackJoined d t hj hpc hgone =>
    obtain ⟨-, rfl⟩ := hthe hj
    obtain rfl : pc = .awaitRollback t := hpc
    refine hset hj h.idle rfl rfl ⟨List.eq_nil_iff_forall_not_mem.mpr fun r hmem => ?_, hleft.2⟩
    exact hgone ⟨by simp, List.mem_map.mpr ⟨r, hmem, hleft.1 r hmem⟩⟩
  | @awaitVip d t hj hpc ht =>
    obtain ⟨-, rfl⟩ := hthe hj
    obtain rfl : pc = .joinVip := hpc
    refine hset hj h.idle rfl rfl ⟨hleft.1, fun th hmem => ?_⟩
    exact Option.some.inj ((hleft.2 th hmem).symm.trans ht)
  | @noVip d hj hpc ht =>
    obtain ⟨-, rfl⟩ := hthe hj
    obtain rfl : pc = .joinVip := hpc
    refine hset hj h.idle rfl rfl ⟨hleft.1, List.eq_nil_iff_forall_not_mem.mpr fun th hmem => ?_⟩
    have hth := hleft.2 th hmem
    rw [ht] at hth
    cases hth
  | @vipJoined d t hj hpc hgone =>
    obtain ⟨-, rfl⟩ := hthe hj
    obtain rfl : pc = .awaitVip t := hpc
    refine hset hj h.idle rfl rfl ⟨hleft.1, List.eq_nil_iff_forall_not_mem.mpr fun th hmem => ?_⟩
    exact hgone (List.mem_map.mpr ⟨th, hmem, hleft.2 th hmem⟩)
  | @removed d hj hpc =>
    obtain ⟨rfl, rfl⟩ := hthe hj
    obtain rfl : pc = .removeVip := hpc
    exact ⟨h.idle, h.counting, Or.inl (by simp [hdowns]), fun _ => ⟨hleft.2, hleft.1⟩⟩

/-- **A vip that is ending goes on ending** in every step but a start. -/
theorem Ending.step (h : Ending p) (hi : ∀ created, i ≠ .start created) (hs : p.step i = some p') :
    Ending p' := by
  have hself {q : Proc} : ∀ th ∈ q.vipThreads, ∃ th' ∈ q.vipThreads, th'.id = th.id :=
    fun th hth => ⟨th, hth, rfl⟩
  cases Proc.stepTo_of_step hs with
  | start created => exact absurd rfl (hi created)
  | stop => rwa [Proc.cmdStop_idle h.idle]
  | down hd => exact h.down hd
  | @deliver t o e ht =>
    obtain ⟨hr, hth⟩ := handle_idle_handles (o := p.withHandle o) h.idle e
    refine h.kept ?_ (Proc.handleEntry_rest p o e).2 ?_ ?_ ?_ ?_
    · rw [Proc.handleEntry_vip]
      exact handle_idle h.idle e
    · -- only a master begins a rollback
      have hnone := (rback_cases (p.withHandle o) p.vip e).resolve_right
        fun ⟨_, _, _, hb⟩ => absurd (hb.1.symm.trans h.idle) (by simp)
      rw [Proc.handleEntry_rollbackThreads hnone.1]
      exact List.Subset.refl _
    · rw [Proc.handleEntry_vipThreads]
      exact hself
    · rw [Proc.handleEntry_vip]
      exact hr
    · rw [Proc.handleEntry_vip]
      exact hth
  | @tick r hr =>
    have htick : p.tick r = p.endRollback r.id := if_pos (by rw [h.idle]; simp)
    rw [htick]
    exact h.kept h.idle rfl (fun r' hr' => List.mem_of_mem_filter hr') hself rfl rfl
  -- every rollback thread counts
  | rollbackStop hr hpc | rollbackWait hr hpc | rollbackStart _ hr hpc =>
    rw [h.counting _ hr] at hpc
    cases hpc
  | finish =>
    exact h.kept h.idle rfl (List.Subset.refl _)
      (fun th hth => ⟨th, List.mem_of_mem_filter hth, rfl⟩) rfl rfl
  | located =>
    exact h.kept h.idle rfl (List.Subset.refl _)
      (fun th hth => exists_id_of_moveVip (p := p) hth) rfl rfl
  | cpgInitialize | contextSet | unlocated | join | dispatchFails | exitLoop | leave | finalize =>
    exact h.kept h.idle rfl (List.Subset.refl _) (fun th hth => exists_id_of_moveVip hth) rfl rfl

/-! ### The stop returns -/

/-- How many steps the stop and the threads have still to take. -/
def Proc.remaining (p : Proc) : ℕ := p.rank + p.rollbackThreads.length

/-- A step that the threads of the vip take on their own, and that starts and stops nothing. -/
def Input.concludes : Input → Bool
  | .start _ | .stop | .rollbackStart _ _ => false
  | _ => true

/-- A `vip_thread` of an idle vip goes on to its end. -/
theorem vipThread_concludes (hn : Numbered p) (hidle : p.vip.state = .idle) {th : VipThread}
    (hmem : th ∈ p.vipThreads) : ∃ i p', i.concludes = true ∧ p.step i = some p' ∧
      p'.remaining < p.remaining := by
  obtain ⟨t, phase⟩ := th
  -- one call brings it from one phase to another
  have hmove {next : VipPhase} (h : next.rank < phase.rank) :
      (p.moveVip t next).remaining < p.remaining :=
    Nat.add_lt_add_right (rank_moveVip hn hmem h) _
  cases phase with
  | cpgInitialize =>
    exact ⟨.cpgInitialize t [.ok], p.moveVip t .contextSet, rfl, by
      simp [Proc.step, Proc.vipCall, hmem, csRetry, csMaxRetries], hmove (by decide)⟩
  | contextSet =>
    exact ⟨.contextSet t .ok, p.moveVip t .localGet, rfl, by
      simp [Proc.step, Proc.vipCall, hmem], hmove (by decide)⟩
  | localGet =>
    exact ⟨.localGet t .other 0, p.moveVip t .finalizing, rfl, by
      simp [Proc.step, Proc.vipCall, hmem], hmove (by decide)⟩
  | join =>
    exact ⟨.join t [.ok], p.moveVip t .dispatching, rfl, by
      simp [Proc.step, Proc.vipCall, hmem, csRetry, csMaxRetries], hmove (by decide)⟩
  | dispatching =>
    exact ⟨.exitLoop t, p.moveVip t .leaving, rfl, by
      simp [Proc.step, Proc.vipCall, hmem, hidle], hmove (by decide)⟩
  | leaving =>
    exact ⟨.leave t, p.moveVip t .finalizing, rfl, by
      simp [Proc.step, Proc.vipCall, hmem], hmove (by decide)⟩
  | finalizing =>
    exact ⟨.finalize t, p.moveVip t .ending, rfl, by
      simp [Proc.step, Proc.vipCall, hmem], hmove (by decide)⟩
  | ending =>
    exact ⟨.finish t, { p with vipThreads := p.vipThreads.filter fun th => th.id ≠ t }, rfl, by
      simp [Proc.step, hmem], Nat.add_lt_add_right (rank_finish hmem) _⟩

/-- A rollback thread of an idle vip ends with the next turn of its loop. -/
theorem rollbackThread_concludes (h : Ending p) {r : RollbackThread}
    (hr : r ∈ p.rollbackThreads) : ∃ i p', i.concludes = true ∧ p.step i = some p' ∧
      p'.remaining < p.remaining := by
  obtain ⟨r', hr'⟩ : ∃ r', p.findRollback r.id .counting = some r' :=
    Option.isSome_iff_exists.mp (List.find?_isSome.mpr ⟨r, hr, by simp [h.counting r hr]⟩)
  obtain ⟨hmem, -, -⟩ := Proc.findRollback_eq_some hr'
  have htick : p.tick r' = p.endRollback r'.id := if_pos (by rw [h.idle]; simp)
  refine ⟨.tick r.id, p.endRollback r'.id, rfl, by simp [Proc.step, hr', htick], ?_⟩
  exact Nat.add_lt_add_left
    (List.length_filter_lt_length_iff_exists.mpr ⟨r', hmem, by simp⟩) p.rank

/-- As long as the stop has not returned, it or a thread that it waits for can go on. -/
theorem Ending.concludes (h : Ending p) (hn : Numbered p) (hd : p.downs ≠ []) :
    ∃ i p', i.concludes = true ∧ p.step i = some p' ∧ p'.remaining < p.remaining := by
  obtain ⟨pc, hdowns, -⟩ := h.downs.resolve_left hd
  cases hq : p.downStep 0 with
  | some q =>
    refine ⟨.down 0, q, rfl, hq, ?_⟩
    rw [Proc.remaining, Proc.remaining, (Proc.downStep_vip hq).2.1]
    exact Nat.add_lt_add_right (rank_down hq) _
  | none =>
    -- it waits for a thread that is still there
    cases pc with
    | joinRollback =>
      cases ht : p.vip.rollbackThread <;> simp [Proc.downStep, hdowns, ht] at hq
    | awaitRollback t =>
      obtain ⟨r, hr, -⟩ : ∃ r ∈ p.rollbackThreads, r.id = t := by
        simpa [Proc.downStep, hdowns] using hq
      exact rollbackThread_concludes h hr
    | joinVip =>
      cases ht : p.vip.virtualIpThread <;> simp [Proc.downStep, hdowns, ht] at hq
    | awaitVip t =>
      obtain ⟨th, hth, -⟩ : ∃ th ∈ p.vipThreads, th.id = t := by
        simpa [Proc.downStep, hdowns] using hq
      exact vipThread_concludes hn h.idle hth
    | removeVip => simp [Proc.downStep, hdowns] at hq

/-- **The stop returns**: the threads of a vip that is ending bring it to its end. -/
theorem Ending.returns (h : Ending p) (hn : Numbered p) :
    ∃ q, ReachesWhen Proc.step (fun _ i => i.concludes = true) p q ∧ q.downs = [] := by
  -- Induction on the steps that remain.
  induction hk : p.remaining using Nat.strongRecOn generalizing p with
  | ind k ih =>
    by_cases hd : p.downs = []
    · exact ⟨p, .refl, hd⟩
    · obtain ⟨i, p', hi, hs, hlt⟩ := h.concludes hn hd
      have hi' : ∀ created, i ≠ .start created := by
        rintro created rfl
        cases hi
      obtain ⟨q, hq, hqd⟩ := ih p'.remaining (hk ▸ hlt) (h.step hi' hs) (hn.step hs) rfl
      have hone : ReachesWhen Proc.step (fun _ i => i.concludes = true) p p' :=
        ReachesWhen.refl.tail hi hs
      exact ⟨q, hone.trans hq, hqd⟩

end Ending

/-! ## The unload -/

/-- Where `mod_cpg_shutdown` is: not yet called, in `map_vip(virtual_ip_stop)` before the `k`-th vip
or in its `virtual_ip_stop`, or past the map, with `globals.running` cleared. -/
inductive ShutdownPc
  | loaded
  | stopping (k : ℕ)
  | stopped (k : ℕ)
  | finished
deriving DecidableEq

/-- The module, and the thread that unloads it. -/
structure Unload where
  module : Module
  shutdown : ShutdownPc
deriving DecidableEq

/-- The steps: one of the module, the call of `mod_cpg_shutdown`, its next `virtual_ip_stop`, or the
return of that. -/
inductive UnloadStep
  | module (l : RuntimeStep)
  | shutdown
  | stopNext
  | stopReturns
deriving DecidableEq

/-- A step of the module once `globals.running` is cleared: the runtime thread leaves its loop, and
so does every `vip_thread`. -/
def Module.lastStep (m : Module) : RuntimeStep → Option Module
  | .arbiter _ => none
  | .vip k (.exitLoop t) =>
    (m.proc k).bind fun p => (p.vipCall t .dispatching true .leaving .leaving).map (m.setProc k)
  | l => m.step l

namespace Unload

/-- One step. -/
def step (u : Unload) : UnloadStep → Option Unload
  | .module l =>
    (if u.shutdown = .finished then u.module.lastStep l else u.module.step l).map fun m =>
      { u with module := m }
  | .shutdown => if u.shutdown = .loaded then some { u with shutdown := .stopping 0 } else none
  | .stopNext =>
    match u.shutdown with
    | .stopping k =>
      match u.module.proc k with
      | some p => some ⟨u.module.setProc k (p.cmdStop none), .stopped k⟩
      -- the end of the hash
      | none => some { u with shutdown := .finished }
    | _ => none
  | .stopReturns =>
    match u.shutdown with
    | .stopped k =>
      if ∃ p ∈ u.module.proc k, ∃ d ∈ p.downs, d.caller = none then none
      else some { u with shutdown := .stopping (k + 1) }
    | _ => none

/-- The module has just been loaded. -/
def start (vips : List (Bool × Config)) : Unload := ⟨Module.load vips, .loaded⟩

/-- The vip that the shutdown stops next. -/
def nextStop (u : Unload) : Option Proc :=
  match u.shutdown with
  | .stopping k => u.module.proc k
  | _ => none

end Unload

/-! ## What an unload needs -/

/-- The commands of the operator. -/
def Input.isCommand : Input → Bool
  | .start _ | .stop => true
  | _ => false

namespace Module

/-- The vip that `autostart_vip` starts next. -/
def nextAutostart (m : Module) : Option HashedVip :=
  match m.runtime with
  | .starting k => m.vips[k]?.filter HashedVip.autoload
  | _ => none

/-- Every start finds its vip cleared. -/
def ClearStarts (m : Module) : RuntimeStep → Prop
  | .vip k i => ∀ p ∈ m.proc k, ClearStart p i
  | .startNext _ => ∀ v ∈ m.nextAutostart, v.proc.Cleared
  | _ => True

/-- No command is given, and the arbiter has nothing new to say. -/
def Unattended (m : Module) : RuntimeStep → Prop
  | .vip _ i => i.isCommand = false
  | .arbiter succeeds => succeeds = true ∧ m.isConnected = true
  | _ => False

instance (m : Module) : DecidablePred m.ClearStarts
  | .vip _ _ | .arbiter _ | .stopNext | .stopReturns | .startNext _ => by
    unfold ClearStarts
    infer_instance

instance (m : Module) : DecidablePred m.Unattended
  | .vip _ _ | .arbiter _ | .stopNext | .stopReturns | .startNext _ => by
    unfold Unattended
    infer_instance

end Module

/-- Starts find their vips cleared; the core unloads a module that executes no command and takes its
commands away, while the runtime thread rests; and the shutdown stops each vip when its stop waits
for everything there is. -/
def Unload.InOrder (u : Unload) : UnloadStep → Prop
  | .module l => u.module.ClearStarts l ∧ (u.shutdown ≠ .loaded → u.module.Unattended l)
  | .shutdown => u.module.runtime = .asking
  | .stopNext => ∀ p ∈ u.nextStop, Stoppable p
  | .stopReturns => True

instance (p : Proc) : Decidable (Stoppable p) :=
  decidable_of_iff (p.downs = [] ∧ Counting p ∧
      (p.vip.state = .idle → p.vipThreads = [] ∧ p.rollbackThreads = []) ∧
      (p.vip.state ≠ .idle → ∀ r ∈ p.rollbackThreads, p.vip.rollbackThread = some r.id))
    ⟨fun ⟨hd, hc, hi, hs⟩ => ⟨hd, hc, hi, hs⟩, fun h => ⟨h.downs, h.counting, h.idle, h.stored⟩⟩

instance (u : Unload) : DecidablePred u.InOrder
  | .module _ | .shutdown | .stopNext | .stopReturns => by
    unfold Unload.InOrder
    infer_instance

/-! ## The invariant -/

/-- The stop of the vip has returned. -/
def Done (p : Proc) : Prop := Ending p ∧ p.downs = []

/-- What the shutdown has done with the `k`-th vip. -/
def ShutdownPc.Treated (pc : ShutdownPc) (k : ℕ) (p : Proc) : Prop :=
  match pc with
  | .loaded => True
  | .stopping j => k < j → Done p
  | .stopped j => (k < j → Done p) ∧ (k = j → Ending p)
  | .finished => Done p

/-- The invariant of an unload. -/
structure Unload.Sound (u : Unload) : Prop where
  orderly {k : ℕ} {p : Proc} : u.module.proc k = some p → Orderly p
  stored {k : ℕ} {p : Proc} : u.module.proc k = some p → Stored p
  numbered {k : ℕ} {p : Proc} : u.module.proc k = some p → Numbered p
  treated {k : ℕ} {p : Proc} : u.module.proc k = some p → u.shutdown.Treated k p
  rests : u.shutdown ≠ .loaded → u.module.runtime = .asking

section Sound

variable {u u' : Unload} {l : UnloadStep} {k : ℕ} {p p' : Proc} {i : Input}

theorem ClearStart.waits (h : ClearStart p i) : WaitsForStop p i := by
  cases i with
  | start | rollbackStart => exact fun hidle => (h hidle).2
  | _ => trivial

/-- Nothing is left to take a step. -/
theorem Done.step (h : Done p) (hi : i.isCommand = false) (hs : p.step i = some p') : Done p' := by
  have hi' : ∀ created, i ≠ .start created := by
    rintro created rfl
    cases hi
  refine ⟨h.1.step hi' hs, ?_⟩
  obtain ⟨hvt, hrt⟩ := h.1.gone h.2
  cases Proc.stepTo_of_step hs with
  | start | stop => cases hi
  | down hd =>
    rw [Proc.downStep, h.2] at hd
    cases hd
  | tick hr | rollbackStop hr | rollbackWait hr | rollbackStart _ hr =>
    rw [hrt] at hr
    cases hr
  | deliver _ _ ht | cpgInitialize ht | contextSet ht | located ht | unlocated ht | join ht
  | dispatchFails ht | exitLoop ht | leave ht | finalize ht | finish ht =>
    rw [hvt] at ht
    cases ht

/-- A vip that its own threads move along stays where the shutdown has brought it. -/
theorem ShutdownPc.Treated.step {pc : ShutdownPc} (h : pc.Treated k p)
    (hi : pc ≠ .loaded → i.isCommand = false) (hs : p.step i = some p') : pc.Treated k p' := by
  have hi' (hpc : pc ≠ .loaded) : ∀ created, i ≠ .start created := by
    rintro created rfl
    cases hi hpc
  cases pc with
  | loaded => trivial
  | stopping j => exact fun hk => (h hk).step (hi (by simp)) hs
  | stopped j =>
    exact ⟨fun hk => (h.1 hk).step (hi (by simp)) hs, fun hk => (h.2 hk).step (hi' (by simp)) hs⟩
  | finished => exact Done.step h (hi (by simp)) hs

/-- One vip is replaced. -/
theorem Unload.Sound.setProc (h : u.Sound) {pc : ShutdownPc} {m : Module}
    (hm : ∀ j q, m.proc j = some q → (u.module.setProc k p').proc j = some q)
    (hrest : pc ≠ .loaded → m.runtime = .asking) (ho : Orderly p') (hst : Stored p')
    (hn : Numbered p') (hk : pc.Treated k p')
    (hother : ∀ j q, j ≠ k → u.module.proc j = some q → pc.Treated j q) :
    (⟨m, pc⟩ : Unload).Sound := by
  have hcases {j : ℕ} {q : Proc} (hq : m.proc j = some q) :
      (j = k ∧ q = p') ∨ j ≠ k ∧ u.module.proc j = some q :=
    Module.proc_of_setProc (hm j q hq)
  refine ⟨fun hq => ?_, fun hq => ?_, fun hq => ?_, fun hq => ?_, hrest⟩
  all_goals rcases hcases hq with ⟨rfl, rfl⟩ | ⟨hne, hq⟩
  · exact ho
  · exact h.orderly hq
  · exact hst
  · exact h.stored hq
  · exact hn
  · exact h.numbered hq
  · exact hk
  · exact hother _ _ hne hq

/-- A step of a vip on its own. -/
theorem Unload.Sound.vip (h : u.Sound) (hp : u.module.proc k = some p) (hc : ClearStart p i)
    (hi : u.shutdown ≠ .loaded → i.isCommand = false) (hs : p.step i = some p') :
    (⟨u.module.setProc k p', u.shutdown⟩ : Unload).Sound :=
  h.setProc (fun _ _ hq => hq) h.rests ((h.orderly hp).step hc.waits hs)
    ((h.stored hp).step (h.orderly hp) hc hs) ((h.numbered hp).step hs) ((h.treated hp).step hi hs)
    fun _ _ _ hq => h.treated hq

/-- The runtime thread starts the next vip, if that starts on its own, and goes on. -/
theorem Module.startNext_cases {m m' : Module} {created : Bool}
    (hs : m.step (.startNext created) = some m') :
    (∃ pc, m' = { m with runtime := pc }) ∨ ∃ k v, m.proc k = some v.proc ∧
      m.nextAutostart = some v ∧
        m' = { m.setProc k (v.proc.cmdStart created) with runtime := .starting (k + 1) } := by
  simp only [step] at hs
  split at hs
  · rename_i k hk
    split at hs
    · rename_i v hv
      obtain rfl := Option.some.inj hs
      by_cases hauto : v.autoload = true
      · refine Or.inr ⟨k, v, by rw [proc, hv]; rfl, ?_, by rw [if_pos hauto]⟩
        rw [nextAutostart, hk]
        simp [hv, hauto]
      · exact Or.inl ⟨_, by rw [if_neg hauto]⟩
    · obtain rfl := Option.some.inj hs
      exact Or.inl ⟨_, rfl⟩
  · cases hs

/-- A step of the module. -/
theorem Unload.Sound.module (h : u.Sound) {l : RuntimeStep} {m : Module}
    (hc : u.module.ClearStarts l) (hu : u.shutdown ≠ .loaded → u.module.Unattended l)
    (hs : u.module.step l = some m) : (⟨m, u.shutdown⟩ : Unload).Sound := by
  -- until the shutdown nothing has been stopped by it
  have hearly (hpc : u.shutdown = .loaded) {j : ℕ} {q : Proc} : u.shutdown.Treated j q := by
    rw [hpc]
    trivial
  -- the runtime thread goes on by itself
  have hruntime {m : Module} (hpc : u.shutdown = .loaded)
      (hm : ∀ j q, m.proc j = some q → u.module.proc j = some q) :
      (⟨m, u.shutdown⟩ : Unload).Sound :=
    ⟨fun hq => h.orderly (hm _ _ hq), fun hq => h.stored (hm _ _ hq),
      fun hq => h.numbered (hm _ _ hq), fun _ => hearly hpc, fun hne => absurd hpc hne⟩
  have hloaded (hn : ¬ u.module.Unattended l) : u.shutdown = .loaded := by
    by_contra hne
    exact hn (hu hne)
  by_cases hnext : ∃ created, l = .startNext created
  · obtain ⟨created, rfl⟩ := hnext
    have hpc := hloaded id
    rcases Module.startNext_cases hs with ⟨pc, rfl⟩ | ⟨j, v, hq, hv, rfl⟩
    · exact hruntime hpc fun _ _ hq => hq
    · have hclear : v.proc.Cleared := hc v hv
      exact h.setProc (fun _ _ hq => hq) (fun hne => absurd hpc hne)
        ((h.orderly hq).cmdStart (fun hidle => (hclear hidle).2) created)
        ((h.stored hq).cmdStart hclear created) ((h.numbered hq).start created) (hearly hpc)
        fun _ _ _ _ => hearly hpc
  cases Module.stepTo_of_step hs with
  | @vip j i q q' hq hstep => exact h.vip hq (hc q hq) hu hstep
  | stays => exact h
  | returns hoff =>
    exact hruntime (hloaded fun hu => absurd (hoff.symm.trans hu.2) (by simp)) fun _ _ hq => hq
  | fails => exact hruntime (hloaded fun hu => by cases hu.1) fun _ _ hq => hq
  | @stop j q hj hq =>
    have hpc := hloaded id
    exact h.setProc (fun _ _ hq => hq) (fun hne => absurd hpc hne) ((h.orderly hq).cmdStop _)
      ((h.stored hq).cmdStop _) ((h.numbered hq).stop _) (hearly hpc) fun _ _ _ _ => hearly hpc
  | start created | skip created | startEnds created => exact absurd ⟨created, rfl⟩ hnext
  | stopEnds | stopReturns => exact hruntime (hloaded id) fun _ _ hq => hq

/-- **Each step in order keeps the invariant.** -/
theorem Unload.Sound.step (h : u.Sound) (hok : u.InOrder l) (hs : u.step l = some u') :
    u'.Sound := by
  cases l with
  | module l =>
    obtain ⟨hc, hu⟩ := hok
    obtain ⟨m, hm, rfl⟩ := Option.map_eq_some_iff.mp hs
    by_cases hover : u.shutdown = .finished
    · -- past the map no thread is left
      rw [if_pos hover] at hm
      have hu' := hu (by simp [hover])
      cases l with
      | vip j i =>
        by_cases hexit : ∃ t, i = .exitLoop t
        · obtain ⟨t, rfl⟩ := hexit
          obtain ⟨p, hp, hcall⟩ := Option.bind_eq_some_iff.mp hm
          obtain ⟨p', hp', -⟩ := Option.map_eq_some_iff.mp hcall
          have hdone : Done p := by
            have htreated := h.treated hp
            rwa [hover] at htreated
          have hmem := (Proc.vipCall_eq_some hp').1
          rw [(hdone.1.gone hdone.2).1] at hmem
          cases hmem
        · have hlast : u.module.lastStep (.vip j i) = u.module.step (.vip j i) := by
            cases i <;> first | rfl | exact absurd ⟨_, rfl⟩ hexit
          exact h.module hc hu (hlast ▸ hm)
      | arbiter => cases hm
      | stopNext | stopReturns | startNext => exact hu'.elim
    · rw [if_neg hover] at hm
      exact h.module hc hu hm
  | shutdown =>
    simp only [Unload.step] at hs
    split_ifs at hs with hpc
    obtain rfl := Option.some.inj hs
    exact ⟨h.orderly, h.stored, h.numbered, fun _ hk => absurd hk (Nat.not_lt_zero _), fun _ => hok⟩
  | stopNext =>
    simp only [Unload.step] at hs
    split at hs
    · rename_i j hpc
      have htreated {i : ℕ} {q : Proc} (hq : u.module.proc i = some q) : i < j → Done q := by
        have := h.treated hq
        rwa [hpc] at this
      have hrest : u.module.runtime = .asking := h.rests (by simp [hpc])
      split at hs
      · rename_i p hp
        obtain rfl := Option.some.inj hs
        have hstop : Stoppable p := hok p (by rw [Unload.nextStop, hpc]; exact hp)
        refine h.setProc (fun _ _ hq => hq) (fun _ => hrest) ((h.orderly hp).cmdStop _)
          ((h.stored hp).cmdStop _) ((h.numbered hp).stop _) ?_ ?_
        · exact ⟨fun hlt => absurd hlt (lt_irrefl _), fun _ => hstop.ending (h.stored hp)⟩
        · exact fun i q hne hq => ⟨htreated hq, fun heq => absurd heq hne⟩
      · rename_i hnone
        obtain rfl := Option.some.inj hs
        exact ⟨h.orderly, h.stored, h.numbered,
          fun hq => htreated hq (Module.lt_of_proc hq hnone), fun _ => hrest⟩
    · cases hs
  | stopReturns =>
    simp only [Unload.step] at hs
    split at hs
    · rename_i j hpc
      obtain ⟨hwait, hs⟩ := Option.ite_none_left_eq_some.mp hs
      obtain rfl := Option.some.inj hs
      refine ⟨h.orderly, h.stored, h.numbered, fun {i} {q} hq hlt => ?_,
        fun _ => h.rests (by simp [hpc])⟩
      have htreated := h.treated hq
      rw [hpc] at htreated
      rcases Nat.lt_succ_iff_lt_or_eq.mp hlt with hlt | rfl
      · exact htreated.1 hlt
      · have hending := htreated.2 rfl
        refine ⟨hending, hending.downs.resolve_right ?_⟩
        rintro ⟨pc, hd, -⟩
        exact hwait ⟨q, hq, ⟨none, pc⟩, by simp [hd], rfl⟩
    · cases hs

/-- The threads of a vip that the shutdown has stopped move it along. -/
theorem Unload.exists_of_concludes (hpc : u.shutdown = .stopped k) (hp : u.module.proc k = some p)
    {q : Proc} (hq : ReachesWhen Proc.step (fun _ i => i.concludes = true) p q) :
    ∃ u', ReachesWhen Unload.step Unload.InOrder u u' ∧ u'.shutdown = .stopped k ∧
      u'.module.proc k = some q := by
  induction hq with
  | refl => exact ⟨u, .refl, hpc, hp⟩
  | @tail q r i hq hi hs ih =>
    obtain ⟨v, hv, hvpc, hvq⟩ := ih
    have hstep : v.step (.module (.vip k i)) = some { v with module := v.module.setProc k r } := by
      simp [Unload.step, hvpc, Module.step, hvq, hs]
    have hclear : ClearStart q i := by
      cases i with
      | start | rollbackStart => cases hi
      | _ => trivial
    have hcommand : i.isCommand = false := by
      cases i with
      | start | stop => cases hi
      | _ => rfl
    have hok : v.InOrder (.module (.vip k i)) := by
      refine ⟨fun q' hq' => ?_, fun _ => hcommand⟩
      obtain rfl := Option.some.inj (hvq.symm.trans hq')
      exact hclear
    refine ⟨_, hv.tail hok hstep, hvpc, ?_⟩
    show (v.module.setProc k r).proc k = some r
    rw [Module.proc_setProc, if_pos rfl, hvq, Option.map_some]

/-- The stop of the shutdown returns. -/
theorem Unload.Sound.returns (h : u.Sound) (hpc : u.shutdown = .stopped k) :
    ∃ u', ReachesWhen Unload.step Unload.InOrder u u' ∧ u'.shutdown = .stopping (k + 1) := by
  have hreturn {v : Unload} (hvpc : v.shutdown = .stopped k)
      (hgone : ∀ p ∈ v.module.proc k, p.downs = []) :
      v.step .stopReturns = some { v with shutdown := .stopping (k + 1) } := by
    have hwait : ¬ ∃ p ∈ v.module.proc k, ∃ d ∈ p.downs, d.caller = none := by
      rintro ⟨p, hp, d, hd, -⟩
      rw [hgone p hp] at hd
      cases hd
    simp only [Unload.step, hvpc, if_neg hwait]
  cases hp : u.module.proc k with
  | none =>
    have hone := hreturn hpc (by simp [hp])
    exact ⟨_, ReachesWhen.refl.tail (l := .stopReturns) trivial hone, rfl⟩
  | some p =>
    have htreated := h.treated hp
    rw [hpc] at htreated
    obtain ⟨q, hq, hdowns⟩ := (htreated.2 rfl).returns (h.numbered hp)
    obtain ⟨v, hv, hvpc, hvq⟩ := Unload.exists_of_concludes hpc hp hq
    refine ⟨_, hv.tail (l := .stopReturns) trivial (hreturn hvpc ?_), rfl⟩
    rw [hvq]
    rintro q' ⟨⟩
    exact hdowns

end Sound

theorem sound_start (vips : List (Bool × Config)) : (Unload.start vips).Sound := by
  have hfresh {k : ℕ} {p : Proc} (hp : (Module.load vips).proc k = some p) :
      ∃ c, p = Proc.hashed c := by
    simp only [Module.proc, Module.load, List.getElem?_map, Option.map_map] at hp
    obtain ⟨v, -, rfl⟩ := Option.map_eq_some_iff.mp hp
    exact ⟨v.2, rfl⟩
  refine ⟨fun hp => ?_, fun hp => ?_, fun hp => ?_, fun _ => trivial, fun hne => absurd rfl hne⟩
  all_goals obtain ⟨c, rfl⟩ := hfresh hp
  · exact (orderly_fresh c).congr rfl rfl rfl
  · exact stored_fresh c
  · exact (numbered_fresh c).kept rfl (Nat.zero_le _)

/-- **An unload leaves nothing behind.** Let every start find its vip cleared, let the core unload a
module that executes no command and whose runtime thread rests, and let each stop of the shutdown
find no other in progress, an idle vip without threads, or a running one whose rollback thread, if
it has one, is the one in its record and counts. Then once the shutdown is over every vip is idle
and off its interface, and has no thread and no stop; and no stop of the shutdown waits in vain. -/
theorem unloaded_concluded {vips : List (Bool × Config)} {u : Unload}
    (h : ReachesWhen Unload.step Unload.InOrder (Unload.start vips) u) :
    (u.shutdown = .finished → ∀ k p, u.module.proc k = some p → Concluded p) ∧
      ∀ k, u.shutdown = .stopped k → ∃ u', ReachesWhen Unload.step Unload.InOrder u u' ∧
        u'.shutdown = .stopping (k + 1) := by
  have hsound : u.Sound :=
    h.invariant (sound_start vips) fun _ _ _ _ hI hok hs => hI.step hok hs
  refine ⟨fun hover k p hp => ?_, fun k hpc => ?_⟩
  · have hdone := hsound.treated hp
    rw [hover] at hdone
    obtain ⟨hending, hdowns⟩ := hdone
    obtain ⟨hvt, hrt⟩ := hending.gone hdowns
    have haddr := (hsound.orderly hp).settled hdowns
    rw [hending.idle] at haddr
    exact ⟨hending.idle, hvt, hrt, hdowns, haddr⟩
  · exact hsound.returns hpc

/-- Two vips, of which only the first starts on its own. -/
def servedAndIdle : Unload :=
  Unload.start [(true, rollbackConfig),
    (false, { rollbackConfig with address := [49, 48, 46, 48, 46, 48, 46, 50] })]

/-- The first vip serves its address when the module is unloaded, and the shutdown has called its
stop. -/
def stopsServed : List UnloadStep :=
  servedVip.map .module ++ [.module (.startNext true), .shutdown, .stopNext]

/-- The shutdown waits for the first vip. -/
def unloadingVips : Unload :=
  (runWhen Unload.step Unload.InOrder servedAndIdle stopsServed).getD servedAndIdle

/-- The shutdown is over. -/
def unloadedVips : Unload :=
  (runWhen Unload.step Unload.InOrder servedAndIdle
    (stopsServed ++ stopEnding.map (fun i => .module (.vip 0 i)) ++
      [.stopReturns, .stopNext, .stopReturns, .stopNext])).getD servedAndIdle

set_option maxRecDepth 10000 in
theorem unloaded_concluded_served :
    (∃ p q, unloadedVips.module.proc 0 = some p ∧ unloadedVips.module.proc 1 = some q ∧
      Concluded p ∧ Concluded q) ∧
    ∃ u', ReachesWhen Unload.step Unload.InOrder unloadingVips u' ∧ u'.shutdown = .stopping 1 := by
  obtain ⟨p, hp⟩ : ∃ p, unloadedVips.module.proc 0 = some p :=
    Option.isSome_iff_exists.mp (by decide +kernel)
  obtain ⟨q, hq⟩ : ∃ q, unloadedVips.module.proc 1 = some q :=
    Option.isSome_iff_exists.mp (by decide +kernel)
  have hunloaded : ReachesWhen Unload.step Unload.InOrder servedAndIdle unloadedVips :=
    reachesWhen_getD _
  have hunloading : ReachesWhen Unload.step Unload.InOrder servedAndIdle unloadingVips :=
    reachesWhen_getD _
  have hover := (unloaded_concluded hunloaded).1 (by decide +kernel)
  exact ⟨⟨p, q, hp, hq, hover 0 p hp, hover 1 q hq⟩,
    (unloaded_concluded hunloading).2 0 (by decide +kernel)⟩

/-- A vip that is about to join hears of a node with its own priority, and goes down. -/
def duplicatedVip : List RuntimeStep :=
  [.startNext true, .startNext true] ++
    ([.cpgInitialize 1 [.ok], .contextSet 1 .ok, .localGet 1 .ok 1, .join 1 [.ok],
      .deliver 1 allSucceed (.confchg [1, 2] [] [1]),
      .deliver 1 allSucceed (.message 2 (.nodeState ⟨10, .master, []⟩))] : List Input).map (.vip 0)

/-- The module is unloaded before the thread of that vip has ended. -/
def outlivedModule : Unload :=
  (runWhen Unload.step (fun u l => l = .stopNext ∨ u.InOrder l)
    (Unload.start [(true, rollbackConfig)])
    (duplicatedVip.map .module ++ [.shutdown, .stopNext, .stopReturns, .stopNext])).getD
    (Unload.start [(true, rollbackConfig)])

set_option maxRecDepth 10000 in
/-- **A thread outlives the module**: the stop of an idle vip returns at once, whoever is still
there for it. -/
theorem unload_outlived : ¬ ∀ (vips : List (Bool × Config)) (u : Unload),
    ReachesWhen Unload.step (fun u l => l = .stopNext ∨ u.InOrder l) (Unload.start vips) u →
      u.shutdown = .finished → ∀ k p, u.module.proc k = some p → Concluded p := by
  intro h
  obtain ⟨p, hp, hthreads⟩ : ∃ p ∈ outlivedModule.module.proc 0, p.vipThreads ≠ [] := by
    decide +kernel
  exact hthreads (h _ _ (reachesWhen_getD _) (by decide +kernel) 0 p hp).vipThreads

end CpgFailover
