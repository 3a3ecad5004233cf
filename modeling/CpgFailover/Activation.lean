import CpgFailover.Cluster

/-!
# Activations and their thread

A start sets `ST_START` whether or not it gets its thread, and `vip_thread` has exits that do not
touch the record. As long as no vip is left running by either, a vip without a living thread is
idle, and its address is off the interface or about to be taken off by a stop in progress.

## Main definitions

* `VipPhase.staying`: the phases from which `vip_thread` may still come to its loop
* `Sustained`: no step leaves a running vip without a thread
* `Numbered`: the handles of the threads are apart
* `Attended`: the invariant of the processes

## Main results

* `handle_address`: a callback that goes down takes the address off the interface
* `Attended.step`: each sustained step keeps the invariant
* `idle_of_no_thread`: a vip without a thread is idle, and accepts a start
* `master_without_thread`: a dispatch failure leaves a master without a thread
-/

namespace CpgFailover

open Transition

/-- The phases from which `vip_thread` may still come to its loop, and its loop. -/
def VipPhase.staying : VipPhase → Bool
  | .cpgInitialize | .contextSet | .localGet | .join | .dispatching => true
  | _ => false

/-- The vip is idle, or another thread than `t` is there for it. -/
def Proc.Spares (p : Proc) (t : ThreadId) : Prop :=
  p.vip.state = .idle ∨ ∃ th ∈ p.vipThreads, th.id ≠ t ∧ th.phase.staying = true

instance (p : Proc) (t : ThreadId) : Decidable (p.Spares t) := by
  unfold Proc.Spares
  infer_instance

/-- No step leaves a running vip without a thread: a start gets its thread, and the calls to
corosync that end a thread do not fail while the vip runs, unless another thread is there for it. -/
def Sustained (p : Proc) : Input → Prop
  | .start created | .rollbackStart _ created =>
    p.vip.state = .idle → created = true ∨ ∃ th ∈ p.vipThreads, th.phase.staying = true
  | .cpgInitialize t results | .join t results =>
    csRetry csMaxRetries results = .ok ∨ p.Spares t
  | .contextSet t result | .localGet t result _ => result = .ok ∨ p.Spares t
  | .dispatchFails t => p.Spares t
  | _ => True

instance (p : Proc) : (i : Input) → Decidable (Sustained p i)
  | .start _ | .stop | .down _ | .cpgInitialize _ _ | .contextSet _ _ | .localGet _ _ _ | .join _ _
  | .deliver _ _ _ | .dispatchFails _ | .exitLoop _ | .leave _ | .finalize _ | .finish _ | .tick _
  | .rollbackStop _ | .rollbackWait _ | .rollbackStart _ _ => by unfold Sustained; infer_instance

/-! ## The address -/

namespace Proc

/-- After the calls of `go_down` the address is off the interface. -/
theorem address_goDown (p : Proc) (v : Vip) :
    ((goDown v).effects.foldl perform p).address = false := by
  have hjoins (q : Proc) (calls : List Effect) (hc : ∀ c ∈ calls, ∀ r : Proc, r.perform c = r) :
      calls.foldl perform q = q := by
    induction calls with
    | nil => rfl
    | cons c calls ih =>
      rw [List.foldl_cons, hc c List.mem_cons_self]
      exact ih fun c' hc' => hc c' (List.mem_cons_of_mem c hc')
  -- what comes after the removal hangs up calls
  show (List.foldl perform p (_ ++ _)).address = false
  rw [List.foldl_append, hjoins, List.foldl_append]
  · rfl
  · intro c hc r
    obtain ⟨s, -, rfl⟩ := List.mem_map.mp hc
    rfl

/-- **A callback that goes down takes the address off the interface**, which an idle vip does not
take. -/
theorem handle_address {p : Proc} {o : Outcome} {e : Agreed.Entry NodeId Msg} {v : Vip}
    (hv : p.address = true → v.state ≠ .idle)
    (ha : ((handle o v e).2.foldl perform p).address = true) : (handle o v e).1.state ≠ .idle := by
  refine handle_rule (o := o) (R := fun v w calls => ∀ p : Proc, (p.address = true → v.state ≠ .idle) →
    (calls.foldl perform p).address = true → w.state ≠ .idle) ?_ ?_ ?_ ?_ ?_ ?_ v e ?_ p hv ha
  · exact fun v p hv ha => hv ha
  · intro u v w calls calls' h h' p hp ha
    rw [List.foldl_append] at ha
    exact h' _ (h p hp) ha
  · intro v e he p hp ha hidle
    by_cases hs : v.state = .idle
    · rw [fsmDoTransaction_idle hs he] at ha
      exact hp ha hs
    · obtain ⟨-, before, w, hcalls⟩ := fsmDoTransaction_down hs hidle
      rw [hcalls, List.foldl_append, address_goDown] at ha
      exact absurd ha (by simp)
  · exact fun v x p hv ha => hv ha
  · exact fun v nm y p hv ha => (learn_state o v nm y).symm ▸ hv ha
  · exact fun v k p hv ha => hv ha
  · exact fun _ v sql name p hv ha => hv ha

end Proc

/-! ## The handles of the threads -/

/-- Threads have distinct handles, all of them taken. -/
structure Numbered (p : Proc) : Prop where
  distinct : (p.vipThreads.map VipThread.id).Nodup
  bound : ∀ th ∈ p.vipThreads, th.id < p.nextThread

section Numbered

variable {p p' : Proc}

theorem numbered_fresh (c : Config) : Numbered (Proc.fresh c) where
  distinct := List.nodup_nil
  bound th h := by cases h

/-- A step that leaves the threads of the vip alone. -/
theorem Numbered.kept (h : Numbered p) (ht : p'.vipThreads = p.vipThreads)
    (hn : p.nextThread ≤ p'.nextThread) : Numbered p' where
  distinct := by rw [ht]; exact h.distinct
  bound th hth := (h.bound th (ht ▸ hth)).trans_le hn

theorem Numbered.eq_of_id (h : Numbered p) {th th' : VipThread} (hth : th ∈ p.vipThreads)
    (hth' : th' ∈ p.vipThreads) (hid : th.id = th'.id) : th = th' :=
  List.inj_on_of_nodup_map h.distinct hth hth' hid

/-- A thread that moves keeps its handle. -/
theorem Numbered.move (h : Numbered p) (t : ThreadId) (next : VipPhase) :
    Numbered (p.moveVip t next) := by
  have hids : (p.moveVip t next).vipThreads.map VipThread.id = p.vipThreads.map VipThread.id := by
    simp only [Proc.moveVip, List.map_map]
    apply List.map_congr_left
    intro th _
    by_cases hid : th.id = t <;> simp [hid]
  refine ⟨hids ▸ h.distinct, ?_⟩
  intro th hth
  obtain ⟨th', hth', hid⟩ := List.mem_map.mp (hids ▸ List.mem_map_of_mem hth)
  exact hid ▸ h.bound th' hth'

theorem Numbered.finish (h : Numbered p) (t : ThreadId) :
    Numbered { p with vipThreads := p.vipThreads.filter fun th => th.id ≠ t } := by
  have hsub := List.filter_sublist (p := fun th : VipThread => th.id ≠ t) (l := p.vipThreads)
  exact ⟨h.distinct.sublist (hsub.map _), fun th hth => h.bound th (hsub.mem hth)⟩

/-- The handle of a new thread is free. -/
theorem Numbered.start (h : Numbered p) (created : Bool) : Numbered (p.cmdStart created) := by
  by_cases hs : p.vip.state = .idle
  · cases created with
    | true =>
      rw [Proc.cmdStart_created hs]
      refine ⟨?_, ?_⟩
      · simp only [List.map_append, List.map_cons, List.map_nil]
        apply h.distinct.append (List.nodup_singleton _)
        intro t hold hnew
        obtain ⟨th, hth, rfl⟩ := List.mem_map.mp hold
        exact absurd (List.mem_singleton.mp hnew) (h.bound th hth).ne
      · intro th hth
        rcases List.mem_append.mp hth with hth | hth
        · exact (h.bound th hth).trans (Nat.lt_succ_self _)
        · obtain rfl := List.mem_singleton.mp hth
          exact Nat.lt_succ_self _
    | false =>
      rw [Proc.cmdStart_failed hs]
      exact ⟨h.distinct, h.bound⟩
  · rwa [Proc.cmdStart_running hs]

theorem Numbered.stop (h : Numbered p) (caller : Option ThreadId) :
    Numbered (p.cmdStop caller) := by
  by_cases hs : p.vip.state = .idle
  · rwa [Proc.cmdStop_idle hs]
  · rw [Proc.cmdStop_running hs]
    exact h.kept rfl le_rfl

/-- Each step keeps the handles apart. -/
theorem Numbered.step (h : Numbered p) {i : Input} (hs : p.step i = some p') : Numbered p' := by
  cases Proc.stepTo_of_step hs with
  | start created => exact h.start created
  | @rollbackStart r created =>
    exact (h.kept rfl le_rfl : Numbered (p.endRollback r.id)).start created
  | stop => exact h.stop none
  | @rollbackStop r => exact (h.stop (some r.id)).kept rfl le_rfl
  | down hd => exact h.kept (Proc.downStep_vip hd).1 (Proc.downStep_nextThread hd).ge
  | cpgInitialize | contextSet | unlocated | join | dispatchFails | exitLoop | leave | finalize =>
    exact h.move _ _
  | @located t nodeid =>
    have hnode : Numbered { p with vip := { p.vip with nodeId := nodeid } } := h.kept rfl le_rfl
    exact hnode.move t .join
  | @deliver t o e =>
    exact h.kept (Proc.handleEntry_vipThreads p o e) (Proc.handleEntry_rest p o e).1
  | finish => exact h.finish _
  | @tick r => exact h.kept (by simp) (Proc.tick_rest p r).1.ge
  | rollbackWait => exact h.kept rfl le_rfl

end Numbered

/-! ## The invariant -/

/-- Threads have distinct handles, a running vip has a thread that stays with it, and the address
of an idle one is about to be taken off the interface. -/
structure Attended (p : Proc) : Prop where
  distinct : (p.vipThreads.map VipThread.id).Nodup
  bound : ∀ th ∈ p.vipThreads, th.id < p.nextThread
  stays : p.vip.state ≠ .idle → ∃ th ∈ p.vipThreads, th.phase.staying = true
  released : p.address = true → p.vip.state ≠ .idle ∨ p.downs ≠ []

section Attended

variable {p p' : Proc}

/-- The handles of an attended process are apart. -/
theorem Attended.numbered (h : Attended p) : Numbered p := ⟨h.distinct, h.bound⟩

theorem attended_fresh (c : Config) : Attended (Proc.fresh c) where
  distinct := (numbered_fresh c).distinct
  bound := (numbered_fresh c).bound
  stays h := absurd rfl h
  released h := by cases h

/-- A step that leaves the threads of the vip alone and does not start it. -/
theorem Attended.kept (h : Attended p) (ht : p'.vipThreads = p.vipThreads)
    (hn : p.nextThread ≤ p'.nextThread) (hs : p'.vip.state ≠ .idle → p.vip.state ≠ .idle)
    (ha : p'.address = true → p'.vip.state ≠ .idle ∨ p'.downs ≠ []) : Attended p' where
  distinct := (h.numbered.kept ht hn).distinct
  bound := (h.numbered.kept ht hn).bound
  stays hr := by rw [ht]; exact h.stays (hs hr)
  released := ha

/-- A thread that does not stay is not what keeps the vip attended. -/
theorem Attended.spares (h : Attended p) {t : ThreadId} {here : VipPhase}
    (ht : ⟨t, here⟩ ∈ p.vipThreads) (hhere : here.staying = false) : p.Spares t := by
  by_cases hs : p.vip.state = .idle
  · exact Or.inl hs
  · obtain ⟨th, hth, hstay⟩ := h.stays hs
    refine Or.inr ⟨th, hth, ?_, hstay⟩
    intro hid
    rw [h.numbered.eq_of_id hth ht hid] at hstay
    simp [hhere] at hstay

/-- The thread moves to a phase in which it stays, or the vip does not need it. -/
theorem Attended.move (h : Attended p) {t : ThreadId} {here next : VipPhase}
    (ht : ⟨t, here⟩ ∈ p.vipThreads) (hnext : next.staying = true ∨ p.Spares t) :
    Attended (p.moveVip t next) := by
  have hnum := h.numbered.move t next
  refine ⟨hnum.distinct, hnum.bound, ?_, h.released⟩
  · intro hs
    rcases hnext with hstay | hidle | ⟨th, hth, hid, hstay⟩
    · exact ⟨⟨t, next⟩, List.mem_map.mpr ⟨_, ht, if_pos rfl⟩, hstay⟩
    · exact absurd hidle hs
    · exact ⟨th, List.mem_map.mpr ⟨th, hth, if_neg hid⟩, hstay⟩

/-- The thread has ended. -/
theorem Attended.finish (h : Attended p) {t : ThreadId} (ht : ⟨t, .ending⟩ ∈ p.vipThreads) :
    Attended { p with vipThreads := p.vipThreads.filter fun th => th.id ≠ t } := by
  have hnum := h.numbered.finish t
  refine ⟨hnum.distinct, hnum.bound, ?_, h.released⟩
  intro hs
  rcases h.spares ht rfl with hidle | ⟨th, hth, hid, hstay⟩
  · exact absurd hidle hs
  · exact ⟨th, List.mem_filter.mpr ⟨hth, by simpa using hid⟩, hstay⟩

/-- A start gets its thread, or finds one. -/
theorem Attended.start (h : Attended p) {created : Bool}
    (hc : p.vip.state = .idle → created = true ∨ ∃ th ∈ p.vipThreads, th.phase.staying = true) :
    Attended (p.cmdStart created) := by
  have hnum := h.numbered.start created
  refine ⟨hnum.distinct, hnum.bound, fun _ => ?_, ?_⟩
  all_goals by_cases hs : p.vip.state = .idle
  · cases created with
    | true =>
      rw [Proc.cmdStart_created hs]
      exact ⟨_, List.mem_append_right _ List.mem_cons_self, rfl⟩
    | false =>
      rw [Proc.cmdStart_failed hs]
      exact (hc hs).resolve_left (by simp)
  · rw [Proc.cmdStart_running hs]
    exact h.stays hs
  · cases created with
    | true =>
      rw [Proc.cmdStart_created hs]
      exact fun _ => Or.inl (by simp)
    | false =>
      rw [Proc.cmdStart_failed hs]
      exact fun _ => Or.inl (by simp)
  · rw [Proc.cmdStart_running hs]
    exact h.released

/-- A stop, up to the first wait of `go_down`. -/
theorem Attended.stop (h : Attended p) (caller : Option ThreadId) :
    Attended (p.cmdStop caller) := by
  by_cases hs : p.vip.state = .idle
  · rwa [Proc.cmdStop_idle hs]
  · rw [Proc.cmdStop_running hs]
    exact h.kept rfl le_rfl (fun hr => absurd rfl hr) fun _ => Or.inr (by simp)

/-- A `go_down` in progress takes the address off the interface before it returns. -/
theorem Attended.down (h : Attended p) {i : ℕ} (hs : p.downStep i = some p') : Attended p' := by
  -- as long as it goes on, it is among the stops in progress
  have hset {d d' : Down} {q : Proc} (hd : p.downs[i]? = some d) (hq : q.nextThread = p.nextThread)
      (hds : q.downs = p.downs.set i d') (hqt : q.vipThreads = p.vipThreads)
      (hqs : q.vip.state = p.vip.state) : Attended q := by
    refine h.kept hqt hq.ge (by rw [hqs]; exact id) fun _ => Or.inr fun hnil => ?_
    rw [hds, List.set_eq_nil_iff] at hnil
    simp [hnil] at hd
  cases Proc.downTo_of_downStep hs with
  | awaitRollback hd | noRollback hd | rollbackJoined hd | awaitVip hd | noVip hd | vipJoined hd =>
    exact hset hd rfl rfl rfl rfl
  | removed => exact h.kept rfl le_rfl id (by simp)

/-- A callback starts no vip, and one that goes down takes the address off the interface. -/
theorem Attended.deliver (h : Attended p) (o : Outcome) (e : Agreed.Entry NodeId Msg) :
    Attended (p.handleEntry o e).1 := by
  obtain ⟨hn, hd⟩ := Proc.handleEntry_rest p o e
  refine h.kept (Proc.handleEntry_vipThreads p o e) hn ?_ fun ha => ?_
  · intro hrun hidle
    rw [Proc.handleEntry_vip] at hrun
    exact hrun (handle_idle hidle e)
  · rw [hd, Proc.handleEntry_vip]
    by_cases hnil : p.downs = []
    · have hv : p.address = true → p.vip.state ≠ .idle := fun ha => (h.released ha).resolve_right
        (not_not.mpr hnil)
      exact Or.inl (Proc.handle_address (p := { p with vip := (handle (p.withHandle o) p.vip e).1 })
        hv ha)
    · exact Or.inr hnil

/-- Each step that leaves no running vip without a thread keeps the invariant. -/
theorem Attended.step (h : Attended p) {i : Input} (hi : Sustained p i) (hs : p.step i = some p') :
    Attended p' := by
  -- a call that may fail
  have hcall {t : ThreadId} {here next failed : VipPhase} {ok : Prop} [Decidable ok]
      (ht : ⟨t, here⟩ ∈ p.vipThreads) (hnext : next.staying = true) (hfailed : ok ∨ p.Spares t) :
      Attended (p.moveVip t (if ok then next else failed)) := by
    apply h.move ht
    split_ifs with hok
    · exact Or.inl hnext
    · exact Or.inr (hfailed.resolve_left hok)
  -- an exit label is left for another, with nobody depending on the thread
  have hexit {t : ThreadId} {here next : VipPhase} (ht : ⟨t, here⟩ ∈ p.vipThreads)
      (hhere : here.staying = false) : Attended (p.moveVip t next) :=
    h.move ht (Or.inr (h.spares ht hhere))
  cases Proc.stepTo_of_step hs with
  | start created => exact h.start hi
  | @rollbackStart r created =>
    exact (h.kept rfl le_rfl id h.released : Attended (p.endRollback r.id)).start hi
  | stop => exact h.stop none
  | @rollbackStop r =>
    exact (h.stop (some r.id)).kept rfl le_rfl id (h.stop (some r.id)).released
  | down hd => exact h.down hd
  | cpgInitialize ht | contextSet ht | join ht => exact hcall ht rfl hi
  | located ht =>
    have hatt : Attended (p.moveVip _ .join) := h.move ht (Or.inl rfl)
    exact hatt.kept rfl le_rfl id hatt.released
  | unlocated ht hr => exact h.move ht (Or.inr (hi.resolve_left hr))
  | @deliver t o e ht => exact h.deliver o e
  | dispatchFails ht => exact h.move ht (Or.inr hi)
  | exitLoop ht hidle => exact h.move ht (Or.inr (Or.inl hidle))
  | leave ht => exact hexit ht rfl
  | finalize ht => exact hexit ht rfl
  | finish ht => exact h.finish ht
  | @tick r =>
    obtain ⟨hn, hd, ha⟩ := Proc.tick_rest p r
    exact h.kept (by simp) hn.ge (by simp) (by rw [ha, hd, Proc.tick_vip]; exact h.released)
  | rollbackWait => exact h.kept rfl le_rfl id h.released

end Attended

/-! ## A vip without a thread -/

/-- **A vip without a thread is idle.** In every run of sustained steps, a process without a
`vip_thread` is idle, its address is off the interface or about to be taken off by a stop in
progress, and it accepts a start. -/
theorem idle_of_no_thread (c : Config) {p : Proc}
    (h : ReachesWhen Proc.step Sustained (Proc.fresh c) p) (hnone : p.vipThreads = []) :
    p.vip.state = .idle ∧ (p.address = true → p.downs ≠ []) ∧
      ∃ p', p.step (.start true) = some p' ∧ p'.vip.state = .start ∧ p'.vipThreads ≠ [] := by
  have hatt : Attended p :=
    h.invariant (attended_fresh c) fun _ _ _ _ hi hok hs => hi.step hok hs
  have hidle : p.vip.state = .idle := by
    by_contra hrun
    obtain ⟨th, hth, -⟩ := hatt.stays hrun
    rw [hnone] at hth
    cases hth
  refine ⟨hidle, fun ha => ?_, p.cmdStart true, rfl, ?_, ?_⟩
  · exact (hatt.released ha).resolve_left (not_not.mpr hidle)
  · rw [Proc.cmdStart_created hidle]
  · rw [Proc.cmdStart_created hidle]
    simp

/-- The configuration of a vip alone in its group. -/
def aloneConfig : Config := plainConfig 10 noProfiles

/-- `vip_thread` gets as far as its loop. -/
def threadUp : List Input :=
  [.start true, .cpgInitialize 0 [.tryAgain, .ok], .contextSet 0 .ok, .localGet 0 .ok 1,
    .join 0 [.ok]]

/-- The configuration change that the node enters with, and its own first message, which makes it
the master. -/
def aloneMaster : List Input :=
  [.deliver 0 allSucceed (.confchg [1] [] [1]),
    .deliver 0 allSucceed (.message 1 (.nodeState ⟨10, .start, []⟩))]

/-- `vip_thread` returns. -/
def threadReturns : List Input := [.leave 0, .finalize 0, .finish 0]

/-- A node that became master and was stopped. -/
def stoppedMaster : Proc :=
  (runWhen Proc.step Sustained (Proc.fresh aloneConfig) (threadUp ++ aloneMaster ++
    [.stop, .exitLoop 0] ++ threadReturns)).getD (Proc.fresh aloneConfig)

theorem idle_of_no_thread_stoppedMaster : stoppedMaster.address = true ∧
    stoppedMaster.vip.state = .idle ∧ stoppedMaster.downs ≠ [] := by
  have ha : stoppedMaster.address = true := by decide +kernel
  obtain ⟨hidle, hdowns, -⟩ :=
    idle_of_no_thread aloneConfig (p := stoppedMaster) (reachesWhen_getD _) (by decide +kernel)
  exact ⟨ha, hidle, hdowns ha⟩

/-- **A dispatch failure leaves a master without a thread**: `vip_thread` returns, and nothing
stops the vip, which keeps the address and accepts no start. -/
theorem master_without_thread : ¬ ∀ (c : Config) (p : Proc),
    Reaches Proc.step (Proc.fresh c) p → p.vipThreads = [] →
      p.vip.state = .idle ∧ (p.address = true → p.downs ≠ []) := by
  intro h
  obtain ⟨hidle, -⟩ := h aloneConfig
    ((run Proc.step (Proc.fresh aloneConfig) (threadUp ++ aloneMaster ++ [.dispatchFails 0] ++
      threadReturns)).getD (Proc.fresh aloneConfig)) (reaches_getD _) (by decide +kernel)
  exact absurd hidle (by decide +kernel)

end CpgFailover
