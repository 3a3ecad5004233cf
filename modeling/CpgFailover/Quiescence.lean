import CpgFailover.Activation
import CpgFailover.Lib.AgreedSettling
import CpgFailover.Replication
import Mathlib.Algebra.Order.BigOperators.Group.List

/-!
# Quiescence

A callback multicasts the state of its node at most once for the departures and the message that it
handles, and only when the node takes over; a master and a node in `ST_RBACK` have nothing to take
over. The calls of a `vip_thread` that does not join, and those of a `go_down`, come to an end. So a
cluster that is left to itself has only so much to do.

## Main definitions

* `Vip.credit`: whether a node may still take over
* `Announces`: what a callback multicasts apart from the answer to an arrival
* `Proc.rank`: the calls that the threads of a process have still to make
* `Calm`: the local steps other than commands, joins, ticks, and statements

## Main results

* `handle_announces`: every callback announces a takeover at most
* `settling_cluster`: the nodes answer on credit
* `cluster_quiesces`: a cluster that is left to itself comes to rest
-/

namespace CpgFailover

open Agreed Transition

/-! ## What a callback multicasts -/

/-- A node that has not taken over yet may announce that it has. -/
def Vip.credit (v : Vip) : ℕ :=
  match v.state with
  | .start | .backup => 1
  | _ => 0

theorem multicasts_append (calls calls' : List Effect) :
    multicasts (calls ++ calls') = multicasts calls ++ multicasts calls' :=
  List.filterMap_append

/-- Calls that send no state. -/
theorem multicasts_map {α : Type} (f : α → Effect) (hf : ∀ x nm, f x ≠ .sendState nm) (l : List α) :
    multicasts (l.map f) = [] := by
  apply List.filterMap_eq_nil_iff.mpr
  intro c hc
  obtain ⟨x, -, rfl⟩ := List.mem_map.mp hc
  cases hx : f x with
  | sendState nm => exact absurd hx (hf x nm)
  | _ => rfl

theorem multicasts_goDown (v : Vip) : multicasts (goDown v).effects = [] := by
  simp only [goDown, multicasts_append]
  rw [multicasts_map _ (by simp), multicasts_map _ (by simp), multicasts_map _ (by simp)]
  rfl

/-- The calls take the record `v` to `w` in silence, or announce that the node takes over. -/
def Announces (v w : Vip) (calls : List Effect) : Prop :=
  (multicasts calls = [] ∧ w.credit ≤ v.credit) ∨
    ((multicasts calls).length = 1 ∧ v.credit = 1 ∧ w.state = .master)

section Callbacks

variable {o : Outcome} {v w : Vip} {calls : List Effect}

theorem credit_le_one (v : Vip) : v.credit ≤ 1 := by
  unfold Vip.credit
  split <;> simp

theorem credit_of_state (h : w.state = v.state) : w.credit = v.credit := by
  unfold Vip.credit
  rw [h]

/-- A master, a node in `ST_RBACK` and an idle one have nothing to take over. -/
theorem credit_eq_zero (h : v.state = .master ∨ v.state = .rback ∨ v.state = .idle) :
    v.credit = 0 := by
  unfold Vip.credit
  rcases h with h | h | h <;> rw [h]

theorem credit_eq_one : v.credit = 1 ↔ v.state = .start ∨ v.state = .backup := by
  unfold Vip.credit
  cases v.state <;> simp

/-- A node that goes down says nothing. -/
theorem announces_goDown (u v : Vip) : Announces u (goDown v).vip (goDown v).effects := by
  refine Or.inl ⟨multicasts_goDown v, ?_⟩
  rw [credit_eq_zero (Or.inr (Or.inr (goDown_state v)))]
  exact Nat.zero_le _

/-- A takeover is announced once, if it succeeds. -/
theorem announces_becomeMaster (hv : v.credit = 1) (hcalls : multicasts calls = []) :
    Announces v (becomeMaster o v calls).vip (becomeMaster o v calls).effects := by
  cases ha : o.addVip with
  | false =>
    have heq : becomeMaster o v calls =
        failTransition { v with state := .master }
          [.addVip v.config.address v.config.device false] := by
      simp [becomeMaster, ha]
    rw [heq]
    exact announces_goDown v { v with state := .master }
  | true =>
    cases hg : o.sendGarp with
    | false =>
      have heq : becomeMaster o v calls = failTransition { v with state := .master }
          [.addVip v.config.address v.config.device true,
            .sendGarp v.config.mac v.config.address v.config.device false,
            .removeVip v.config.address v.config.device] := by
        simp [becomeMaster, ha, hg]
      rw [heq]
      exact announces_goDown v { v with state := .master }
    | true =>
      refine Or.inr ⟨?_, hv, by rw [becomeMaster_vip, ha, hg]; rfl⟩
      have heq : (becomeMaster o v calls).effects = ([.addVip v.config.address v.config.device true,
          .sendGarp v.config.mac v.config.address v.config.device true] ++ calls) ++
            [.sendState (nodeMsg o { v with state := .master })] := by
        simp [becomeMaster, ha, hg, virtualIpSendState]
      rw [heq, multicasts_append, multicasts_append, hcalls]
      rfl

/-- **A transaction other than the answer to an arrival** announces a takeover at most. -/
theorem announces_fsm {e : Event} (hs : e ≠ .startup) (hu : e ≠ .backupUp) :
    Announces v (fsmDoTransaction o v e).vip (fsmDoTransaction o v e).effects := by
  have hto := fsmTo_fsmDoTransaction o v e
  generalize fsmDoTransaction o v e = r at hto ⊢
  cases hto with
  | stay => exact Or.inl ⟨rfl, le_rfl⟩
  | down => exact announces_goDown v v
  | resign => exact announces_goDown v v
  | @claim calls _ hc =>
    -- from `ST_START` or from `ST_BACKUP`, which recovers the calls
    rcases hc with ⟨hs, rfl⟩ | ⟨hs, rfl⟩
    · exact announces_becomeMaster (credit_eq_one.mpr (Or.inl hs)) rfl
    · exact announces_becomeMaster (credit_eq_one.mpr (Or.inr hs)) (multicasts_map _ (by simp) _)
  | cleanUp => exact Or.inl ⟨multicasts_map _ (by simp) _, le_rfl⟩
  | observe hstart =>
    refine Or.inl ⟨rfl, ?_⟩
    rw [credit_eq_one.mpr (Or.inl hstart)]
    exact credit_le_one _
  | nodeup | backupup => exact absurd rfl hu
  | request _ hl hn =>
    rw [rollback_cons hl hn]
    cases o.threadCreate <;> exact Or.inl ⟨rfl, Nat.zero_le _⟩
  | resume => exact Or.inl ⟨rfl, Nat.zero_le _⟩
  | goUp => exact absurd rfl hs

/-- The answer to an arrival is one state at most. -/
theorem announces_nodeUp (o : Outcome) (v : Vip) :
    (multicasts (fsmInputNodeUp o v).effects).length ≤ 1 := by
  unfold fsmInputNodeUp fsmDoTransaction
  cases hs : v.state with
  | idle => exact Nat.zero_le _
  | start | backup => exact le_rfl
  | master | rback =>
    simp only [table, backupup, virtualIpSendAllSql, virtualIpSendState, multicasts_append]
    rw [multicasts_map _ (by simp)]
    exact le_rfl

/-- A master hears of departures in silence. -/
theorem multicasts_nodesDown_master (h : v.state = .master) (left : List NodeId) :
    multicasts (nodesDown o v left).2 = [] ∧ (nodesDown o v left).1.state = .master := by
  induction left generalizing v with
  | nil => exact ⟨rfl, h⟩
  | cons x left ih =>
    have hone : (fsmInputNodeDown o v x).vip.state = .master ∧
        (fsmInputNodeDown o v x).effects = [] := by
      rcases nodeDownEvent_cases v x with he | he <;>
        simp [fsmInputNodeDown, he, fsmDoTransaction, table, forget, h, error, noop]
    obtain ⟨hrest, hmaster⟩ := ih hone.1
    refine ⟨?_, hmaster⟩
    show multicasts (_ ++ _) = []
    rw [multicasts_append, hone.2, hrest]
    rfl

/-- **Any number of departures** make a node announce a takeover at most. -/
theorem announces_nodesDown (o : Outcome) (v : Vip) (left : List NodeId) :
    Announces v (nodesDown o v left).1 (nodesDown o v left).2 := by
  -- Induction on the departures: a node that has taken over is a master for those that follow.
  induction left generalizing v with
  | nil => exact Or.inl ⟨rfl, le_rfl⟩
  | cons x left ih =>
    have hone : Announces v (fsmInputNodeDown o v x).vip (fsmInputNodeDown o v x).effects := by
      have hcredit : (forget v x).credit = v.credit := credit_of_state rfl
      have hfsm : Announces (forget v x) (fsmInputNodeDown o v x).vip
          (fsmInputNodeDown o v x).effects := by
        apply announces_fsm (nodeDownEvent_ne_startup v x)
        rcases nodeDownEvent_cases v x with he | he <;> simp [he]
      rwa [Announces, hcredit] at hfsm
    have hcalls : multicasts (nodesDown o v (x :: left)).2 =
        multicasts (fsmInputNodeDown o v x).effects ++
          multicasts (nodesDown o (fsmInputNodeDown o v x).vip left).2 := multicasts_append _ _
    rcases hone with ⟨hsilent, hle⟩ | ⟨hlen, hv, hm⟩
    · rcases ih (fsmInputNodeDown o v x).vip with ⟨hrest, hle'⟩ | ⟨hlen, hv, hm⟩
      · exact Or.inl ⟨by rw [hcalls, hsilent, hrest]; rfl, hle'.trans hle⟩
      · refine Or.inr ⟨by rw [hcalls, hsilent]; exact hlen, ?_, hm⟩
        have := credit_le_one v
        omega
    · obtain ⟨hrest, hm'⟩ := multicasts_nodesDown_master (o := o) hm left
      exact Or.inr ⟨by rw [hcalls, hrest, List.append_nil]; exact hlen, hv, hm'⟩

/-- **Every callback announces a takeover at most**, and answers an arrival once. -/
theorem handle_announces (o : Outcome) (v : Vip) (e : Entry NodeId Msg) :
    ∃ calls calls', (handle o v e).2 = calls ++ calls' ∧ Announces v (handle o v e).1 calls ∧
      (multicasts calls').length ≤ e.arrival := by
  cases e with
  | confchg members left joined =>
    have hleft : Announces v (nodesDown o { v with memberListEntries := members.length } left).1
        (nodesDown o { v with memberListEntries := members.length } left).2 :=
      announces_nodesDown o _ left
    by_cases hj : joined = []
    · simp only [handle, confchgCallback, hj, ne_eq, not_true_eq_false, if_false]
      exact ⟨_, [], (List.append_nil _).symm, hleft, Nat.zero_le _⟩
    · simp only [handle, confchgCallback, hj, ne_eq, not_false_eq_true, if_true]
      have hlen := announces_nodeUp o
        (nodesDown o { v with memberListEntries := members.length } left).1
      rw [fsmInputNodeUp_vip]
      exact ⟨_, _, rfl, hleft, by simpa [Entry.arrival, hj] using hlen⟩
  | message y m =>
    refine ⟨_, [], (List.append_nil _).symm, ?_, Nat.zero_le _⟩
    cases m with
    | sql name sql =>
      refine Or.inl ⟨?_, le_rfl⟩
      apply List.filterMap_eq_nil_iff.mpr
      intro c hc
      rw [(mem_handle_sql hc).2]
    | nodeState nm =>
      have hcredit : (learn o v nm y).credit = v.credit := credit_of_state (learn_state o v nm y)
      simp only [handle, deliverCallback, fsmInputNewStateMessage]
      cases he : stateMessageEvent (learn o v nm y) nm y with
      | none => exact Or.inl ⟨rfl, hcredit.le⟩
      | some event =>
        have hfsm : Announces (learn o v nm y) (fsmDoTransaction o (learn o v nm y) event).vip
            (fsmDoTransaction o (learn o v nm y) event).effects := by
          -- a state message is no arrival
          have hraise := messageRaises_stateMessageEvent (learn o v nm y) nm y
          rw [he] at hraise
          cases hraise <;> exact announces_fsm (by simp) (by simp)
        rwa [Announces, hcredit] at hfsm

end Callbacks

/-! ## The calls of the threads -/

/-- The calls that a `vip_thread` has still to make. -/
def VipPhase.rank : VipPhase → ℕ
  | .cpgInitialize => 8
  | .contextSet => 7
  | .localGet => 6
  | .join => 5
  | .dispatching => 4
  | .leaving => 3
  | .finalizing => 2
  | .ending => 1

/-- The calls that a `go_down` has still to make. -/
def DownPc.rank : DownPc → ℕ
  | .joinRollback => 5
  | .awaitRollback _ => 4
  | .joinVip => 3
  | .awaitVip _ => 2
  | .removeVip => 1

/-- The calls that the threads of a process have still to make. -/
def Proc.rank (p : Proc) : ℕ :=
  (p.vipThreads.map fun th => th.phase.rank).sum + (p.downs.map fun d => d.pc.rank).sum

/-- The local steps of a node other than a start, a stop, a join, a tick, and a statement. -/
def Calm : Command → Prop
  | .input (.join _ results) => csRetry csMaxRetries results ≠ .ok
  | .input (.down _) | .input (.cpgInitialize _ _) | .input (.contextSet _ _)
  | .input (.localGet _ _ _) | .input (.exitLoop _) | .input (.leave _) | .input (.finalize _)
  | .input (.finish _) => True
  | _ => False

section Rank

variable {p p' : Proc} {t : ThreadId} {here next : VipPhase}

/-- A term of a sum, and the others. -/
theorem add_sum_eraseIdx {l : List ℕ} {i a : ℕ} (h : l[i]? = some a) :
    a + (l.eraseIdx i).sum = l.sum := by
  obtain ⟨hi, rfl⟩ := List.getElem?_eq_some_iff.mp h
  exact List.add_sum_eraseIdx hi fun b _ => AddCommute.all l[i] b

/-- A thread moves on. -/
theorem rank_moveVip (h : Numbered p) (ht : ⟨t, here⟩ ∈ p.vipThreads) (hlt : next.rank < here.rank) :
    (p.moveVip t next).rank < p.rank := by
  refine Nat.add_lt_add_right ?_ _
  simp only [Proc.moveVip, List.map_map]
  refine List.sum_lt_sum _ _ (fun th hth => ?_) ⟨_, ht, by simpa using hlt⟩
  by_cases hid : th.id = t
  · -- only this one has the handle
    rw [h.eq_of_id hth ht hid]
    simpa using hlt.le
  · simp [hid]

/-- A thread returns. -/
theorem rank_finish (ht : ⟨t, .ending⟩ ∈ p.vipThreads) :
    { p with vipThreads := p.vipThreads.filter fun th => th.id ≠ t }.rank < p.rank := by
  refine Nat.add_lt_add_right ?_ _
  have hperm := (List.filter_append_perm (fun th : VipThread => decide (th.id ≠ t)) p.vipThreads).map
    fun th => th.phase.rank
  have hmem : (⟨t, .ending⟩ : VipThread) ∈
      p.vipThreads.filter fun th => !decide (th.id ≠ t) := by
    simpa using ht
  have hone : 1 ≤ ((p.vipThreads.filter fun th => !decide (th.id ≠ t)).map
      fun th => th.phase.rank).sum := List.le_sum_of_mem (List.mem_map_of_mem hmem)
  rw [← hperm.sum_eq, List.map_append, List.sum_append]
  exact Nat.lt_add_of_pos_right hone

/-- A `go_down` moves on. -/
theorem rank_setDown {i : ℕ} {d d' : Down} (hd : p.downs[i]? = some d)
    (hlt : d'.pc.rank < d.pc.rank) :
    (p.setDown i d').rank < p.rank := by
  refine Nat.add_lt_add_left ?_ _
  show ((p.downs.set i d').map fun d => d.pc.rank).sum < (p.downs.map fun d => d.pc.rank).sum
  have hrank : (p.downs.map fun d => d.pc.rank)[i]? = some d.pc.rank := by simp [hd]
  have hrank' : ((p.downs.map fun d => d.pc.rank).set i d'.pc.rank)[i]? = some d'.pc.rank := by
    have hi := (List.getElem?_eq_some_iff.mp hrank).1
    simp only [List.getElem?_set_self hi]
  have hsum := add_sum_eraseIdx hrank
  have hsum' := add_sum_eraseIdx hrank'
  rw [List.eraseIdx_set_eq] at hsum'
  rw [List.map_set]
  omega

/-- A `go_down` makes its next call. -/
theorem rank_down {i : ℕ} (hs : p.downStep i = some p') : p'.rank < p.rank := by
  cases Proc.downTo_of_downStep hs with
  | awaitRollback hd hpc | noRollback hd hpc | awaitVip hd hpc | noVip hd hpc =>
    exact rank_setDown hd (by simp [hpc, DownPc.rank])
  | rollbackJoined hd hpc =>
    exact rank_setDown (p := { p with vip := { p.vip with rollbackThread := none } }) hd
      (by simp [hpc, DownPc.rank])
  | vipJoined hd hpc =>
    exact rank_setDown (p := { p with vip := { p.vip with virtualIpThread := none } }) hd
      (by simp [hpc, DownPc.rank])
  | removed hd hpc =>
    refine Nat.add_lt_add_left ?_ _
    have hrank : (p.downs.map fun d => d.pc.rank)[i]? = some 1 := by simp [hd, hpc, DownPc.rank]
    have hsum := add_sum_eraseIdx hrank
    rw [List.eraseIdx_map] at hsum
    show ((p.downs.eraseIdx i).map fun d => d.pc.rank).sum < _
    omega

/-- **A calm step** is one call less to make, and leaves the state of the vip. -/
theorem rank_calm (h : Numbered p) {i : Input} (hc : Calm (.input i)) (hs : p.step i = some p') :
    p'.rank < p.rank ∧ p'.vip.state = p.vip.state := by
  have hcall {t : ThreadId} {here next failed : VipPhase} {ok : Prop} [Decidable ok]
      (ht : ⟨t, here⟩ ∈ p.vipThreads) (hnext : next.rank < here.rank)
      (hfailed : failed.rank < here.rank) :
      (p.moveVip t (if ok then next else failed)).rank < p.rank := by
    apply rank_moveVip h ht
    split_ifs
    exacts [hnext, hfailed]
  cases Proc.stepTo_of_step hs with
  | down hd =>
    obtain ⟨-, -, r, v, hv⟩ := Proc.downStep_vip hd
    exact ⟨rank_down hd, by rw [hv]⟩
  | cpgInitialize ht | contextSet ht => exact ⟨hcall ht (by decide) (by decide), rfl⟩
  | @located t nodeid ht =>
    exact ⟨rank_moveVip (p := { p with vip := { p.vip with nodeId := nodeid } })
      (h.kept rfl le_rfl) ht (by decide), rfl⟩
  | unlocated ht => exact ⟨rank_moveVip h ht (by decide), rfl⟩
  | join ht =>
    rw [if_neg hc]
    exact ⟨rank_moveVip h ht (by decide), rfl⟩
  | exitLoop ht | leave ht | finalize ht => exact ⟨rank_moveVip h ht (by decide), rfl⟩
  | finish ht => exact ⟨rank_finish ht, rfl⟩
  | start | stop | deliver | dispatchFails | tick | rollbackStop | rollbackWait | rollbackStart =>
    exact hc.elim

end Rank

/-! ## The nodes -/

/-- Only the nodes of the deployment run the vip, or are stopping it. -/
structure Employed (d : Deployment) (n : NodeId) (p : Proc) : Prop where
  numbered : Numbered p
  running : p.vip.state ≠ .idle → n ∈ d.nodes
  stopping : p.downs ≠ [] → n ∈ d.nodes

section Employed

variable {d : Deployment} {n : NodeId} {p p' : Proc}

theorem Employed.stop (h : Employed d n p) (caller : Option ThreadId) :
    Employed d n (p.cmdStop caller) := by
  by_cases hs : p.vip.state = .idle
  · rwa [Proc.cmdStop_idle hs]
  · have hn := h.running hs
    exact ⟨h.numbered.stop caller, fun _ => hn, fun _ => hn⟩

theorem Employed.act (h : Employed d n p) {c : Command} {sig : Signal Msg}
    (ha : nodeAct d n p c = some (p', sig)) : Employed d n p' := by
  cases c with
  | event name sql =>
    obtain ⟨rfl, -⟩ := nodeAct_event ha
    exact h
  | input i =>
    obtain ⟨hp, hs, -⟩ := nodeAct_input ha
    have hnum := h.numbered.step hs
    cases Proc.stepTo_of_step hs with
    | start | rollbackStart => exact ⟨hnum, fun _ => hp, fun _ => hp⟩
    | stop => exact h.stop none
    | @rollbackStop r =>
      have hstop := h.stop (some r.id)
      exact ⟨hnum, hstop.running, hstop.stopping⟩
    | down hd =>
      obtain ⟨-, -, r, v, hv⟩ := Proc.downStep_vip hd
      refine ⟨hnum, fun hrun => h.running (by rwa [hv] at hrun), fun _ => ?_⟩
      -- a `go_down` makes a call, so there was one
      have hne : p.downs ≠ [] := by
        cases Proc.downTo_of_downStep hd with
        | awaitRollback hi | noRollback hi | rollbackJoined hi | awaitVip hi | noVip hi | vipJoined hi
        | removed hi => exact List.ne_nil_of_mem (List.mem_of_getElem? hi)
      exact h.stopping hne
    | deliver => exact absurd hp id
    | @tick r =>
      obtain ⟨-, hd, -⟩ := Proc.tick_rest p r
      exact ⟨hnum, by simpa using h.running, by simpa [hd] using h.stopping⟩
    | cpgInitialize | contextSet | located | unlocated | join | dispatchFails | exitLoop | leave
    | finalize | finish | rollbackWait => exact ⟨hnum, h.running, h.stopping⟩

theorem Employed.deliver (h : Employed d n p) {e : Entry NodeId Msg} {o : Outcome}
    {calls : List Effect} (hd : nodeDeliver n p e o = some (p', calls)) : Employed d n p' := by
  obtain ⟨-, hd⟩ := Option.ite_none_right_eq_some.mp hd
  obtain rfl : (p.handleEntry o e).1 = p' :=
    congrArg Prod.fst (Option.some.inj hd)
  obtain ⟨hnext, hdowns⟩ := Proc.handleEntry_rest p o e
  refine ⟨h.numbered.kept (Proc.handleEntry_vipThreads _ _ _) hnext, fun hrun => ?_, ?_⟩
  · apply h.running
    intro hidle
    rw [Proc.handleEntry_vip] at hrun
    exact hrun (handle_idle hidle e)
  · rw [hdowns]
    exact h.stopping

/-- Each step of the cluster leaves the other nodes out of it. -/
theorem employed_rule (d : Deployment) (ok : Cluster → ClusterStep → Prop) :
    Group.SiteRule (cluster d) ok (fun n _ p => Employed d n p) where
  boot _ := ⟨numbered_fresh _, fun h => absurd rfl h, fun h => absurd rfl h⟩
  act _ hi ha := hi.act ha
  deliver _ hi _ hd := hi.deliver hd
  enter h := h

/-- **The nodes answer on credit**, and their calm steps come to an end. -/
theorem settling_cluster (d : Deployment) :
    Settling (cluster d) Calm (fun _ p => Numbered p) (fun p => p.vip.credit) Proc.rank where
  deliver := by
    intro n p e o p' calls hgood hd
    obtain ⟨-, hd⟩ := Option.ite_none_right_eq_some.mp hd
    obtain ⟨rfl, rfl⟩ := Prod.ext_iff.mp (Option.some.inj hd)
    obtain ⟨hnext, hdowns⟩ := Proc.handleEntry_rest p o e
    have hthreads := Proc.handleEntry_vipThreads p o e
    refine ⟨hgood.kept hthreads hnext, ?_, by simp only [Proc.rank, hthreads, hdowns, le_refl]⟩
    obtain ⟨calls, calls', hcalls, hann, harr⟩ :=
      handle_announces (p.withHandle o) p.vip e
    show (multicasts (p.handleEntry o e).2).length + _ ≤ _
    rw [Proc.handleEntry_calls, Proc.handleEntry_vip, hcalls, multicasts_append, List.length_append]
    rcases hann with ⟨hsilent, hle⟩ | ⟨hlen, hv, hm⟩
    · rw [hsilent, List.length_nil]
      omega
    · rw [hlen, hv, credit_eq_zero (Or.inl hm)]
      omega
  act := by
    intro n p c p' sig hgood hc ha
    cases c with
    | event => exact hc.elim
    | input i =>
      obtain ⟨-, hs, rfl⟩ := nodeAct_input ha
      obtain ⟨hlt, hstate⟩ := rank_calm hgood hc hs
      refine ⟨hgood.step hs, (credit_of_state hstate).le, hlt, ?_⟩
      cases i with
      | join t results => exact Or.inl (if_neg hc)
      | leave => exact Or.inr rfl
      | _ => exact Or.inl rfl

end Employed

/-! ## Runs of a cluster that is left to itself -/

section Runs

variable {d : Deployment} {g g' : Cluster}

/-- In a reachable cluster only the nodes of the deployment take part. -/
theorem poised_of_reaches (h : Reaches d.step d.start g) :
    g.Poised (fun _ p => Numbered p) Proc.rank d.nodes.toFinset := by
  have hg := Group.Sound.of_reaches h
  have hplaced := Group.site_invariant (placed_rule d fun _ _ => True) h
  have hemployed := Group.site_invariant (employed_rule d fun _ _ => True) h
  have hrunning (n : NodeId) (hc : (g.site n).conn ≠ .out) : (g.site n).up = true := by
    cases hn : (g.site n).conn with
    | out => exact absurd hn hc
    | joining => exact hg.joining hn
    | member since next => exact (hg.member hn).1
  refine ⟨hrunning, fun n hup => (hemployed.site n hup).numbered, fun n hn => ?_⟩
  rw [List.mem_toFinset] at hn
  refine ⟨?_, fun hv => ?_, fun hup => ?_⟩
  · by_contra hc
    refine hn ((hplaced.site n (hrunning n hc)).node ?_)
    cases hconn : (g.site n).conn with
    | out => exact absurd hconn hc
    | joining => simp [Conn.kind]
    | member since next =>
      rw [Conn.kind]
      split_ifs <;> simp
  · -- whoever is in the view has joined
    rw [Group.view, ← List.take_length (l := g.log)] at hv
    obtain ⟨j, -, hj, -⟩ := hg.log.exists_joinsAt le_rfl hv
    obtain ⟨p, hp⟩ := hplaced.joined j n hj
    exact hn (hp.node (by simp))
  · have hthreads : (g.site n).st.vipThreads = [] :=
      by_contra fun hne => hn ((hplaced.site n hup).running hne)
    have hdowns : (g.site n).st.downs = [] :=
      by_contra fun hne => hn ((hemployed.site n hup).stopping hne)
    rw [Proc.rank, hthreads, hdowns]
    rfl

/-- **A cluster that is left to itself comes to rest.** From any reachable state the deliveries, the
orderings, the configuration changes and the leaves that need no further command come to an end,
however the calls for the address turn out; and what a node multicasts when it handles an entry is
one state at most, sent because it takes over, and one more if somebody has joined. -/
theorem cluster_quiesces (h : Reaches d.step d.start g) :
    (∃ N, ∀ ls : List ClusterStep, (∀ l ∈ ls, l.Settles Calm) → (run d.step g ls).isSome →
      ls.length ≤ N) ∧
    ∀ n o g', d.step g (.deliver n o) = some g' → ∃ since next e answer arrival,
      (g.site n).conn = .member since next ∧ g.log[next]? = some e ∧
        (g'.site n).outbox = (g.site n).outbox ++ answer ++ arrival ∧
          (answer = [] ∨ answer.length = 1 ∧
            ((g.vip n).state = .start ∨ (g.vip n).state = .backup) ∧ (g'.vip n).state = .master) ∧
          arrival.length ≤ e.arrival := by
  refine ⟨⟨g.measure (fun p => p.vip.credit) Proc.rank d.nodes.toFinset, fun ls hl hr => ?_⟩,
    fun n o g' hs => ?_⟩
  · obtain ⟨g', hg'⟩ := Option.isSome_iff_exists.mp hr
    exact Group.length_le_measure (poised_of_reaches h) (settling_cluster d) hl hg'
  · cases Group.stepTo_of_step hs with
    | @deliver _ _ since next e p calls hc he hd =>
      obtain ⟨-, o', -, -, -, hv, -, rfl⟩ := nodeDeliver_eq_some (n := n) hd
      obtain ⟨calls, calls', hcalls, hann, harr⟩ := handle_announces o' (g.site n).st.vip e
      have hself : (Group.handled (cluster d) g n since next p
          (handle o' (g.site n).st.vip e).2).site n = { g.site n with
            st := p, conn := .member since (next + 1),
            outbox := (g.site n).outbox ++ multicasts (handle o' (g.site n).st.vip e).2 } :=
        Function.update_self _ _ _
      refine ⟨since, next, e, multicasts calls, multicasts calls', hc, he, ?_, ?_, harr⟩
      · rw [hself, hcalls, multicasts_append, List.append_assoc]
      · rcases hann with ⟨hsilent, -⟩ | ⟨hlen, hcredit, hm⟩
        · exact Or.inl hsilent
        · refine Or.inr ⟨hlen, credit_eq_one.mp hcredit, ?_⟩
          rw [Cluster.vip, Cluster.proc, hself, hv]
          exact hm

/-- Two nodes, and the master has crashed before the other has heard everything. -/
def masterCrashed : Cluster :=
  (run staggered.step staggered.start (firstUp 1 ++ secondUp 1 2 ++ [.crash 1])).getD staggered.start

/-- The departure, and the takeover. -/
def goesOn : List ClusterStep := [.confchg [1] [], .deliver 2 allSucceed, .order 2]

set_option maxRecDepth 10000 in
theorem cluster_quiesces_masterCrashed : ∃ N, goesOn.length ≤ N ∧
    ∀ ls : List ClusterStep, (∀ l ∈ ls, l.Settles Calm) →
      (run staggered.step masterCrashed ls).isSome → ls.length ≤ N := by
  obtain ⟨⟨N, hN⟩, -⟩ := cluster_quiesces (d := staggered) (g := masterCrashed) (reaches_getD _)
  refine ⟨N, hN goesOn ?_ (by decide +kernel), hN⟩
  intro l hl
  rcases List.mem_cons.mp hl with rfl | hl
  · trivial
  rcases List.mem_cons.mp hl with rfl | hl
  · trivial
  rcases List.mem_cons.mp hl with rfl | hl
  · trivial
  · cases hl

end Runs

end CpgFailover
