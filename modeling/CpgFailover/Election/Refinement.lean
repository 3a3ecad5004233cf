import CpgFailover.Election.Peer

/-!
# The callbacks refine the abstract member

The record of the code, read as an abstract member, takes every entry of the agreed log as the
abstract member does, and calls `utils_add_vip` exactly when the abstract member claims the
address.

## Main definitions

* `Peer.ofVip`: the abstract member of a record
* `claimed`: whether the address was asked for among some calls

## Main results

* `Peer.ofVip_handle`: the record takes an entry as the abstract member does
* `Peer.retains_handle`: what is left of that when `node_add` finds no memory
* `claimed_handle`: the calls that take the address are the claims of the abstract member
-/

namespace CpgFailover

open Agreed (Entry)

/-- `ST_MASTER` and `ST_RBACK` are the leader's states. -/
def Role.ofState : State → Role
  | .idle => .idle
  | .start => .start
  | .backup => .backup
  | .master | .rback => .leader

@[simp] theorem Role.ofState_eq_leader {s : State} : Role.ofState s = .leader ↔ s.serves = true := by
  cases s <;> simp [Role.ofState, State.serves]

@[simp] theorem Role.ofState_eq_idle {s : State} : Role.ofState s = .idle ↔ s = .idle := by
  cases s <;> simp [Role.ofState]

@[simp] theorem Role.ofState_eq_start {s : State} : Role.ofState s = .start ↔ s = .start := by
  cases s <;> simp [Role.ofState]

@[simp] theorem Role.ofState_eq_backup {s : State} : Role.ofState s = .backup ↔ s = .backup := by
  cases s <;> simp [Role.ofState]

/-- Whether the address was asked for among some calls. -/
def claimed (calls : List Effect) : Prop := ∃ a b ok, Effect.addVip a b ok ∈ calls

/-- A call that asks for the address. -/
def asks : Effect → Bool
  | .addVip _ _ _ => true
  | _ => false

instance (calls : List Effect) : Decidable (claimed calls) :=
  decidable_of_iff (∃ c ∈ calls, asks c = true) (by
    constructor
    · rintro ⟨c, hc, h⟩
      cases c with
      | addVip a b ok => exact ⟨a, b, ok, hc⟩
      | _ => cases h
    · rintro ⟨a, b, ok, hc⟩
      exact ⟨_, hc, rfl⟩)

@[simp] theorem not_claimed_nil : ¬ claimed [] := by
  rintro ⟨a, b, ok, h⟩
  cases h

@[simp] theorem claimed_append {l l' : List Effect} :
    claimed (l ++ l') ↔ claimed l ∨ claimed l' := by
  simp only [claimed, List.mem_append, exists_or]

namespace Peer

/-- The abstract member of a record. -/
def ofVip (v : Vip) : Peer :=
  ⟨Role.ofState v.state, v.nodeId, v.nodeList, v.masterId, v.memberListEntries⟩

/-- The outcome of a claim: both calls have to succeed. -/
def won (o : Outcome) : Bool := o.addVip && o.sendGarp

@[simp] theorem ofVip_role (v : Vip) : (ofVip v).role = Role.ofState v.state := rfl

@[simp] theorem ofVip_goDown (v : Vip) : ofVip (goDown v).vip = gone := rfl

@[simp] theorem ofVip_goDownReset (v : Vip) : ofVip (goDownReset v) = gone := rfl

theorem ofVip_forget (v : Vip) (x : NodeId) : ofVip (forget v x) = (ofVip v).strike x := rfl

theorem ofVip_learn {o : Outcome} (hm : o.malloc = true) (v : Vip) (nm : NodeMsg) (y : NodeId) :
    ofVip (learn o v nm y) = (ofVip v).note y nm := by
  simp [ofVip, note, hm]

theorem heads_ofVip {v : Vip} : (ofVip v).Heads ↔ v.nodeId = nodeFirst v.nodeList := Iff.rfl

/-! ## The actions -/

theorem ofVip_becomeMaster (o : Outcome) (v : Vip) (calls : List Effect) :
    ofVip (becomeMaster o v calls).vip = (ofVip v).claim (won o) := by
  rw [becomeMaster_vip]
  by_cases h : o.addVip = true ∧ o.sendGarp = true
  · rw [if_pos h]
    simp [claim, won, h, ofVip, Role.ofState]
  · rw [if_neg h, ofVip_goDown]
    simp [claim, won, h]

theorem ofVip_act (o : Outcome) (v : Vip) :
    ofVip (act o v).vip = if (ofVip v).Heads then (ofVip v).claim (won o) else gone := by
  unfold act
  simp only [heads_ofVip]
  split_ifs
  · exact ofVip_becomeMaster o v []
  · rw [failTransition_vip, ofVip_goDown]

theorem ofVip_react (o : Outcome) (v : Vip) :
    ofVip (react o v).vip = if (ofVip v).Heads then (ofVip v).claim (won o) else ofVip v := by
  unfold react
  simp only [heads_ofVip]
  split_ifs
  · exact ofVip_becomeMaster o v _
  · rfl

/-- The actions of the leader keep it the leader. -/
theorem ofVip_rbackStop {v : Vip} (h : v.state = .rback) : ofVip (rbackStop v).vip = ofVip v := by
  unfold rbackStop
  split_ifs <;> simp [ofVip, h, Role.ofState]

theorem ofVip_rollback {o : Outcome} {v : Vip} (h : v.state = .master) :
    ofVip (rollback o v).vip = ofVip v := by
  unfold rollback
  split
  · rfl
  · split_ifs
    · split <;> simp [ofVip, h, Role.ofState]
    · rfl

/-! ## The callbacks -/

theorem ofVip_nodeDown (o : Outcome) (v : Vip) (x : NodeId) :
    ofVip (fsmInputNodeDown o v x).vip = (ofVip v).lose (won o) x := by
  -- The event depends on the remembered master, the action on the state.
  by_cases h : v.masterId = x
  · have hx : (ofVip v).master = x := h
    rw [fsmInputNodeDown_of_eq h]
    cases hv : v.state with
    | idle =>
      rw [lose_of_idle (by simp [hv]), ← ofVip_forget]
      rfl
    | start =>
      rw [lose_of_start (by simp [hv]), ← ofVip_forget, if_pos hx]
      -- `act`, on the list without the departed
      exact ofVip_act o (forget v x)
    | backup =>
      rw [lose_of_backup (by simp [hv]), ← ofVip_forget]
      simp only [hx, true_and]
      -- `react`
      exact ofVip_react o (forget v x)
    | master | rback =>
      rw [lose_of_leader (by simp [hv, State.serves]), ← ofVip_forget]
      rfl
  · have hx : (ofVip v).master ≠ x := h
    rw [fsmInputNodeDown_of_ne h]
    cases hv : v.state with
    | idle =>
      rw [lose_of_idle (by simp [hv]), ← ofVip_forget]
      rfl
    | start =>
      rw [lose_of_start (by simp [hv]), ← ofVip_forget, if_neg hx]
      rfl
    | backup =>
      rw [lose_of_backup (by simp [hv]), ← ofVip_forget, if_neg fun hh => hx hh.1]
      rfl
    | master =>
      rw [lose_of_leader (by simp [hv, State.serves]), ← ofVip_forget]
      rfl
    | rback =>
      rw [lose_of_leader (by simp [hv, State.serves]), ← ofVip_forget]
      -- `rback_stop`, which leaves the leader the leader
      exact ofVip_rbackStop hv

theorem ofVip_nodesDown (o : Outcome) (v : Vip) (left : List NodeId) :
    ofVip (nodesDown o v left).1 = (ofVip v).loseAll (won o) left := by
  induction left generalizing v with
  | nil => rfl
  | cons x left ih =>
    simp only [nodesDown, loseAll, List.foldl_cons]
    rw [ih, ofVip_nodeDown]
    rfl

theorem ofVip_newStateMessage {o : Outcome} (hm : o.malloc = true) (v : Vip) (nm : NodeMsg)
    (y : NodeId) : ofVip (fsmInputNewStateMessage o v nm y).vip =
      (ofVip v).hear v.config.priority (won o) y nm := by
  have hs : (learn o v nm y).state = v.state := learn_state o v nm y
  unfold fsmInputNewStateMessage stateMessageEvent fsmDoTransaction
  simp only [learn_config, learn_nodeId, learn_memberListEntries, hs]
  -- The writes are the same; the branches of `hear` are the events chosen in `ST_START`.
  cases hv : v.state with
  | start =>
    rw [hear_of_start (by simp [hv]), ← ofVip_learn hm]
    by_cases hd : nm.priority = v.config.priority ∧ y ≠ v.nodeId
    · rw [if_pos hd, if_pos (show nm.priority = v.config.priority ∧ y ≠ (ofVip v).self from hd)]
      rfl
    rw [if_neg hd, if_neg (show ¬ (nm.priority = v.config.priority ∧ y ≠ (ofVip v).self) from hd)]
    by_cases h₁ : v.memberListEntries = 1
    · rw [if_pos (show (ofVip v).size = 1 from h₁)]
      simp only [if_pos h₁]
      exact ofVip_act o _
    rw [if_neg (show (ofVip v).size ≠ 1 from h₁)]
    simp only [if_neg h₁]
    by_cases he : listEntries (learn o v nm y).nodeList = v.memberListEntries
    · simp only [if_pos he]
      rw [if_pos (show listEntries (ofVip (learn o v nm y)).roster = (ofVip v).size from he)]
      rfl
    · simp only [if_neg he]
      rw [if_neg (show listEntries (ofVip (learn o v nm y)).roster ≠ (ofVip v).size from he)]
  | idle | backup =>
    rw [hear_of_ne_start (by simp [hv]), ← ofVip_learn hm]
    split_ifs <;> rfl
  | master =>
    rw [hear_of_ne_start (by simp [hv]), ← ofVip_learn hm]
    dsimp only
    by_cases hd : nm.priority = v.config.priority ∧ y ≠ v.nodeId
    · rw [if_pos hd]
      rfl
    rw [if_neg hd]
    split_ifs
    -- a request turns `ST_MASTER` into `ST_RBACK`, one role here
    · exact ofVip_rollback (hs.trans hv)
    · rfl
  | rback =>
    rw [hear_of_ne_start (by simp [hv]), ← ofVip_learn hm]
    dsimp only
    by_cases hd : nm.priority = v.config.priority ∧ y ≠ v.nodeId
    · rw [if_pos hd]
      rfl
    rw [if_neg hd]
    split_ifs
    · exact ofVip_rbackStop (hs.trans hv)
    · rfl

/-- A configuration change allocates nothing. -/
theorem ofVip_confchgCallback (o : Outcome) (v : Vip) (members left joined : List NodeId) :
    ofVip (confchgCallback o v members left joined).1 =
      (ofVip v).change (won o) members left := by
  simp only [confchgCallback, change]
  have hdown := ofVip_nodesDown o { v with memberListEntries := members.length } left
  split_ifs
  · rw [fsmInputNodeUp_vip, hdown]
    rfl
  · exact hdown

/-- **The callbacks refine the abstract member**, if `node_add` gets the memory it asks for. -/
theorem ofVip_handle {o : Outcome} (hm : o.malloc = true) (v : Vip) (e : Entry NodeId Msg) :
    ofVip (CpgFailover.handle o v e).1 = (ofVip v).handle v.config.priority (won o) e := by
  cases e with
  | confchg members left joined => exact ofVip_confchgCallback o v members left joined
  | message y m =>
    cases m with
    | sql => rfl
    | nodeState nm => exact ofVip_newStateMessage hm v nm y

/-! ## Without memory -/

/-- A configuration change, which needs none. -/
theorem retains_confchgCallback {o : Outcome} {v : Vip} {members left joined : List NodeId}
    (h : (ofVip (confchgCallback o v members left joined).1).role ≠ .idle) :
    (ofVip v).Retains (.confchg members left joined)
      (ofVip (confchgCallback o v members left joined).1) := by
  rw [ofVip_confchgCallback] at h ⊢
  rcases change_cases (won o) (ofVip v) members left with ⟨hc, -⟩ | ⟨-, hi, -⟩ | ⟨hr, -, -, hc⟩
  · rw [hc] at h ⊢
    exact ⟨h, List.Sublist.refl _, rfl, Or.inl⟩
  · exact absurd hi h
  · rw [hc] at h ⊢
    split_ifs at h ⊢
    · refine ⟨fun hi => ?_, List.Sublist.refl _, rfl, fun hb => by simp at hb⟩
      rcases hr with hr | hr <;> simp only [hi, reduceCtorEq] at hr
    · simp at h

/-- A state message leaves a vip in `ST_BACKUP` that was there before, or whose list is complete. -/
theorem backup_newStateMessage {o : Outcome} {v : Vip} {nm : NodeMsg} {y : NodeId}
    (h : (fsmInputNewStateMessage o v nm y).vip.state = .backup) : v.state = .backup ∨
      listEntries (fsmInputNewStateMessage o v nm y).vip.nodeList =
        (fsmInputNewStateMessage o v nm y).vip.memberListEntries := by
  have hs : (learn o v nm y).state = v.state := learn_state o v nm y
  have hraises := messageRaises_stateMessageEvent (learn o v nm y) nm y
  simp only [fsmInputNewStateMessage] at h ⊢
  cases hev : stateMessageEvent (learn o v nm y) nm y with
  | none =>
    rw [hev] at h
    exact Or.inl (hs.symm.trans h)
  | some event =>
    rw [hev] at hraises h
    have hto := fsmTo_fsmDoTransaction o (learn o v nm y) event
    dsimp only at h ⊢
    generalize fsmDoTransaction o (learn o v nm y) event = r at hto h ⊢
    cases hraises with
    | duplicate =>
      cases hto with
      | stay => exact Or.inl (hs.symm.trans h)
      | down | resume => cases h
    | alone _ hstart =>
      cases hto with
      | stay => exact Or.inl (hs.symm.trans h)
      | down | resign | resume => cases h
      | claim =>
        rw [becomeMaster_vip] at h
        split_ifs at h
        cases h
      | cleanUp hb => rw [hstart] at hb; cases hb
    | complete _ _ _ hlen =>
      cases hto with
      | stay => exact Or.inl (hs.symm.trans h)
      | down | resume => cases h
      | observe => exact Or.inr hlen
    | request =>
      cases hto with
      | stay => exact Or.inl (hs.symm.trans h)
      | down | resume => cases h
      | request _ hl hn =>
        rw [rollback_cons hl hn] at h
        cases ht : o.threadCreate <;> simp [ht] at h

/-- **Whatever its calls come to**, a callback retains what it does not write. -/
theorem retains_handle {o : Outcome} {v : Vip} {e : Entry NodeId Msg}
    (h : (CpgFailover.handle o v e).1.state ≠ .idle) :
    (ofVip v).Retains e (ofVip (CpgFailover.handle o v e).1) := by
  have hrun : (ofVip v).role ≠ .idle := by simpa using (handle_running h).1
  cases e with
  | confchg members left joined =>
    exact retains_confchgCallback fun hi => h (Role.ofState_eq_idle.mp hi)
  | message y m =>
    cases m with
    | sql => exact ⟨hrun, List.Sublist.refl _, rfl, Or.inl⟩
    | nodeState nm =>
      simp only [CpgFailover.handle, deliverCallback] at h ⊢
      have hbackup := @backup_newStateMessage o v nm y
      rcases fsmInputNewStateMessage_moved o v nm y with hm | ⟨s, r, rt, vt, hm⟩
      · exact absurd (congrArg Vip.state hm) h
      -- the record is running, so that only the writes of `learn` count
      · refine ⟨hrun, ?_, ?_, fun hb => ?_⟩
        · rw [hm]
          simp only [ofVip, rosterAfter, learn_nodeList]
          exact nodeAdd_sublist o.malloc v.nodeList y nm.priority
        · rw [hm]
          simp only [ofVip, sizeAfter, learn_memberListEntries]
        · rcases hbackup (Role.ofState_eq_backup.mp hb) with hold | hlen
          · exact Or.inl (Role.ofState_eq_backup.mpr hold)
          · exact Or.inr ⟨y, nm, rfl, hlen⟩

end Peer

/-! ## The calls that take the address -/

open Peer

theorem not_claimed_goDown (v : Vip) : ¬ claimed (goDown v).effects := by
  simp [claimed, goDown]

theorem claimed_becomeMaster (o : Outcome) (v : Vip) (calls : List Effect) :
    claimed (becomeMaster o v calls).effects := by
  refine ⟨v.config.address, v.config.device, o.addVip, ?_⟩
  cases ha : o.addVip <;> cases hg : o.sendGarp <;> simp [becomeMaster, ha, hg, failTransition]

theorem claimed_act {o : Outcome} {v : Vip} : claimed (act o v).effects ↔ (ofVip v).Heads := by
  unfold act
  rw [heads_ofVip]
  split_ifs with h
  · exact iff_of_true (claimed_becomeMaster o v []) h
  · refine iff_of_false ?_ h
    simpa [failTransition] using not_claimed_goDown v

theorem claimed_react {o : Outcome} {v : Vip} : claimed (react o v).effects ↔ (ofVip v).Heads := by
  unfold react
  rw [heads_ofVip]
  split_ifs with h
  · exact iff_of_true (claimed_becomeMaster o v _) h
  · refine iff_of_false ?_ h
    simp [claimed, cleanUpCalls]

theorem not_claimed_rollback (o : Outcome) (v : Vip) : ¬ claimed (rollback o v).effects := by
  unfold rollback
  repeat' split
  all_goals simp [claimed]

theorem not_claimed_rbackStop (v : Vip) : ¬ claimed (rbackStop v).effects := by
  unfold rbackStop
  split_ifs <;> exact not_claimed_nil

theorem claimed_nodeDown {o : Outcome} {v : Vip} {x : NodeId} :
    claimed (fsmInputNodeDown o v x).effects ↔ (ofVip v).claimsOnLoss x := by
  have hm : (ofVip v).master = x ↔ v.masterId = x := Iff.rfl
  rw [claimsOnLoss, hm, ofVip_role, Role.ofState_eq_start, Role.ofState_eq_backup, ← ofVip_forget]
  by_cases h : v.masterId = x
  · rw [fsmInputNodeDown_of_eq h]
    simp only [h, true_and]
    cases hv : v.state with
    | start => exact (claimed_act (o := o)).trans (by simp)
    | backup => exact (claimed_react (o := o)).trans (by simp)
    | _ => simp [table, error]
  · rw [fsmInputNodeDown_of_ne h]
    simp only [h, false_and, and_false, iff_false]
    cases hv : v.state with
    | rback => exact not_claimed_rbackStop _
    | _ => simp [table, error, noop]

theorem claimed_nodesDown {o : Outcome} {v : Vip} {left : List NodeId} :
    claimed (nodesDown o v left).2 ↔ claimsOnLosses (won o) (ofVip v) left := by
  induction left generalizing v with
  | nil => simp [nodesDown, claimsOnLosses]
  | cons x left ih =>
    simp only [nodesDown, claimsOnLosses, claimed_append, claimed_nodeDown, ih, ofVip_nodeDown]

theorem not_claimed_nodeUp (o : Outcome) (v : Vip) : ¬ claimed (fsmInputNodeUp o v).effects := by
  unfold fsmInputNodeUp fsmDoTransaction
  cases v.state <;>
    simp [table, error, nodeup, backupup, virtualIpSendState, virtualIpSendAllSql, claimed]

theorem claimed_newStateMessage {o : Outcome} (hm : o.malloc = true) {v : Vip} {nm : NodeMsg}
    {y : NodeId} : claimed (fsmInputNewStateMessage o v nm y).effects ↔
      (ofVip v).claimsOnHearing v.config.priority y nm := by
  have hs : (learn o v nm y).state = v.state := learn_state o v nm y
  have hsize : (ofVip v).size = v.memberListEntries := rfl
  have hself : (ofVip v).self = v.nodeId := rfl
  unfold fsmInputNewStateMessage stateMessageEvent fsmDoTransaction claimsOnHearing
  simp only [learn_config, learn_nodeId, learn_memberListEntries, hs, ← ofVip_learn hm, hsize,
    hself, ofVip_role, Role.ofState_eq_start]
  -- A duplicate is told apart first; then only `act` takes the address.
  by_cases hd : nm.priority = v.config.priority ∧ y ≠ v.nodeId
  · refine iff_of_false ?_ fun h => h.2.1 hd
    rw [if_pos hd]
    cases v.state with
    | start => exact not_claimed_goDown _
    | _ => exact not_claimed_nil
  · rw [if_neg hd]
    simp only [hd, not_false_eq_true, true_and]
    cases v.state with
    | start =>
      by_cases h₁ : v.memberListEntries = 1
      · simp only [h₁, if_true, true_and]
        exact claimed_act
      · simp only [h₁, if_false, false_and, and_false, iff_false]
        split_ifs <;> exact not_claimed_nil
    | idle | backup => simp
    | master =>
      simp only [reduceCtorEq, false_and, iff_false]
      split_ifs
      · exact not_claimed_rollback o _
      · exact not_claimed_nil
    | rback =>
      simp only [reduceCtorEq, false_and, iff_false]
      split_ifs
      · exact not_claimed_rbackStop _
      · exact not_claimed_nil

/-- **The calls that take the address are the claims of the abstract member.** -/
theorem claimed_handle {o : Outcome} (hm : o.malloc = true) {v : Vip} {e : Entry NodeId Msg} :
    claimed (handle o v e).2 ↔ (ofVip v).claims v.config.priority (won o) e := by
  cases e with
  | confchg members left joined =>
    simp only [handle, confchgCallback, claims]
    -- the arrival that may follow the departures claims nothing
    have hdown : claimed (nodesDown o { v with memberListEntries := members.length } left).2 ↔ _ :=
      claimed_nodesDown
    split_ifs
    · rw [claimed_append, or_iff_left (not_claimed_nodeUp o _)]
      exact hdown
    · exact hdown
  | message y m =>
    cases m with
    | sql =>
      simp only [claims, iff_false]
      rintro ⟨a, b, ok, h⟩
      cases (mem_handle_sql h).2
    | nodeState nm => exact claimed_newStateMessage hm

end CpgFailover
