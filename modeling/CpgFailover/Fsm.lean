import CpgFailover.VirtualIp

/-!
# The state machine

The actions of `fsm.c` and its lookup table. `act` and `react` share the steps that take the
address; `react` also recovers the calls, and cleans the recovery table of a profile when it is
another node's turn.

## Main definitions

* `table`, `fsmDoTransaction`: the actions lookup table and its chooser
* `act`, `react`, `goDown`, `goUp`, `observe`, `rollback`, `rbackStop`, `nodeup`, `backupup`,
  `noop`, `error`, `dupWarn`: the actions
* `goDownReset`: the part of `go_down` before it waits for threads
* `FsmTo`: what a transaction can come to
* `Vip.Moved`: what a transaction may do to the record

## Main results

* `fsmDoTransaction_idle`: an idle vip accepts nothing but `EVT_STARTUP`
* `fsmTo_fsmDoTransaction`: a transaction comes to one of the results
* `fsmDoTransaction_moved`: what it does to the record
* `fsmDoTransaction_start`: only a start leads to `ST_START`
* `fsmDoTransaction_down`: a running vip becomes idle only through `go_down`
* `isOutside_fsmDoTransaction`: only a start creates a `vip_thread`
* `sendState_mem`: a transaction announces the state it ends in
-/

namespace CpgFailover

/-- `node_msg_t` as `virtual_ip_send_state` fills it. -/
def nodeMsg (o : Outcome) (v : Vip) : NodeMsg where
  priority := v.config.priority
  state := v.state
  runtimeUuid := snprintf uuidSize o.coreUuid

/-- `virtual_ip_send_state`, when there is memory for the buffer and `cpg_mcast_joined` accepts the
message; a multicast that fails is left out. -/
def virtualIpSendState (o : Outcome) (v : Vip) : Status × List Effect :=
  (.success, [.sendState (nodeMsg o v)])

/-- `virtual_ip_send_all_sql`: what it asks of the sofia of this machine. -/
def virtualIpSendAllSql (v : Vip) : Status × List Effect :=
  (.success, v.config.usedProfiles.map fun p => .requestAll p.name)

/-! ## Actions -/

def noop (v : Vip) : Result := ⟨.success, v, []⟩

def error (v : Vip) : Result := ⟨.failure, v, []⟩

def dupWarn (v : Vip) : Result := ⟨.success, v, []⟩

def nodeup (o : Outcome) (v : Vip) : Result :=
  ⟨(virtualIpSendState o v).1, v, (virtualIpSendState o v).2⟩

/-- The C operator `&&` on statuses: `SWITCH_STATUS_SUCCESS` is zero, hence false. -/
def Status.and : Status → Status → Status
  | .failure, .failure => .failure
  | _, _ => .success

def backupup (o : Outcome) (v : Vip) : Result :=
  ⟨(virtualIpSendAllSql v).1.and (virtualIpSendState o v).1, v,
    (virtualIpSendState o v).2 ++ (virtualIpSendAllSql v).2⟩

/-- Targets the head of the list unless it is this node. Its caller has tested the list. -/
def rollback (o : Outcome) (v : Vip) : Result :=
  match v.nodeList with
  | [] => ⟨.success, v, []⟩
  | n :: _ =>
    if n.nodeid ≠ v.nodeId then
      match o.threadCreate with
      | some t =>
        ⟨.success, { v with rollbackNodeId := n.nodeid, state := .rback, rollbackThread := some t },
          [.createRollbackThread t]⟩
      -- the status is that of `switch_thread_create`, and the state stays `ST_RBACK`
      | none => ⟨.failure, { v with rollbackNodeId := n.nodeid, state := .rback }, []⟩
    else ⟨.success, v, []⟩

/-- The fields `go_down` clears before it waits for the threads. -/
def goDownReset (v : Vip) : Vip :=
  { v with
    state := .idle, masterId := 0, memberListEntries := 0, nodeId := 0, rollbackNodeId := 0,
    nodeList := [] }

/-- `go_down`, with both joins returning. -/
def goDown (v : Vip) : Result :=
  ⟨.success, { goDownReset v with rollbackThread := none, virtualIpThread := none },
    v.rollbackThread.toList.map .joinRollbackThread ++
      v.virtualIpThread.toList.map .joinVipThread ++
      [.removeVip v.config.address v.config.device] ++
      v.config.usedProfiles.map fun p => .hupall p.name⟩

/-- The `error:` exit of `act` and `react`, after the calls made so far. -/
def failTransition (v : Vip) (calls : List Effect) : Result :=
  ⟨.failure, (goDown v).vip, calls ++ (goDown v).effects⟩

/-- The steps `act` and `react` share: become master, take the address, announce it. Between the
gratuitous ARP and the announcement come the calls in `recovery`. -/
def becomeMaster (o : Outcome) (v : Vip) (recovery : List Effect) : Result :=
  let v := { v with state := .master }
  let add := Effect.addVip v.config.address v.config.device o.addVip
  let garp := Effect.sendGarp v.config.mac v.config.address v.config.device o.sendGarp
  if o.addVip then
    -- the address is on the interface now, whatever the gratuitous ARP returns
    if o.sendGarp then
      ⟨.success, v, [add, garp] ++ recovery ++ (virtualIpSendState o v).2⟩
    -- taken off here, and once more by `go_down`
    else failTransition v [add, garp, .removeVip v.config.address v.config.device]
  else failTransition v [add]

def act (o : Outcome) (v : Vip) : Result :=
  -- another node at the head of the list runs into the `error:` label
  if v.nodeId = nodeFirst v.nodeList then becomeMaster o v [] else failTransition v []

/-- The `utils_recover` calls of `react`. -/
def recoverCalls (c : Config) : List Effect :=
  (c.usedProfiles.filter (·.autorecover)).map fun p => .recover p.name

/-- The `utils_clean_up_table` calls of `react`. -/
def cleanUpCalls (v : Vip) : List Effect :=
  v.config.usedProfiles.map fun p => .cleanUpTable v.runtimeUuid p.name

def react (o : Outcome) (v : Vip) : Result :=
  if v.nodeId = nodeFirst v.nodeList then becomeMaster o v (recoverCalls v.config)
  -- another node's turn: the tables are cleaned under the uuid of the last master
  else ⟨.success, v, cleanUpCalls v⟩

def observe (v : Vip) : Result := ⟨.success, { v with state := .backup }, []⟩

/-- The result of `switch_thread_create` is not looked at. -/
def goUp (o : Outcome) (v : Vip) : Result :=
  match o.threadCreate with
  | some t =>
    ⟨.success, { v with state := .start, virtualIpThread := some t }, [.createVipThread t]⟩
  | none => ⟨.success, { v with state := .start }, []⟩

def rbackStop (v : Vip) : Result :=
  -- the target has departed, or is not at the head of the list any more
  if v.rollbackNodeId = 0 ∨ v.rollbackNodeId ≠ nodeFirst v.nodeList then
    ⟨.success, { v with state := .master }, []⟩
  else ⟨.success, v, []⟩

/-! ## The lookup table -/

/-- `table`, one row for each event. -/
def table (o : Outcome) : Event → State → Vip → Result
  | .startup, .idle => goUp o
  | .startup, _ => error
  | .duplicate, .idle => error
  | .duplicate, .start => fun v => goDown v
  | .duplicate, _ => dupWarn
  | .masterDown, .start => act o
  | .masterDown, .backup => react o
  | .masterDown, _ => error
  | .masterUp, .start => observe
  | .masterUp, _ => error
  | .backupDown, .idle => error
  | .backupDown, .rback => rbackStop
  | .backupDown, _ => noop
  | .backupUp, .idle => error
  | .backupUp, .start => nodeup o
  | .backupUp, .backup => nodeup o
  | .backupUp, _ => backupup o
  | .rbackReq, .master => rollback o
  | .rbackReq, .rback => rbackStop
  | .rbackReq, _ => error
  | .stop, .idle => error
  | .stop, _ => fun v => goDown v

/-- The actions chooser. Both indices are in range by their types. -/
def fsmDoTransaction (o : Outcome) (v : Vip) (event : Event) : Result :=
  table o event v.state v

/-- An idle vip accepts nothing but `EVT_STARTUP`. -/
theorem fsmDoTransaction_idle {o : Outcome} {v : Vip} {e : Event} (hv : v.state = .idle)
    (he : e ≠ .startup) : fsmDoTransaction o v e = error v := by
  cases e <;> simp_all [fsmDoTransaction, table]

/-- What a transaction can come to, one case a result. -/
inductive FsmTo (o : Outcome) (v : Vip) : Event → Result → Prop
  | stay (e : Event) (s : Status) : FsmTo o v e ⟨s, v, []⟩
  | down {e : Event} : v.state ≠ .idle → FsmTo o v e (goDown v)
  | resign : v.state = .start → v.nodeId ≠ nodeFirst v.nodeList →
      FsmTo o v .masterDown (failTransition v [])
  | claim {calls : List Effect} : v.nodeId = nodeFirst v.nodeList →
      v.state = .start ∧ calls = [] ∨ v.state = .backup ∧ calls = recoverCalls v.config →
        FsmTo o v .masterDown (becomeMaster o v calls)
  | cleanUp : v.state = .backup → v.nodeId ≠ nodeFirst v.nodeList →
      FsmTo o v .masterDown ⟨.success, v, cleanUpCalls v⟩
  | observe : v.state = .start → FsmTo o v .masterUp (observe v)
  | nodeup : v.state ≠ .idle → FsmTo o v .backupUp (nodeup o v)
  | backupup : v.state ≠ .idle → FsmTo o v .backupUp (backupup o v)
  | request {n : Node} {l : List Node} : v.state = .master → v.nodeList = n :: l →
      n.nodeid ≠ v.nodeId → FsmTo o v .rbackReq (rollback o v)
  | resume {e : Event} : v.state = .rback → FsmTo o v e ⟨.success, { v with state := .master }, []⟩
  | goUp : v.state = .idle → FsmTo o v .startup (goUp o v)

/-- **What a transaction can come to**: the rows of the table, and the branches of their actions. -/
theorem fsmTo_fsmDoTransaction (o : Outcome) (v : Vip) (e : Event) :
    FsmTo o v e (fsmDoTransaction o v e) := by
  -- `rback_stop` stands in two rows of the table.
  have hrs (e : Event) (hs : v.state = .rback) : FsmTo o v e (rbackStop v) := by
    unfold rbackStop
    split_ifs
    exacts [.resume hs, .stay e .success]
  show FsmTo o v e (table o e v.state v)
  cases e with
  | startup =>
    cases hs : v.state with
    | idle => exact .goUp hs
    | _ => exact .stay _ .failure
  | duplicate =>
    cases hs : v.state with
    | start => exact .down (by simp [hs])
    | idle => exact .stay _ .failure
    | _ => exact .stay _ .success
  | masterDown =>
    cases hs : v.state with
    | start =>
      show FsmTo o v .masterDown (act o v)
      unfold act
      split_ifs with hf
      exacts [.claim hf (Or.inl ⟨hs, rfl⟩), .resign hs hf]
    | backup =>
      show FsmTo o v .masterDown (react o v)
      unfold react
      split_ifs with hf
      exacts [.claim hf (Or.inr ⟨hs, rfl⟩), .cleanUp hs hf]
    | _ => exact .stay _ .failure
  | masterUp =>
    cases hs : v.state with
    | start => exact .observe hs
    | _ => exact .stay _ .failure
  | backupDown =>
    cases hs : v.state with
    | idle => exact .stay _ .failure
    | rback => exact hrs _ hs
    | _ => exact .stay _ .success
  | backupUp =>
    cases hs : v.state with
    | idle => exact .stay _ .failure
    | start | backup => exact .nodeup (by simp [hs])
    | master | rback => exact .backupup (by simp [hs])
  | rbackReq =>
    cases hs : v.state with
    | master =>
      show FsmTo o v .rbackReq (rollback o v)
      -- a master that heads its list, or has none, hands over to nobody
      cases hl : v.nodeList with
      | nil =>
        rw [rollback, hl]
        exact .stay _ .success
      | cons n l =>
        by_cases hn : n.nodeid = v.nodeId
        · rw [rollback, hl]
          simp only [hn, ne_eq, not_true_eq_false, if_false]
          exact .stay _ .success
        · exact .request hs hl hn
    | rback => exact hrs _ hs
    | _ => exact .stay _ .failure
  | stop =>
    cases hs : v.state with
    | idle => exact .stay _ .failure
    | _ => exact .down (by simp [hs])

/-- A request that finds another node at the head of the list. -/
theorem rollback_cons {o : Outcome} {v : Vip} {n : Node} {l : List Node} (hl : v.nodeList = n :: l)
    (hn : n.nodeid ≠ v.nodeId) : rollback o v =
      match o.threadCreate with
      | some t =>
        ⟨.success, { v with rollbackNodeId := n.nodeid, state := .rback, rollbackThread := some t },
          [.createRollbackThread t]⟩
      | none => ⟨.failure, { v with rollbackNodeId := n.nodeid, state := .rback }, []⟩ := by
  rw [rollback, hl]
  exact if_pos hn

/-! ## What the actions leave alone -/

@[simp] theorem goDownReset_config (v : Vip) : (goDownReset v).config = v.config := rfl

@[simp] theorem goDown_config (v : Vip) : (goDown v).vip.config = v.config := rfl

@[simp] theorem goDown_state (v : Vip) : (goDown v).vip.state = .idle := rfl

@[simp] theorem failTransition_vip (v : Vip) (calls : List Effect) :
    (failTransition v calls).vip = (goDown v).vip := rfl

theorem becomeMaster_vip (o : Outcome) (v : Vip) (recovery : List Effect) :
    (becomeMaster o v recovery).vip =
      if o.addVip ∧ o.sendGarp then { v with state := .master } else (goDown v).vip := by
  cases ha : o.addVip <;> cases hg : o.sendGarp <;> simp [becomeMaster, ha, hg] <;> rfl

/-- The record `w` comes from `v` by going down, or by writes of the state, the rollback target and
the thread handles. -/
def Vip.Moved (v w : Vip) : Prop :=
  w = (goDown v).vip ∨ ∃ (s : State) (r : NodeId) (rt vt : Option ThreadId), w =
    { v with state := s, rollbackNodeId := r, rollbackThread := rt, virtualIpThread := vt }

/-- **What a transaction does to the record.** -/
theorem fsmDoTransaction_moved (o : Outcome) (v : Vip) (e : Event) :
    v.Moved (fsmDoTransaction o v e).vip := by
  have hto := fsmTo_fsmDoTransaction o v e
  generalize fsmDoTransaction o v e = r at hto ⊢
  cases hto with
  | down | resign => exact Or.inl rfl
  | claim =>
    rw [becomeMaster_vip]
    split_ifs
    exacts [Or.inr ⟨_, _, _, _, rfl⟩, Or.inl rfl]
  | request _ hl hn =>
    rw [rollback_cons hl hn]
    cases o.threadCreate <;> exact Or.inr ⟨_, _, _, _, rfl⟩
  | goUp =>
    rw [goUp]
    cases o.threadCreate <;> exact Or.inr ⟨_, _, _, _, rfl⟩
  | stay | cleanUp | observe | nodeup | backupup | resume => exact Or.inr ⟨_, _, _, _, rfl⟩

/-- No action changes the configuration. -/
theorem fsmDoTransaction_config (o : Outcome) (v : Vip) (e : Event) :
    (fsmDoTransaction o v e).vip.config = v.config := by
  rcases fsmDoTransaction_moved o v e with h | ⟨s, r, rt, vt, h⟩
  all_goals rw [h]
  rfl

/-- The list a transaction leaves is the one it finds, or empty. -/
theorem fsmDoTransaction_nodeList (o : Outcome) (v : Vip) (e : Event) :
    (fsmDoTransaction o v e).vip.nodeList = v.nodeList ∨
      (fsmDoTransaction o v e).vip.nodeList = [] := by
  rcases fsmDoTransaction_moved o v e with h | ⟨s, r, rt, vt, h⟩
  · exact Or.inr (by rw [h]; rfl)
  · exact Or.inl (by rw [h])

/-- **Only a start leads to `ST_START`**: any other transaction that ends there has left the record
alone. -/
theorem fsmDoTransaction_start {o : Outcome} {v : Vip} {e : Event} (he : e ≠ .startup)
    (h : (fsmDoTransaction o v e).vip.state = .start) : (fsmDoTransaction o v e).vip = v := by
  have hto := fsmTo_fsmDoTransaction o v e
  generalize fsmDoTransaction o v e = r at hto h ⊢
  cases hto with
  | stay | cleanUp | nodeup | backupup => rfl
  | down | resign | observe | resume => cases h
  | claim =>
    rw [becomeMaster_vip] at h
    split_ifs at h
    cases h
  | request _ hl hn =>
    rw [rollback_cons hl hn] at h
    cases ht : o.threadCreate <;> simp [ht] at h
  | goUp => exact absurd rfl he

/-! ## Going down -/

theorem becomeMaster_down {o : Outcome} {v : Vip} {calls : List Effect}
    (h : (becomeMaster o v calls).vip.state = .idle) :
    (becomeMaster o v calls).vip = (goDown v).vip ∧
      ∃ before w, (becomeMaster o v calls).effects = before ++ (goDown w).effects := by
  rw [becomeMaster_vip] at h ⊢
  split_ifs at h ⊢ with hok
  refine ⟨rfl, ?_⟩
  simp only [becomeMaster]
  -- either call fails, and `go_down` comes last
  split_ifs with ha hg
  · exact absurd ⟨ha, hg⟩ hok
  · exact ⟨_, _, rfl⟩
  · exact ⟨_, _, rfl⟩

/-- **A running vip becomes idle only through `go_down`**, which is the last thing the transaction
does. -/
theorem fsmDoTransaction_down {o : Outcome} {v : Vip} {e : Event} (hv : v.state ≠ .idle)
    (h : (fsmDoTransaction o v e).vip.state = .idle) :
    (fsmDoTransaction o v e).vip = (goDown v).vip ∧
      ∃ before w, (fsmDoTransaction o v e).effects = before ++ (goDown w).effects := by
  have hto := fsmTo_fsmDoTransaction o v e
  generalize fsmDoTransaction o v e = r at hto h ⊢
  cases hto with
  | down => exact ⟨rfl, [], v, rfl⟩
  | resign => exact ⟨rfl, [], v, rfl⟩
  | claim => exact becomeMaster_down h
  -- the other results leave the vip running
  | stay | cleanUp | nodeup | backupup => exact absurd h hv
  | observe | resume => cases h
  | request _ hl hn =>
    rw [rollback_cons hl hn] at h
    cases ht : o.threadCreate <;> simp [ht] at h
  | goUp hs => exact absurd hs hv

/-! ## Calls -/

/-- The calls that only a start or a statement makes. -/
def Effect.isOutside : Effect → Bool
  | .createVipThread _ | .trackEvent _ _ => true
  | _ => false

theorem isOutside_goDown (v : Vip) : ∀ c ∈ (goDown v).effects, c.isOutside = false := by
  simp only [goDown, List.mem_append, List.mem_map, List.mem_singleton]
  rintro c (((⟨t, -, rfl⟩ | ⟨t, -, rfl⟩) | rfl) | ⟨p, -, rfl⟩) <;> rfl

theorem isOutside_becomeMaster (o : Outcome) (v : Vip) {calls : List Effect}
    (hcalls : ∀ c ∈ calls, c.isOutside = false) :
    ∀ c ∈ (becomeMaster o v calls).effects, c.isOutside = false := by
  intro c
  simp only [becomeMaster, failTransition, virtualIpSendState]
  split_ifs <;> simp only [List.mem_append, List.mem_cons, List.not_mem_nil, or_false]
  -- both calls succeed, the second fails, the first fails
  · rintro (((rfl | rfl) | hc) | rfl)
    exacts [rfl, rfl, hcalls c hc, rfl]
  · rintro ((rfl | rfl | rfl) | hc)
    exacts [rfl, rfl, rfl, isOutside_goDown _ c hc]
  · rintro (rfl | hc)
    exacts [rfl, isOutside_goDown _ c hc]

/-- **Only a start creates a `vip_thread`**, and no transaction hands a statement to sofia. -/
theorem isOutside_fsmDoTransaction (o : Outcome) (v : Vip) {e : Event} (he : e ≠ .startup) :
    ∀ c ∈ (fsmDoTransaction o v e).effects, c.isOutside = false := by
  have hnone : ∀ c ∈ ([] : List Effect), c.isOutside = false := by simp
  have hto := fsmTo_fsmDoTransaction o v e
  generalize fsmDoTransaction o v e = r at hto ⊢
  cases hto with
  | down | resign => exact isOutside_goDown v
  | @claim calls _ hc =>
    apply isOutside_becomeMaster o v
    intro c hmem
    rcases hc with ⟨-, rfl⟩ | ⟨-, rfl⟩
    · exact hnone c hmem
    · obtain ⟨p, -, rfl⟩ := List.mem_map.mp hmem
      rfl
  | cleanUp =>
    intro c hc
    obtain ⟨p, -, rfl⟩ := List.mem_map.mp hc
    rfl
  | nodeup => simp [nodeup, virtualIpSendState, Effect.isOutside]
  | backupup => simp [backupup, virtualIpSendState, virtualIpSendAllSql, Effect.isOutside]
  | request _ hl hn =>
    rw [rollback_cons hl hn]
    cases o.threadCreate <;> simp [Effect.isOutside]
  | stay | observe | resume => exact hnone
  | goUp => exact absurd rfl he

/-- What `goDown` does not call. -/
theorem sendState_notMem_goDown (v : Vip) (nm : NodeMsg) :
    Effect.sendState nm ∉ (goDown v).effects := by
  simp [goDown]

theorem sendState_mem_becomeMaster {o : Outcome} {v : Vip} {nm : NodeMsg} {calls : List Effect}
    (hc : Effect.sendState nm ∉ calls) (h : Effect.sendState nm ∈ (becomeMaster o v calls).effects) :
    nm = nodeMsg o (becomeMaster o v calls).vip ∧ (becomeMaster o v calls).vip.state = .master := by
  simp only [becomeMaster] at h ⊢
  split_ifs at h ⊢
  -- the announcement comes last; without the address there is none
  · simp only [virtualIpSendState, List.mem_append, List.mem_cons, List.not_mem_nil, or_false,
      reduceCtorEq, false_or, hc, Effect.sendState.injEq] at h
    exact ⟨h, rfl⟩
  · simp [failTransition, sendState_notMem_goDown] at h
  · simp [failTransition, sendState_notMem_goDown] at h

/-- **A transaction announces the state it ends in**, which is not idle; only an arrival makes it
announce another state than that of a new master. -/
theorem sendState_mem {o : Outcome} {v : Vip} {e : Event} {nm : NodeMsg}
    (h : Effect.sendState nm ∈ (fsmDoTransaction o v e).effects) :
    nm = nodeMsg o (fsmDoTransaction o v e).vip ∧ (fsmDoTransaction o v e).vip.state ≠ .idle ∧
      (e = .backupUp ∨ (fsmDoTransaction o v e).vip.state = .master) := by
  have hto := fsmTo_fsmDoTransaction o v e
  generalize fsmDoTransaction o v e = r at hto h ⊢
  cases hto with
  | @claim calls _ hc =>
    have hcalls : Effect.sendState nm ∉ calls := by
      rcases hc with ⟨-, rfl⟩ | ⟨-, rfl⟩ <;> simp [recoverCalls]
    obtain ⟨hnm, hm⟩ := sendState_mem_becomeMaster hcalls h
    exact ⟨hnm, by simp [hm], Or.inr hm⟩
  | nodeup hs => exact ⟨by simpa [nodeup, virtualIpSendState] using h, hs, Or.inl rfl⟩
  | backupup hs =>
    exact ⟨by simpa [backupup, virtualIpSendState, virtualIpSendAllSql] using h, hs, Or.inl rfl⟩
  -- the others do not send
  | down => exact absurd h (sendState_notMem_goDown v nm)
  | resign => exact absurd h (by simp [failTransition, sendState_notMem_goDown])
  | cleanUp => exact absurd h (by simp [cleanUpCalls])
  | stay | observe | resume => cases h
  | request _ hl hn =>
    rw [rollback_cons hl hn] at h
    cases ht : o.threadCreate <;> simp [ht] at h
  | goUp =>
    rw [goUp] at h
    cases ht : o.threadCreate <;> simp [ht] at h

end CpgFailover
