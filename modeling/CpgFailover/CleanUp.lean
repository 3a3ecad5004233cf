import CpgFailover.Departures
import CpgFailover.Wire

/-!
# The clean-up after a master

A backup that does not take over when the master departs deletes the calls of the master from its
recovery table: `react` calls `utils_clean_up_table` for the profiles, with the uuid in the record.
The master and the uuid are fields of their own. A message of a serving node writes both, `go_down`
clears the first only, and nothing in the record says that they belong together.

## Main definitions

* `lastServing`: the last state message of a serving node, with its sender
* `Remembers`: the master in the record, if any, has sent that message, and the uuid is the one in
  it
* `Proc.departures`: the departures of a configuration change, each with its calls
* `CleansUpAfter`: the rows of the departed master are deleted, once for each profile
* `Config.Gapless`: no profile stands behind a slot without a name

## Main results

* `remembers_of_run`: the record pairs the master with its uuid in every run
* `cleanUp_of_callback`: a callback cleans up for a departure and for nothing else
* `cleanUp_of_run`: it passes the uuid of the departed master
* `cleansUpAfter_iff`: when every profile is cleaned up
* `hidden_profile_kept`: a profile behind an empty name keeps its rows
-/

namespace CpgFailover

open Agreed (Entry)
open Transition

/-! ## The last message of a serving node -/

/-- The uuid that a message carries, in a field of `uuidSize` bytes. -/
def NodeMsg.uuid (nm : NodeMsg) : CString := snprintf uuidSize nm.runtimeUuid

/-- The state message of a node in `ST_MASTER` or `ST_RBACK`, with its sender. -/
def servingMessage : Entry NodeId Msg → Option (NodeId × NodeMsg)
  | .message nodeid (.nodeState nm) => if nm.state.serves then some (nodeid, nm) else none
  | _ => none

/-- The message of a serving node that a step handles, if it does. -/
def Input.servingMessage : Input → Option (NodeId × NodeMsg)
  | .deliver _ _ e => CpgFailover.servingMessage e
  | _ => none

/-- The last message of a serving node that the steps handle. -/
def lastServing (is : List Input) : Option (NodeId × NodeMsg) :=
  (is.filterMap Input.servingMessage).getLast?

theorem lastServing_snoc (is : List Input) (i : Input) :
    lastServing (is ++ [i]) = i.servingMessage.or (lastServing is) := by
  rw [lastServing, lastServing, List.filterMap_append, List.getLast?_append]
  cases h : i.servingMessage <;> simp [h]

/-! ## What the record remembers -/

/-- The master in the record, if there is one, has sent the last message of a serving node, and the
uuid in the record is the one of that message. -/
structure Remembers (c : Config) (last : Option (NodeId × NodeMsg)) (v : Vip) : Prop where
  config : v.config = c
  master : v.masterId ≠ 0 → ∃ nm, last = some (v.masterId, nm) ∧ v.runtimeUuid = nm.uuid

section Record

variable {c : Config} {last : Option (NodeId × NodeMsg)} {v : Vip} {o : Outcome}

theorem Remembers.reset (h : Remembers c last v) : Remembers c last (goDownReset v) :=
  ⟨h.config, fun hm => absurd rfl hm⟩

/-- A transaction keeps both fields, or goes down and forgets the master. -/
theorem Remembers.fsm (h : Remembers c last v) (e : Event) :
    Remembers c last (fsmDoTransaction o v e).vip := by
  rcases fsmDoTransaction_moved o v e with hw | ⟨s, r, rt, vt, hw⟩
  · rw [hw]
    exact ⟨h.config, fun hm => absurd rfl hm⟩
  · rw [hw]
    exact ⟨h.config, h.master⟩

/-- A departure takes the node off the list, and leaves it the master if it was. -/
theorem Remembers.nodeDown (h : Remembers c last v) (x : NodeId) :
    Remembers c last (fsmInputNodeDown o v x).vip :=
  Remembers.fsm (v := forget v x) ⟨h.config, h.master⟩ _

theorem Remembers.nodesDown (h : Remembers c last v) (left : List NodeId) :
    Remembers c last (nodesDown o v left).1 := by
  induction left generalizing v with
  | nil => exact h
  | cons x left ih => exact ih (h.nodeDown x)

/-- A message of a serving node writes both fields, and any other neither. -/
theorem Remembers.learn (h : Remembers c last v) (nm : NodeMsg) (y : NodeId) :
    Remembers c ((servingMessage (.message y (.nodeState nm))).or last) (learn o v nm y) := by
  refine ⟨(learn_config o v nm y).trans h.config, fun hm => ?_⟩
  rw [learn_eq] at hm ⊢
  by_cases hs : nm.state.serves = true
  · simp only [servingMessage, hs, if_true, Option.some_or]
    exact ⟨nm, rfl, rfl⟩
  · simp only [servingMessage, hs] at hm ⊢
    exact h.master hm

/-- **A callback keeps the pair together.** -/
theorem Remembers.handle (h : Remembers c last v) (e : Entry NodeId Msg) :
    Remembers c ((servingMessage e).or last) (handle o v e).1 := by
  cases e with
  | confchg members left joined =>
    have hleft : Remembers c last
        (CpgFailover.nodesDown o { v with memberListEntries := members.length } left).1 :=
      Remembers.nodesDown (v := { v with memberListEntries := members.length })
        ⟨h.config, h.master⟩ left
    simp only [CpgFailover.handle, confchgCallback]
    split_ifs
    · exact hleft.fsm .backupUp
    · exact hleft
  | message y m =>
    cases m with
    | sql name sql => exact h
    | nodeState nm =>
      simp only [CpgFailover.handle, deliverCallback, fsmInputNewStateMessage]
      split
      · exact (h.learn nm y).fsm _
      · exact h.learn nm y

end Record

section Runs

variable {c : Config} {is : List Input} {p p' : Proc}

/-- One step, with the message that it handles. -/
theorem Remembers.step (h : Remembers c (lastServing is) p.vip) {i : Input}
    (hs : p.step i = some p') : Remembers c (lastServing (is ++ [i])) p'.vip := by
  rw [lastServing_snoc]
  by_cases hi : ∃ t o e, i = .deliver t o e
  · obtain ⟨t, o, e, rfl⟩ := hi
    cases Proc.stepTo_of_step hs with
    | deliver =>
      rw [Proc.handleEntry_vip]
      exact h.handle e
  · -- no other step handles a message
    have hnone : i.servingMessage = none := by
      cases i with
      | deliver t o e => exact absurd ⟨t, o, e, rfl⟩ hi
      | _ => rfl
    rw [hnone, Option.none_or]
    rcases Proc.step_vip hs with ⟨-, t, hv⟩ | ⟨-, hv⟩ | ⟨t, x, -, hv⟩ | ⟨t, o, e, he, -⟩ |
      ⟨r, t, hv⟩
    · rw [hv]
      exact ⟨h.config, h.master⟩
    · rw [hv]
      exact h.reset
    · rw [hv]
      exact ⟨h.config, h.master⟩
    · exact absurd ⟨t, o, e, he⟩ hi
    · rw [hv]
      exact ⟨h.config, h.master⟩

/-- **In every run the record pairs the master with its uuid**, through all starts and stops. -/
theorem remembers_of_run (h : run Proc.step (Proc.fresh c) is = some p) :
    Remembers c (lastServing is) p.vip :=
  run_induction (I := fun is p => Remembers c (lastServing is) p.vip) h
    ⟨rfl, fun hm => absurd rfl hm⟩ fun _ _ _ _ hI hs => hI.step hs

end Runs

/-! ## The departures of a callback -/

/-- The left loop of `ConfchgCallback`: each departed node with the calls made for it. -/
def departures (o : Outcome) (v : Vip) : List NodeId → List (NodeId × List Effect)
  | [] => []
  | nodeid :: rest =>
    let r := fsmInputNodeDown o v nodeid
    (nodeid, r.effects) :: departures o r.vip rest

/-- The departures of a configuration change, when the process handles it. -/
def Proc.departures (p : Proc) (o : Outcome) (memberList leftList : List NodeId) :
    List (NodeId × List Effect) :=
  CpgFailover.departures (p.withHandle o) { p.vip with memberListEntries := memberList.length }
    leftList

section Departures

variable {c : Config} {last : Option (NodeId × NodeMsg)} {v : Vip} {o : Outcome} {e : Event}
  {x : NodeId} {calls : List Effect}

theorem nodesDown_calls (left : List NodeId) :
    (nodesDown o v left).2 = (departures o v left).flatMap Prod.snd := by
  induction left generalizing v with
  | nil => rfl
  | cons x left ih =>
    simp only [nodesDown, departures, List.flatMap_cons]
    rw [ih]

/-- Only a backup that loses its master cleans up, and then it makes no other call. -/
theorem fsm_cleans (h : (fsmDoTransaction o v e).effects.any cleans = true) :
    e = .masterDown ∧ v.state = .backup ∧ (fsmDoTransaction o v e).effects = cleanUpCalls v := by
  have hto := fsmTo_fsmDoTransaction o v e
  generalize fsmDoTransaction o v e = r at hto h ⊢
  cases hto with
  | cleanUp hs => exact ⟨rfl, hs, rfl⟩
  | down =>
    rw [(goDown_any v).1] at h
    cases h
  | resign =>
    rw [failTransition, List.nil_append, (goDown_any v).1] at h
    cases h
  | @claim calls _ hc =>
    have hcalls : calls.any cleans = false ∧ calls.any unbinds = false := by
      rcases hc with ⟨-, rfl⟩ | ⟨-, rfl⟩ <;> simp [recoverCalls, cleans, unbinds]
    rw [(becomeMaster_any o v hcalls.1 hcalls.2).2.1] at h
    cases h
  | nodeup => simp [nodeup, virtualIpSendState, cleans] at h
  | backupup => simp [backupup, virtualIpSendState, virtualIpSendAllSql, cleans] at h
  | request _ hl hn =>
    rw [rollback_cons hl hn] at h
    cases ht : o.threadCreate <;> simp [ht, cleans] at h
  | goUp =>
    rw [goUp] at h
    cases ht : o.threadCreate <;> simp [ht, cleans] at h
  | stay | observe | resume => cases h

/-- A departure that cleans up is that of the remembered master. -/
theorem nodeDown_cleans (h : (fsmInputNodeDown o v x).effects.any cleans = true) :
    v.masterId = x ∧ (fsmInputNodeDown o v x).effects = cleanUpCalls v := by
  obtain ⟨he, -, hcalls⟩ := fsm_cleans h
  refine ⟨?_, hcalls⟩
  rw [nodeDownEvent] at he
  split_ifs at he with hm
  exact hm

/-- A message does not clean up: the one that says the master is down finds a vip that starts. -/
theorem message_cleans (nm : NodeMsg) (y : NodeId) :
    (fsmInputNewStateMessage o v nm y).effects.any cleans = false := by
  by_contra h
  rw [Bool.not_eq_false, fsmInputNewStateMessage] at h
  have hraises := messageRaises_stateMessageEvent (learn o v nm y) nm y
  cases hev : stateMessageEvent (learn o v nm y) nm y with
  | none =>
    simp only [hev] at h
    cases h
  | some event =>
    simp only [hev] at h
    obtain ⟨rfl, hbackup, -⟩ := fsm_cleans h
    rw [hev] at hraises
    cases hraises with
    | alone _ hstart =>
      rw [hbackup] at hstart
      cases hstart

/-- Every departure that cleans up finds the pair in the record. -/
theorem Remembers.departures (h : Remembers c last v) {left : List NodeId}
    (hdep : (x, calls) ∈ departures o v left) (hclean : calls.any cleans = true) :
    ∃ w, Remembers c last w ∧ w.masterId = x ∧ calls = cleanUpCalls w := by
  induction left generalizing v with
  | nil => cases hdep
  | cons y left ih =>
    rcases List.mem_cons.mp hdep with heq | hrest
    · obtain ⟨rfl, rfl⟩ := Prod.mk.inj heq
      obtain ⟨hm, hcalls⟩ := nodeDown_cleans hclean
      exact ⟨v, h, hm, hcalls⟩
    · exact ih (h.nodeDown y) hrest

/-- **A callback cleans up for a departure** and for nothing else. -/
theorem cleanUp_of_callback {p : Proc} {e : Entry NodeId Msg}
    (h : (p.handleEntry o e).2.any cleans = true) :
    ∃ members left joined, e = .confchg members left joined ∧
      ∃ x calls, (x, calls) ∈ p.departures o members left ∧ calls.any cleans = true := by
  rw [Proc.handleEntry_calls] at h
  cases e with
  | confchg members left joined =>
    refine ⟨members, left, joined, rfl, ?_⟩
    have hleft : ((nodesDown (p.withHandle o)
        { p.vip with memberListEntries := members.length } left).2).any cleans = true := by
      simp only [handle, confchgCallback] at h
      split_ifs at h
      · rw [List.any_append, Bool.or_eq_true] at h
        -- an arrival does not clean up
        refine h.resolve_right fun hup => ?_
        cases (fsm_cleans hup).1
      · exact h
    rw [nodesDown_calls] at hleft
    obtain ⟨call, hmem, hcall⟩ := List.any_eq_true.mp hleft
    obtain ⟨⟨x, calls⟩, hdep, hin⟩ := List.mem_flatMap.mp hmem
    exact ⟨x, calls, hdep, List.any_eq_true.mpr ⟨call, hin, hcall⟩⟩
  | message y m =>
    exfalso
    cases m with
    | sql name sql =>
      -- a statement is handed to sofia, if anything
      obtain ⟨call, hmem, hcall⟩ := List.any_eq_true.mp h
      obtain ⟨-, rfl⟩ := mem_handle_sql hmem
      cases hcall
    | nodeState nm =>
      simp only [handle, deliverCallback, message_cleans] at h
      cases h

end Departures

/-! ## The profiles -/

/-- No slot behind one without a name has a name. -/
def Config.Gapless (c : Config) : Prop :=
  ∀ name ∈ (slotNames c.profiles).dropWhile (· ≠ []), name = []

instance (c : Config) : Decidable c.Gapless := by
  unfold Config.Gapless
  infer_instance

/-- The calls clean up after the node: the last message of a serving node was its own, and the rows
of the uuid in it are deleted once for each profile in a slot. -/
def CleansUpAfter (c : Config) (is : List Input) (x : NodeId) (calls : List Effect) : Prop :=
  ∃ nm, lastServing is = some (x, nm) ∧
    calls.Perm (((slotNames c.profiles).filter (· ≠ [])).map (.cleanUpTable nm.uuid))

/-- The clean-up by the names of the slots: it stops at the first empty one. -/
theorem cleanUpCalls_eq (v : Vip) : cleanUpCalls v =
    ((slotNames v.config.profiles).takeWhile (· ≠ [])).map (.cleanUpTable v.runtimeUuid) := by
  rw [cleanUpCalls, Config.usedProfiles, slotNames, List.takeWhile_map, List.map_map]
  rfl

/-- What a filter keeps is the leading elements that meet it, and some of those behind. -/
theorem filter_eq_takeWhile_append {α : Type} (p : α → Bool) (l : List α) :
    l.filter p = l.takeWhile p ++ (l.dropWhile p).filter p := by
  have hlead : (l.takeWhile p).filter p = l.takeWhile p :=
    List.filter_eq_self.mpr fun a ha => List.mem_takeWhile_imp ha
  calc l.filter p = (l.takeWhile p ++ l.dropWhile p).filter p := by
        rw [List.takeWhile_append_dropWhile]
    _ = l.takeWhile p ++ (l.dropWhile p).filter p := by rw [List.filter_append, hlead]

/-- A loop that stops at the first empty name visits all others if and only if none stands behind
it. -/
theorem perm_takeWhile_iff {names : List CString} (f : CString → Effect) :
    ((names.takeWhile (· ≠ [])).map f).Perm ((names.filter (· ≠ [])).map f) ↔
      ∀ name ∈ names.dropWhile (· ≠ []), name = [] := by
  have hrest : (names.dropWhile (· ≠ [])).filter (· ≠ []) = [] ↔
      ∀ name ∈ names.dropWhile (· ≠ []), name = [] := by
    rw [List.filter_eq_nil_iff]
    simp
  rw [filter_eq_takeWhile_append, List.map_append, ← hrest]
  constructor
  · intro hperm
    have hlen := hperm.length_eq
    rw [List.length_append, List.length_map, List.length_map] at hlen
    exact List.eq_nil_of_length_eq_zero (by omega)
  · intro hnil
    rw [hnil, List.map_nil, List.append_nil]

section Runs

variable {c : Config} {is : List Input} {p : Proc} {o : Outcome} {members left : List NodeId}
  {x : NodeId} {calls : List Effect}

/-- **The clean-up hits the departed master only**: it passes the uuid of the last message of a
serving node, and the sender of that message has departed. -/
theorem cleanUp_of_run (hrun : run Proc.step (Proc.fresh c) is = some p) (hx : x ≠ 0)
    (hdep : (x, calls) ∈ p.departures o members left) (hclean : calls.any cleans = true) :
    ∃ nm, lastServing is = some (x, nm) ∧
      calls = ((slotNames c.profiles).takeWhile (· ≠ [])).map (.cleanUpTable nm.uuid) := by
  have hrem := remembers_of_run hrun
  have hconfchg : Remembers c (lastServing is)
      { p.vip with memberListEntries := members.length } := ⟨hrem.config, hrem.master⟩
  obtain ⟨w, hw, rfl, rfl⟩ := hconfchg.departures hdep hclean
  obtain ⟨nm, hlast, huuid⟩ := hw.master hx
  exact ⟨nm, hlast, by rw [cleanUpCalls_eq, hw.config, huuid]⟩

/-- **It hits all profiles of the master**, each of them once, if and only if none stands behind a
slot without a name. -/
theorem cleansUpAfter_iff (hrun : run Proc.step (Proc.fresh c) is = some p) (hx : x ≠ 0)
    (hdep : (x, calls) ∈ p.departures o members left) (hclean : calls.any cleans = true) :
    CleansUpAfter c is x calls ↔ c.Gapless := by
  obtain ⟨nm, hlast, rfl⟩ := cleanUp_of_run hrun hx hdep hclean
  rw [Config.Gapless, ← perm_takeWhile_iff (.cleanUpTable nm.uuid)]
  constructor
  · rintro ⟨nm', hlast', hperm⟩
    rw [hlast] at hlast'
    cases hlast'
    exact hperm
  · intro hperm
    exact ⟨nm, hlast, hperm⟩

end Runs

/-! ## A backup that does not take over -/

/-- Node 1 joins nodes 2 and 3. -/
def joinsTwo : List Input := threadUp ++ [.deliver 0 allSucceed (.confchg [1, 2, 3] [] [1])]

/-- It hears itself and the master, node 2. -/
def hearsMaster : List Input :=
  [.deliver 0 allSucceed (.message 1 (.nodeState ⟨0, .start, []⟩)),
    .deliver 0 allSucceed (.message 2 (.nodeState ⟨20, .master, [85]⟩))]

/-- It hears node 3, a backup that comes before it. -/
def hearsOther : List Input :=
  [.deliver 0 allSucceed (.message 3 (.nodeState ⟨10, .backup, [86]⟩))]

/-- A node that becomes a backup behind two others. -/
def joinsBehind : List Input := joinsTwo ++ (hearsMaster ++ hearsOther)

/-- A process with one `vip_thread`, in its loop. -/
def dispatching (v : Vip) : Proc := ⟨v, false, [⟨0, .dispatching⟩], [], [], 1⟩

/-- The record of node 1 before it has heard anybody. -/
def joinedTwo (c : Config) : Vip :=
  { Vip.fresh c with
    state := .start, virtualIpThread := some 0, nodeId := 1, memberListEntries := 3 }

/-- The record after it has heard itself and the master. -/
def heardMaster (c : Config) : Vip :=
  { joinedTwo c with masterId := 2, runtimeUuid := [85], nodeList := [⟨2, 20⟩, ⟨1, 0⟩] }

/-- The record after it has heard everybody. -/
def behindTwo (c : Config) : Vip :=
  { heardMaster c with state := .backup, nodeList := [⟨2, 20⟩, ⟨3, 10⟩, ⟨1, 0⟩] }

/-- A node of priority 0 becomes a backup, whatever else is configured. -/
theorem run_joinsBehind {c : Config} (hc : c.priority = 0) :
    run Proc.step (Proc.fresh c) joinsBehind = some (dispatching (behindTwo c)) := by
  obtain ⟨c, rfl⟩ : ∃ c', c = { c' with priority := 0 } := ⟨c, by rw [← hc]⟩
  have hjoins : run Proc.step (Proc.fresh { c with priority := 0 }) joinsTwo =
      some (dispatching (joinedTwo { c with priority := 0 })) := by
    rfl
  have hmaster : run Proc.step (dispatching (joinedTwo { c with priority := 0 })) hearsMaster =
      some (dispatching (heardMaster { c with priority := 0 })) := by
    rfl
  rw [joinsBehind, run_append, hjoins, Option.bind_some, run_append, hmaster]
  rfl

/-- The master departs, and it is the turn of node 3. -/
theorem departures_behindTwo (c : Config) :
    (dispatching (behindTwo c)).departures allSucceed [1, 3] [2] =
      [(2, cleanUpCalls (behindTwo c))] := by
  rfl

/-- A table with a gap between its two profiles. -/
def gappedProfiles : List.Vector SofiaProfile maxSofiaProfiles :=
  ⟨⟨[101, 120, 116], true⟩ :: ⟨[], false⟩ :: ⟨[105, 110, 116], false⟩ ::
    List.replicate (maxSofiaProfiles - 3) ⟨[], false⟩, by decide⟩

/-- With two profiles two clean-ups, unless there is a gap between them. -/
theorem cleansUpAfter_iff_twoProfiles :
    CleansUpAfter (plainConfig 0 twoProfiles) joinsBehind 2
      [.cleanUpTable [85] [101, 120, 116], .cleanUpTable [85] [105, 110, 116]] ∧
    ¬ CleansUpAfter (plainConfig 0 gappedProfiles) joinsBehind 2
      [.cleanUpTable [85] [101, 120, 116]] := by
  have htwo : (2, [.cleanUpTable [85] [101, 120, 116], .cleanUpTable [85] [105, 110, 116]]) ∈
      (dispatching (behindTwo (plainConfig 0 twoProfiles))).departures allSucceed [1, 3] [2] := by
    rw [departures_behindTwo]
    exact List.mem_singleton.mpr rfl
  have hgap : (2, [.cleanUpTable [85] [101, 120, 116]]) ∈
      (dispatching (behindTwo (plainConfig 0 gappedProfiles))).departures allSucceed [1, 3] [2] := by
    rw [departures_behindTwo]
    exact List.mem_singleton.mpr rfl
  constructor
  · exact (cleansUpAfter_iff (run_joinsBehind rfl) (by decide) htwo rfl).mpr (by decide)
  · exact mt (cleansUpAfter_iff (run_joinsBehind rfl) (by decide) hgap rfl).mp (by decide)

/-- **A profile behind an empty name keeps the rows** of the departed master. -/
theorem hidden_profile_kept :
    ¬ ∀ (sys : Platform) (x : VirtualIpElement) (r : ConfiguredVip) (is : List Input) (p : Proc)
      (o : Outcome) (members left : List NodeId) (y : NodeId) (calls : List Effect),
      configure sys x = some r → run Proc.step (Proc.fresh (r.config sys.byteOrder)) is = some p →
        y ≠ 0 → (y, calls) ∈ p.departures o members left → calls.any cleans = true →
          CleansUpAfter (r.config sys.byteOrder) is y calls := by
  intro h
  obtain ⟨r, hr⟩ := Option.isSome_iff_exists.mp
    (show (configure everyProfile (withProfiles [lettered 0, nameless, lettered 1])).isSome by
      decide)
  have hpriority : (r.config .little).priority = 0 := by
    show r.priority = 0
    rw [(configure_eq hr).2]
    rfl
  have hnames : slotNames (behindTwo (r.config .little)).config.profiles =
      [[97], [], [98], [], [], [], [], []] := by
    have htable := slotNames_configure hr
    rw [tableNames_eq (by decide)] at htable
    exact htable.trans (by decide)
  have hdep : (2, cleanUpCalls (behindTwo (r.config .little))) ∈
      (dispatching (behindTwo (r.config .little))).departures allSucceed [1, 3] [2] := by
    rw [departures_behindTwo]
    exact List.mem_singleton_self _
  have hclean : (cleanUpCalls (behindTwo (r.config .little))).any cleans = true := by
    rw [cleanUpCalls_eq, hnames]
    rfl
  obtain ⟨nm, hlast, hperm⟩ := h everyProfile _ r _ _ allSucceed [1, 3] [2] 2 _ hr
    (run_joinsBehind hpriority) (by decide) hdep hclean
  have hmaster : lastServing joinsBehind = some (2, ⟨20, .master, [85]⟩) := by decide
  rw [hmaster] at hlast
  cases hlast
  rw [cleanUpCalls_eq] at hperm
  have hgapless := (perm_takeWhile_iff _).mp hperm
  rw [hnames] at hgapless
  revert hgapless
  decide

end CpgFailover
