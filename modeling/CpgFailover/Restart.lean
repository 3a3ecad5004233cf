import CpgFailover.Activation

/-!
# What an activation leaves behind

`go_down` clears the record, but the callbacks write it before they look at the state, and they are
still called between a `go_down` and the end of the dispatch loop. As long as nothing but statements
reaches an idle vip, every activation starts on a clean record, and its callbacks make the calls
they would make on the record of a new process.

## Main definitions

* `Vip.Clean`: no node, master, rollback or group size is remembered
* `Harmless`: an entry that writes nothing into a clean idle record
* `Attentive`: an idle vip gets harmless entries only
* `callbacks`: the calls made on a list of entries
* `Alike`: records that differ at most in the runtime uuid of a master nobody has announced

## Main results

* `clean_handle_iff`: on an idle vip, the harmless entries are those that keep the record clean
* `Alike.callbacks`: such records make the same calls
* `clean_of_idle`: an idle vip is clean, and starts as a new one does
* `stale_list_after_duplicate`: a message after a `go_down` is remembered past the activation
-/

namespace CpgFailover

open Agreed Transition

/-- No node, master, rollback or group size is remembered. -/
structure Vip.Clean (v : Vip) : Prop where
  nodeList : v.nodeList = []
  masterId : v.masterId = 0
  rollbackNodeId : v.rollbackNodeId = 0
  memberListEntries : v.memberListEntries = 0

/-- An entry that writes nothing into a clean idle record: a statement, a change to an empty group,
or a message that finds no memory and announces no master. -/
def Harmless (o : Outcome) : Entry NodeId Msg → Prop
  | .confchg memberList _ _ => memberList = []
  | .message _ (.sql _ _) => True
  | .message nodeid (.nodeState nm) => o.malloc = false ∧ (nm.state.serves = true → nodeid = 0)

instance (o : Outcome) : (e : Entry NodeId Msg) → Decidable (Harmless o e)
  | .confchg _ _ _ | .message _ (.sql _ _) | .message _ (.nodeState _) => by
    unfold Harmless
    infer_instance

/-- An idle vip gets harmless entries only. -/
def Attentive (p : Proc) : Input → Prop
  | .deliver _ o e => p.vip.state = .idle → Harmless o e
  | _ => True

instance (p : Proc) : (i : Input) → Decidable (Attentive p i)
  | .start _ | .stop | .down _ | .cpgInitialize _ _ | .contextSet _ _ | .localGet _ _ _ | .join _ _
  | .deliver _ _ _ | .dispatchFails _ | .exitLoop _ | .leave _ | .finalize _ | .finish _ | .tick _
  | .rollbackStop _ | .rollbackWait _ | .rollbackStart _ _ => by unfold Attentive; infer_instance

/-! ## Idle means clean -/

namespace Vip

variable {o : Outcome} {v : Vip}

theorem clean_goDown (v : Vip) : (goDown v).vip.Clean := ⟨rfl, rfl, rfl, rfl⟩

/-- If the vip is idle, its record is clean. -/
def Tidy (v : Vip) : Prop := v.state = .idle → v.Clean

/-- A transaction that is no start ends tidy where it begins tidy: a vip that becomes idle has gone
down. -/
theorem Tidy.fsm (h : v.Tidy) {e : Event} (he : e ≠ .startup) :
    (fsmDoTransaction o v e).vip.Tidy := by
  intro hidle
  by_cases hs : v.state = .idle
  · rw [fsmDoTransaction_idle hs he]
    exact h hs
  · rw [(fsmDoTransaction_down hs hidle).1]
    exact clean_goDown v

/-- A departure takes nothing out of an empty list. -/
theorem Tidy.forget (h : v.Tidy) (x : NodeId) : (CpgFailover.forget v x).Tidy := by
  intro hidle
  obtain ⟨hl, hm, hr, hn⟩ := h hidle
  exact ⟨by simp [CpgFailover.forget, hl, nodeRemove], hm, by simp [CpgFailover.forget, hr], hn⟩

theorem Tidy.nodesDown (h : v.Tidy) (left : List NodeId) : (nodesDown o v left).1.Tidy := by
  induction left generalizing v with
  | nil => exact h
  | cons x left ih => exact ih ((h.forget x).fsm (nodeDownEvent_ne_startup v x))

/-- A callback ends tidy where it begins tidy, unless it writes into an idle record. -/
theorem Tidy.handle (h : v.Tidy) {e : Entry NodeId Msg} (he : v.state = .idle → Harmless o e) :
    (handle o v e).1.Tidy := by
  cases e with
  | confchg members left joined =>
    have hsize : Vip.Tidy { v with memberListEntries := members.length } := by
      intro hidle
      obtain ⟨hl, hm, hr, -⟩ := h hidle
      exact ⟨hl, hm, hr, List.length_eq_zero_iff.mpr (he hidle)⟩
    have hleft := hsize.nodesDown (o := o) left
    simp only [CpgFailover.handle, confchgCallback]
    split_ifs
    · exact hleft.fsm (by simp)
    · exact hleft
  | message y m =>
    cases m with
    | sql name sql => exact h
    | nodeState nm =>
      have hlearn : (learn o v nm y).Tidy := by
        intro hidle
        rw [learn_state] at hidle
        obtain ⟨hl, hm, hr, hn⟩ := h hidle
        obtain ⟨hmem, hzero⟩ := he hidle
        refine ⟨?_, ?_, ?_, (learn_memberListEntries ..).trans hn⟩
        · simp [hl, hmem, nodeAdd, nodeSearch]
        · rw [learn_masterId, hm]
          split_ifs with hsv
          exacts [hzero hsv, rfl]
        · rw [← hr]
          unfold learn
          split <;> rfl
      simp only [CpgFailover.handle, deliverCallback, fsmInputNewStateMessage]
      split
      · rename_i event he'
        apply hlearn.fsm
        rintro rfl
        exact stateMessageEvent_ne_startup _ _ _ he'
      · exact hlearn

/-- An idle vip takes departures without looking at the size of the group. -/
theorem nodesDown_idle (hv : v.state = .idle) (left : List NodeId) :
    (nodesDown o v left).1.state = .idle ∧
      (nodesDown o v left).1.memberListEntries = v.memberListEntries := by
  induction left generalizing v with
  | nil => exact ⟨hv, rfl⟩
  | cons x left ih =>
    have hone : (fsmInputNodeDown o v x).vip = CpgFailover.forget v x :=
      congrArg Result.vip (fsmDoTransaction_idle (v := CpgFailover.forget v x) hv
        (nodeDownEvent_ne_startup v x))
    simp only [nodesDown]
    rw [hone]
    exact ih hv

/-- **On an idle vip, the harmless entries are those that keep the record clean.** -/
theorem clean_handle_iff (hv : v.state = .idle) (hc : v.Clean) (e : Entry NodeId Msg) :
    (handle o v e).1.Clean ↔ Harmless o e := by
  refine ⟨fun h => ?_, fun he => ?_⟩
  · cases e with
    | confchg members left joined =>
      have hsize := h.memberListEntries
      obtain ⟨hi, hn⟩ := nodesDown_idle (o := o)
        (v := { v with memberListEntries := members.length }) hv left
      simp only [handle, confchgCallback] at hsize
      split_ifs at hsize
      · rw [fsmInputNodeUp, fsmDoTransaction_idle hi (by simp)] at hsize
        exact List.length_eq_zero_iff.mp (hn.symm.trans hsize)
      · exact List.length_eq_zero_iff.mp (hn.symm.trans hsize)
    | message y m =>
      cases m with
      | sql name sql => trivial
      | nodeState nm =>
        -- an idle vip does nothing with the message, once it is written down
        have hone : (handle o v (.message y (.nodeState nm))).1 = learn o v nm y := by
          simp only [handle, deliverCallback, fsmInputNewStateMessage]
          split
          · rename_i event he
            rw [fsmDoTransaction_idle ((learn_state ..).trans hv) _]
            · rfl
            · rintro rfl
              exact stateMessageEvent_ne_startup _ _ _ he
          · rfl
        rw [hone] at h
        refine ⟨?_, fun hsv => ?_⟩
        · by_contra hmem
          have hl := h.nodeList
          simp [hc.nodeList, hmem, nodeAdd, nodeSearch, insertNode] at hl
        · simpa [hsv] using h.masterId
  · exact Tidy.handle (fun _ => hc) (fun _ => he) (handle_idle hv e)

end Vip

/-! ## A record that differs in a stale runtime uuid -/

/-- The calls made on a list of entries. -/
def callbacks (v : Vip) : List (Outcome × Entry NodeId Msg) → List Effect
  | [] => []
  | (o, e) :: rest => (handle o v e).2 ++ callbacks (handle o v e).1 rest

/-- The record with another runtime uuid. -/
def Vip.withUuid (v : Vip) (uuid : CString) : Vip := { v with runtimeUuid := uuid }

/-- The records differ at most in the runtime uuid, as long as no master has been announced. -/
def Alike (u v : Vip) : Prop := u = v ∨ v.masterId = 0 ∧ ∃ uuid, u = v.withUuid uuid

section Alike

variable {o : Outcome} {u v : Vip}

/-- Only a backup that loses the master looks at the runtime uuid. -/
theorem fsmDoTransaction_withUuid (o : Outcome) (v : Vip) (uuid : CString) {e : Event}
    (he : e = .masterDown → v.state ≠ .backup) :
    fsmDoTransaction o (v.withUuid uuid) e =
      { fsmDoTransaction o v e with vip := (fsmDoTransaction o v e).vip.withUuid uuid } := by
  have hbecome (calls : List Effect) : becomeMaster o (v.withUuid uuid) calls =
      { becomeMaster o v calls with vip := (becomeMaster o v calls).vip.withUuid uuid } := by
    simp only [becomeMaster]
    split_ifs <;> rfl
  have hact : act o (v.withUuid uuid) = { act o v with vip := (act o v).vip.withUuid uuid } := by
    unfold act
    split_ifs <;> first | exact hbecome [] | rfl | contradiction
  have hroll : rollback o (v.withUuid uuid) =
      { rollback o v with vip := (rollback o v).vip.withUuid uuid } := by
    have hl : (v.withUuid uuid).nodeList = v.nodeList := rfl
    have hi : (v.withUuid uuid).nodeId = v.nodeId := rfl
    unfold rollback
    rw [hl, hi]
    cases v.nodeList with
    | nil => rfl
    | cons n l =>
      dsimp only
      split_ifs
      · cases o.threadCreate <;> rfl
      · rfl
  have hup : goUp o (v.withUuid uuid) = { goUp o v with vip := (goUp o v).vip.withUuid uuid } := by
    unfold goUp
    cases o.threadCreate <;> rfl
  have hrs : rbackStop (v.withUuid uuid) =
      { rbackStop v with vip := (rbackStop v).vip.withUuid uuid } := by
    unfold rbackStop
    split_ifs <;> first | rfl | contradiction
  unfold fsmDoTransaction
  show table o e v.state (v.withUuid uuid) = _
  cases e with
  | masterDown =>
    cases hs : v.state with
    | backup => exact absurd hs (he rfl)
    | _ => first | exact hact | rfl
  | _ => cases v.state <;> first | rfl | assumption

/-- A transaction leaves the remembered master, or clears it. -/
theorem fsmDoTransaction_masterId (h : v.masterId = 0) (e : Event) :
    (fsmDoTransaction o v e).vip.masterId = 0 := by
  rcases fsmDoTransaction_moved o v e with hv | ⟨s, r, rt, vt, hv⟩
  · rw [hv]
    rfl
  · rw [hv]
    exact h

theorem Alike.fsm (h : Alike u v) {e : Event}
    (he : e = .masterDown → v.masterId = 0 → v.state ≠ .backup) :
    Alike (fsmDoTransaction o u e).vip (fsmDoTransaction o v e).vip ∧
      (fsmDoTransaction o u e).effects = (fsmDoTransaction o v e).effects := by
  rcases h with rfl | ⟨hm, uuid, rfl⟩
  · exact ⟨Or.inl rfl, rfl⟩
  · rw [fsmDoTransaction_withUuid o v uuid fun h => he h hm]
    exact ⟨Or.inr ⟨fsmDoTransaction_masterId hm e, uuid, rfl⟩, rfl⟩

/-- A departure, of a node with an id. -/
theorem Alike.nodeDown (h : Alike u v) {x : NodeId} (hx : x ≠ 0) :
    Alike (fsmInputNodeDown o u x).vip (fsmInputNodeDown o v x).vip ∧
      (fsmInputNodeDown o u x).effects = (fsmInputNodeDown o v x).effects := by
  have hevent : nodeDownEvent u x = nodeDownEvent v x := by
    rcases h with rfl | ⟨-, uuid, rfl⟩
    all_goals rfl
  have hforget : Alike (forget u x) (forget v x) := by
    rcases h with rfl | ⟨hm, uuid, rfl⟩
    · exact Or.inl rfl
    · exact Or.inr ⟨hm, uuid, rfl⟩
  unfold fsmInputNodeDown
  rw [hevent]
  apply hforget.fsm
  intro he hm
  -- the master that departs has been announced
  have hne : v.masterId ≠ x := fun heq => hx (heq ▸ hm)
  rw [nodeDownEvent, if_neg hne] at he
  cases he

theorem Alike.nodesDown (h : Alike u v) {left : List NodeId} (hleft : 0 ∉ left) :
    Alike (nodesDown o u left).1 (nodesDown o v left).1 ∧
      (CpgFailover.nodesDown o u left).2 = (CpgFailover.nodesDown o v left).2 := by
  induction left generalizing u v with
  | nil => exact ⟨h, rfl⟩
  | cons x left ih =>
    obtain ⟨hx, hleft⟩ := not_or.mp fun h0 => hleft (List.mem_cons.mpr h0)
    obtain ⟨hone, hcalls⟩ := h.nodeDown (o := o) (Ne.symm hx)
    obtain ⟨hrest, hcalls'⟩ := ih hone hleft
    refine ⟨hrest, ?_⟩
    simp only [CpgFailover.nodesDown]
    rw [hcalls, hcalls']

/-- A message that announces a master makes the records equal. -/
theorem Alike.learn (h : Alike u v) (nm : NodeMsg) (y : NodeId) :
    Alike (learn o u nm y) (learn o v nm y) := by
  rcases h with rfl | ⟨hm, uuid, rfl⟩
  · exact Or.inl rfl
  · unfold CpgFailover.learn
    by_cases hsv : nm.state.serves = true
    · simp only [hsv, if_true]
      exact Or.inl rfl
    · simp only [hsv]
      exact Or.inr ⟨hm, uuid, rfl⟩

/-- The departed nodes of an entry. -/
def departed : Entry NodeId Msg → List NodeId
  | .confchg _ leftList _ => leftList
  | .message _ _ => []

theorem Alike.handle (h : Alike u v) {e : Entry NodeId Msg} (he : 0 ∉ departed e) :
    Alike (handle o u e).1 (handle o v e).1 ∧
      (CpgFailover.handle o u e).2 = (CpgFailover.handle o v e).2 := by
  cases e with
  | confchg members left joined =>
    have hsize : Alike { u with memberListEntries := members.length }
        { v with memberListEntries := members.length } := by
      rcases h with rfl | ⟨hm, uuid, rfl⟩
      · exact Or.inl rfl
      · exact Or.inr ⟨hm, uuid, rfl⟩
    obtain ⟨hleft, hcalls⟩ := hsize.nodesDown (o := o) he
    simp only [CpgFailover.handle, confchgCallback]
    split_ifs
    · obtain ⟨hup, hcalls'⟩ := hleft.fsm (o := o) (e := .backupUp) (by simp)
      exact ⟨hup, congrArg₂ _ hcalls hcalls'⟩
    · exact ⟨hleft, hcalls⟩
  | message y m =>
    cases m with
    | sql name sql =>
      refine ⟨h, ?_⟩
      rcases h with rfl | ⟨-, uuid, rfl⟩
      all_goals rfl
    | nodeState nm =>
      have hlearn := h.learn (o := o) nm y
      have hevent : stateMessageEvent (CpgFailover.learn o u nm y) nm y =
          stateMessageEvent (CpgFailover.learn o v nm y) nm y := by
        rcases hlearn with heq | ⟨-, uuid, heq⟩
        · rw [heq]
        · rw [heq]
          rfl
      simp only [CpgFailover.handle, deliverCallback, fsmInputNewStateMessage]
      rw [hevent]
      split
      · rename_i event hev
        apply hlearn.fsm
        intro hdown _ hbackup
        -- a message means that the master is down only to a vip that starts
        subst hdown
        unfold stateMessageEvent at hev
        rw [hbackup] at hev
        split_ifs at hev
        simp at hev
      · exact ⟨hlearn, rfl⟩

/-- **Such records make the same calls.** -/
theorem Alike.callbacks (h : Alike u v) {es : List (Outcome × Entry NodeId Msg)}
    (he : ∀ oe ∈ es, 0 ∉ departed oe.2) : callbacks u es = callbacks v es := by
  induction es generalizing u v with
  | nil => rfl
  | cons oe es ih =>
    obtain ⟨o, e⟩ := oe
    obtain ⟨hone, hcalls⟩ := h.handle (o := o) (he _ List.mem_cons_self)
    simp only [CpgFailover.callbacks]
    rw [hcalls, ih hone fun oe hoe => he oe (List.mem_cons_of_mem _ hoe)]

end Alike

/-! ## Every activation starts clean -/

/-- Each step that writes nothing into an idle record keeps it tidy, and the configuration. -/
theorem tidy_step {p p' : Proc} {i : Input} (h : p.vip.Tidy) (hi : Attentive p i)
    (hs : p.step i = some p') : p'.vip.Tidy ∧ p'.vip.config = p.vip.config := by
  rcases Proc.step_vip hs with ⟨-, t, hv⟩ | ⟨-, hv⟩ | ⟨t, x, -, hv⟩ | ⟨t, o, e, rfl, hv⟩ | ⟨r, t, hv⟩
  · rw [hv]
    exact ⟨fun hidle => absurd hidle (by simp), rfl⟩
  · exact ⟨fun _ => hv ▸ ⟨rfl, rfl, rfl, rfl⟩, by rw [hv, goDownReset_config]⟩
  · rw [hv]
    refine ⟨fun hidle => ?_, rfl⟩
    obtain ⟨hl, hm, hr, hn⟩ := h hidle
    exact ⟨hl, hm, hr, hn⟩
  · rw [hv]
    exact ⟨h.handle hi, handle_config _ _⟩
  · rw [hv]
    refine ⟨fun hidle => ?_, rfl⟩
    obtain ⟨hl, hm, hr, hn⟩ := h hidle
    exact ⟨hl, hm, hr, hn⟩

/-- A start on a clean record leaves what a start of a new process does, but for the node id, the
runtime uuid and the threads. -/
theorem cmdStart_alike {c : Config} {p : Proc} (hidle : p.vip.state = .idle) (hc : p.vip.config = c)
    (h : p.vip.Clean) (created : Bool) (x : NodeId) :
    Alike { (p.cmdStart created).vip with nodeId := x }
      { ((Proc.fresh c).cmdStart created).vip with
        nodeId := x
        rollbackThread := (p.cmdStart created).vip.rollbackThread
        virtualIpThread := (p.cmdStart created).vip.virtualIpThread } := by
  obtain ⟨hl, hm, hr, hn⟩ := h
  have hfresh : (Proc.fresh c).vip.state = .idle := rfl
  refine Or.inr ⟨?_, p.vip.runtimeUuid, ?_⟩
  · cases created with
    | true => rw [Proc.cmdStart_created hfresh]; rfl
    | false => rw [Proc.cmdStart_failed hfresh]; rfl
  · cases created with
    | true =>
      rw [Proc.cmdStart_created hidle, Proc.cmdStart_created hfresh]
      simp [Vip.withUuid, Proc.fresh, Vip.fresh, hc, hl, hm, hr, hn]
    | false =>
      rw [Proc.cmdStart_failed hidle, Proc.cmdStart_failed hfresh]
      simp [Vip.withUuid, Proc.fresh, Vip.fresh, hc, hl, hm, hr, hn]

/-- **Every activation starts clean.** In every run in which an idle vip gets harmless entries only,
the record of an idle vip is clean; and once started and given its node id, the vip makes the calls
that the vip of a new process makes, with its threads, on whatever entries it then gets. -/
theorem clean_of_idle (c : Config) {p : Proc}
    (h : ReachesWhen Proc.step Attentive (Proc.fresh c) p) (hidle : p.vip.state = .idle) :
    p.vip.Clean ∧ ∀ (created : Bool) (nodeid : NodeId) (es : List (Outcome × Entry NodeId Msg)),
      (∀ oe ∈ es, 0 ∉ departed oe.2) →
        callbacks { (p.cmdStart created).vip with nodeId := nodeid } es =
          callbacks { ((Proc.fresh c).cmdStart created).vip with
            nodeId := nodeid
            rollbackThread := (p.cmdStart created).vip.rollbackThread
            virtualIpThread := (p.cmdStart created).vip.virtualIpThread } es := by
  have hinv : p.vip.Tidy ∧ p.vip.config = c := by
    refine h.invariant (I := fun q => q.vip.Tidy ∧ q.vip.config = c)
      ⟨fun _ => ⟨rfl, rfl, rfl, rfl⟩, rfl⟩ fun t l u _ ht hok hs => ?_
    obtain ⟨htidy, hconfig⟩ := tidy_step ht.1 hok hs
    exact ⟨htidy, hconfig.trans ht.2⟩
  refine ⟨hinv.1 hidle, fun created nodeid es hes => ?_⟩
  exact (cmdStart_alike hidle hinv.2 (hinv.1 hidle) created nodeid).callbacks hes

/-- A node that became master and was stopped, with a statement still in its queue. -/
def stoppedAttentive : Proc :=
  (runWhen Proc.step Attentive (Proc.fresh aloneConfig) (threadUp ++ aloneMaster ++
    [.stop, .deliver 0 allSucceed (.message 2 (.sql [112] [113])), .exitLoop 0] ++ threadReturns ++
    [.down 0, .down 0, .down 0, .down 0])).getD (Proc.fresh aloneConfig)

/-- The entries that make a started vip alone in its group the master. -/
def aloneEntries : List (Outcome × Entry NodeId Msg) :=
  [(allSucceed, .confchg [1] [] [1]), (allSucceed, .message 1 (.nodeState ⟨10, .start, []⟩))]

theorem clean_of_idle_stoppedAttentive : stoppedAttentive.vip.nodeId = 0 ∧
    stoppedAttentive.vipThreads = [] ∧ stoppedAttentive.vip.Clean ∧
    callbacks { (stoppedAttentive.cmdStart true).vip with nodeId := 1 } aloneEntries =
      callbacks { ((Proc.fresh aloneConfig).cmdStart true).vip with
        nodeId := 1
        rollbackThread := (stoppedAttentive.cmdStart true).vip.rollbackThread
        virtualIpThread := (stoppedAttentive.cmdStart true).vip.virtualIpThread } aloneEntries := by
  obtain ⟨hclean, hcalls⟩ := clean_of_idle aloneConfig (p := stoppedAttentive) (reachesWhen_getD _)
    (by decide +kernel)
  exact ⟨by decide +kernel, by decide +kernel, hclean, hcalls true 1 aloneEntries (by decide)⟩

/-- The node enters a group whose member has its priority: it goes down, and its own message is
next in the queue. -/
def duplicateFirst : List Input :=
  [.deliver 0 allSucceed (.confchg [2, 1] [] [1]),
    .deliver 0 allSucceed (.message 2 (.nodeState ⟨10, .master, []⟩)),
    .deliver 0 allSucceed (.message 1 (.nodeState ⟨10, .start, []⟩))]

/-- **A message after a `go_down` is remembered past the activation.** -/
theorem stale_list_after_duplicate : ¬ ∀ (c : Config) (p : Proc),
    Reaches Proc.step (Proc.fresh c) p → p.vip.state = .idle → p.vipThreads = [] → p.vip.Clean := by
  intro h
  have hclean := h aloneConfig
    ((run Proc.step (Proc.fresh aloneConfig) (threadUp ++ duplicateFirst ++ [.exitLoop 0] ++
      threadReturns)).getD (Proc.fresh aloneConfig)) (reaches_getD _) (by decide +kernel)
    (by decide +kernel)
  exact absurd hclean.nodeList (by decide +kernel)

end CpgFailover
