import CpgFailover.FsmInput
import CpgFailover.Lib.Agreed

/-!
# The callbacks of the group

`DeliverCallback` and `ConfchgCallback` of `cpg_virtual_ip.c`, on decoded messages. One
configuration change runs the state machine once for each departed node, then once if anybody
joined.

## Main definitions

* `deliverCallback`, `confchgCallback`: the callbacks
* `nodesDown`: the left loop of `ConfchgCallback`
* `deliverSql`: the statement handed to sofia, if any
* `handle`: what `cpg_dispatch` calls for an entry of the agreed log
* `handles`: the record after some entries
* `isStatement`: an entry that is a statement for sofia

## Main results

* `handle_rule`: the rule for what a callback does to the record and what it calls
-/

namespace CpgFailover

/-- The profile loop of `DeliverCallback`: it visits all slots, empty ones included. -/
def deliverSql (v : Vip) (profileName sql : CString) : List Effect :=
  match v.config.profiles.toList.find? fun p => p.name = profileName with
  | some p => [.trackEvent sql p.name]
  | none => []

/-- `DeliverCallback`. -/
def deliverCallback (o : Outcome) (v : Vip) (nodeid : NodeId) : Msg → Vip × List Effect
  | .sql profileName sql =>
    -- its own statements have been executed by sofia already
    (v, if v.nodeId ≠ nodeid then deliverSql v profileName sql else [])
  | .nodeState nm =>
    let r := fsmInputNewStateMessage o v nm nodeid
    (r.vip, r.effects)

/-- The left loop of `ConfchgCallback`. -/
def nodesDown (o : Outcome) (v : Vip) : List NodeId → Vip × List Effect
  | [] => (v, [])
  | nodeid :: rest =>
    let r := fsmInputNodeDown o v nodeid
    -- the next departure finds the record as this one has left it
    let rs := nodesDown o r.vip rest
    (rs.1, r.effects ++ rs.2)

/-- `ConfchgCallback`. -/
def confchgCallback (o : Outcome) (v : Vip) (memberList leftList joinedList : List NodeId) :
    Vip × List Effect :=
  -- written before the departures are handled, and for an idle vip too
  let v := { v with memberListEntries := memberList.length }
  let left := nodesDown o v leftList
  if joinedList ≠ [] then
    let up := fsmInputNodeUp o left.1
    (up.vip, left.2 ++ up.effects)
  else left

/-- What `cpg_dispatch` calls for an entry of the agreed log. -/
def handle (o : Outcome) (v : Vip) : Agreed.Entry NodeId Msg → Vip × List Effect
  | .confchg memberList leftList joinedList => confchgCallback o v memberList leftList joinedList
  | .message nodeid msg => deliverCallback o v nodeid msg

/-- The record after it has handled the entries in order, each with its outcome. -/
def handles (v : Vip) : List (Outcome × Agreed.Entry NodeId Msg) → Vip
  | [] => v
  | (o, e) :: es => handles (handle o v e).1 es

theorem handles_snoc (v : Vip) (es : List (Outcome × Agreed.Entry NodeId Msg)) (o : Outcome)
    (e : Agreed.Entry NodeId Msg) : handles v (es ++ [(o, e)]) = (handle o (handles v es) e).1 := by
  induction es generalizing v with
  | nil => rfl
  | cons oe es ih => exact ih _

/-- A statement rather than a node state. -/
def Msg.isStatement : Msg → Bool
  | .sql _ _ => true
  | .nodeState _ => false

/-- A statement rather than a node state or a configuration change. -/
def isStatement : Agreed.Entry NodeId Msg → Bool
  | .confchg _ _ _ => false
  | .message _ m => m.isStatement

/-- A profile that is found has the name that was looked for. -/
theorem deliverSql_cases (v : Vip) (name sql : CString) :
    deliverSql v name sql = [.trackEvent sql name] ∨ deliverSql v name sql = [] := by
  rw [deliverSql]
  cases hp : v.config.profiles.toList.find? fun p => p.name = name with
  | none => exact Or.inr rfl
  | some p =>
    have hname : p.name = name := by simpa using List.find?_some hp
    exact Or.inl (by simp only [hname])

/-- A statement is handed to sofia, if it is another node's. -/
theorem mem_handle_sql {o : Outcome} {v : Vip} {y : NodeId} {name sql : CString} {c : Effect}
    (h : c ∈ (handle o v (.message y (.sql name sql))).2) :
    v.nodeId ≠ y ∧ c = .trackEvent sql name := by
  simp only [handle, deliverCallback] at h
  split_ifs at h with hy
  · rcases deliverSql_cases v name sql with hd | hd <;> rw [hd] at h
    · exact ⟨hy, List.mem_singleton.mp h⟩
    · cases h
  · cases h

/-! ## Rules for the callbacks

A callback is a sequence of writes of the inputs and of transactions, none of them a start. -/

theorem nodeDownEvent_ne_startup (v : Vip) (x : NodeId) : nodeDownEvent v x ≠ .startup := by
  rcases nodeDownEvent_cases v x with h | h <;> simp [h]

theorem stateMessageEvent_ne_startup (v : Vip) (nm : NodeMsg) (y : NodeId) :
    stateMessageEvent v nm y ≠ some .startup := by
  unfold stateMessageEvent
  repeat' split
  all_goals simp

section Rules

variable {o : Outcome}

/-- **The rule for callbacks**: a relation between the record before, the record after and the calls
made in between holds of every callback if it holds of every write and every transaction, and of
every statement handed to sofia, and may be composed. -/
theorem handle_rule {R : Vip → Vip → List Effect → Prop} (hrefl : ∀ v, R v v [])
    (htrans : ∀ {u v w cs cs'}, R u v cs → R v w cs' → R u w (cs ++ cs'))
    (hfsm : ∀ v e, e ≠ .startup → R v (fsmDoTransaction o v e).vip (fsmDoTransaction o v e).effects)
    (hforget : ∀ v x, R v (forget v x) []) (hlearn : ∀ v nm y, R v (learn o v nm y) [])
    (hsize : ∀ v (k : ℕ), R v { v with memberListEntries := k } [])
    (v : Vip) (e : Agreed.Entry NodeId Msg)
    (hsql : isStatement e = true → ∀ v sql name, R v v [.trackEvent sql name]) :
    R v (handle o v e).1 (handle o v e).2 := by
  have hdown (v : Vip) (left : List NodeId) : R v (nodesDown o v left).1 (nodesDown o v left).2 := by
    -- induction on the departures, each of them a write and a transaction
    induction left generalizing v with
    | nil => exact hrefl v
    | cons x left ih =>
      have hone : R v (fsmInputNodeDown o v x).vip (fsmInputNodeDown o v x).effects :=
        htrans (hforget v x) (hfsm _ _ (nodeDownEvent_ne_startup v x))
      exact htrans hone (ih _)
  cases e with
  | confchg members left joined =>
    have hleft := htrans (hsize v members.length) (hdown _ left)
    simp only [handle, confchgCallback]
    split_ifs
    -- an arrival is handled after the departures
    · exact htrans hleft (hfsm _ _ (by simp))
    · exact hleft
  | message y m =>
    cases m with
    | sql name sql =>
      simp only [handle, deliverCallback]
      split_ifs
      · rcases deliverSql_cases v name sql with hd | hd <;> rw [hd]
        · exact hsql rfl v sql name
        · exact hrefl v
      · exact hrefl v
    | nodeState nm =>
      simp only [handle, deliverCallback, fsmInputNewStateMessage]
      split
      · rename_i event he
        -- the message is written down whether or not an event follows
        refine htrans (hlearn v nm y) (hfsm _ _ ?_)
        rintro rfl
        exact stateMessageEvent_ne_startup _ _ _ he
      · exact hlearn v nm y

/-- What every write and every transaction does to the record, a callback does. -/
theorem handle_vip {R : Vip → Vip → Prop} (hrefl : ∀ v, R v v)
    (htrans : ∀ {u v w}, R u v → R v w → R u w)
    (hfsm : ∀ v e, e ≠ .startup → R v (fsmDoTransaction o v e).vip)
    (hforget : ∀ v x, R v (forget v x)) (hlearn : ∀ v nm y, R v (learn o v nm y))
    (hsize : ∀ v (k : ℕ), R v { v with memberListEntries := k }) (v : Vip)
    (e : Agreed.Entry NodeId Msg) : R v (handle o v e).1 :=
  handle_rule (R := fun v w _ => R v w) hrefl htrans hfsm hforget hlearn hsize v e
    fun _ v _ _ => hrefl v

/-- What every call of a transaction meets, and every statement handed to sofia, every call of a
callback meets. -/
theorem handle_calls {P : Effect → Prop}
    (hfsm : ∀ v e, e ≠ .startup → ∀ c ∈ (fsmDoTransaction o v e).effects, P c) (v : Vip)
    (e : Agreed.Entry NodeId Msg)
    (hsql : isStatement e = true → ∀ sql name, P (.trackEvent sql name)) :
    ∀ c ∈ (handle o v e).2, P c := by
  refine handle_rule (R := fun _ _ cs => ∀ c ∈ cs, P c) (by simp) ?_ hfsm (by simp) (by simp)
    (by simp) v e ?_
  · intro u v w cs cs' h h' c hc
    rcases List.mem_append.mp hc with hc | hc
    · exact h c hc
    · exact h' c hc
  · intro he v sql name c hc
    obtain rfl := List.mem_singleton.mp hc
    exact hsql he sql name

/-- No callback changes the configuration. -/
theorem handle_config (v : Vip) (e : Agreed.Entry NodeId Msg) :
    (handle o v e).1.config = v.config :=
  handle_vip (R := fun v w => w.config = v.config) (fun _ => rfl) (fun h h' => h'.trans h)
    (fun v e _ => fsmDoTransaction_config o v e) (fun _ _ => rfl)
    (fun v nm y => learn_config o v nm y)
    (fun _ _ => rfl) v e

/-- No callback starts an idle vip. -/
theorem handle_idle {v : Vip} (hv : v.state = .idle) (e : Agreed.Entry NodeId Msg) :
    (handle o v e).1.state = .idle := by
  refine handle_vip (R := fun v w => v.state = .idle → w.state = .idle) (fun _ => id)
    (fun h h' hu => h' (h hu)) ?_ (fun _ _ => id) ?_ (fun _ _ => id) v e hv
  · intro v e he hv
    rw [fsmDoTransaction_idle hv he]
    exact hv
  · exact fun v nm y hv => (learn_state o v nm y).trans hv

/-- Whatever its calls come to, a callback that leaves the vip running has found it running, and has
left its node id alone. -/
theorem handle_running {v : Vip} {e : Agreed.Entry NodeId Msg}
    (h : (handle o v e).1.state ≠ .idle) :
    v.state ≠ .idle ∧ (handle o v e).1.nodeId = v.nodeId := by
  refine handle_vip (R := fun v w => w.state ≠ .idle → v.state ≠ .idle ∧ w.nodeId = v.nodeId)
    (fun _ hv => ⟨hv, rfl⟩) ?_ ?_ (fun _ _ hv => ⟨hv, rfl⟩) ?_ (fun _ _ hv => ⟨hv, rfl⟩) v e h
  · intro u v w h h' hw
    obtain ⟨hv, hid⟩ := h' hw
    exact ⟨(h hv).1, hid.trans (h hv).2⟩
  · intro v e he hw
    refine ⟨fun hv => hw ?_, ?_⟩
    · rw [fsmDoTransaction_idle hv he]
      exact hv
    · rcases fsmDoTransaction_moved o v e with hm | ⟨s, r, rt, vt, hm⟩
      · exact absurd (congrArg Vip.state hm) hw
      · rw [hm]
  · intro v nm y hw
    rw [learn_state] at hw
    exact ⟨hw, learn_nodeId o v nm y⟩

/-- No callback starts a `vip_thread`. -/
theorem createVipThread_notMem_handle (v : Vip) (e : Agreed.Entry NodeId Msg) (t : ThreadId) :
    Effect.createVipThread t ∉ (handle o v e).2 := by
  intro ht
  refine handle_calls (P := fun c => c ≠ .createVipThread t) ?_ v e (fun _ _ _ => by simp) _ ht rfl
  rintro v e he c hc rfl
  simpa [Effect.isOutside] using isOutside_fsmDoTransaction o v he _ hc

/-- Only a statement from the group is handed to sofia. -/
theorem trackEvent_notMem_handle (v : Vip) {e : Agreed.Entry NodeId Msg} (he : isStatement e = false)
    (sql name : CString) : Effect.trackEvent sql name ∉ (handle o v e).2 := by
  intro ht
  refine handle_calls (P := fun c => c ≠ .trackEvent sql name) ?_ v e (by simp [he]) _ ht rfl
  rintro v e he c hc rfl
  simpa [Effect.isOutside] using isOutside_fsmDoTransaction o v he _ hc

end Rules

end CpgFailover
