import CpgFailover.Lib.Idempotent
import CpgFailover.Confluence
import CpgFailover.Departures

/-!
# Rollback requests in any order

A serving vip takes every announcement of a higher priority for a request to give way. As a master
it begins a rollback to the head of its list. While it waits for another node than the head, it
blocks the rollback and serves as the master again, so the next request begins a rollback to the new
head. The list is the same for every order of the requests and every number of repetitions; the
state and the target are the same unless the last request has blocked a rollback.

## Main definitions

* `Requests`: announcements of nodes of higher priority
* `answer`: what a request makes of the state and of the target
* `Blocked`: the last request blocks a rollback to another node than the final head

## Main results

* `newStateMessage_request`: one request
* `requests_nodeList`: the list depends only on who has asked
* `answered_iff`: the state and the target after requests of which the last has blocked none
* `rollback_requests`: any two sequences of requests of the same nodes compared
* `rollback_blocked`: one that ends with a blocked rollback differs
-/

namespace CpgFailover

open Transition

/-- Announcements of nodes other than this one, of higher priorities, all distinct; memory suffices.
-/
structure Requests (v : Vip) (prio : NodeId → ℤ) (msgs : List StateMessage) : Prop where
  message : ∀ m ∈ msgs, m.1.malloc = true ∧ m.2.1 ≠ 0 ∧ m.2.1 ≠ v.nodeId ∧
    m.2.2.priority = prio m.2.1 ∧ v.config.priority < prio m.2.1
  injective : ∀ m ∈ msgs, ∀ m' ∈ msgs, prio m.2.1 = prio m'.2.1 → m.2.1 = m'.2.1

/-- A vip that serves the address and gives way to higher priorities. -/
structure GivesWay (v : Vip) : Prop where
  serves : v.state.serves = true
  autorollback : v.config.autorollback = true

/-- What a request makes of the state and of the target, given the head of the list. -/
def answer (self head : NodeId) : State × NodeId → State × NodeId
  | (.rback, target) => if target = 0 ∨ target ≠ head then (.master, target) else (.rback, target)
  | (_, target) => if head = self then (.master, target) else (.rback, head)

/-- The state and the target. -/
def stance (v : Vip) : State × NodeId := (v.state, v.rollbackNodeId)

/-! ## One request -/

section Request

variable {o : Outcome} {v : Vip} {nm : NodeMsg} {y : NodeId}

/-- The announcement of a higher priority is a request for a rollback. -/
theorem GivesWay.event (h : GivesWay v) (ho : o.malloc = true)
    (hp : v.config.priority < nm.priority) :
    stateMessageEvent (learn o v nm y) nm y = some .rbackReq := by
  have hlist : nodeAdd o.malloc v.nodeList y nm.priority ≠ [] := ho ▸ nodeAdd_ne_nil _ _ _
  have hdup : ¬ nm.priority = v.config.priority := ne_of_gt hp
  have hs := h.serves
  cases hv : v.state <;> simp [hv, State.serves] at hs <;>
    simp [stateMessageEvent, hv, hdup, hlist, h.autorollback, hp]

/-- **One request**: the list grows by the sender, and its head decides. -/
theorem newStateMessage_request (h : GivesWay v) (ho : o.malloc = true)
    (hp : v.config.priority < nm.priority) :
    (fsmInputNewStateMessage o v nm y).vip.nodeList = nodeAdd true v.nodeList y nm.priority ∧
      stance (fsmInputNewStateMessage o v nm y).vip =
        answer v.nodeId (nodeFirst (nodeAdd true v.nodeList y nm.priority)) (stance v) ∧
      (fsmInputNewStateMessage o v nm y).vip.nodeId = v.nodeId ∧
        (fsmInputNewStateMessage o v nm y).vip.config = v.config := by
  have hl : (learn o v nm y).nodeList = nodeAdd true v.nodeList y nm.priority := by
    rw [learn_nodeList, ho]
  have ht : (learn o v nm y).rollbackNodeId = v.rollbackNodeId := by rw [learn_eq]
  have hs := h.serves
  rw [fsmInputNewStateMessage]
  simp only [h.event ho hp, fsmDoTransaction, learn_state]
  cases hv : v.state with
  | idle | start | backup => simp [hv, State.serves] at hs
  | master =>
    show (rollback o (learn o v nm y)).vip.nodeList = _ ∧ stance (rollback o _).vip = _ ∧
      (rollback o _).vip.nodeId = _ ∧ (rollback o _).vip.config = _
    obtain ⟨n, l, hnl⟩ := List.exists_cons_of_ne_nil (nodeAdd_ne_nil v.nodeList y nm.priority)
    rw [hnl] at hl ⊢
    by_cases hn : n.nodeid = v.nodeId
    · have hstay : rollback o (learn o v nm y) = ⟨.success, learn o v nm y, []⟩ := by
        rw [rollback, hl]
        exact if_neg (by simp [hn])
      simp [hstay, ho, hnl, stance, hv, ht, answer, nodeFirst, hn]
    · rw [rollback_cons hl (by simpa using hn)]
      cases o.threadCreate <;> simp [ho, hnl, stance, hv, answer, nodeFirst, hn]
  | rback =>
    show (rbackStop (learn o v nm y)).vip.nodeList = _ ∧ stance (rbackStop _).vip = _ ∧
      (rbackStop _).vip.nodeId = _ ∧ (rbackStop _).vip.config = _
    rw [rbackStop, hl, ht]
    split_ifs with hoff <;> simp [ho, stance, hv, ht, answer, hoff]

end Request

/-! ## The list -/

/-- The list after these nodes have been heard in turn. -/
def enlist (prio : NodeId → ℤ) (l : List Node) (heard : List NodeId) : List Node :=
  heard.foldl (fun l y => nodeAdd true l y (prio y)) l

/-- Insertions with distinct priorities commute. -/
theorem insertNode_comm {a b : Node} (h : a.priority ≠ b.priority) (l : List Node) :
    insertNode a (insertNode b l) = insertNode b (insertNode a l) := by
  induction l with
  | nil =>
    rcases lt_or_gt_of_ne h with h | h
    · simp [insertNode, h, h.not_gt]
    · simp [insertNode, h, h.not_gt]
  | cons c l ih =>
    -- the walks part at `c`, or go past it together
    by_cases ha : a.priority < c.priority <;> by_cases hb : b.priority < c.priority
    · simp [insertNode, ha, hb, ih]
    · have hab : a.priority < b.priority := lt_of_lt_of_le ha (not_lt.mp hb)
      simp [insertNode, ha, hb, hab]
    · have hba : b.priority < a.priority := lt_of_lt_of_le hb (not_lt.mp ha)
      simp [insertNode, ha, hb, hba]
    · rcases lt_or_gt_of_ne h with h | h
      · simp [insertNode, ha, hb, h, h.not_gt]
      · simp [insertNode, ha, hb, h, h.not_gt]

/-- Nodes with distinct priorities may be heard in either order. -/
theorem nodeAdd_comm {x y : NodeId} {p q : ℤ} (hxy : x ≠ y) (hpq : p ≠ q) (l : List Node) :
    nodeAdd true (nodeAdd true l x p) y q = nodeAdd true (nodeAdd true l y q) x p := by
  by_cases hx : x ∈ ids l <;> by_cases hy : y ∈ ids l
  · rw [nodeAdd_of_mem hx, nodeAdd_of_mem hy, nodeAdd_of_mem hx]
  · rw [nodeAdd_of_mem hx, nodeAdd_of_mem (mem_ids_nodeAdd.mpr (Or.inr hx))]
  · rw [nodeAdd_of_mem hy, nodeAdd_of_mem (mem_ids_nodeAdd.mpr (Or.inr hy))]
  · rw [nodeAdd_of_not_mem hx, nodeAdd_of_not_mem hy, nodeAdd_of_not_mem, nodeAdd_of_not_mem,
      insertNode_comm (a := ⟨y, q⟩) (b := ⟨x, p⟩) (Ne.symm hpq)]
    · simp [mem_ids_insertNode, hxy, hx]
    · simp [mem_ids_insertNode, Ne.symm hxy, hy]

/-- The list depends only on who has been heard. -/
theorem enlist_eq_of_mem_iff {prio : NodeId → ℤ} {heard heard' : List NodeId}
    (hinj : ∀ x ∈ heard, ∀ y ∈ heard, prio x = prio y → x = y)
    (hmem : ∀ y, y ∈ heard ↔ y ∈ heard') (l : List Node) :
    enlist prio l heard = enlist prio l heard' := by
  apply Idempotent.foldl_eq_of_mem_iff _ _ hmem
  · intro x hx y hy l
    by_cases hxy : x = y
    · rw [hxy]
    · exact nodeAdd_comm hxy (fun hp => hxy (hinj x hx y hy hp)) l
  · intro x _ l
    exact nodeAdd_of_mem (mem_ids_nodeAdd.mpr (Or.inl rfl))

/-! ## Sequences of requests -/

/-- The last request finds a rollback to another node than the final head. -/
def Blocked (v : Vip) (msgs : List StateMessage) : Prop :=
  msgs ≠ [] ∧ (hears v msgs.dropLast).state = .rback ∧
    (hears v msgs.dropLast).rollbackNodeId ≠ nodeFirst (hears v msgs).nodeList

instance (v : Vip) (msgs : List StateMessage) : Decidable (Blocked v msgs) := by
  unfold Blocked
  infer_instance

theorem hears_snoc (v : Vip) (msgs : List StateMessage) (m : StateMessage) :
    hears v (msgs ++ [m]) = (fsmInputNewStateMessage m.1 (hears v msgs) m.2.2 m.2.1).vip := by
  rw [hears, List.map_append]
  exact handles_snoc v _ _ _

section Run

variable {v : Vip} {prio : NodeId → ℤ} {msgs msgs' : List StateMessage} {m : StateMessage}

theorem Requests.of_append (h : Requests v prio (msgs ++ msgs')) : Requests v prio msgs where
  message m hm := h.message m (List.mem_append_left _ hm)
  injective m hm m' hm' :=
    h.injective m (List.mem_append_left _ hm) m' (List.mem_append_left _ hm')

/-- What requests leave: a vip that serves the address, with the senders on its list. -/
structure Asked (v : Vip) (prio : NodeId → ℤ) (msgs : List StateMessage) (w : Vip) : Prop where
  yielding : GivesWay w
  config : w.config = v.config
  nodeId : w.nodeId = v.nodeId
  nodeList : w.nodeList = enlist prio v.nodeList (msgs.map (·.2.1))

theorem answer_serves (self head : NodeId) (x : State × NodeId) :
    (answer self head x).1.serves = true := by
  obtain ⟨s, t⟩ := x
  cases s <;> simp only [answer] <;> split_ifs <;> rfl

/-- **The requests of a run**, one after the other. -/
theorem asked_hears (hy : GivesWay v) (h : Requests v prio msgs) :
    Asked v prio msgs (hears v msgs) := by
  induction msgs using List.reverseRecOn with
  | nil => exact ⟨hy, rfl, rfl, rfl⟩
  | append_singleton msgs m ih =>
    have hk := ih h.of_append
    obtain ⟨ho, -, -, hp, hlt⟩ := h.message m (by simp)
    have hp' : (hears v msgs).config.priority < m.2.2.priority := by
      rw [hk.config, hp]
      exact hlt
    obtain ⟨hlist, hst, hid, hconfig⟩ :=
      newStateMessage_request (o := m.1) (y := m.2.1) hk.yielding ho hp'
    rw [hears_snoc]
    refine ⟨⟨?_, ?_⟩, hconfig.trans hk.config, hid.trans hk.nodeId, ?_⟩
    · have hs := congrArg Prod.fst hst
      simp only [stance] at hs
      rw [hs]
      exact answer_serves _ _ _
    · rw [hconfig]
      exact hk.yielding.autorollback
    · rw [hlist, hk.nodeList, hp, List.map_append]
      simp [enlist]

/-- The answer to the last request. -/
theorem stance_snoc (hy : GivesWay v) (h : Requests v prio (msgs ++ [m])) :
    stance (hears v (msgs ++ [m])) = answer v.nodeId
      (nodeFirst (hears v (msgs ++ [m])).nodeList) (stance (hears v msgs)) := by
  have hk := asked_hears hy h.of_append
  obtain ⟨ho, -, -, hp, hlt⟩ := h.message m (by simp)
  have hp' : (hears v msgs).config.priority < m.2.2.priority := by
    rw [hk.config, hp]
    exact hlt
  obtain ⟨hlist, hst, -, -⟩ :=
    newStateMessage_request (o := m.1) (y := m.2.1) hk.yielding ho hp'
  rw [hears_snoc, hst, hlist, hk.nodeId]

/-- **The list depends only on who has asked.** -/
theorem requests_nodeList (hy : GivesWay v) (h : Requests v prio msgs) (h' : Requests v prio msgs')
    (hsame : ∀ y, (∃ m ∈ msgs, m.2.1 = y) ↔ ∃ m ∈ msgs', m.2.1 = y) :
    (hears v msgs).nodeList = (hears v msgs').nodeList := by
  rw [(asked_hears hy h).nodeList, (asked_hears hy h').nodeList]
  apply enlist_eq_of_mem_iff
  · intro x hx y hy hp
    obtain ⟨m, hm, rfl⟩ := List.mem_map.mp hx
    obtain ⟨m', hm', rfl⟩ := List.mem_map.mp hy
    exact h.injective m hm m' hm' hp
  · simpa using hsame

/-! ## The state and the target -/

/-- Whoever waits after a request waits for the head of the list. -/
theorem answer_rback {self head : NodeId} {x : State × NodeId}
    (h : (answer self head x).1 = .rback) : (answer self head x).2 = head := by
  obtain ⟨s, t⟩ := x
  cases s <;> simp only [answer] at h ⊢ <;> split_ifs at h ⊢ with hc <;> simp_all

/-- A second request changes nothing for a vip that heads its list. -/
theorem answer_own_head (self : NodeId) (x : State × NodeId) :
    answer self self (answer self self x) = answer self self x := by
  obtain ⟨s, t⟩ := x
  cases s with
  | rback =>
    by_cases ht : t = 0 ∨ t ≠ self
    · simp [answer, ht]
    · simp [answer, ht]
  | _ => simp [answer]

/-- Whoever heads the final list and has not asked heads the list from the start, and is answered
alike each time. -/
theorem stance_of_own_head (hy : GivesWay v) (h : Requests v prio msgs) (hne : msgs ≠ [])
    (hf : nodeFirst (hears v msgs).nodeList = v.nodeId) :
    stance (hears v msgs) = answer v.nodeId v.nodeId (stance v) := by
  induction msgs using List.reverseRecOn with
  | nil => exact absurd rfl hne
  | append_singleton msgs m ih =>
    rw [stance_snoc hy h, hf]
    by_cases hnil : msgs = []
    · rw [hnil]
      rfl
    · have hprev : nodeFirst (hears v msgs).nodeList = v.nodeId := by
        rw [(asked_hears hy h).nodeList, List.map_append, enlist, List.foldl_append] at hf
        rw [(asked_hears hy h.of_append).nodeList]
        rcases nodeFirst_nodeAdd_cases (enlist prio v.nodeList (msgs.map (·.2.1))) m.2.1
            (prio m.2.1) with hold | hnew
        · exact hold.symm.trans hf
        · exact absurd (hnew.symm.trans hf) (h.message m (by simp)).2.2.1
      rw [ih h.of_append hnil hprev, answer_own_head]

/-- The head of the list after some requests is a node. -/
theorem nodeFirst_ne_zero (he : Enrolled v) (hy : GivesWay v) (h : Requests v prio msgs)
    (hne : msgs ≠ []) : nodeFirst (hears v msgs).nodeList ≠ 0 := by
  have hzero : 0 ∉ ids (hears v msgs).nodeList := by
    rw [(asked_hears hy h).nodeList]
    clear hne
    induction msgs using List.reverseRecOn with
    | nil => exact he.zero_notMem
    | append_singleton msgs m ih =>
      rw [List.map_append, enlist, List.foldl_append]
      show 0 ∉ ids (nodeAdd true (enlist prio v.nodeList (msgs.map (·.2.1))) m.2.1 (prio m.2.1))
      rw [mem_ids_nodeAdd, not_or]
      exact ⟨Ne.symm (h.message m (by simp)).2.1, ih h.of_append⟩
  obtain ⟨pre, m, rfl⟩ := (List.eq_nil_or_concat' msgs).resolve_left hne
  have hlist : (hears v (pre ++ [m])).nodeList ≠ [] := by
    rw [(asked_hears hy h).nodeList, List.map_append, enlist, List.foldl_append]
    exact nodeAdd_ne_nil _ _ _
  exact fun h₀ => hzero (h₀ ▸ nodeFirst_mem hlist)

/-- **The state and the target after some requests** of which the last has blocked no rollback: a
rollback to the head of the list, or no answer but the first if that is this node. -/
theorem stance_of_not_blocked (he : Enrolled v) (hy : GivesWay v) (h : Requests v prio msgs)
    (hne : msgs ≠ []) (hb : ¬ Blocked v msgs) :
    stance (hears v msgs) =
      if nodeFirst (hears v msgs).nodeList = v.nodeId then answer v.nodeId v.nodeId (stance v)
      else (.rback, nodeFirst (hears v msgs).nodeList) := by
  split_ifs with hf
  · exact stance_of_own_head hy h hne hf
  · have hzero := nodeFirst_ne_zero he hy h hne
    obtain ⟨pre, m, rfl⟩ := (List.eq_nil_or_concat' msgs).resolve_left hne
    have hs := (asked_hears hy h.of_append).yielding.serves
    rw [Blocked, List.dropLast_concat] at hb
    rw [stance_snoc hy h]
    cases hv : (hears v pre).state with
    | idle | start | backup => simp [hv, State.serves] at hs
    | master => simp [stance, hv, answer, hf]
    | rback =>
      have ht : (hears v pre).rollbackNodeId = nodeFirst (hears v (pre ++ [m])).nodeList := by
        by_contra ht
        exact hb ⟨hne, hv, ht⟩
      simp [stance, hv, answer, ht, hzero]

/-- A rollback that is blocked leaves a master. -/
theorem Blocked.state (hb : Blocked v msgs) (hy : GivesWay v) (h : Requests v prio msgs) :
    (hears v msgs).state = .master := by
  obtain ⟨hne, hs, ht⟩ := hb
  obtain ⟨pre, m, rfl⟩ := (List.eq_nil_or_concat' msgs).resolve_left hne
  rw [List.dropLast_concat] at hs ht
  have hst := congrArg Prod.fst (stance_snoc hy h)
  simpa [stance, hs, answer, ht] using hst

/-- **A request of a node that has asked before blocks nothing.** -/
theorem not_blocked_of_repeated (hy : GivesWay v) {pre : List StateMessage}
    (h : Requests v prio (pre ++ [m])) (hm : ∃ m' ∈ pre, m'.2.1 = m.2.1) :
    ¬ Blocked v (pre ++ [m]) := by
  rintro ⟨-, hs, ht⟩
  rw [List.dropLast_concat] at hs ht
  obtain ⟨m', hm', hmm'⟩ := hm
  have hlist : (hears v (pre ++ [m])).nodeList = (hears v pre).nodeList := by
    refine requests_nodeList hy h h.of_append fun y => ?_
    simp only [List.mem_append, List.mem_singleton]
    constructor
    · rintro ⟨n, hn | rfl, rfl⟩
      exacts [⟨n, hn, rfl⟩, ⟨m', hm', hmm'⟩]
    · rintro ⟨n, hn, rfl⟩
      exact ⟨n, Or.inl hn, rfl⟩
  obtain ⟨pre', n, rfl⟩ := (List.eq_nil_or_concat' pre).resolve_left (List.ne_nil_of_mem hm')
  have hst := stance_snoc hy h.of_append
  have hwaits : (stance (hears v (pre' ++ [n]))).2 =
      nodeFirst (hears v (pre' ++ [n])).nodeList := by
    rw [hst]
    exact answer_rback (hst ▸ hs)
  exact ht (hlist ▸ hwaits)

/-- **Rollback requests in any order**: two sequences of requests of the same nodes, in whatever
order and with whatever repetitions, leave the same list, and the same state and target unless one
of them ends with a request that blocks a rollback. That leaves a master, and the last request of a
sequence does so only if its sender has not asked before. -/
theorem rollback_requests {c : Config}
    (hr : ReachesWhen Vip.step (fun _ i => FromNode i) (Vip.fresh c) v) (hy : GivesWay v)
    (h : Requests v prio msgs) (h' : Requests v prio msgs')
    (hsame : ∀ y, (∃ m ∈ msgs, m.2.1 = y) ↔ ∃ m ∈ msgs', m.2.1 = y) :
    (hears v msgs).nodeList = (hears v msgs').nodeList ∧
      (¬ Blocked v msgs → ¬ Blocked v msgs' → (hears v msgs).state = (hears v msgs').state ∧
        (hears v msgs).rollbackNodeId = (hears v msgs').rollbackNodeId) ∧
      (Blocked v msgs → (hears v msgs).state = .master) ∧
      ∀ pre m, msgs = pre ++ [m] → (∃ m' ∈ pre, m'.2.1 = m.2.1) → ¬ Blocked v msgs := by
  have he := enrolled_of_reaches hr
  have hlist := requests_nodeList hy h h' hsame
  refine ⟨hlist, fun hb hb' => ?_, fun hb => hb.state hy h, ?_⟩
  · by_cases hne : msgs = []
    · have hne' : msgs' = [] := by
        refine List.eq_nil_iff_forall_not_mem.mpr fun m hm => ?_
        simpa [hne] using (hsame m.2.1).mpr ⟨m, hm, rfl⟩
      rw [hne, hne']
      exact ⟨rfl, rfl⟩
    · have hne' : msgs' ≠ [] := by
        obtain ⟨m, hm⟩ := List.exists_mem_of_ne_nil msgs hne
        obtain ⟨m', hm', -⟩ := (hsame m.2.1).mp ⟨m, hm, rfl⟩
        exact List.ne_nil_of_mem hm'
      have heq : stance (hears v msgs) = stance (hears v msgs') := by
        rw [stance_of_not_blocked he hy h hne hb, stance_of_not_blocked he hy h' hne' hb', hlist]
      exact ⟨congrArg Prod.fst heq, congrArg Prod.snd heq⟩
  · rintro pre m rfl hm
    exact not_blocked_of_repeated hy h hm

end Run

/-- Node 1 serves the address alone, and gives way to higher priorities. -/
def servesAlone : Vip :=
  (runWhen Vip.step (fun _ i => FromNode i) (Vip.fresh rollbackConfig)
    [.cmdStart allSucceed, .localGet 1, .memberList 1,
      .newStateMessage allSucceed ⟨10, .start, []⟩ 1]).getD (Vip.fresh rollbackConfig)

/-- A node announces itself as it joins. -/
def announces (y : NodeId) : StateMessage := (allSucceed, y, ⟨staggeredPrio y, .start, []⟩)

theorem rollback_requests_servesAlone :
    (hears servesAlone [announces 2, announces 3, announces 3]).state =
      (hears servesAlone [announces 3, announces 2]).state := by
  have h : Requests servesAlone staggeredPrio [announces 2, announces 3, announces 3] :=
    ⟨by decide, by decide⟩
  refine ((rollback_requests (reachesWhen_getD _) ⟨rfl, rfl⟩ h ⟨by decide, by decide⟩ ?_).2.1
    (by decide) (by decide)).1
  simp [announces, or_comm]

/-- **A blocked rollback makes the order and the number of the requests matter**: node 3 asks while
node 1 waits for node 2, and node 1 is a master again until somebody asks once more. -/
theorem rollback_blocked :
    (¬ ∀ (c : Config) (v : Vip) (prio : NodeId → ℤ) (msgs msgs' : List StateMessage),
      ReachesWhen Vip.step (fun _ i => FromNode i) (Vip.fresh c) v → GivesWay v →
        Requests v prio msgs → Requests v prio msgs' → msgs'.Perm msgs →
          (hears v msgs).state = (hears v msgs').state ∧
            (hears v msgs).rollbackNodeId = (hears v msgs').rollbackNodeId) ∧
    ¬ ∀ (c : Config) (v : Vip) (prio : NodeId → ℤ) (msgs : List StateMessage) (m : StateMessage),
      ReachesWhen Vip.step (fun _ i => FromNode i) (Vip.fresh c) v → GivesWay v →
        Requests v prio (msgs ++ [m, m]) →
          (hears v (msgs ++ [m, m])).state = (hears v (msgs ++ [m])).state ∧
            (hears v (msgs ++ [m, m])).rollbackNodeId = (hears v (msgs ++ [m])).rollbackNodeId := by
  constructor
  · intro h
    have hsame := (h _ servesAlone staggeredPrio [announces 2, announces 3]
      [announces 3, announces 2] (reachesWhen_getD _) ⟨rfl, rfl⟩ ⟨by decide, by decide⟩
        ⟨by decide, by decide⟩ (List.Perm.swap _ _ [])).1
    revert hsame
    decide
  · intro h
    have hsame := (h _ servesAlone staggeredPrio [announces 2] (announces 3) (reachesWhen_getD _)
      ⟨rfl, rfl⟩ ⟨by decide, by decide⟩).1
    revert hsame
    decide

end CpgFailover
