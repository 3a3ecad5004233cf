import CpgFailover.Admission
import CpgFailover.Allocation
import Mathlib.Data.List.Induction
import Mathlib.Data.List.Infix

/-!
# The admission of a node, in any order

A vip that starts in a settled group becomes a backup with the announcement that completes the set
of the senders, in whatever order and however often they announce themselves, and ends up with the
list of the group and its master. A failed allocation in `node_add` forgets whom the vip has heard:
then it comes to the same only if they are heard again in time.

## Main definitions

* `Admission`, `Confluent`: the messages of a settled group, and what should come of them
* `remembered`, `HeardInTime`: the messages that the list goes back to, and whether they suffice

## Main results

* `heardInTime_of_memory`: with memory for every new sender they suffice
* `start_confluent`: the messages of a group admit the node in any order, exactly if they suffice
* `start_forgetful`: a vip has heard everybody and waits on
-/

namespace CpgFailover

open Agreed (Entry)

/-! ## The announcements -/

/-- A state message: the outcomes of its handling, its sender and its content. -/
abbrev StateMessage := Outcome × NodeId × NodeMsg

/-- The record after some state messages. -/
def hears (v : Vip) (msgs : List StateMessage) : Vip :=
  handles v (msgs.map fun m => (m.1, .message m.2.1 (.nodeState m.2.2)))

/-- The messages of a settled group: they come from members, who announce themselves with a priority
of their own each, and only `master` announces `ST_MASTER` or `ST_RBACK`, always under the same
uuid, which fits the field of the message. -/
structure Admission (members : List NodeId) (prio : NodeId → ℤ) (master : NodeId) (uuid : CString)
    (msgs : List StateMessage) : Prop where
  distinct : members.Nodup
  several : 2 ≤ members.length
  injective : ∀ x ∈ members, ∀ y ∈ members, prio x = prio y → x = y
  uuid_length : uuid.length < uuidSize
  message : ∀ m ∈ msgs, m.2.1 ∈ members ∧ m.2.2.priority = prio m.2.1 ∧
    (m.2.2.state.serves = true → m.2.1 = master ∧ m.2.2.runtimeUuid = uuid)

/-- Everybody has been heard. -/
def AllHeard (members : List NodeId) (msgs : List StateMessage) : Prop :=
  ∀ x ∈ members, ∃ m ∈ msgs, m.2.1 = x

instance (members : List NodeId) (msgs : List StateMessage) : Decidable (AllHeard members msgs) :=
  inferInstanceAs (Decidable (∀ _ ∈ members, _))

/-- A vip that has been started in this group and has heard nobody yet. -/
structure Starting (members : List NodeId) (prio : NodeId → ℤ) (v : Vip) : Prop where
  state : v.state = .start
  nodeList : v.nodeList = []
  self : v.nodeId ∈ members
  size : v.memberListEntries = members.length
  priority : v.config.priority = prio v.nodeId

/-- What should come of the messages: `ST_START` before the one that completes the set of senders,
`ST_BACKUP` from it on, and in the end the list of the members and their master. -/
structure Confluent (members : List NodeId) (prio : NodeId → ℤ) (master : NodeId) (uuid : CString)
    (msgs : List StateMessage) (v : Vip) : Prop where
  waiting : ∀ before, before <+: msgs → ¬ AllHeard members before → (hears v before).state = .start
  admitted : ∀ before, before <+: msgs → AllHeard members before →
    (hears v before).state = .backup
  descending : (hears v msgs).nodeList.Pairwise fun m n => n.priority < m.priority
  list : ∀ x p, ⟨x, p⟩ ∈ (hears v msgs).nodeList ↔ x ∈ members ∧ p = prio x
  master : (hears v msgs).masterId = master
  uuid : (hears v msgs).runtimeUuid = uuid

/-- One more message: when `node_add` finds no memory for a new sender, all are forgotten. -/
def remember (kept : List StateMessage) (m : StateMessage) : List StateMessage :=
  if m.1.malloc = false ∧ ∀ m' ∈ kept, m'.2.1 ≠ m.2.1 then [] else kept ++ [m]

/-- The messages that the list goes back to. -/
def remembered (msgs : List StateMessage) : List StateMessage := msgs.foldl remember []

/-- Everybody is remembered at the message that completes the set of senders, and in the end. -/
def HeardInTime (members : List NodeId) (msgs : List StateMessage) : Prop :=
  (∀ before m, before ++ [m] <+: msgs → ¬ AllHeard members before →
    AllHeard members (before ++ [m]) → AllHeard members (remembered (before ++ [m]))) ∧
  AllHeard members (remembered msgs)

/-! ## What is remembered -/

section Remembered

variable {members : List NodeId} {msgs : List StateMessage}

theorem remembered_snoc (msgs : List StateMessage) (m : StateMessage) :
    remembered (msgs ++ [m]) = remember (remembered msgs) m := by
  simp only [remembered, List.foldl_append, List.foldl_cons, List.foldl_nil]

theorem remember_of_known {kept : List StateMessage} {m : StateMessage}
    (h : ∃ m' ∈ kept, m'.2.1 = m.2.1) : remember kept m = kept ++ [m] := by
  obtain ⟨m', hm', he⟩ := h
  exact if_neg fun hnew => hnew.2 m' hm' he

theorem remember_of_malloc {kept : List StateMessage} {m : StateMessage}
    (h : m.1.malloc = true) : remember kept m = kept ++ [m] :=
  if_neg fun hnew => Bool.false_ne_true (hnew.1.symm.trans h)

theorem remember_of_lost {kept : List StateMessage} {m : StateMessage}
    (h : ¬ ∃ m' ∈ kept, m'.2.1 = m.2.1) (hm : m.1.malloc = false) : remember kept m = [] :=
  if_pos ⟨hm, fun m' hm' he => h ⟨m', hm', he⟩⟩

theorem remembered_sublist (msgs : List StateMessage) : (remembered msgs).Sublist msgs := by
  induction msgs using List.reverseRecOn with
  | nil => exact List.Sublist.refl _
  | append_singleton msgs m ih =>
    rw [remembered_snoc, remember]
    split_ifs
    exacts [List.nil_sublist _, ih.append (List.Sublist.refl _)]

/-- With memory for every new sender nothing is forgotten. -/
theorem remembered_eq (h : ∀ before m, before ++ [m] <+: msgs →
    (∀ m' ∈ before, m'.2.1 ≠ m.2.1) → m.1.malloc = true) : remembered msgs = msgs := by
  induction msgs using List.reverseRecOn with
  | nil => rfl
  | append_singleton msgs m ih =>
    have hprev : remembered msgs = msgs :=
      ih fun before m' hp => h before m' (hp.trans (List.prefix_append _ _))
    rw [remembered_snoc, hprev]
    by_cases hold : ∃ m' ∈ msgs, m'.2.1 = m.2.1
    · exact remember_of_known hold
    · exact remember_of_malloc (h msgs m List.prefix_rfl fun m' hm' he => hold ⟨m', hm', he⟩)

theorem AllHeard.mono {msgs' : List StateMessage} (h : AllHeard members msgs)
    (hs : msgs ⊆ msgs') : AllHeard members msgs' := by
  intro x hx
  obtain ⟨m, hm, he⟩ := h x hx
  exact ⟨m, hs hm, he⟩

/-- Memory for every new sender suffices. -/
theorem heardInTime_of_memory (hall : AllHeard members msgs)
    (h : ∀ before m, before ++ [m] <+: msgs →
      (∀ m' ∈ before, m'.2.1 ≠ m.2.1) → m.1.malloc = true) : HeardInTime members msgs := by
  refine ⟨fun before m hp _ hnow => ?_, ?_⟩
  · rw [remembered_eq fun before' m' hp' => h before' m' (hp'.trans hp)]
    exact hnow
  · rw [remembered_eq h]
    exact hall

/-- One message completes the set of senders. -/
theorem AllHeard.exists_completing (h : AllHeard members msgs) (hne : members ≠ []) :
    ∃ before m, before ++ [m] <+: msgs ∧ ¬ AllHeard members before ∧
      AllHeard members (before ++ [m]) := by
  induction msgs using List.reverseRecOn with
  | nil =>
    obtain ⟨x, hx⟩ := List.exists_mem_of_ne_nil _ hne
    obtain ⟨m, hm, -⟩ := h x hx
    cases hm
  | append_singleton msgs m ih =>
    by_cases hall : AllHeard members msgs
    · obtain ⟨before, m', hp, hrest⟩ := ih hall
      exact ⟨before, m', hp.trans (List.prefix_append _ _), hrest⟩
    · exact ⟨msgs, m, List.prefix_rfl, hall, h⟩

end Remembered

/-! ## What is known -/

section Confluence

variable {members : List NodeId} {prio : NodeId → ℤ} {master : NodeId} {uuid : CString}
  {msgs : List StateMessage} {v w : Vip}

/-- Everybody was remembered at some moment. -/
def Admitted (members : List NodeId) (msgs : List StateMessage) : Prop :=
  ∃ before, before <+: msgs ∧ AllHeard members (remembered before)

theorem Admitted.allHeard (h : Admitted members msgs) : AllHeard members msgs := by
  obtain ⟨before, hp, hall⟩ := h
  exact hall.mono fun _ hm => hp.subset ((remembered_sublist before).subset hm)

theorem Admitted.mono (h : Admitted members msgs) {msgs' : List StateMessage}
    (hp : msgs <+: msgs') : Admitted members msgs' := by
  obtain ⟨before, hb, hall⟩ := h
  exact ⟨before, hb.trans hp, hall⟩

theorem admitted_snoc {m : StateMessage} : Admitted members (msgs ++ [m]) ↔
    Admitted members msgs ∨ AllHeard members (remembered (msgs ++ [m])) := by
  constructor
  · rintro ⟨before, hp, hall⟩
    rcases List.prefix_concat_iff.mp hp with rfl | hp
    exacts [Or.inr hall, Or.inl ⟨before, hp, hall⟩]
  · rintro (h | h)
    exacts [h.mono (List.prefix_append _ _), ⟨_, List.prefix_rfl, h⟩]

/-- The message that completes the set of senders admits, or none does. -/
theorem admitted_completing {m : StateMessage} (hbefore : ¬ AllHeard members msgs) :
    Admitted members (msgs ++ [m]) ↔ AllHeard members (remembered (msgs ++ [m])) :=
  admitted_snoc.trans (or_iff_right fun h => hbefore h.allHeard)

/-- What a vip that started as `v` knows after the messages: the senders it remembers with their
priorities, and the master if it was heard. -/
structure Knows (members : List NodeId) (prio : NodeId → ℤ) (master : NodeId) (uuid : CString)
    (msgs : List StateMessage) (v w : Vip) : Prop where
  config : w.config = v.config
  nodeId : w.nodeId = v.nodeId
  size : w.memberListEntries = v.memberListEntries
  listed : Enlisted members w.nodeList
  mem : ∀ n, n ∈ w.nodeList ↔
    (∃ m ∈ remembered msgs, m.2.1 = n.nodeid) ∧ n.priority = prio n.nodeid
  waiting : ¬ Admitted members msgs → w.state = .start
  admitted : Admitted members msgs → w.state = .backup
  master : (∃ m ∈ msgs, m.2.2.state.serves = true) → w.masterId = master ∧ w.runtimeUuid = uuid

theorem Admission.of_prefix {msgs' : List StateMessage}
    (h : Admission members prio master uuid msgs') (hp : msgs <+: msgs') :
    Admission members prio master uuid msgs :=
  ⟨h.distinct, h.several, h.injective, h.uuid_length, fun m hm => h.message m (hp.subset hm)⟩

/-- The ids on the list of the senders that are remembered. -/
theorem mem_ids_remembered {l : List Node} (hmem : ∀ n, n ∈ l ↔
    (∃ m ∈ remembered msgs, m.2.1 = n.nodeid) ∧ n.priority = prio n.nodeid) (x : NodeId) :
    x ∈ ids l ↔ ∃ m ∈ remembered msgs, m.2.1 = x := by
  rw [mem_ids]
  constructor
  · rintro ⟨n, hn, rfl⟩
    exact ((hmem n).mp hn).1
  · exact fun hx => ⟨⟨x, prio x⟩, (hmem _).mpr ⟨hx, rfl⟩, rfl⟩

/-- The list of the senders that are remembered is complete if and only if everybody is. -/
theorem Enlisted.complete_iff {l : List Node} (h : Enlisted members l) (hd : members.Nodup)
    (hmem : ∀ n, n ∈ l ↔ (∃ m ∈ remembered msgs, m.2.1 = n.nodeid) ∧ n.priority = prio n.nodeid) :
    listEntries l = members.length ↔ AllHeard members (remembered msgs) := by
  rw [h.length_iff hd]
  constructor
  · exact fun hall x hx => (mem_ids_remembered hmem x).mp (hall hx)
  · exact fun hall x hx => (mem_ids_remembered hmem x).mpr (hall x hx)

/-- The list after one more message. -/
theorem Knows.learn (h : Knows members prio master uuid msgs v w) {m : StateMessage}
    (hp : m.2.2.priority = prio m.2.1) (n : Node) : n ∈ (learn m.1 w m.2.2 m.2.1).nodeList ↔
      (∃ m' ∈ remembered (msgs ++ [m]), m'.2.1 = n.nodeid) ∧ n.priority = prio n.nodeid := by
  have hold : m.2.1 ∈ ids w.nodeList ↔ ∃ m' ∈ remembered msgs, m'.2.1 = m.2.1 :=
    mem_ids_remembered h.mem m.2.1
  have hsnoc : (∃ m' ∈ remembered msgs ++ [m], m'.2.1 = n.nodeid) ↔
      (∃ m' ∈ remembered msgs, m'.2.1 = n.nodeid) ∨ m.2.1 = n.nodeid := by
    simp [or_and_right, exists_or]
  rw [learn_nodeList, remembered_snoc]
  by_cases hx : m.2.1 ∈ ids w.nodeList
  · rw [nodeAdd_of_mem hx, remember_of_known (hold.mp hx), hsnoc, h.mem n]
    -- a repetition adds nobody
    have hin : m.2.1 = n.nodeid → ∃ m' ∈ remembered msgs, m'.2.1 = n.nodeid :=
      fun he => he ▸ hold.mp hx
    exact and_congr_left fun _ => ⟨Or.inl, fun ho => ho.elim id hin⟩
  · cases hm : m.1.malloc with
    | false =>
      -- the whole list is lost
      have hs : ¬ (nodeSearch w.nodeList m.2.1).isSome := fun hs => hx (nodeSearch_isSome.mp hs)
      rw [remember_of_lost (mt hold.mpr hx) hm]
      simp [nodeAdd, hs]
    | true =>
      rw [nodeAdd_of_not_mem hx, mem_insertNode, h.mem n, remember_of_malloc hm, hsnoc,
        or_and_right, or_comm]
      refine or_congr Iff.rfl ⟨?_, ?_⟩
      · rintro rfl
        exact ⟨rfl, hp⟩
      · rintro ⟨he, hn⟩
        cases n with
        | mk x p =>
          simp only at he hn
          subst he
          rw [hn, ← hp]

/-- What is known after one more message, in the state that goes with it. -/
theorem Knows.snoc (h : Knows members prio master uuid msgs v w) {m : StateMessage}
    (ha : Admission members prio master uuid (msgs ++ [m])) {s : State}
    (hwait : ¬ Admitted members (msgs ++ [m]) → s = .start)
    (hadm : Admitted members (msgs ++ [m]) → s = .backup) :
    Knows members prio master uuid (msgs ++ [m]) v
      { CpgFailover.learn m.1 w m.2.2 m.2.1 with state := s } := by
  obtain ⟨hmember, hp, hserve⟩ := ha.message m (by simp)
  constructor
  case config => exact (learn_config _ _ _ _).trans h.config
  case nodeId => exact (learn_nodeId _ _ _ _).trans h.nodeId
  case size => exact (learn_memberListEntries _ _ _ _).trans h.size
  case listed => exact h.listed.learn m.1 m.2.2 hmember
  case mem => exact h.learn hp
  case waiting => exact hwait
  case admitted => exact hadm
  case master =>
    intro hex
    rw [learn_eq]
    -- the last announcement of a master counts, and they are all of the same
    by_cases hs : m.2.2.state.serves = true
    · obtain ⟨hy, hu⟩ := hserve hs
      have hfit : snprintf uuidSize uuid = uuid :=
        List.take_of_length_le (Nat.le_sub_one_of_lt ha.uuid_length)
      simp [hs, hy, hu, hfit]
    · obtain ⟨m', hm', hs'⟩ := hex
      simp only [hs]
      apply h.master
      rcases List.mem_append.mp hm' with hm' | hm'
      · exact ⟨m', hm', hs'⟩
      · rw [List.mem_singleton.mp hm'] at hs'
        exact absurd hs' hs

/-- **One message**: the vip learns the sender, and becomes a backup with the one that completes the
list. -/
theorem Knows.hear (h : Knows members prio master uuid msgs v w) (hv : Starting members prio v)
    {m : StateMessage} (ha : Admission members prio master uuid (msgs ++ [m])) :
    Knows members prio master uuid (msgs ++ [m]) v
      (fsmInputNewStateMessage m.1 w m.2.2 m.2.1).vip := by
  obtain ⟨hmem, hp, -⟩ := ha.message m (by simp)
  have hst := learn_state m.1 w m.2.2 m.2.1
  have hsize : (CpgFailover.learn m.1 w m.2.2 m.2.1).memberListEntries = members.length := by
    rw [learn_memberListEntries, h.size, hv.size]
  have hcomplete : listEntries (CpgFailover.learn m.1 w m.2.2 m.2.1).nodeList = members.length ↔
      AllHeard members (remembered (msgs ++ [m])) :=
    (h.listed.learn m.1 m.2.2 hmem).complete_iff ha.distinct (h.learn hp)
  -- nobody else has this node's priority
  have hdup : ¬ (m.2.2.priority = (CpgFailover.learn m.1 w m.2.2 m.2.1).config.priority ∧
      m.2.1 ≠ (CpgFailover.learn m.1 w m.2.2 m.2.1).nodeId) := by
    rintro ⟨hpr, hne⟩
    rw [learn_config, h.config, hv.priority, hp] at hpr
    rw [learn_nodeId, h.nodeId] at hne
    exact hne (ha.injective _ hmem _ hv.self hpr)
  have hr := messageRaises_stateMessageEvent (CpgFailover.learn m.1 w m.2.2 m.2.1) m.2.2 m.2.1
  rw [fsmInputNewStateMessage]
  generalize stateMessageEvent (CpgFailover.learn m.1 w m.2.2 m.2.1) m.2.2 m.2.1 = event at hr
  cases hr with
  | duplicate hpr hne => exact absurd ⟨hpr, hne⟩ hdup
  | alone _ _ hone =>
    have := ha.several
    omega
  | complete _ hs _ hlen =>
    simp only [fsmDoTransaction, hs]
    rw [hsize] at hlen
    have hadm : Admitted members (msgs ++ [m]) := admitted_snoc.mpr (Or.inr (hcomplete.mp hlen))
    exact h.snoc ha (fun hn => absurd hadm hn) fun _ => rfl
  | request hserves =>
    -- a vip that waits or has been admitted does not serve
    rw [hst] at hserves
    by_cases hall : Admitted members msgs
    · simp [h.admitted hall, State.serves] at hserves
    · simp [h.waiting hall, State.serves] at hserves
  | quiet _ hone _ =>
    have hk := h.snoc ha (s := w.state) ?_ ?_
    · have hsame : { CpgFailover.learn m.1 w m.2.2 m.2.1 with state := w.state } =
          CpgFailover.learn m.1 w m.2.2 m.2.1 := by rw [← hst]
      rwa [hsame] at hk
    · exact fun hn => h.waiting fun hall => hn (hall.mono (List.prefix_append _ _))
    · intro hnow
      by_cases hbefore : Admitted members msgs
      · exact h.admitted hbefore
      -- the list would have been complete
      · have hlen := (hone (hst.trans (h.waiting hbefore))).2
        rw [hsize] at hlen
        exact absurd (hcomplete.mpr ((admitted_snoc.mp hnow).resolve_left hbefore)) hlen

/-- What is known after all messages so far. -/
theorem knows_hears (hv : Starting members prio v) (ha : Admission members prio master uuid msgs) :
    Knows members prio master uuid msgs v (hears v msgs) := by
  induction msgs using List.reverseRecOn with
  | nil =>
    have hnone : ¬ Admitted members [] := by
      intro hadm
      obtain ⟨m, hm, -⟩ := hadm.allHeard v.nodeId hv.self
      cases hm
    have hnil : (hears v []).nodeList = [] := hv.nodeList
    refine ⟨rfl, rfl, rfl, ?_, ?_, fun _ => hv.state, fun h => absurd h hnone, ?_⟩
    · rw [hnil]
      exact ⟨WellOrdered.nil, List.nil_subset _⟩
    · simp [hnil, remembered]
    · rintro ⟨m, hm, -⟩
      cases hm
  | append_singleton msgs m ih =>
    have hstep := (ih (ha.of_prefix (List.prefix_append _ _))).hear hv ha
    simp only [hears, List.map_append, List.map_cons, List.map_nil, handles_snoc]
    exact hstep

/-- Distinct members have distinct priorities. -/
theorem Knows.descending (h : Knows members prio master uuid msgs v w)
    (ha : Admission members prio master uuid msgs) :
    w.nodeList.Pairwise fun m n => n.priority < m.priority := by
  have hne : w.nodeList.Pairwise fun m n => m.nodeid ≠ n.nodeid :=
    List.pairwise_map.mp h.listed.ordered.nodup
  refine (h.listed.ordered.sorted.and hne).imp_of_mem fun {m n} hm hn hmn => ?_
  refine lt_of_le_of_ne hmn.1 fun he => hmn.2 ?_
  have hpm := ((h.mem m).mp hm).2
  have hpn := ((h.mem n).mp hn).2
  apply ha.injective _ (h.listed.subset (mem_ids.mpr ⟨m, hm, rfl⟩)) _
    (h.listed.subset (mem_ids.mpr ⟨n, hn, rfl⟩))
  rw [← hpm, ← hpn, he]

end Confluence

/-- **The admission of a node is confluent.** A vip starts in a group of at least two and hears
announcements of its members, in any order and with any repetitions, the master's as such among
them. All comes out as it should if and only if everybody is remembered at the message that
completes the set of senders, and in the end. -/
theorem start_confluent {members : List NodeId} {prio : NodeId → ℤ} {master : NodeId}
    {uuid : CString}
    {msgs : List StateMessage} {v : Vip} (hv : Starting members prio v)
    (ha : Admission members prio master uuid msgs)
    (hmaster : ∃ m ∈ msgs, m.2.2.state.serves = true) :
    Confluent members prio master uuid msgs v ↔ HeardInTime members msgs := by
  have hk := knows_hears hv ha
  have hknow {before : List StateMessage} (hp : before <+: msgs) :
      Knows members prio master uuid before v (hears v before) := knows_hears hv (ha.of_prefix hp)
  constructor
  · intro hc
    refine ⟨fun before m hp hbefore hnow => ?_, fun x hx => ?_⟩
    · -- the vip would still be waiting
      have hback := hc.admitted _ hp hnow
      refine (admitted_completing hbefore).mp (by_contra fun hn => ?_)
      have hstart := (hknow hp).waiting hn
      rw [hback] at hstart
      cases hstart
    · exact ((hk.mem _).mp ((hc.list x (prio x)).mpr ⟨hx, rfl⟩)).1
  · rintro ⟨hintime, hend⟩
    refine ⟨fun before hp hbefore => ?_, fun before hp hbefore => ?_, hk.descending ha,
      fun x p => ?_, (hk.master hmaster).1, (hk.master hmaster).2⟩
    · exact (hknow hp).waiting fun hadm => hbefore hadm.allHeard
    · obtain ⟨early, m, he, hno, hnow⟩ := hbefore.exists_completing (List.ne_nil_of_mem hv.self)
      have hadm := (admitted_completing hno).mpr (hintime early m (he.trans hp) hno hnow)
      exact (hknow hp).admitted (hadm.mono he)
    · rw [hk.mem]
      refine and_congr_left fun _ => ⟨?_, fun hx => hend x hx⟩
      rintro ⟨m, hm, rfl⟩
      exact (ha.message m ((remembered_sublist msgs).subset hm)).1

/-- Node 1 hears a master of higher priority, a third node, itself, and the master again; there is no
memory for the master at first, and none is needed in the end. -/
def threeHeard : List StateMessage :=
  [(exhausted, 2, ⟨20, .master, [117]⟩), (allSucceed, 3, ⟨5, .backup, []⟩),
    (allSucceed, 2, ⟨20, .master, [117]⟩), (allSucceed, 1, ⟨10, .start, []⟩),
    (exhausted, 2, ⟨20, .rback, [117]⟩)]

/-- The priorities of the three. -/
def threePriorities (n : NodeId) : ℤ := if n = 1 then 10 else if n = 2 then 20 else 5

theorem start_confluent_threeHeard : Confluent [2, 1, 3] threePriorities 2 [117] threeHeard
    { startedVip with memberListEntries := 3 } := by
  refine (start_confluent ⟨rfl, rfl, by decide, rfl, by decide⟩
    ⟨by decide, by decide, by decide, by decide, by decide⟩ (by decide)).mpr ⟨?_, by decide⟩
  intro before m hp hno hnow
  -- one beginning after the other
  have hinits : ∀ now ∈ threeHeard.inits, ¬ AllHeard [2, 1, 3] now.dropLast →
      AllHeard [2, 1, 3] now → AllHeard [2, 1, 3] (remembered now) := by decide
  exact hinits _ ((List.mem_inits _ _).mpr hp) (by rwa [List.dropLast_concat]) hnow

/-- Node 1 hears the master, and itself when there is no memory. -/
def selfForgotten : List StateMessage :=
  [(allSucceed, 2, ⟨20, .master, [117]⟩), (exhausted, 1, ⟨10, .start, []⟩)]

/-- **A failed allocation stops a start**: everybody has been heard, and the list is lost. -/
theorem start_forgetful : ¬ ∀ (members : List NodeId) (prio : NodeId → ℤ) (master : NodeId)
    (uuid : CString) (msgs : List StateMessage) (v : Vip), Starting members prio v →
      Admission members prio master uuid msgs → AllHeard members msgs →
        (∃ m ∈ msgs, m.2.2.state.serves = true) → Confluent members prio master uuid msgs v := by
  intro h
  have hc := h [1, 2] threePriorities 2 [117] selfForgotten
    { startedVip with memberListEntries := 2 } ⟨rfl, rfl, by decide, rfl, by decide⟩
    ⟨by decide, by decide, by decide, by decide, by decide⟩ (by decide) (by decide)
  have hback := hc.admitted selfForgotten List.prefix_rfl (by decide)
  revert hback
  decide

end CpgFailover
