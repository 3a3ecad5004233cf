import CpgFailover.Election.Following
import CpgFailover.Election.Turns

/-!
# The snapshot of the calls

A master answers an arrival with its state, and asks sofia for the calls of each profile. Sofia
sends them row by row, and `event_handler` multicasts each row as it comes: after the state, and
with no mark. The node that has joined looks at the states only. So it may become a backup before it
has got the last row of an answer, unless every row is ordered before the state message that
completes its list.

## Main definitions

* `Request`, `Transfer`: the group with what sofia has still to send, and for each message the
  arrival it answers
* `TransferStep`, `Transfer.step`: the steps of the group, and the rows
* `Admits`: a state message that completes the list of a node that joined
* `Timely`: no row of an answer is ordered after such a message
* `Transfer.Owns`: whoever becomes a backup has got every row that answers its join

## Main results

* `Tagged.step`: the rows of an answer are statements, ordered in time
* `backup_owns_snapshot`: in runs in which the rows come in time, a backup owns the snapshot
* `backup_without_snapshot`: otherwise it may not
-/

namespace CpgFailover

open Agreed Transition

/-! ## Answers -/

/-- A call as sofia hands it to `event_handler`: its profile and its statement. -/
abbrev Row := CString × CString

/-- What sofia has still to send for the arrival at position `join`. -/
structure Request where
  node : NodeId
  join : ℕ
  rows : List Row
deriving DecidableEq

/-- The group, with what sofia has still to send on each node, and for each message that waits and
for each entry of the log the arrival it answers, if it is a row of an answer. -/
structure Transfer where
  group : Cluster
  requests : List Request
  waiting : NodeId → List (Option ℕ)
  answers : List (Option ℕ)

/-- The steps: one of the group, with the rows sofia will answer it with if it asks for calls; or
the next row of an answer. -/
inductive TransferStep
  | group (l : ClusterStep) (rows : List Row)
  | answer (i : ℕ)

/-- The `request_all` events. -/
def Effect.isRequest : Effect → Bool
  | .requestAll _ => true
  | _ => false

namespace Transfer

/-- The request of the last callback, if it has made one. -/
def requested (g : Cluster) (rows : List Row) : List Request :=
  match g.transcript.getLast? with
  | some r => if r.out.any Effect.isRequest then [⟨r.node, r.pos, rows⟩] else []
  | none => []

/-- Messages that are no rows have joined those that wait. -/
def padded (t : Transfer) (g : Cluster) (n : NodeId) : List (Option ℕ) :=
  t.waiting n ++ List.replicate ((g.site n).outbox.length - (t.waiting n).length) none

/-- The group has made a step. -/
def after (t : Transfer) (g : Cluster) (rows : List Row) : ClusterStep → Transfer
  | .deliver _ _ => ⟨g, t.requests ++ requested g rows, t.padded g, t.answers⟩
  | .order n =>
    ⟨g, t.requests, Function.update t.waiting n (t.waiting n).tail,
      t.answers ++ [(t.waiting n).head?.join]⟩
  | .confchg left _ =>
    ⟨g, t.requests, fun n => if n ∈ left then [] else t.waiting n, t.answers ++ [none]⟩
  -- sofia runs in the process
  | .crash n => ⟨g, t.requests.filter fun r => r.node ≠ n, t.padded g, t.answers⟩
  | .act _ _ | .boot _ => ⟨g, t.requests, t.padded g, t.answers⟩

/-- One step. A row of another vip's profile is not sent, and neither is one of a node that is not
in the group. -/
def step (d : Deployment) (t : Transfer) : TransferStep → Option Transfer
  | .group l rows => (d.step t.group l).map fun g => t.after g rows l
  | .answer i =>
    match t.requests[i]? with
    | some ⟨n, j, (name, sql) :: rows⟩ =>
      some (match d.step t.group (.act n (.event name sql)) with
        | some g => ⟨g, t.requests.set i ⟨n, j, rows⟩,
            Function.update t.waiting n (t.waiting n ++ [some j]), t.answers⟩
        | none => { t with requests := t.requests.set i ⟨n, j, rows⟩ })
    | _ => none

/-- Nobody has joined yet. -/
def start (d : Deployment) : Transfer := ⟨d.start, [], fun _ => [], []⟩

/-- **A backup owns the snapshot**: whoever becomes a backup has handled every row that answers its
join. -/
def Owns (t : Transfer) : Prop :=
  ∀ r ∈ t.group.transcript, r.pre.vip.state = .start → r.post.vip.state = .backup →
    ∀ j ≤ r.pos, JoinsAt t.group.log j r.node → Stays t.group.log r.node j (r.pos + 1) →
      ∀ k, t.answers[k]? = some (some j) →
        ∃ r' ∈ t.group.transcript, r'.node = r.node ∧ r'.pos = k ∧ k < r.pos

end Transfer

/-- The state message at position `j` completes the list of somebody who has joined with the entry
at position `i`. -/
def Admits (log : List (Entry NodeId Msg)) (i j : ℕ) : Prop :=
  Completes log i j ∧
    ∃ x ∈ viewAfter (log.take (j + 1)), JoinsAt log i x ∧ Stays log x i (j + 1)

instance (log : List (Entry NodeId Msg)) (i j : ℕ) : Decidable (Admits log i j) := by
  unfold Admits
  infer_instance

/-- A longer log says the same about whose list is complete. -/
theorem admits_append_iff {log : List (Entry NodeId Msg)} {i j : ℕ} {e : Entry NodeId Msg}
    (hij : i < j) (hj : j < log.length) : Admits (log ++ [e]) i j ↔ Admits log i j := by
  simp only [Admits, completes_append_iff hj, take_append_one (Nat.succ_le_of_lt hj),
    joinsAt_append_iff (hij.trans hj), stays_append_iff (Nat.succ_le_of_lt hj)]

/-- A clean start; and a row that answers the arrival at position `j` is ordered before a state
message that completes the list of somebody who arrived there. -/
def Timely (t : Transfer) : TransferStep → Prop
  | .group l _ => CleanStarts t.group l ∧
    match l with
    | .order n => ∀ j ∈ (t.waiting n).head?.join, ∀ i < t.group.log.length,
        j < i → ¬ Admits t.group.log j i
    | _ => True
  | .answer _ => True

instance (t : Transfer) : (l : TransferStep) → Decidable (Timely t l)
  | .answer _ => by unfold Timely; infer_instance
  | .group (.order _) _ | .group (.deliver _ _) _ | .group (.act _ _) _ | .group (.confchg _ _) _
  | .group (.crash _) _ | .group (.boot _) _ => by unfold Timely; infer_instance

/-! ## The rows -/

/-- The rows that wait, and those that have been ordered: they are statements, they answer an
arrival that is in the log, and they were ordered before the list of a node that joined was
complete. -/
structure Tagged (t : Transfer) : Prop where
  parallel : ∀ n, (t.waiting n).length = (t.group.site n).outbox.length
  waiting : ∀ (n : NodeId) (i j : ℕ), (t.waiting n)[i]? = some (some j) →
    j < t.group.log.length ∧ ∃ name sql, (t.group.site n).outbox[i]? = some (Msg.sql name sql)
  request : ∀ r ∈ t.requests, r.join < t.group.log.length
  length : t.answers.length = t.group.log.length
  answer : ∀ k j : ℕ, t.answers[k]? = some (some j) → j < k ∧
    (∃ y name sql, t.group.log[k]? = some (.message y (.sql name sql))) ∧
      ∀ i < k, j < i → ¬ Admits t.group.log j i

section Tagged

variable {d : Deployment} {t : Transfer} {g g' : Cluster}

theorem tagged_start (d : Deployment) : Tagged (Transfer.start d) where
  parallel _ := rfl
  waiting _ _ _ h := by simp [Transfer.start] at h
  request _ h := by cases h
  length := rfl
  answer _ _ h := by simp [Transfer.start] at h

/-- A step that orders nothing. -/
theorem Tagged.grow (h : Tagged t) {requests : List Request} {waiting : NodeId → List (Option ℕ)}
    (hlog : g.log = t.group.log) (hparallel : ∀ n, (waiting n).length = (g.site n).outbox.length)
    (hwaiting : ∀ (n : NodeId) (i j : ℕ), (waiting n)[i]? = some (some j) →
      j < g.log.length ∧ ∃ name sql, (g.site n).outbox[i]? = some (Msg.sql name sql))
    (hrequest : ∀ r ∈ requests, r.join < g.log.length) :
    Tagged ⟨g, requests, waiting, t.answers⟩ where
  parallel := hparallel
  waiting := hwaiting
  request := hrequest
  length := by rw [hlog]; exact h.length
  answer k j hk := by rw [hlog]; exact h.answer k j hk

/-- Messages that are no rows join those that wait. -/
theorem Tagged.padded (h : Tagged t) {requests : List Request} (hlog : g.log = t.group.log)
    (hbox : ∀ n, ∃ extra, (g.site n).outbox = (t.group.site n).outbox ++ extra)
    (hrequest : ∀ r ∈ requests, r.join < g.log.length) :
    Tagged ⟨g, requests, t.padded g, t.answers⟩ := by
  refine h.grow hlog (fun n => ?_) (fun n i j hi => ?_) hrequest
  · obtain ⟨extra, he⟩ := hbox n
    have hp := h.parallel n
    simp only [Transfer.padded, List.length_append, List.length_replicate, he]
    omega
  · obtain ⟨extra, he⟩ := hbox n
    have hold : (t.waiting n)[i]? = some (some j) := by
      rw [Transfer.padded, List.getElem?_append] at hi
      split_ifs at hi with hlt
      · exact hi
      · exact absurd (List.mem_of_getElem? hi) (by simp)
    obtain ⟨hj, name, sql, hbox⟩ := h.waiting n i j hold
    refine ⟨hlog ▸ hj, name, sql, ?_⟩
    rw [he, List.getElem?_append_left (List.getElem?_eq_some_iff.mp hbox).1]
    exact hbox

/-- An entry joins the log, a row of an answer if `w` says so. -/
theorem Tagged.ordered (h : Tagged t) {e : Entry NodeId Msg} {w : Option ℕ}
    {waiting : NodeId → List (Option ℕ)} (hlog : g.log = t.group.log ++ [e])
    (hparallel : ∀ n, (waiting n).length = (g.site n).outbox.length)
    (hwaiting : ∀ (n : NodeId) (i j : ℕ), (waiting n)[i]? = some (some j) →
      j < t.group.log.length ∧ ∃ name sql, (g.site n).outbox[i]? = some (Msg.sql name sql))
    (hw : ∀ j ∈ w, j < t.group.log.length ∧ (∃ y name sql, e = .message y (.sql name sql)) ∧
      ∀ i < t.group.log.length, j < i → ¬ Admits t.group.log j i) :
    Tagged ⟨g, t.requests, waiting, t.answers ++ [w]⟩ where
  parallel := hparallel
  waiting n i j hi := by
    obtain ⟨hj, hs⟩ := hwaiting n i j hi
    exact ⟨by rw [hlog, List.length_append]; omega, hs⟩
  request r hr := by
    rw [hlog, List.length_append]
    exact (h.request r hr).trans_le (Nat.le_add_right _ _)
  length := by rw [hlog, List.length_append, List.length_append, h.length]; rfl
  answer k j hk := by
    have hlen := h.length
    rw [hlog]
    rcases getElem?_snoc_cases hk with hk | ⟨rfl, hwj⟩
    · -- ordered before
      have hlt := (List.getElem?_eq_some_iff.mp hk).1
      obtain ⟨hjk, ⟨y, name, sql, he⟩, hnot⟩ := h.answer k j hk
      refine ⟨hjk, ⟨y, name, sql, getElem?_append_one he⟩, fun i hi hji => ?_⟩
      rw [admits_append_iff hji (by omega)]
      exact hnot i hi hji
    · obtain ⟨hj, ⟨y, name, sql, rfl⟩, hnot⟩ := hw j hwj.symm
      refine ⟨by omega, ⟨y, name, sql, ?_⟩, fun i hi hji => ?_⟩
      · rw [hlen]
        simp
      · rw [admits_append_iff hji (by omega)]
        exact hnot i (by omega) hji

/-- The first of the messages of a node that wait is ordered. -/
theorem Tagged.order (h : Tagged t) {n : NodeId} {m : Msg} {rest : List Msg}
    (hout : (t.group.site n).outbox = m :: rest)
    (hok : ∀ j ∈ (t.waiting n).head?.join, ∀ i < t.group.log.length, j < i →
      ¬ Admits t.group.log j i) :
    Tagged ⟨{ t.group.setSite n { t.group.site n with outbox := rest } with
      log := t.group.log ++ [.message n m] }, t.requests,
      Function.update t.waiting n (t.waiting n).tail, t.answers ++ [(t.waiting n).head?.join]⟩ := by
  have hlen : (t.waiting n).length = rest.length + 1 := by
    rw [h.parallel n, hout, List.length_cons]
  obtain ⟨w, ws, hw⟩ : ∃ w ws, t.waiting n = w :: ws := by
    cases hw : t.waiting n with
    | nil => simp [hw] at hlen
    | cons w ws => exact ⟨w, ws, rfl⟩
  simp only [hw, List.tail_cons, List.head?_cons, Option.join_some] at hok ⊢
  refine h.ordered (e := .message n m) rfl (fun x => ?_) (fun x i j hi => ?_) fun j hj => ?_
  · by_cases hx : x = n
    · subst hx
      simpa [Group.setSite_of_ne, hw] using hlen
    · simpa [Group.setSite_of_ne, hx] using h.parallel x
  · by_cases hx : x = n
    · subst hx
      simp only [Function.update_self] at hi
      obtain ⟨hj, name, sql, hbox⟩ := h.waiting x (i + 1) j (by simpa [hw] using hi)
      exact ⟨hj, name, sql, by simpa [Group.setSite_of_ne, hout] using hbox⟩
    · simp only [Function.update_of_ne hx] at hi
      obtain ⟨hj, name, sql, hbox⟩ := h.waiting x i j hi
      exact ⟨hj, name, sql, by simpa [Group.setSite_of_ne, hx] using hbox⟩
  · obtain rfl : w = some j := hj
    obtain ⟨hj, name, sql, hbox⟩ := h.waiting n 0 j (by simp [hw])
    rw [hout] at hbox
    obtain rfl := Option.some.inj hbox
    exact ⟨hj, ⟨n, name, sql, rfl⟩, hok j rfl⟩

/-- The next row of an answer joins the messages that wait. -/
theorem Tagged.send (h : Tagged t) {n : NodeId} {j : ℕ} {name sql : CString} {p : Site Msg Proc}
    {requests : List Request} (hj : j < t.group.log.length)
    (hrequest : ∀ r ∈ requests, r.join < t.group.log.length)
    (hp : p.outbox = (t.group.site n).outbox ++ [.sql name sql]) :
    Tagged ⟨t.group.setSite n p, requests,
      Function.update t.waiting n (t.waiting n ++ [some j]), t.answers⟩ := by
  refine h.grow rfl (fun x => ?_) (fun x i k hi => ?_) hrequest
  · by_cases hx : x = n
    · subst hx
      simpa [Group.setSite_of_ne, hp] using h.parallel x
    · simpa [Group.setSite_of_ne, hx] using h.parallel x
  · by_cases hx : x = n
    · subst hx
      simp only [Group.setSite_self, Function.update_self] at hi ⊢
      rw [hp]
      rcases getElem?_snoc_cases hi with hi | ⟨rfl, hjk⟩
      · obtain ⟨hk, name', sql', hbox⟩ := h.waiting x i k hi
        refine ⟨hk, name', sql', ?_⟩
        rw [List.getElem?_append_left (List.getElem?_eq_some_iff.mp hbox).1]
        exact hbox
      · -- the new row
        obtain rfl := Option.some.inj hjk
        exact ⟨hj, name, sql, by simp [h.parallel x]⟩
    · simp only [Group.setSite_of_ne hx, Function.update_of_ne hx] at hi ⊢
      exact h.waiting x i k hi

/-- A configuration change: the departed lose the messages that wait. -/
theorem Tagged.change (h : Tagged t) (left joined : List NodeId) :
    Tagged ⟨t.group.change left joined, t.requests,
      fun x => if x ∈ left then [] else t.waiting x, t.answers ++ [none]⟩ := by
  have hbox (x : NodeId) : ((t.group.change left joined).site x).outbox =
      if x ∈ left then [] else (t.group.site x).outbox := by
    simp only [Group.change]
    split_ifs <;> rfl
  refine h.ordered (e := .confchg (t.group.members left joined) left joined) rfl (fun x => ?_)
    (fun x i j hi => ?_) fun j hj => by cases hj
  · rw [hbox]
    by_cases hx : x ∈ left
    · simp [hx]
    · simp [hx, h.parallel x]
  · by_cases hx : x ∈ left
    · simp [hx] at hi
    · rw [hbox, if_neg hx]
      exact h.waiting x i j (by simpa [hx] using hi)

/-- A row is a statement that a member sends. -/
theorem setSite_of_event {n : NodeId} {name sql : CString}
    (hs : d.step g (.act n (.event name sql)) = some g') :
    ∃ p, g' = g.setSite n p ∧ p.outbox = (g.site n).outbox ++ [.sql name sql] := by
  cases Group.stepTo_of_step hs with
  | @act _ _ s sig p hup hact hp =>
    obtain ⟨m, hm, heq⟩ := Option.map_eq_some_iff.mp hact
    cases heq
    obtain rfl : m = .sql name sql := by
      unfold eventHandler at hm
      split_ifs at hm
      exact (Option.some.inj hm).symm
    simp only [Site.signal] at hp
    split at hp
    · obtain rfl := Option.some.inj hp
      exact ⟨_, rfl, rfl⟩
    · cases hp

/-- A request is for an entry of the log. -/
theorem join_lt_of_requested {C : NodeId → Proc → Command → Prop}
    (hg : Group.Sound (cluster d) C g) {rows : List Row} {r : Request}
    (hr : r ∈ Transfer.requested g rows) : r.join < g.log.length := by
  unfold Transfer.requested at hr
  split at hr
  · rename_i r' hlast
    split_ifs at hr
    · obtain rfl := List.mem_singleton.mp hr
      exact hg.bounded r' (List.mem_of_getLast? hlast)
    · cases hr
  · cases hr

/-- **Each step keeps the rows tagged**, if they come in time. -/
theorem Tagged.step (h : Tagged t) (hg : Group.Sound (cluster d) CleanStart t.group)
    {l : TransferStep} {t' : Transfer} (hok : Timely t l) (hs : Transfer.step d t l = some t') :
    Tagged t' := by
  cases l with
  | group l rows =>
    obtain ⟨g, hstep, rfl⟩ := Option.map_eq_some_iff.mp hs
    cases l with
    | act n c =>
      have hgrow (m : NodeId) := Group.outbox_grows hstep trivial m
      exact h.padded (hgrow 0).1 (fun m => (hgrow m).2) fun r hr => (hgrow 0).1 ▸ h.request r hr
    | boot n =>
      have hgrow (m : NodeId) := Group.outbox_grows hstep trivial m
      exact h.padded (hgrow 0).1 (fun m => (hgrow m).2) fun r hr => (hgrow 0).1 ▸ h.request r hr
    | crash n =>
      have hgrow (m : NodeId) := Group.outbox_grows hstep trivial m
      refine h.padded (hgrow 0).1 (fun m => (hgrow m).2) fun r hr => ?_
      exact (hgrow 0).1 ▸ h.request r (List.mem_of_mem_filter hr)
    | deliver n o =>
      have hgrow (m : NodeId) := Group.outbox_grows hstep trivial m
      refine h.padded (hgrow 0).1 (fun m => (hgrow m).2) fun r hr => ?_
      rcases List.mem_append.mp hr with hr | hr
      · exact (hgrow 0).1 ▸ h.request r hr
      · exact join_lt_of_requested (hg.step (fun _ _ ha => by cases ha) hstep) hr
    | order n =>
      cases Group.stepTo_of_step hstep with
      | @order _ m rest hv hout => exact h.order hout hok.2
    | confchg left joined =>
      cases Group.stepTo_of_step hstep with
      | confchg => exact h.change left joined
  | answer i =>
    simp only [Transfer.step] at hs
    split at hs
    · rename_i n j name sql rows hr
      obtain rfl := Option.some.inj hs
      have hj : j < t.group.log.length := h.request _ (List.mem_of_getElem? hr)
      have hrequest : ∀ r ∈ t.requests.set i ⟨n, j, rows⟩, r.join < t.group.log.length := by
        intro r hr
        rcases List.mem_or_eq_of_mem_set hr with hr | rfl
        exacts [h.request r hr, hj]
      cases hstep : d.step t.group (.act n (.event name sql)) with
      | none => exact h.grow rfl h.parallel h.waiting hrequest
      | some g =>
        obtain ⟨p, rfl, hp⟩ := setSite_of_event hstep
        exact h.send hj hrequest hp
    · cases hs

end Tagged

/-! ## The snapshot -/

section Runs

variable {d : Deployment} {t : Transfer}

/-- The group of a transfer runs. -/
theorem Transfer.reaches_group (h : ReachesWhen (Transfer.step d) Timely (Transfer.start d) t) :
    ReachesWhen d.step CleanStarts d.start t.group := by
  refine h.invariant (I := fun t => ReachesWhen d.step CleanStarts d.start t.group) .refl ?_
  intro t l t' _ hr hok hs
  cases l with
  | group l rows =>
    obtain ⟨g, hstep, rfl⟩ := Option.map_eq_some_iff.mp hs
    have hg := hr.tail hok.1 hstep
    cases l <;> exact hg
  | answer i =>
    simp only [Transfer.step] at hs
    split at hs
    · rename_i n j name sql rows _
      obtain rfl := Option.some.inj hs
      cases hstep : d.step t.group (.act n (.event name sql)) with
      | none => exact hr
      | some g => exact hr.tail (l := .act n (.event name sql)) trivial hstep
    · cases hs

theorem Transfer.tagged (h : ReachesWhen (Transfer.step d) Timely (Transfer.start d) t) :
    Tagged t := by
  refine h.invariant (tagged_start d) fun _ _ _ hr ht hok hs => ht.step ?_ hok hs
  exact Cluster.sound id (Transfer.reaches_group hr)

/-- **A backup owns the snapshot.** In every run of clean starts in which every row that answers an
arrival is ordered before a state message that completes the list of a node that arrived, a node
that becomes a backup has handled every row that answers its join. -/
theorem backup_owns_snapshot (h : ReachesWhen (Transfer.step d) Timely (Transfer.start d) t) :
    t.Owns := by
  intro r hr hstart hbackup j hj hjoin hst k hk
  have hgroup := Transfer.reaches_group h
  have hg := Cluster.sound id hgroup
  obtain ⟨hjr, hcomplete⟩ :=
    (Cluster.chronicle id hgroup).completes_of_turn (Cluster.turnOf_mem hr) hj
    hjoin hst (by simpa [turnOf] using hstart) (by simpa [turnOf] using hbackup)
  obtain ⟨hjk, ⟨y, name, sql, he⟩, hnot⟩ := (Transfer.tagged h).answer k j hk
  have hlt : k < r.pos := by
    rcases Nat.lt_trichotomy k r.pos with hlt | rfl | hgt
    · exact hlt
    · -- the message that completes the list is no row
      obtain ⟨⟨y', nm, he'⟩, -⟩ := hcomplete
      exact absurd (he.symm.trans he') (by simp)
    · exact absurd ⟨hcomplete, r.node, hst.mem (Nat.lt_succ_of_le hj), hjoin, hst⟩
        (hnot r.pos hgt hjr)
  obtain ⟨r', hr', hn, hpos⟩ := hg.exists_record hr hjk.le hlt.le hst
  exact ⟨r', hr', hn, hpos, hlt⟩

end Runs

/-- Steps of the group that ask for no calls. -/
def plain (ls : List ClusterStep) : List TransferStep := ls.map fun l => .group l []

/-- The first node serves the address, the second joins, and the first is asked for its one call. -/
def callAsked : List TransferStep :=
  plain (firstUp 1 ++ launch 2 0 ++ [.confchg [] [2]]) ++
    [.group (.deliver 1 allSucceed) [([101, 120, 116], [83])]] ++ plain (deliveries 2 1)

/-- The row is ordered before the joining node has been heard. -/
def rowInTime : Transfer :=
  (runWhen (Transfer.step serving) Timely (Transfer.start serving) (callAsked ++ [.answer 0] ++
    plain ([.order 1, .order 1, .order 2] ++ deliveries 2 3))).getD (Transfer.start serving)

set_option maxRecDepth 10000 in
theorem backup_owns_snapshot_rowInTime : (rowInTime.group.vip 2).state = .backup ∧
    rowInTime.answers[5]? = some (some 3) ∧
      ∃ r ∈ rowInTime.group.transcript, r.node = 2 ∧ r.pos = 5 := by
  obtain ⟨r, hr, hn, hpos, hstart, hbackup⟩ : ∃ r ∈ rowInTime.group.transcript, r.node = 2 ∧
      r.pos = 6 ∧ r.pre.vip.state = .start ∧ r.post.vip.state = .backup := by decide +kernel
  have hjoin : JoinsAt rowInTime.group.log 3 2 := ⟨[1, 2], [], [2], by decide +kernel, by decide⟩
  have hrow : rowInTime.answers[5]? = some (some 3) := by decide +kernel
  obtain ⟨r', hr', hn', hpos', -⟩ := backup_owns_snapshot (t := rowInTime) (reachesWhen_getD _) r hr
    hstart hbackup 3 (by omega) (hn ▸ hjoin) (by rw [hn, hpos]; decide +kernel) 5 hrow
  exact ⟨by decide +kernel, hrow, r', hr', hn'.trans hn, hpos'⟩

/-- The row is ordered after everybody has been heard. -/
def rowLate : Transfer :=
  (run (Transfer.step serving) (Transfer.start serving) (callAsked ++ plain ([.order 1, .order 2] ++
    deliveries 2 2) ++ [.answer 0] ++ plain [.order 1])).getD (Transfer.start serving)

set_option maxRecDepth 10000 in
/-- **A backup may miss a call**: the state of the master and the rows of its answer are different
messages, and the joining node looks at the states only. -/
theorem backup_without_snapshot : ¬ ∀ (d : Deployment) (t : Transfer),
    Reaches (Transfer.step d) (Transfer.start d) t → t.Owns := by
  intro h
  obtain ⟨r, hr, hn, hpos, hstart, hbackup⟩ : ∃ r ∈ rowLate.group.transcript, r.node = 2 ∧
      r.pos = 5 ∧ r.pre.vip.state = .start ∧ r.post.vip.state = .backup := by decide +kernel
  have hjoin : JoinsAt rowLate.group.log 3 2 := ⟨[1, 2], [], [2], by decide +kernel, by decide⟩
  obtain ⟨r', -, -, -, hlt⟩ := h serving rowLate (reaches_getD _) r hr hstart hbackup 3 (by omega)
    (hn ▸ hjoin) (by rw [hn, hpos]; decide +kernel) 6 (by decide +kernel)
  omega

end CpgFailover
