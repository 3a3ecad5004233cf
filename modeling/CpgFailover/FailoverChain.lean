import CpgFailover.Cluster

/-!
# The failover chain

Nobody joins, and the members depart one after the other, with the announcements of new masters in
between or not. A backup takes over at the departure of the member that was last announced as a
master, if nobody is left ahead of it then, and at no other departure. So a successor that departs
before its announcement leaves the next backup waiting.

## Main definitions

* `Happening`, `happenings`: departures and announcements, in order
* `TakesOver`: the last announced master departs and leaves nobody ahead

## Main results

* `failover_chain`: a backup becomes the master if and only if it takes over in this sense
* `chain_broken`: the departure of everybody ahead does not suffice
-/

namespace CpgFailover

open Agreed (Entry)

/-! ## Departures and announcements -/

/-- A departure, or the announcement of a master. -/
inductive Happening
  | departs (x : NodeId)
  | announces (y : NodeId)
deriving DecidableEq

/-- What an entry brings, in order. -/
def happenings : Entry NodeId Msg → List Happening
  | .confchg _ left _ => left.map .departs
  | .message y (.nodeState nm) => if nm.state.serves then [.announces y] else []
  | .message _ (.sql _ _) => []

/-- The member that was last announced as a master; `m` before any announcement. -/
def lastAnnounced : NodeId → List Happening → NodeId
  | m, [] => m
  | m, .departs _ :: hs => lastAnnounced m hs
  | _, .announces y :: hs => lastAnnounced y hs

/-- The last announced master departs, and nobody is left of those `ahead`. -/
def TakesOver (ahead : List NodeId) (m : NodeId) (hs : List Happening) : Prop :=
  ∃ before x after, hs = before ++ .departs x :: after ∧ lastAnnounced m before = x ∧
    ∀ y ∈ ahead, y = x ∨ .departs y ∈ before

section TakesOver

variable {ahead : List NodeId} {m x y : NodeId} {hs : List Happening}

theorem not_takesOver_nil : ¬ TakesOver ahead m [] := by
  rintro ⟨before, x, after, he, -⟩
  simp at he

theorem takesOver_announces : TakesOver ahead m (.announces y :: hs) ↔ TakesOver ahead y hs := by
  constructor
  · rintro ⟨before, x, after, he, hx, ha⟩
    cases before with
    | nil => simp at he
    | cons b before =>
      rw [List.cons_append] at he
      obtain ⟨rfl, rfl⟩ := List.cons.inj he
      exact ⟨before, x, after, rfl, hx, by simpa using ha⟩
  · rintro ⟨before, x, after, rfl, hx, ha⟩
    exact ⟨.announces y :: before, x, after, rfl, hx, by simpa using ha⟩

theorem takesOver_departs : TakesOver ahead m (.departs x :: hs) ↔
    (m = x ∧ ∀ y ∈ ahead, y = x) ∨ TakesOver (ahead.filter (· ≠ x)) m hs := by
  constructor
  · rintro ⟨before, z, after, he, hz, ha⟩
    cases before with
    | nil =>
      obtain ⟨hx, -⟩ := List.cons.inj he
      cases hx
      exact Or.inl ⟨hz, by simpa using ha⟩
    | cons b before =>
      rw [List.cons_append] at he
      obtain ⟨rfl, rfl⟩ := List.cons.inj he
      refine Or.inr ⟨before, z, after, rfl, hz, fun y hy => ?_⟩
      obtain ⟨hy, hne⟩ := List.mem_filter.mp hy
      rcases ha y hy with rfl | hd
      · exact Or.inl rfl
      · rcases List.mem_cons.mp hd with he | hd
        · cases he
          simp at hne
        · exact Or.inr hd
  · rintro (⟨rfl, ha⟩ | ⟨before, z, after, rfl, hz, ha⟩)
    · exact ⟨[], m, hs, rfl, rfl, fun y hy => Or.inl (ha y hy)⟩
    · refine ⟨.departs x :: before, z, after, rfl, hz, fun y hy => ?_⟩
      by_cases hyx : y = x
      · exact Or.inr (by simp [hyx])
      · have hy' : y ∈ ahead.filter (· ≠ x) := List.mem_filter.mpr ⟨hy, by simp [hyx]⟩
        exact (ha y hy').imp id (List.mem_cons_of_mem _)

end TakesOver

/-! ## The backup and the new master -/

/-- The members ahead of this node on its list. -/
def ahead (v : Vip) : List NodeId := (ids v.nodeList).takeWhile (· ≠ v.nodeId)

/-- A vip on its own list, which is in order. -/
structure Listed (v : Vip) : Prop where
  ordered : WellOrdered v.nodeList
  own : ⟨v.nodeId, v.config.priority⟩ ∈ v.nodeList

theorem ids_nodeRemove {l : List Node} (h : (ids l).Nodup) (x : NodeId) :
    ids (nodeRemove l x) = (ids l).filter (· ≠ x) := by
  induction l with
  | nil => rfl
  | cons n l ih =>
    rw [ids_cons, List.nodup_cons] at h
    by_cases hn : n.nodeid = x
    · have hx : ∀ y ∈ ids l, y ≠ x := by
        rintro y hy rfl
        exact h.1 (hn ▸ hy)
      have hf : (ids l).filter (· ≠ x) = ids l := List.filter_eq_self.mpr (by simpa using hx)
      simp only [nodeRemove, hn, ne_eq, not_true_eq_false, if_false, ids_cons]
      rw [List.filter_cons_of_neg (by simp)]
      exact hf.symm
    · simp only [nodeRemove, ne_eq, hn, not_false_eq_true, if_true, ids_cons]
      rw [List.filter_cons_of_pos (by simpa using hn), ih h.2]

theorem mem_nodeRemove {l : List Node} {n : Node} {x : NodeId} (hn : n ∈ l) (hx : n.nodeid ≠ x) :
    n ∈ nodeRemove l x := by
  rw [nodeRemove_eq_eraseP]
  exact (List.mem_eraseP_of_neg (by simpa using hx)).mpr hn

/-- Who is ahead after a departure. -/
theorem takeWhile_filter_ne {n x : NodeId} (hx : x ≠ n) (l : List NodeId) :
    (l.filter (· ≠ x)).takeWhile (· ≠ n) = (l.takeWhile (· ≠ n)).filter (· ≠ x) := by
  induction l with
  | nil => rfl
  | cons a l ih =>
    by_cases ha : a = x
    · subst ha
      rw [List.filter_cons_of_neg (by simp), List.takeWhile_cons_of_pos (by simpa using hx),
        List.filter_cons_of_neg (by simp), ih]
    · rw [List.filter_cons_of_pos (by simpa using ha)]
      by_cases han : a = n
      · rw [List.takeWhile_cons_of_neg (by simp [han]), List.takeWhile_cons_of_neg (by simp [han])]
        rfl
      · rw [List.takeWhile_cons_of_pos (by simpa using han),
          List.takeWhile_cons_of_pos (by simpa using han),
          List.filter_cons_of_pos (by simpa using ha), ih]

/-- A node on the list is first if nobody is ahead of it. -/
theorem nodeFirst_eq_iff {l : List Node} {n : NodeId} (hn : n ∈ ids l) :
    n = nodeFirst l ↔ (ids l).takeWhile (· ≠ n) = [] := by
  cases l with
  | nil => simp at hn
  | cons m l =>
    rw [nodeFirst, ids_cons]
    by_cases hm : m.nodeid = n
    · simp [hm]
    · rw [List.takeWhile_cons_of_pos (by simpa using hm)]
      simp [Ne.symm hm]

namespace Listed

variable {v : Vip} {x : NodeId}

theorem forget (h : Listed v) (hx : x ≠ v.nodeId) : Listed (forget v x) :=
  ⟨h.ordered.nodeRemove x, mem_nodeRemove h.own (Ne.symm hx)⟩

theorem ahead_forget (h : Listed v) (hx : x ≠ v.nodeId) :
    ahead (CpgFailover.forget v x) = (ahead v).filter (· ≠ x) := by
  show (ids (nodeRemove v.nodeList x)).takeWhile (· ≠ v.nodeId) = _
  rw [ids_nodeRemove h.ordered.nodup, takeWhile_filter_ne hx]
  rfl

/-- After a departure the node is first if nobody else was ahead. -/
theorem first_forget (h : Listed v) (hx : x ≠ v.nodeId) :
    v.nodeId = nodeFirst (nodeRemove v.nodeList x) ↔ ∀ y ∈ ahead v, y = x := by
  have hown : v.nodeId ∈ ids (nodeRemove v.nodeList x) := mem_ids.mpr ⟨_, (h.forget hx).own, rfl⟩
  rw [nodeFirst_eq_iff hown, ids_nodeRemove h.ordered.nodup, takeWhile_filter_ne hx,
    List.filter_eq_nil_iff]
  simp [ahead]

/-- A state message of a member on the list only concerns the remembered master. -/
theorem learn (h : Listed v) {o : Outcome} {y : NodeId} {nm : NodeMsg}
    (hy : ⟨y, nm.priority⟩ ∈ v.nodeList) :
    (learn o v nm y).nodeList = v.nodeList ∧ Listed (learn o v nm y) := by
  have hl : (CpgFailover.learn o v nm y).nodeList = v.nodeList := by
    rw [learn_nodeList, nodeAdd_of_mem (mem_ids.mpr ⟨_, hy, rfl⟩)]
  refine ⟨hl, ?_, ?_⟩
  · rw [hl]
    exact h.ordered
  · rw [hl, learn_nodeId, learn_config]
    exact h.own

end Listed

/-- A backup that waits for its turn. -/
structure Waits (v : Vip) : Prop extends Listed v where
  state : v.state = .backup

/-- A master that is first on its list. -/
structure Rules (v : Vip) : Prop extends Listed v where
  state : v.state = .master
  first : v.nodeId = nodeFirst v.nodeList

section Steps

variable {o : Outcome} {v : Vip} {x : NodeId}

/-- Nothing on the list of a master that is first has a higher priority. -/
theorem Rules.priority_le (h : Rules v) {n : Node} (hn : n ∈ v.nodeList) :
    n.priority ≤ v.config.priority := by
  have hown := h.own
  have hfirst := h.first
  have hord := h.ordered
  cases hl : v.nodeList with
  | nil => simp [hl] at hn
  | cons m l =>
    rw [hl] at hn hown hfirst hord
    have hm : m = ⟨v.nodeId, v.config.priority⟩ :=
      List.inj_on_of_nodup_map hord.nodup List.mem_cons_self hown hfirst.symm
    have hle := hord.priority_le hn
    rwa [hm] at hle

/-- **One departure**: a waiting backup becomes the master when the remembered master departs and
leaves nobody ahead; otherwise it goes on waiting. -/
theorem Waits.nodeDown (h : Waits v) (ho : o.addVip = true ∧ o.sendGarp = true)
    (hx : x ≠ v.nodeId) : (fsmInputNodeDown o v x).vip =
      if v.masterId = x ∧ ∀ y ∈ ahead v, y = x then { forget v x with state := .master }
      else forget v x := by
  by_cases hm : v.masterId = x
  · rw [fsmInputNodeDown_of_eq hm, h.state]
    simp only [hm, true_and, table, react]
    by_cases hf : (CpgFailover.forget v x).nodeId = nodeFirst (CpgFailover.forget v x).nodeList
    · rw [if_pos ((h.first_forget hx).mp hf)]
      rw [if_pos hf, becomeMaster_vip, if_pos ho]
    · rw [if_neg fun ha => hf ((h.first_forget hx).mpr ha), if_neg hf]
  · rw [fsmInputNodeDown_of_ne hm, h.state, if_neg fun hc => hm hc.1]
    rfl

theorem Rules.forget (h : Rules v) (hx : x ≠ v.nodeId) : Rules (forget v x) := by
  refine ⟨h.toListed.forget hx, h.state, ?_⟩
  apply (h.first_forget hx).mpr
  intro y hy
  have hnone := (nodeFirst_eq_iff (mem_ids.mpr ⟨_, h.own, rfl⟩)).mp h.first
  rw [ahead, hnone] at hy
  simp at hy

theorem Waits.forget (h : Waits v) (hx : x ≠ v.nodeId) : Waits (forget v x) :=
  ⟨h.toListed.forget hx, h.state⟩

/-- With nobody left ahead the waiting backup has become a master that is first. -/
theorem Waits.rules (h : Waits v) (hx : x ≠ v.nodeId) (ha : ∀ y ∈ ahead v, y = x) :
    Rules { CpgFailover.forget v x with state := .master } :=
  ⟨⟨(h.forget hx).ordered, (h.forget hx).own⟩, rfl, (h.first_forget hx).mpr ha⟩

/-- A state message of a member on the list makes a waiting backup remember the master. -/
theorem Waits.newStateMessage (h : Waits v) {y : NodeId} {nm : NodeMsg} :
    (fsmInputNewStateMessage o v nm y).vip = learn o v nm y := by
  have hs : (learn o v nm y).state = .backup := (learn_state o v nm y).trans h.state
  simp only [fsmInputNewStateMessage, stateMessageEvent, hs]
  by_cases hd : nm.priority = (CpgFailover.learn o v nm y).config.priority ∧
      y ≠ (CpgFailover.learn o v nm y).nodeId
  · rw [if_pos hd]
    simp only [fsmDoTransaction, hs]
    rfl
  · rw [if_neg hd]

/-- A state message of a member on the list does not make a master that is first give way. -/
theorem Rules.newStateMessage (h : Rules v) {y : NodeId} {nm : NodeMsg}
    (hy : ⟨y, nm.priority⟩ ∈ v.nodeList) :
    (fsmInputNewStateMessage o v nm y).vip = learn o v nm y := by
  have hs : (learn o v nm y).state = .master := (learn_state o v nm y).trans h.state
  have hle : ¬ nm.priority > (learn o v nm y).config.priority := by
    rw [learn_config]
    exact not_lt.mpr (h.priority_le hy)
  simp only [fsmInputNewStateMessage, stateMessageEvent, hs]
  by_cases hd : nm.priority = (CpgFailover.learn o v nm y).config.priority ∧
      y ≠ (CpgFailover.learn o v nm y).nodeId
  · rw [if_pos hd]
    simp only [fsmDoTransaction, hs]
    rfl
  · rw [if_neg hd, if_neg fun hc => hle hc.2.2]

end Steps

/-! ## Whole chains -/

/-- Entries that a member `n` with the list `l` meets while nobody joins: departures of others, and
messages of members on the list with the priority they have there. -/
def Departing (n : NodeId) : List Node → List (Entry NodeId Msg) → Prop
  | _, [] => True
  | l, .confchg _ left joined :: es =>
    joined = [] ∧ n ∉ left ∧ Departing n (left.foldl nodeRemove l) es
  | l, .message y (.nodeState nm) :: es => ⟨y, nm.priority⟩ ∈ l ∧ Departing n l es
  | l, .message _ (.sql _ _) :: es => Departing n l es

/-- The calls that take the address succeed. -/
def Obliging (es : List (Outcome × Entry NodeId Msg)) : Prop :=
  ∀ oe ∈ es, oe.1.addVip = true ∧ oe.1.sendGarp = true

section Chains

variable {o : Outcome} {v : Vip}

/-- A master that is first takes departures of others without further ado. -/
theorem Rules.nodesDown (h : Rules v) {left : List NodeId} (hl : v.nodeId ∉ left) :
    Rules (nodesDown o v left).1 ∧ (nodesDown o v left).1.nodeId = v.nodeId ∧
      (nodesDown o v left).1.nodeList = left.foldl nodeRemove v.nodeList := by
  induction left generalizing v with
  | nil => exact ⟨h, rfl, rfl⟩
  | cons x left ih =>
    obtain ⟨hx, hl⟩ := not_or.mp (List.mem_cons.not.mp hl)
    have hr := h.forget (Ne.symm hx)
    simp only [CpgFailover.nodesDown, fsmInputNodeDown_master h.state]
    exact ih hr hl

/-- **A master that is first stays the master** while nobody joins. -/
theorem Rules.handles {es : List (Outcome × Entry NodeId Msg)} (h : Rules v)
    (hes : Departing v.nodeId v.nodeList (es.map Prod.snd)) : (handles v es).state = .master := by
  induction es generalizing v with
  | nil => exact h.state
  | cons oe es ih =>
    obtain ⟨o, e⟩ := oe
    cases e with
    | confchg members left joined =>
      obtain ⟨rfl, hl, hes⟩ := hes
      have hsized : Rules { v with memberListEntries := members.length } :=
        ⟨⟨h.ordered, h.own⟩, h.state, h.first⟩
      obtain ⟨hr, hn, hlist⟩ := hsized.nodesDown (o := o) hl
      apply ih (v := (handle o v (.confchg members left [])).1) hr
      show Departing (CpgFailover.nodesDown o _ left).1.nodeId
        (CpgFailover.nodesDown o _ left).1.nodeList _
      rw [hlist, hn]
      exact hes
    | message y m =>
      cases m with
      | sql name sql => exact ih h hes
      | nodeState nm =>
        obtain ⟨hy, hes⟩ := hes
        obtain ⟨hlist, hlisted⟩ := h.toListed.learn (o := o) hy
        have hlearn : (handle o v (.message y (.nodeState nm))).1 = CpgFailover.learn o v nm y :=
          h.newStateMessage hy
        simp only [CpgFailover.handles, hlearn]
        refine ih ⟨hlisted, (learn_state o v nm y).trans h.state, ?_⟩ ?_
        · rw [hlist, learn_nodeId]
          exact h.first
        · rwa [hlist, learn_nodeId]

/-- The departures of one configuration change, before the entries that follow. -/
theorem Waits.nodesDown {es : List (Outcome × Entry NodeId Msg)} {hs : List Happening}
    {left : List NodeId} (h : Waits v) (ho : o.addVip = true ∧ o.sendGarp = true)
    (hl : v.nodeId ∉ left)
    (hes : Departing v.nodeId (left.foldl nodeRemove v.nodeList) (es.map Prod.snd))
    (hrest : ∀ w, Waits w → Departing w.nodeId w.nodeList (es.map Prod.snd) →
      ((CpgFailover.handles w es).state = .master ↔ TakesOver (ahead w) w.masterId hs)) :
    (CpgFailover.handles (nodesDown o v left).1 es).state = .master ↔
      TakesOver (ahead v) v.masterId (left.map .departs ++ hs) := by
  induction left generalizing v with
  | nil => exact hrest v h hes
  | cons x left ih =>
    obtain ⟨hx, hl⟩ := not_or.mp (List.mem_cons.not.mp hl)
    have hx := Ne.symm hx
    simp only [CpgFailover.nodesDown, h.nodeDown ho hx, List.map_cons, List.cons_append]
    rw [takesOver_departs]
    by_cases hc : v.masterId = x ∧ ∀ y ∈ ahead v, y = x
    · -- the turn has come, and the node stays the master whatever follows
      rw [if_pos hc]
      obtain ⟨hr, hn, hlist⟩ := (h.rules hx hc.2).nodesDown (o := o) hl
      refine iff_of_true (hr.handles ?_) (Or.inl hc)
      rw [hn, hlist]
      exact hes
    · rw [if_neg hc, ← h.ahead_forget hx]
      rw [ih (h.forget hx) hl hes]
      exact (or_iff_right hc).symm

/-- **The failover chain.** Nobody joins, everybody heard from is on the list, and the calls that
take the address succeed: then a backup has become the master after the entries if and only if the
member last announced as a master, or the remembered one before any announcement, departs at a
moment when everybody ahead of the backup has departed, itself included. -/
theorem failover_chain {es : List (Outcome × Entry NodeId Msg)} (h : Waits v) (hok : Obliging es)
    (hes : Departing v.nodeId v.nodeList (es.map Prod.snd)) :
    (handles v es).state = .master ↔
      TakesOver (ahead v) v.masterId ((es.map Prod.snd).flatMap happenings) := by
  induction es generalizing v with
  | nil => exact iff_of_false (by simp [handles, h.state]) not_takesOver_nil
  | cons oe es ih =>
    obtain ⟨o, e⟩ := oe
    have ho : o.addVip = true ∧ o.sendGarp = true := hok _ List.mem_cons_self
    have hok' : Obliging es := fun oe hoe => hok oe (List.mem_cons_of_mem _ hoe)
    rw [List.map_cons, List.flatMap_cons]
    cases e with
    | confchg members left joined =>
      obtain ⟨rfl, hl, hes⟩ := hes
      have hsized : Waits { v with memberListEntries := members.length } :=
        ⟨⟨h.ordered, h.own⟩, h.state⟩
      exact hsized.nodesDown ho hl hes fun w hw hes => ih hw hok' hes
    | message y m =>
      cases m with
      | sql name sql => exact ih h hok' hes
      | nodeState nm =>
        obtain ⟨hy, hes⟩ := hes
        obtain ⟨hlist, hlisted⟩ := h.toListed.learn (o := o) hy
        have hlearn : (handle o v (.message y (.nodeState nm))).1 = CpgFailover.learn o v nm y :=
          h.newStateMessage
        have hahead : ahead (CpgFailover.learn o v nm y) = ahead v := by
          unfold ahead
          rw [hlist, learn_nodeId]
        have hstep := ih ⟨hlisted, (learn_state o v nm y).trans h.state⟩ hok'
          (by rwa [hlist, learn_nodeId])
        simp only [CpgFailover.handles, hlearn, happenings]
        rw [hstep, hahead, learn_masterId]
        split_ifs
        · rw [List.singleton_append, takesOver_announces]
        · rw [List.nil_append]

end Chains

/-- A backup, third in line. -/
def thirdInLine : Vip :=
  { Vip.fresh (plainConfig 10 noProfiles) with
    state := .backup, nodeId := 3, masterId := 1, nodeList := [⟨1, 30⟩, ⟨2, 20⟩, ⟨3, 10⟩]
    memberListEntries := 3 }

theorem waits_thirdInLine : Waits thirdInLine := ⟨⟨⟨by decide, by decide⟩, by decide⟩, rfl⟩

/-- The master departs, then its successor. -/
def silentSuccessor : List (Outcome × Entry NodeId Msg) :=
  [(allSucceed, .confchg [2, 3] [1] []), (allSucceed, .confchg [3] [2] [])]

/-- The master departs, its successor is heard as the new master, and departs. -/
def heardSuccessor : List (Outcome × Entry NodeId Msg) :=
  [(allSucceed, .confchg [2, 3] [1] []), (allSucceed, .message 2 (.nodeState ⟨20, .master, []⟩)),
    (allSucceed, .confchg [3] [2] [])]

theorem failover_chain_heardSuccessor : (handles thirdInLine heardSuccessor).state = .master := by
  refine (failover_chain waits_thirdInLine ?_ ?_).mpr ?_
  · simp [Obliging, heardSuccessor, allSucceed]
  · simp [Departing, heardSuccessor, thirdInLine, nodeRemove]
  · exact ⟨[.departs 1, .announces 2], 2, [], rfl, rfl, by decide⟩

/-- **The departure of everybody ahead does not suffice**: a successor that departs before its
announcement leaves the next backup waiting. -/
theorem chain_broken : ¬ ∀ (v : Vip) (es : List (Outcome × Entry NodeId Msg)), Waits v →
    v.masterId ∈ ids v.nodeList → Obliging es →
      Departing v.nodeId v.nodeList (es.map Prod.snd) →
        .departs v.masterId ∈ (es.map Prod.snd).flatMap happenings →
          (∀ y ∈ ahead v, .departs y ∈ (es.map Prod.snd).flatMap happenings) →
            (handles v es).state = .master := by
  intro h
  have hstate := h thirdInLine silentSuccessor waits_thirdInLine (by decide)
    (by simp [Obliging, silentSuccessor, allSucceed])
    (by simp [Departing, silentSuccessor, thirdInLine]) (by decide) (by decide)
  exact absurd hstate (by decide)

end CpgFailover
