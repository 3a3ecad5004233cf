import CpgFailover.CleanUp
import CpgFailover.Lib.CatchUp
import CpgFailover.RecoveryTable
import CpgFailover.Replication

/-!
# The recovery tables of the members

Each member hands the statements of the others to its sofia, in the agreed order, so that the tables
of all members go the same way. A member that joins has not got the statements before, and lags
behind. When a master answers its arrival with the calls it has, the new member catches up, whatever
statements come in between: it recovers the same calls as a member that has been there all along.

## Main definitions

* `tableCall`: what sofia makes of its table when a callback makes a call
* `callStore`: tables as stores, seen by the calls
* `Cluster.tableBetween`: the table of a node after it has handled some entries
* `Steady`, `Follows`: nobody departs with some entries, and a node handles them all

## Main results

* `tableBetween_eq`: the table of a member is what the statements of others make of it
* `agrees_of_answer`: a table agrees with another once it has got an answer
* `joiner_has_the_calls`: the table of a new member after an answer
-/

namespace CpgFailover

open Agreed Transition
open CatchUp (Store)
open Quoted (ascii)

/-! ## What the calls of a callback make of the table -/

/-- The calls of the callbacks that may change the table of sofia. -/
def Effect.editsTable : Effect → Bool
  | .trackEvent _ _ | .cleanUpTable _ _ | .recover _ => true
  | _ => false

/-- What sofia makes of its table when a callback makes a call. `utils_recover` has it run the
command `profile … recover`. -/
def tableCall (sofia : Sofia) (t : List CallRow) : Effect → List CallRow
  | .trackEvent sql name =>
    (sofiaGlueTrackEventHandler sofia t (utilsSendTrackEvent sql name)).1
  | .cleanUpTable u name => (sofiaGlueTrackEventHandler sofia t (utilsCleanUpTable u name)).1
  | .requestAll name => (sofiaGlueTrackEventHandler sofia t (utilsSendRequestAll name)).1
  | .recover name =>
    match sofia.findProfile name with
    | some profile => (sofiaGlueProfileRecover sofia t profile.name false).2
    | none => t
  | _ => t

section Calls

variable {o : Outcome} {v : Vip} {e : Event} {sofia : Sofia}

/-- Only a backup that loses its master edits the table. -/
theorem fsm_edits (h : (fsmDoTransaction o v e).effects.any Effect.editsTable = true) :
    e = .masterDown ∧ v.state = .backup := by
  have hdown (w : Vip) : (goDown w).effects.any Effect.editsTable = false := by
    simp [goDown, Effect.editsTable, Function.comp_def]
  have hto := fsmTo_fsmDoTransaction o v e
  generalize fsmDoTransaction o v e = r at hto h
  cases hto with
  | cleanUp hs => exact ⟨rfl, hs⟩
  | down =>
    rw [hdown] at h
    cases h
  | resign =>
    rw [failTransition, List.nil_append, hdown] at h
    cases h
  | @claim calls _ hc =>
    rcases hc with ⟨-, rfl⟩ | ⟨hs, -⟩
    · -- whoever starts recovers nothing
      cases ha : o.addVip <;> cases hg : o.sendGarp <;>
        simp [becomeMaster, failTransition, virtualIpSendState, ha, hg, Effect.editsTable,
          hdown] at h
    · exact ⟨rfl, hs⟩
  | nodeup => simp [nodeup, virtualIpSendState, Effect.editsTable] at h
  | backupup => simp [backupup, virtualIpSendState, virtualIpSendAllSql, Effect.editsTable] at h
  | request _ hl hn =>
    rw [rollback_cons hl hn] at h
    cases ht : o.threadCreate <;> simp [ht, Effect.editsTable] at h
  | goUp =>
    rw [goUp] at h
    cases ht : o.threadCreate <;> simp [ht, Effect.editsTable] at h
  | stay | observe | resume => cases h

/-- A message edits no table: the one that says the master is down finds a vip that starts. -/
theorem message_edits (nm : NodeMsg) (y : NodeId) :
    (fsmInputNewStateMessage o v nm y).effects.any Effect.editsTable = false := by
  by_contra h
  rw [Bool.not_eq_false, fsmInputNewStateMessage] at h
  have hraises := messageRaises_stateMessageEvent (learn o v nm y) nm y
  cases hev : stateMessageEvent (learn o v nm y) nm y with
  | none =>
    simp only [hev] at h
    cases h
  | some event =>
    simp only [hev] at h
    obtain ⟨rfl, hbackup⟩ := fsm_edits h
    rw [hev] at hraises
    cases hraises with
    | alone _ hstart =>
      rw [hbackup] at hstart
      cases hstart

/-- **As long as nobody departs** only a statement edits the table. -/
theorem handle_edits (v : Vip) {e : Entry NodeId Msg} (hsql : isStatement e = false)
    (hsteady : ∀ members left joined, e = .confchg members left joined → left = []) :
    (handle o v e).2.any Effect.editsTable = false := by
  cases e with
  | confchg members left joined =>
    obtain rfl := hsteady members left joined rfl
    by_contra h
    rw [Bool.not_eq_false] at h
    simp only [handle, confchgCallback, nodesDown] at h
    split_ifs at h
    · -- an arrival
      cases (fsm_edits h).1
    · cases h
  | message y m =>
    cases m with
    | sql name sql => cases hsql
    | nodeState nm => exact message_edits nm y

/-- Other calls leave the table as it is. -/
theorem foldl_tableCall (t : List CallRow) {calls : List Effect}
    (h : calls.any Effect.editsTable = false) : calls.foldl (tableCall sofia) t = t := by
  induction calls with
  | nil => rfl
  | cons c calls ih =>
    rw [List.any_cons, Bool.or_eq_false_iff] at h
    have hone : tableCall sofia t c = t := by
      cases c with
      | requestAll name =>
        rw [tableCall, sofiaGlueTrackEventHandler]
        split
        · rfl
        · rw [if_pos (show (utilsSendRequestAll name).requestAll = ascii "true" from rfl)]
      | trackEvent | cleanUpTable | recover => cases h.1
      | _ => rfl
    rw [List.foldl_cons, hone]
    exact ih h.2

end Calls

/-! ## Tables as stores -/

/-- The rows of a call. -/
def rowsOf (t : List CallRow) (c : CString) : List CallRow := t.filter fun r => r.uuid = c

/-- Tables, seen by the calls, and the statements of a database. -/
def callStore (db : Database) : Store (List CallRow) CString (List CallRow) CString where
  get := rowsOf
  exec t s := db.execute s t
  empty := []

section Tables

variable {db : Database} {t t' : List CallRow} {r : CallRow} {c : CString}

/-- Tables that agree on every call have the same rows. -/
theorem perm_of_rowsOf (h : ∀ c, rowsOf t c = rowsOf t' c) : t.Perm t' := by
  have hcount (u : List CallRow) (r : CallRow) : u.count r = (rowsOf u r.uuid).count r :=
    (List.count_filter (by simp)).symm
  rw [List.perm_iff_count]
  intro r
  rw [hcount t, hcount t', h r.uuid]

theorem rowsOf_eq_nil : rowsOf t c = [] ↔ c ∉ t.map CallRow.uuid := by
  simp [rowsOf, List.filter_eq_nil_iff]

/-- A call without a second row. -/
theorem rowsOf_of_mem (ht : (t.map CallRow.uuid).Nodup) (hr : r ∈ t) : rowsOf t r.uuid = [r] := by
  induction t with
  | nil => cases hr
  | cons a t ih =>
    rw [List.map_cons, List.nodup_cons] at ht
    rcases List.mem_cons.mp hr with rfl | hr
    · rw [rowsOf, List.filter_cons_of_pos (by simp)]
      exact congrArg _ (rowsOf_eq_nil.mpr ht.1)
    · have hne : a.uuid ≠ r.uuid := fun he => ht.1 (he ▸ List.mem_map_of_mem hr)
      rw [rowsOf, List.filter_cons_of_neg (by simpa using hne)]
      exact ih ht.2 hr

/-- The rows of a call after one more row, unless there is one of the same call. -/
theorem rowsOf_insertMissing (t : List CallRow) (r : CallRow) (c : CString) :
    rowsOf (insertMissing t r) c =
      if c = r.uuid ∧ rowsOf t c = [] then [r] else rowsOf t c := by
  rw [insertMissing]
  by_cases hr : r.uuid ∈ t.map CallRow.uuid
  · rw [if_pos hr, if_neg]
    rintro ⟨rfl, hnil⟩
    exact rowsOf_eq_nil.mp hnil hr
  · rw [if_neg hr, rowsOf, List.filter_append]
    by_cases hc : c = r.uuid
    · subst hc
      have hnil : rowsOf t r.uuid = [] := rowsOf_eq_nil.mpr hr
      rw [if_pos ⟨rfl, hnil⟩, List.filter_singleton]
      simpa [rowsOf] using hnil
    · rw [if_neg fun h => hc h.1, List.filter_singleton]
      simp [Ne.symm hc, rowsOf]

/-- The statement for a row is about its call. -/
theorem about_insertSql (h : db.Documented) (r : CallRow) :
    (callStore db).About r.insertSql r.uuid := by
  constructor
  · intro t c hc
    show rowsOf (db.execute r.insertSql t) c = rowsOf t c
    rw [h.insertSql, rowsOf_insertMissing, if_neg fun he => hc he.1]
  · intro t u he
    show rowsOf (db.execute r.insertSql t) r.uuid = rowsOf (db.execute r.insertSql u) r.uuid
    rw [h.insertSql, h.insertSql, rowsOf_insertMissing, rowsOf_insertMissing,
      show rowsOf t r.uuid = rowsOf u r.uuid from he]

/-- **The statement for a row of a table** restates the call, if it has one row. -/
theorem restates_insertSql (h : db.Documented) (ht : rowsOf t r.uuid = [r]) :
    (callStore db).Restates t r.insertSql r.uuid := by
  have hexec (u : List CallRow) : (callStore db).exec u r.insertSql = insertMissing u r :=
    h.insertSql u r
  refine ⟨about_insertSql h r, ?_, ?_⟩
  · rw [hexec]
    show rowsOf (insertMissing [] r) r.uuid = rowsOf t r.uuid
    rw [rowsOf_insertMissing, if_pos ⟨rfl, rfl⟩, ht]
  · rw [hexec]
    show rowsOf (insertMissing t r) r.uuid = rowsOf t r.uuid
    rw [rowsOf_insertMissing, if_neg]
    rintro ⟨-, hnil⟩
    rw [ht] at hnil
    cases hnil

end Tables

/-! ## The table of a node -/

/-- The statement of an entry. -/
def statement : Entry NodeId Msg → Option CString
  | .message _ (.sql _ sql) => some sql
  | _ => none

/-- The statements of the entries from `i` on and before `p`. -/
def statementsBetween (log : List (Entry NodeId Msg)) (i p : ℕ) : List CString :=
  ((log.take p).drop i).filterMap statement

/-- The table of a node after it has handled the entries from `i` on and before `p`, if it was `t`
before. -/
def Cluster.tableBetween (g : Cluster) (sofia : Sofia) (n : NodeId) (i p : ℕ) (t : List CallRow) :
    List CallRow :=
  (((g.recordsOf n).filter fun r => i ≤ r.pos ∧ r.pos < p).flatMap Record.out).foldl
    (tableCall sofia) t

/-- Nobody departs with the entry, and the profile of its statement is configured on every node. -/
def SteadyEntry (d : Deployment) : Entry NodeId Msg → Prop
  | .confchg _ left _ => left = []
  | .message _ (.sql name _) => d.Configured name
  | .message _ (.nodeState _) => True

instance (d : Deployment) : (e : Entry NodeId Msg) → Decidable (SteadyEntry d e)
  | .confchg _ _ _ | .message _ (.sql _ _) | .message _ (.nodeState _) => by
    unfold SteadyEntry
    infer_instance

/-- The entry is no statement of the node. -/
def FromOthers (n : NodeId) : Entry NodeId Msg → Prop
  | .message y (.sql _ _) => y ≠ n
  | _ => True

instance (n : NodeId) : (e : Entry NodeId Msg) → Decidable (FromOthers n e)
  | .confchg _ _ _ | .message _ (.sql _ _) | .message _ (.nodeState _) => by
    unfold FromOthers
    infer_instance

/-- The entries from `i` on and before `p` are steady. -/
def Steady (d : Deployment) (log : List (Entry NodeId Msg)) (i p : ℕ) : Prop :=
  ∀ k < p, i ≤ k → ∀ e ∈ log[k]?, SteadyEntry d e

/-- The node handles the entries from `i` on and before `p`, and their statements are from others.
-/
structure Follows (g : Cluster) (n : NodeId) (i p : ℕ) : Prop where
  handles : ∀ k < p, i ≤ k → ∃ r ∈ g.recordsOf n, r.pos = k
  others : ∀ k < p, i ≤ k → ∀ e ∈ g.log[k]?, FromOthers n e

/-- Every sofia has the profiles that are configured on every node. -/
def Deployment.Known (d : Deployment) (sofia : NodeId → Sofia) : Prop :=
  ∀ n name, d.Configured name → ∃ profile, (sofia n).findProfile name = some profile

section Statements

variable {log : List (Entry NodeId Msg)} {i k p q : ℕ}

theorem statementsBetween_self (log : List (Entry NodeId Msg)) (i : ℕ) :
    statementsBetween log i i = [] := by
  rw [statementsBetween, List.drop_of_length_le (by simp), List.filterMap_nil]

/-- One more entry. -/
theorem statementsBetween_succ (hik : i ≤ k) : statementsBetween log i (k + 1) =
    statementsBetween log i k ++ (log[k]?.bind statement).toList := by
  rw [statementsBetween, List.take_add_one, List.drop_append, List.filterMap_append]
  cases he : log[k]? with
  | none => simp [statementsBetween]
  | some e =>
    have hk : k < log.length := (List.getElem?_eq_some_iff.mp he).1
    rw [List.length_take, Nat.min_eq_left hk.le, Nat.sub_eq_zero_of_le hik]
    cases hs : statement e <;> simp [statementsBetween, hs]

theorem statementsBetween_append (hiq : i ≤ q) (hqp : q ≤ p) : statementsBetween log i p =
    statementsBetween log i q ++ statementsBetween log q p := by
  induction p, hqp using Nat.le_induction with
  | base => rw [statementsBetween_self, List.append_nil]
  | succ k hqk ih =>
    rw [statementsBetween_succ (hiq.trans hqk), statementsBetween_succ hqk, ih, List.append_assoc]

end Statements

section Replicas

variable {d : Deployment} {ok : Cluster → ClusterStep → Prop} {g : Cluster}
  {sofia : NodeId → Sofia} {n b : NodeId} {i j p q k : ℕ} {t : List CallRow}

/-- What a member does with a statement of another. -/
theorem Cluster.out_of_other (h : ReachesWhen d.step ok d.start g)
    {r : Record NodeId Proc (List Effect)} (hr : r ∈ g.transcript) {y : NodeId} {name sql : CString}
    (he : g.log[r.pos]? = some (.message y (.sql name sql))) (hname : d.Configured name)
    (hy : y ≠ r.node) : r.out = [.trackEvent sql name] := by
  obtain ⟨k, hplaced⟩ := Cluster.placed_record h hr
  obtain ⟨e, o, he', hd, -⟩ := Group.record_condition (W := fun _ _ _ _ => True)
    (fun _ _ _ => trivial) h r hr
  obtain rfl := Option.some.inj (he.symm.trans he')
  obtain ⟨⟨th, hth, -⟩, o', -, -, -, -, -, hout⟩ := nodeDeliver_eq_some (n := r.node) hd
  have hused : name ∈ r.pre.vip.config.usedProfiles.map SofiaProfile.name := by
    rw [hplaced.config]
    exact hname _ (hplaced.running (List.ne_nil_of_mem hth))
  have hother : r.pre.vip.nodeId ≠ y := by
    rcases hplaced.self with hz | hn
    · rw [hz]
      rintro rfl
      exact d.zero_notMem (Cluster.sender_mem h he)
    · rw [hn]
      exact Ne.symm hy
  rw [hout]
  simp only [handle, deliverCallback]
  rw [if_pos hother]
  exact deliverSql_of_used hused sql

/-- **One entry** makes of the table what its statement does. -/
theorem foldl_out (h : ReachesWhen d.step ok d.start g) (hknown : d.Known sofia)
    (hsteady : Steady d g.log i p) (hf : Follows g n i p) {r : Record NodeId Proc (List Effect)}
    (hr : r ∈ g.recordsOf n) (hi : i ≤ r.pos) (hp : r.pos < p) (t : List CallRow) :
    r.out.foldl (tableCall (sofia n)) t =
      (callStore (sofia n).db).run t (g.log[r.pos]?.bind statement).toList := by
  obtain ⟨htr, hn⟩ := Group.mem_recordsOf.mp hr
  obtain ⟨e, o, he, hd, -⟩ := Group.record_condition (W := fun _ _ _ _ => True)
    (fun _ _ _ => trivial) h r htr
  rw [he, Option.bind_some]
  by_cases hsql : isStatement e = true
  · obtain ⟨y, name, sql, rfl⟩ : ∃ y name sql, e = .message y (.sql name sql) := by
      cases e with
      | confchg => cases hsql
      | message y m =>
        cases m with
        | nodeState => cases hsql
        | sql name sql => exact ⟨y, name, sql, rfl⟩
    have hname : d.Configured name := hsteady _ hp hi _ he
    obtain ⟨profile, hprofile⟩ := hknown n name hname
    have hy : y ≠ r.node := hn ▸ hf.others _ hp hi _ he
    rw [Cluster.out_of_other h htr he hname hy, List.foldl_cons, List.foldl_nil, tableCall,
      handler_trackEvent hprofile]
    rfl
  · -- no call edits the table
    obtain ⟨-, o', -, -, -, -, -, hout⟩ := nodeDeliver_eq_some (n := r.node) hd
    have hcalls : r.out.any Effect.editsTable = false := by
      rw [hout]
      apply handle_edits _ (by simpa using hsql)
      rintro members left joined rfl
      exact hsteady _ hp hi _ he
    rw [foldl_tableCall t hcalls]
    cases e with
    | confchg => rfl
    | message y m =>
      cases m with
      | nodeState => rfl
      | sql => exact absurd rfl hsql

/-- The record of an entry comes after those of the entries before it. -/
theorem filter_recordsOf (h : ReachesWhen d.step ok d.start g)
    {r : Record NodeId Proc (List Effect)} (hr : r ∈ g.recordsOf n) (hi : i ≤ r.pos) :
    ((g.recordsOf n).filter fun r' => i ≤ r'.pos ∧ r'.pos < r.pos + 1) =
      ((g.recordsOf n).filter fun r' => i ≤ r'.pos ∧ r'.pos < r.pos) ++ [r] := by
  have hsorted := Group.recordsOf_sorted h n
  obtain ⟨before, after, hsplit⟩ := List.append_of_mem hr
  rw [hsplit, List.pairwise_append, List.pairwise_cons] at hsorted
  obtain ⟨-, ⟨hafter, -⟩, hbefore⟩ := hsorted
  have hnone (s : ℕ) (hs : s ≤ r.pos + 1) :
      after.filter (fun r' => i ≤ r'.pos ∧ r'.pos < s) = [] := by
    rw [List.filter_eq_nil_iff]
    intro r' hr'
    have hlt := hafter r' hr'
    simp only [decide_eq_true_eq]
    omega
  have hsame : before.filter (fun r' => i ≤ r'.pos ∧ r'.pos < r.pos + 1) =
      before.filter fun r' => i ≤ r'.pos ∧ r'.pos < r.pos := by
    apply List.filter_congr
    intro r' hr'
    have hlt := hbefore r' hr' r List.mem_cons_self
    simp only [decide_eq_decide]
    omega
  rw [hsplit, List.filter_append, List.filter_append, hsame, List.filter_cons_of_pos (by simpa),
    List.filter_cons_of_neg (by simp), hnone _ le_rfl, hnone _ (Nat.le_succ _), List.append_nil]

/-- **The table of a member** is what the statements of others make of it. -/
theorem tableBetween_eq (h : ReachesWhen d.step ok d.start g) (hknown : d.Known sofia)
    (hsteady : Steady d g.log i p) (hf : Follows g n i p) (hip : i ≤ p) (t : List CallRow) :
    g.tableBetween (sofia n) n i p t =
      (callStore (sofia n).db).run t (statementsBetween g.log i p) := by
  -- Induction on the entries that have been handled.
  suffices hall : ∀ k, i ≤ k → k ≤ p → g.tableBetween (sofia n) n i k t =
      (callStore (sofia n).db).run t (statementsBetween g.log i k) from hall p hip le_rfl
  intro k hik
  induction k, hik using Nat.le_induction with
  | base =>
    intro _
    have hnone : ((g.recordsOf n).filter fun r => i ≤ r.pos ∧ r.pos < i) = [] := by
      rw [List.filter_eq_nil_iff]
      intro r _
      simp only [decide_eq_true_eq]
      omega
    rw [Cluster.tableBetween, hnone, statementsBetween_self]
    rfl
  | succ k hik ih =>
    intro hkp
    obtain ⟨r, hr, rfl⟩ := hf.handles k hkp hik
    rw [Cluster.tableBetween, filter_recordsOf h hr hik, List.flatMap_append, List.foldl_append,
      ← Cluster.tableBetween, ih (by omega), List.flatMap_singleton,
      foldl_out h hknown hsteady hf hr hik hkp, statementsBetween_succ hik, Store.run_append]

theorem Steady.mono (h : Steady d g.log i p) {i' p' : ℕ} (hi : i ≤ i') (hp : p' ≤ p) :
    Steady d g.log i' p' := fun k hk hik => h k (hk.trans_le hp) (hi.trans hik)

theorem Follows.mono (h : Follows g n i p) {i' p' : ℕ} (hi : i ≤ i') (hp : p' ≤ p) :
    Follows g n i' p' :=
  ⟨fun k hk hik => h.handles k (hk.trans_le hp) (hi.trans hik),
    fun k hk hik => h.others k (hk.trans_le hp) (hi.trans hik)⟩

/-- The statements of an answer. -/
theorem answer_eq {db : Database} (hdoc : db.Documented) {s : Sofia} (hs : s.db = db)
    {name : CString} {profile : FoundProfile} (hprofile : s.findProfile name = some profile)
    (htrack : profile.trackCallsEvents = true) (t : List CallRow) :
    (sofiaGlueTrackEventHandler s t (utilsSendRequestAll name)).2.map Prod.snd =
      t.map CallRow.insertSql := by
  subst hs
  rw [handler_requestAll hdoc hprofile]
  show (t.flatMap (selectAllCallback profile)).map Prod.snd = _
  have hone : selectAllCallback profile = fun r => [(profile.name, r.insertSql)] := by
    funext r
    rw [selectAllCallback, if_pos htrack]
  rw [hone, ← List.map_eq_flatMap, List.map_map]
  rfl

/-- **An answer** to whoever lags behind a table, given from a table with the same rows. -/
theorem agrees_of_answer {db : Database} (hdoc : db.Documented) {s m table : List CallRow}
    (hlags : (callStore db).Lags s m) (htable : table.Perm m)
    (hnodup : (table.map CallRow.uuid).Nodup) :
    (callStore db).Agrees ((callStore db).run s (table.map CallRow.insertSql))
      ((callStore db).run m (table.map CallRow.insertSql)) := by
  have hrows : (m.map CallRow.uuid).Nodup := (htable.map _).nodup_iff.mp hnodup
  have hrestates (r : CallRow) (hr : r ∈ table) : (callStore db).Restates m r.insertSql r.uuid :=
    restates_insertSql hdoc (rowsOf_of_mem hrows (htable.subset hr))
  have hanswer : ∀ sql ∈ table.map CallRow.insertSql, ∃ c, (callStore db).Restates m sql c := by
    intro sql hsql
    obtain ⟨r, hr, rfl⟩ := List.mem_map.mp hsql
    exact ⟨r.uuid, hrestates r hr⟩
  obtain ⟨hreports, hsame, htold⟩ := Store.answer hanswer
  refine Store.catch_up hlags hreports fun c => ?_
  by_cases hc : c ∈ m.map CallRow.uuid
  · obtain ⟨r, hr, rfl⟩ := List.mem_map.mp hc
    have hmem := htable.symm.subset hr
    exact Or.inr (htold _ (List.mem_map_of_mem hmem) _ (hrestates r hmem))
  · -- nobody has the call
    left
    rw [hsame c]
    exact rowsOf_eq_nil.mpr hc

/-- **A new member has the calls.** Let a node lag behind a member: of each call it has no row, or
those of the member. Both handle the entries from `j` on and before `p`, among which nobody departs
and no statement is theirs. From `q` on and before `q'` the group orders the answer of a sofia that
has the same rows as the member. Each statement before the answer is about one call, and gives an
empty table what it gives the member, or nothing; each one after it is about one call. Then the
tables of the two have the same rows at the end, and a takeover would recover the same calls of
third parties from either. -/
theorem joiner_has_the_calls (h : Reaches d.step d.start g) (hknown : d.Known sofia)
    {db : Database} (hdoc : db.Documented) (hdb : ∀ x, (sofia x).db = db)
    (hsteady : Steady d g.log j p) (hn : Follows g n j p) (hb : Follows g b j p)
    {tn tb : List CallRow} (hlags : (callStore db).Lags tn tb) {q' : ℕ} (hjq : j ≤ q)
    (hqq : q ≤ q') (hqp : q' ≤ p)
    (hbefore : (callStore db).ReportsAll tb (statementsBetween g.log j q))
    {y : NodeId} {name : CString} {profile : FoundProfile}
    (hprofile : (sofia y).findProfile name = some profile)
    (htrack : profile.trackCallsEvents = true) {table : List CallRow}
    (htable : table.Perm (g.tableBetween (sofia b) b j q tb))
    (hnodup : (table.map CallRow.uuid).Nodup)
    (hanswer : statementsBetween g.log q q' =
      (sofiaGlueTrackEventHandler (sofia y) table (utilsSendRequestAll name)).2.map Prod.snd)
    (hafter : ∀ s ∈ statementsBetween g.log q' p, ∃ c, (callStore db).About s c) :
    (g.tableBetween (sofia n) n j p tn).Perm (g.tableBetween (sofia b) b j p tb) ∧
      ∀ (name : CString) (r : CallRow), r.runtimeUuid ≠ (sofia n).coreUuid →
        r.runtimeUuid ≠ (sofia b).coreUuid →
          (r ∈ (sofiaGlueProfileRecover (sofia n)
              (g.tableBetween (sofia n) n j p tn) name false).1 ↔
            r ∈ (sofiaGlueProfileRecover (sofia b)
              (g.tableBetween (sofia b) b j p tb) name false).1) := by
  have hjp : j ≤ p := hjq.trans (hqq.trans hqp)
  have hperm : (g.tableBetween (sofia n) n j p tn).Perm (g.tableBetween (sofia b) b j p tb) := by
    rw [tableBetween_eq h hknown (hsteady.mono le_rfl (hqq.trans hqp))
      (hb.mono le_rfl (hqq.trans hqp)) hjq, hdb] at htable
    rw [tableBetween_eq h hknown hsteady hn hjp, tableBetween_eq h hknown hsteady hb hjp, hdb, hdb,
      statementsBetween_append (hjq.trans hqq) hqp, statementsBetween_append hjq hqq, hanswer,
      answer_eq hdoc (hdb y) hprofile htrack]
    simp only [Store.run_append]
    apply perm_of_rowsOf
    exact (agrees_of_answer hdoc (hlags.run hbefore) htable hnodup).run hafter
  refine ⟨hperm, fun name r hrn hrb => ?_⟩
  have hdocn : (sofia n).db.Documented := (hdb n).symm ▸ hdoc
  have hdocb : (sofia b).db.Documented := (hdb b).symm ▸ hdoc
  rw [profileRecover_eq hdocn, profileRecover_eq hdocb, List.mem_filter, List.mem_filter,
    hperm.mem_iff]
  simp [CallRow.foreign, hrn, hrb]

end Replicas

instance (g : Cluster) (n : NodeId) (i p : ℕ) : Decidable (Follows g n i p) :=
  decidable_of_iff ((∀ k < p, i ≤ k → ∃ r ∈ g.recordsOf n, r.pos = k) ∧
      ∀ k < p, i ≤ k → ∀ e ∈ g.log[k]?, FromOthers n e)
    ⟨fun h => ⟨h.1, h.2⟩, fun h => ⟨h.handles, h.others⟩⟩

instance (d : Deployment) (log : List (Entry NodeId Msg)) (i p : ℕ) :
    Decidable (Steady d log i p) := by
  unfold Steady
  infer_instance

/-- The sofia of a node that serves one profile. -/
def profileSofia (n : NodeId) : Sofia := { plainSofia with coreUuid := [UInt8.ofNat n] }

/-- A call that comes up after the answer. -/
def lateCall : CallRow := ⟨ascii "V", ascii "ext", ascii "h", ascii "f", []⟩

/-- A third node joins; a call comes up, the master answers with three, and another one comes up. -/
def callAnswered : Cluster :=
  (run serving.step serving.start (firstUp 1 ++ secondUp 1 2 ++ thirdUp ++
    ([otherCall] ++ threeCalls ++ [lateCall]).flatMap
      (fun r => [.act 1 (.event (ascii "ext") r.insertSql), .order 1]) ++
    deliveries 1 5 ++ deliveries 2 5 ++ deliveries 3 5)).getD serving.start

set_option maxRecDepth 10000 in
theorem joiner_has_the_calls_callAnswered :
    (callAnswered.tableBetween (profileSofia 3) 3 6 15 [quotedCall]).Perm
      (callAnswered.tableBetween (profileSofia 2) 2 6 15 [quotedCall, ownCall]) ∧
    (quotedCall ∈ (sofiaGlueProfileRecover (profileSofia 3)
        (callAnswered.tableBetween (profileSofia 3) 3 6 15 [quotedCall]) (ascii "ext") false).1 ↔
      quotedCall ∈ (sofiaGlueProfileRecover (profileSofia 2)
        (callAnswered.tableBetween (profileSofia 2) 2 6 15 [quotedCall, ownCall])
          (ascii "ext") false).1) := by
  have hreach : Reaches serving.step serving.start callAnswered := reaches_getD _
  have hdoc : plainDatabase.Documented := documented_plainDatabase
  have hknown : serving.Known profileSofia := by
    intro n name hname
    have hext : name = ascii "ext" := by
      have hmem := hname 1 (by decide)
      have hused : (serving.config 1).usedProfiles = [⟨ascii "ext", true⟩] := by decide +kernel
      rw [hused] at hmem
      exact List.mem_singleton.mp hmem
    exact ⟨⟨name, true⟩, if_pos hext⟩
  have hsteady : Steady serving callAnswered.log 6 15 := by decide +kernel
  have h₃ : Follows callAnswered 3 6 15 := by decide +kernel
  have h₂ : Follows callAnswered 2 6 15 := by decide +kernel
  have hone : statementsBetween callAnswered.log 6 11 = [otherCall.insertSql] := by decide +kernel
  have hlast : statementsBetween callAnswered.log 14 15 = [lateCall.insertSql] := by
    decide +kernel
  have hlags : (callStore plainDatabase).Lags [quotedCall] [quotedCall, ownCall] := by
    intro c
    by_cases hc : c = quotedCall.uuid
    · rw [hc]
      exact Or.inr (by decide +kernel)
    · exact Or.inl (by simp [callStore, rowsOf, Ne.symm hc])
  have hbefore : (callStore plainDatabase).ReportsAll [quotedCall, ownCall]
      (statementsBetween callAnswered.log 6 11) := by
    rw [hone]
    have habout := about_insertSql hdoc otherCall
    exact ⟨⟨_, habout, Or.inr ⟨habout, by decide +kernel⟩⟩, trivial⟩
  have htable : threeCalls.Perm
      (callAnswered.tableBetween (profileSofia 2) 2 6 11 [quotedCall, ownCall]) := by
    rw [tableBetween_eq hreach hknown (hsteady.mono le_rfl (by decide))
      (h₂.mono le_rfl (by decide)) (by decide), hone]
    decide +kernel
  have hanswer : statementsBetween callAnswered.log 11 14 =
      (sofiaGlueTrackEventHandler (profileSofia 1) threeCalls
        (utilsSendRequestAll (ascii "ext"))).2.map Prod.snd := by decide +kernel
  have hprofile : (profileSofia 1).findProfile (ascii "ext") = some ⟨ascii "ext", true⟩ := by
    decide +kernel
  have hafter : ∀ s ∈ statementsBetween callAnswered.log 14 15,
      ∃ c, (callStore plainDatabase).About s c := by
    rw [hlast]
    intro s hs
    rw [List.mem_singleton.mp hs]
    exact ⟨_, about_insertSql hdoc lateCall⟩
  obtain ⟨hperm, hrecover⟩ := joiner_has_the_calls hreach hknown hdoc (fun _ => rfl) hsteady h₃ h₂
    hlags (by decide) (by decide) (by decide) hbefore hprofile rfl htable (by decide +kernel)
    hanswer hafter
  exact ⟨hperm, hrecover _ quotedCall (by decide +kernel) (by decide +kernel)⟩

end CpgFailover
