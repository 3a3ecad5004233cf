import CpgFailover.Lib.FirstOccurrences
import CpgFailover.Lib.Quoted
import CpgFailover.VirtualIp

/-!
# The recovery table

Each sofia keeps the calls of all members in its table `sip_recovery`, and the module and its
patches change it by statements that are texts. A statement says no more and no less than the values
it was made from: every value stands between quotes, with its own quotes doubled, so that no uuid,
host name or call description is taken for anything else. An answer to `request_all` adds the calls
that are missing, in whatever order and however often its statements are executed.

## Main definitions

* `CallRow`: a row of `sip_recovery`
* `Database`, `Database.Documented`: the database, and what the statements mean
* `utilsSendTrackEvent`, `utilsSendRequestAll`, `utilsCleanUpTable`: the events sent to sofia
* `Sofia`, `sofiaGlueTrackEventHandler`, `sofiaGlueProfileRecover`: what the patched sofia does

## Main results

* `statements_exact`: a clean-up, a recovery, a flush and an answer do what their values say
* `answer_adds_missing`: an answer adds the calls that are missing
-/

namespace CpgFailover

open FirstOccurrences (firsts)
open Quoted (Format ascii)

/-- A row of `sip_recovery`, in the order of its columns. -/
structure CallRow where
  runtimeUuid : CString
  profileName : CString
  hostname : CString
  uuid : CString
  metadata : CString
deriving DecidableEq

/-! ## Statements -/

/-- The statement of `utils_clean_up_table`. -/
def cleanUpFormat : Format :=
  ⟨ascii "delete from sip_recovery where runtime_uuid='", [ascii "' and profile_name='", ascii "'"]⟩

/-- The query of `sofia_glue_profile_recover`. -/
def selectForeignFormat : Format :=
  ⟨ascii "select profile_name, hostname, uuid, metadata from sip_recovery where runtime_uuid!='",
    [ascii "' and profile_name='", ascii "'"]⟩

/-- What `sofia_glue_profile_recover` executes after it. -/
def deleteForeignFormat : Format :=
  ⟨ascii "delete from sip_recovery where runtime_uuid!='",
    [ascii "' and profile_name='", ascii "'"]⟩

/-- What it executes to flush the table. -/
def flushFormat : Format := ⟨ascii "delete from sip_recovery where profile_name='", [ascii "'"]⟩

/-- The query of `sofia_glue_track_event_handler`. -/
def selectAllSql : CString := ascii "select * from sip_recovery"

/-- The statement of `select_all_callback`. -/
def insertFormat : Format where
  start := ascii "insert into sip_recovery (runtime_uuid, profile_name, hostname, uuid, metadata)" ++
    ascii " select '"
  rest := [ascii "', '", ascii "', '", ascii "', '", ascii "', '",
    ascii "' where not exists (select 1 from sip_recovery where uuid = '", ascii "');"]

/-- The statement for a row. -/
def CallRow.insertSql (r : CallRow) : CString :=
  insertFormat.fill [r.runtimeUuid, r.profileName, r.hostname, r.uuid, r.metadata, r.uuid]

/-- A row is added unless there is one of the same call. -/
def insertMissing (t : List CallRow) (r : CallRow) : List CallRow :=
  if r.uuid ∈ t.map CallRow.uuid then t else t ++ [r]

/-- The row is of another process, for this profile. -/
def CallRow.foreign (r : CallRow) (own name : CString) : Bool :=
  r.runtimeUuid ≠ own ∧ r.profileName = name

/-- The database, on the rows of the table. -/
structure Database where
  execute : CString → List CallRow → List CallRow
  select : CString → List CallRow → List CallRow

/-- What the statements mean. -/
structure Database.Documented (db : Database) : Prop where
  cleanUp {s u p : CString} : cleanUpFormat.read s = some [u, p] →
    ∀ t, db.execute s t = t.filter fun r => ¬ (r.runtimeUuid = u ∧ r.profileName = p)
  deleteForeign {s u p : CString} : deleteForeignFormat.read s = some [u, p] →
    ∀ t, db.execute s t = t.filter fun r => ¬ r.foreign u p
  flush {s p : CString} : flushFormat.read s = some [p] →
    ∀ t, db.execute s t = t.filter fun r => r.profileName ≠ p
  insert {s u p n c m : CString} : insertFormat.read s = some [u, p, n, c, m, c] →
    ∀ t, db.execute s t = insertMissing t ⟨u, p, n, c, m⟩
  selectForeign {s u p : CString} : selectForeignFormat.read s = some [u, p] →
    ∀ t, db.select s t = t.filter fun r => r.foreign u p
  selectAll (t : List CallRow) : db.select selectAllSql t = t

/-! ## Sofia -/

/-- A `sofia::recovery_recv` event; a missing header is empty. -/
structure SofiaEvent where
  profileName : CString
  sql : CString
  requestAll : CString
deriving DecidableEq

/-- `utils_send_track_event`, when `switch_event_create_subclass` finds memory; otherwise it only
writes to the log. -/
def utilsSendTrackEvent (sql profileName : CString) : SofiaEvent := ⟨profileName, sql, []⟩

/-- `utils_send_request_all`, likewise. -/
def utilsSendRequestAll (profileName : CString) : SofiaEvent := ⟨profileName, [], ascii "true"⟩

/-- `utils_clean_up_table`. -/
def utilsCleanUpTable (runtimeUuid sofiaProfileName : CString) : SofiaEvent :=
  utilsSendTrackEvent (cleanUpFormat.fill [runtimeUuid, sofiaProfileName]) sofiaProfileName

/-- A profile of sofia: its name, and `PFLAG_TRACK_CALLS_EVENTS`. -/
structure FoundProfile where
  name : CString
  trackCallsEvents : Bool
deriving DecidableEq

/-- A sofia: its database, the uuid of its core, and `sofia_glue_find_profile`. -/
structure Sofia where
  db : Database
  coreUuid : CString
  findProfile : CString → Option FoundProfile

/-- `select_all_callback`: the `sofia::recovery_send` events it fires, with profile and statement,
when there is memory for both. -/
def selectAllCallback (profile : FoundProfile) (r : CallRow) : List (CString × CString) :=
  if profile.trackCallsEvents then [(profile.name, r.insertSql)] else []

/-- `sofia_glue_track_event_handler`: the table, and the events it fires. -/
def sofiaGlueTrackEventHandler (sofia : Sofia) (t : List CallRow) (event : SofiaEvent) :
    List CallRow × List (CString × CString) :=
  match sofia.findProfile event.profileName with
  | none => (t, [])
  | some profile =>
    if event.requestAll = ascii "true" then
      (t, (sofia.db.select selectAllSql t).flatMap (selectAllCallback profile))
    else (sofia.db.execute event.sql t, [])

/-- `sofia_glue_profile_recover`: the rows it recovers, and the table. -/
def sofiaGlueProfileRecover (sofia : Sofia) (t : List CallRow) (name : CString) (flush : Bool) :
    List CallRow × List CallRow :=
  if flush then ([], sofia.db.execute (flushFormat.fill [name]) t)
  else
    (sofia.db.select (selectForeignFormat.fill [sofia.coreUuid, name]) t,
      sofia.db.execute (deleteForeignFormat.fill [sofia.coreUuid, name]) t)

/-! ## What the statements say -/

section Statements

variable {db : Database} {t : List CallRow}

/-- Each place of the formats is closed. -/
theorem closed_formats : cleanUpFormat.Closed ∧ selectForeignFormat.Closed ∧
    deleteForeignFormat.Closed ∧ flushFormat.Closed ∧ insertFormat.Closed := by
  decide +kernel

theorem Database.Documented.cleanUp_fill (h : db.Documented) (u p : CString) :
    db.execute (cleanUpFormat.fill [u, p]) t =
      t.filter fun r => ¬ (r.runtimeUuid = u ∧ r.profileName = p) := by
  have hread : cleanUpFormat.read (cleanUpFormat.fill [u, p]) = some [u, p] :=
    Format.read_fill closed_formats.1 rfl
  exact h.cleanUp hread t

theorem Database.Documented.selectForeign_fill (h : db.Documented) (u p : CString) :
    db.select (selectForeignFormat.fill [u, p]) t = t.filter fun r => r.foreign u p := by
  have hread : selectForeignFormat.read (selectForeignFormat.fill [u, p]) = some [u, p] :=
    Format.read_fill closed_formats.2.1 rfl
  exact h.selectForeign hread t

theorem Database.Documented.deleteForeign_fill (h : db.Documented) (u p : CString) :
    db.execute (deleteForeignFormat.fill [u, p]) t = t.filter fun r => ¬ r.foreign u p := by
  have hread : deleteForeignFormat.read (deleteForeignFormat.fill [u, p]) = some [u, p] :=
    Format.read_fill closed_formats.2.2.1 rfl
  exact h.deleteForeign hread t

theorem Database.Documented.flush_fill (h : db.Documented) (p : CString) :
    db.execute (flushFormat.fill [p]) t = t.filter fun r => r.profileName ≠ p := by
  have hread : flushFormat.read (flushFormat.fill [p]) = some [p] :=
    Format.read_fill closed_formats.2.2.2.1 rfl
  exact h.flush hread t

/-- The statement for a row is read back. -/
theorem read_insertSql (r : CallRow) : insertFormat.read r.insertSql =
    some [r.runtimeUuid, r.profileName, r.hostname, r.uuid, r.metadata, r.uuid] :=
  Format.read_fill closed_formats.2.2.2.2 rfl

/-- **The statement for a row** adds it unless there is one of the same call. -/
theorem Database.Documented.insertSql (h : db.Documented) (t : List CallRow) (r : CallRow) :
    db.execute r.insertSql t = insertMissing t r := h.insert (read_insertSql r) t

/-- Different rows have different statements. -/
theorem insertSql_inj {r r' : CallRow} (h : r.insertSql = r'.insertSql) : r = r' := by
  have hlen (q : CallRow) : [q.runtimeUuid, q.profileName, q.hostname, q.uuid, q.metadata,
      q.uuid].length = insertFormat.rest.length := rfl
  have hvalues := Format.fill_inj closed_formats.2.2.2.2 (hlen r) (hlen r') h
  obtain ⟨hu, hp, hn, hc, hm, -⟩ := by simpa only [List.cons.injEq] using hvalues
  cases r
  cases r'
  simp only at hu hp hn hc hm
  rw [hu, hp, hn, hc, hm]

variable {sofia : Sofia}

/-- What is recovered, and what stays. -/
theorem profileRecover_eq (h : sofia.db.Documented) (t : List CallRow) (name : CString) :
    sofiaGlueProfileRecover sofia t name false =
      (t.filter fun r => r.foreign sofia.coreUuid name,
        t.filter fun r => ¬ r.foreign sofia.coreUuid name) := by
  rw [sofiaGlueProfileRecover, if_neg (by decide), h.selectForeign_fill, h.deleteForeign_fill]

/-- A flush. -/
theorem profileRecover_flush (h : sofia.db.Documented) (t : List CallRow) (name : CString) :
    sofiaGlueProfileRecover sofia t name true = ([], t.filter fun r => r.profileName ≠ name) := by
  rw [sofiaGlueProfileRecover, if_pos rfl, h.flush_fill]

/-- An event with a statement. -/
theorem handler_trackEvent {name : CString} {profile : FoundProfile}
    (hname : sofia.findProfile name = some profile) (t : List CallRow) (sql : CString) :
    sofiaGlueTrackEventHandler sofia t (utilsSendTrackEvent sql name) =
      (sofia.db.execute sql t, []) := by
  have hno : ¬ (utilsSendTrackEvent sql name).requestAll = ascii "true" := by
    show ¬ ([] : CString) = ascii "true"
    decide
  rw [sofiaGlueTrackEventHandler, show (utilsSendTrackEvent sql name).profileName = name from rfl,
    hname]
  simp only
  rw [if_neg hno]
  rfl

/-- An event that asks for the calls. -/
theorem handler_requestAll (h : sofia.db.Documented) {name : CString} {profile : FoundProfile}
    (hname : sofia.findProfile name = some profile) (t : List CallRow) :
    sofiaGlueTrackEventHandler sofia t (utilsSendRequestAll name) =
      (t, t.flatMap (selectAllCallback profile)) := by
  rw [sofiaGlueTrackEventHandler, show (utilsSendRequestAll name).profileName = name from rfl,
    hname]
  simp only
  rw [if_pos (show (utilsSendRequestAll name).requestAll = ascii "true" from rfl), h.selectAll]

/-- **The statements say what they were made from**, whatever bytes the values have: a clean-up
deletes the rows of this uuid and this profile and no other row; a recovery takes the rows of other
processes for its profile, each call either recovered or kept, and a second one finds nothing; a
flush deletes the rows of its profile; and an answer to `request_all` leaves the table alone and
sends a statement for each row, which on any other table adds this row, unless there is one of the
same call. -/
theorem statements_exact (h : sofia.db.Documented) {name : CString} {profile : FoundProfile}
    (hname : sofia.findProfile name = some profile) (t : List CallRow) (u : CString) :
    sofiaGlueTrackEventHandler sofia t (utilsCleanUpTable u name) =
        (t.filter fun r => ¬ (r.runtimeUuid = u ∧ r.profileName = name), []) ∧
      (∀ calls rest, sofiaGlueProfileRecover sofia t name false = (calls, rest) →
        (calls ++ rest).Perm t ∧
          (∀ r, r ∈ calls ↔ r ∈ t ∧ r.runtimeUuid ≠ sofia.coreUuid ∧ r.profileName = name) ∧
          sofiaGlueProfileRecover sofia rest name false = ([], rest)) ∧
      sofiaGlueProfileRecover sofia t name true =
        ([], t.filter fun r => r.profileName ≠ name) ∧
      (∀ sent, sofiaGlueTrackEventHandler sofia t (utilsSendRequestAll name) = (t, sent) →
        profile.trackCallsEvents = true →
          sent = t.map (fun r => (profile.name, r.insertSql)) ∧
          ∀ r ∈ t, ∀ other, sofia.db.execute r.insertSql other = insertMissing other r) := by
  refine ⟨?_, ?_, profileRecover_flush h t name, ?_⟩
  · rw [utilsCleanUpTable, handler_trackEvent hname, h.cleanUp_fill]
  · intro calls rest hrecover
    rw [profileRecover_eq h] at hrecover
    obtain ⟨rfl, rfl⟩ := Prod.mk.inj hrecover
    refine ⟨?_, fun r => ?_, ?_⟩
    · have hperm := List.filter_append_perm (fun r => r.foreign sofia.coreUuid name) t
      simpa using hperm
    · rw [List.mem_filter]
      simp [CallRow.foreign]
    · rw [profileRecover_eq h, List.filter_filter, List.filter_filter]
      simp
  · intro sent hsent htrack
    rw [handler_requestAll h hname] at hsent
    obtain ⟨-, rfl⟩ := Prod.mk.inj hsent
    refine ⟨?_, fun r _ other => h.insertSql other r⟩
    have hone : selectAllCallback profile = fun r => [(profile.name, r.insertSql)] := by
      funext r
      rw [selectAllCallback, if_pos htrack]
    rw [hone]
    exact List.map_eq_flatMap.symm

end Statements

/-! ## Answers -/

section Answers

variable {t rows : List CallRow}

/-- The calls of the table afterwards are those before and those of the answer. -/
theorem mem_uuids_foldl (t rows : List CallRow) (c : CString) :
    c ∈ (rows.foldl insertMissing t).map CallRow.uuid ↔
      c ∈ t.map CallRow.uuid ∨ c ∈ rows.map CallRow.uuid := by
  induction rows generalizing t with
  | nil => simp
  | cons r rows ih =>
    have hone : c ∈ (insertMissing t r).map CallRow.uuid ↔
        c ∈ t.map CallRow.uuid ∨ c = r.uuid := by
      rw [insertMissing]
      split_ifs with hr
      · constructor
        · exact Or.inl
        · rintro (h | rfl)
          exacts [h, hr]
      · simp
    rw [List.foldl_cons, ih, hone, List.map_cons, List.mem_cons, or_assoc]

/-- No call comes in twice. -/
theorem nodup_foldl {t : List CallRow} (h : (t.map CallRow.uuid).Nodup) (rows : List CallRow) :
    ((rows.foldl insertMissing t).map CallRow.uuid).Nodup := by
  induction rows generalizing t with
  | nil => exact h
  | cons r rows ih =>
    apply ih
    rw [insertMissing]
    split_ifs with hr
    · exact h
    · rw [List.map_append, List.map_singleton, ← List.concat_eq_append]
      exact h.concat hr

/-- **The rows that an answer adds** are the first of each missing call. -/
theorem foldl_insertMissing (t rows : List CallRow) :
    rows.foldl insertMissing t =
      t ++ (firsts CallRow.uuid rows).filter fun r => r.uuid ∉ t.map CallRow.uuid := by
  induction rows using List.reverseRecOn with
  | nil => simp
  | append_singleton rows r ih =>
    have hmem := mem_uuids_foldl t rows r.uuid
    rw [List.foldl_append, List.foldl_cons, List.foldl_nil, insertMissing,
      FirstOccurrences.firsts_concat]
    by_cases hold : r.uuid ∈ rows.map CallRow.uuid
    · rw [if_pos hold, if_pos (hmem.mpr (Or.inr hold)), ih]
    · rw [if_neg hold, List.filter_append]
      by_cases ht : r.uuid ∈ t.map CallRow.uuid
      · rw [if_pos (hmem.mpr (Or.inl ht)), ih, List.filter_cons_of_neg (by simpa using ht),
          List.filter_nil, List.append_nil]
      · rw [if_neg fun hr => (hmem.mp hr).elim ht hold, ih,
          List.filter_cons_of_pos (by simpa using ht), List.filter_nil, List.append_assoc]

/-- Statements for rows of a table are those for a list of its rows. -/
theorem exists_rows_of_sent {sqls : List CString} (hsent : ∀ s ∈ sqls, ∃ r ∈ t, s = r.insertSql) :
    ∃ rows, sqls = rows.map CallRow.insertSql ∧ rows ⊆ t := by
  induction sqls with
  | nil => exact ⟨[], rfl, List.nil_subset t⟩
  | cons s sqls ih =>
    obtain ⟨r, hr, rfl⟩ := hsent s List.mem_cons_self
    obtain ⟨rows, rfl, hrows⟩ := ih fun s' hs' => hsent s' (List.mem_cons_of_mem _ hs')
    exact ⟨r :: rows, rfl, List.cons_subset.mpr ⟨hr, hrows⟩⟩

/-- An empty table becomes the table whose rows are all inserted, if no call is in it twice. -/
theorem perm_foldl_insertMissing (ht : (t.map CallRow.uuid).Nodup) (hrows : rows ⊆ t)
    (hcover : t ⊆ rows) : (rows.foldl insertMissing []).Perm t := by
  -- the first rows of the calls are the rows of the table
  have hnodup : ((rows.foldl insertMissing []).map CallRow.uuid).Nodup :=
    nodup_foldl (t := []) List.nodup_nil rows
  rw [List.perm_ext_iff_of_nodup hnodup.of_map ht.of_map]
  intro r
  rw [foldl_insertMissing, List.nil_append]
  constructor
  · intro hr
    exact hrows (FirstOccurrences.firsts_subset _ (List.mem_of_mem_filter hr))
  · intro hr
    have huuid : r.uuid ∈ (firsts CallRow.uuid rows).map CallRow.uuid :=
      FirstOccurrences.mem_map_firsts.mpr (List.mem_map_of_mem (hcover hr))
    obtain ⟨r', hr', he⟩ := List.mem_map.mp huuid
    have hsame : r' = r :=
      List.inj_on_of_nodup_map ht (hrows (FirstOccurrences.firsts_subset _ hr')) hr he
    rw [hsame] at hr'
    exact List.mem_filter.mpr ⟨hr', by simp⟩

/-- **An answer adds the calls that are missing.** Let some statements be those for rows of a table,
in any order and each at least once. Then executing them on another table keeps it as it is and adds
only rows of the first, so that it has the calls of both, each once if it had them once; and an
empty table becomes the first one, up to the order of its rows. -/
theorem answer_adds_missing {db : Database} (h : db.Documented) {t other : List CallRow}
    {sqls : List CString} (hsent : ∀ s ∈ sqls, ∃ r ∈ t, s = r.insertSql)
    (hall : ∀ r ∈ t, r.insertSql ∈ sqls) {result : List CallRow}
    (hresult : sqls.foldl (fun u s => db.execute s u) other = result) :
    (∃ added, result = other ++ added ∧ added ⊆ t) ∧
      (∀ c, c ∈ result.map CallRow.uuid ↔
        c ∈ other.map CallRow.uuid ∨ c ∈ t.map CallRow.uuid) ∧
      ((other.map CallRow.uuid).Nodup → (result.map CallRow.uuid).Nodup) ∧
      (other = [] → (t.map CallRow.uuid).Nodup → result.Perm t) := by
  obtain ⟨rows, rfl, hrows⟩ := exists_rows_of_sent hsent
  have hfold : rows.foldl insertMissing other = result := by
    rw [← hresult, List.foldl_map]
    congr 1
    funext u r
    exact (h.insertSql u r).symm
  have hcover : t ⊆ rows := by
    intro r hr
    obtain ⟨r', hr', he⟩ := List.mem_map.mp (hall r hr)
    rwa [← insertSql_inj he]
  have huuids : ∀ c, c ∈ rows.map CallRow.uuid ↔ c ∈ t.map CallRow.uuid := by
    intro c
    simp only [List.mem_map]
    exact ⟨fun ⟨r, hr, he⟩ => ⟨r, hrows hr, he⟩, fun ⟨r, hr, he⟩ => ⟨r, hcover hr, he⟩⟩
  subst hfold
  refine ⟨?_, fun c => ?_, fun hother => ?_, fun hempty ht => ?_⟩
  · refine ⟨_, foldl_insertMissing other rows, fun r hr => ?_⟩
    exact hrows (FirstOccurrences.firsts_subset _ (List.mem_of_mem_filter hr))
  · rw [mem_uuids_foldl, huuids]
  · exact nodup_foldl hother rows
  · subst hempty
    exact perm_foldl_insertMissing ht hrows hcover

end Answers

/-! ## A database -/

/-- A database that knows these statements and no others. -/
def plainDatabase : Database where
  execute s t :=
    match cleanUpFormat.read s, deleteForeignFormat.read s, flushFormat.read s,
      insertFormat.read s with
    | some [u, p], _, _, _ => t.filter fun r => ¬ (r.runtimeUuid = u ∧ r.profileName = p)
    | none, some [u, p], _, _ => t.filter fun r => ¬ r.foreign u p
    | none, none, some [p], _ => t.filter fun r => r.profileName ≠ p
    | none, none, none, some [u, p, n, c, m, _] => insertMissing t ⟨u, p, n, c, m⟩
    | _, _, _, _ => t
  select s t :=
    match selectForeignFormat.read s with
    | some [u, p] => t.filter fun r => r.foreign u p
    | _ => t

/-- The formats begin differently. -/
theorem formats_apart :
    (¬ deleteForeignFormat.start <+: cleanUpFormat.start ∧
      ¬ cleanUpFormat.start <+: deleteForeignFormat.start) ∧
    (¬ flushFormat.start <+: cleanUpFormat.start ∧
      ¬ cleanUpFormat.start <+: flushFormat.start) ∧
    (¬ flushFormat.start <+: deleteForeignFormat.start ∧
      ¬ deleteForeignFormat.start <+: flushFormat.start) ∧
    (¬ insertFormat.start <+: cleanUpFormat.start ∧
      ¬ cleanUpFormat.start <+: insertFormat.start) ∧
    (¬ insertFormat.start <+: deleteForeignFormat.start ∧
      ¬ deleteForeignFormat.start <+: insertFormat.start) ∧
    (¬ insertFormat.start <+: flushFormat.start ∧
      ¬ flushFormat.start <+: insertFormat.start) := by
  decide +kernel

theorem documented_plainDatabase : plainDatabase.Documented := by
  obtain ⟨⟨h₁, h₁'⟩, ⟨h₂, h₂'⟩, ⟨h₃, h₃'⟩, ⟨h₄, h₄'⟩, ⟨h₅, h₅'⟩, h₆, h₆'⟩ := formats_apart
  constructor
  · intro s u p h t
    simp only [plainDatabase, h]
  · intro s u p h t
    simp only [plainDatabase, h, Format.read_apart h₁ h₁' h]
  · intro s p h t
    simp only [plainDatabase, h, Format.read_apart h₂ h₂' h, Format.read_apart h₃ h₃' h]
  · intro s u p n c m h t
    simp only [plainDatabase, h, Format.read_apart h₄ h₄' h, Format.read_apart h₅ h₅' h,
      Format.read_apart h₆ h₆' h]
  · intro s u p h t
    simp only [plainDatabase, h]
  · intro t
    have hnone : selectForeignFormat.read selectAllSql = none := by decide +kernel
    simp only [plainDatabase, hnone]

/-- A sofia with the one profile `ext`, in a core of uuid `U`. -/
def plainSofia : Sofia where
  db := plainDatabase
  coreUuid := ascii "U"
  findProfile name := if name = ascii "ext" then some ⟨name, true⟩ else none

/-- A call of another core, whose description has quotes. -/
def quotedCall : CallRow := ⟨ascii "V", ascii "ext", ascii "h", ascii "c", ascii "it's '; drop"⟩

/-- A call of this core. -/
def ownCall : CallRow := ⟨ascii "U", ascii "ext", ascii "h", ascii "d", ascii "x"⟩

/-- A call of the other core for another profile. -/
def otherCall : CallRow := ⟨ascii "V", ascii "int", ascii "h", ascii "e", ascii "y"⟩

/-- A table of three calls. -/
def threeCalls : List CallRow := [quotedCall, ownCall, otherCall]

theorem statements_exact_quoted :
    sofiaGlueTrackEventHandler plainSofia threeCalls (utilsCleanUpTable (ascii "V") (ascii "ext")) =
        ([ownCall, otherCall], []) ∧
      (∃ rest, sofiaGlueProfileRecover plainSofia threeCalls (ascii "ext") false =
          ([quotedCall], rest) ∧
        sofiaGlueProfileRecover plainSofia rest (ascii "ext") false = ([], rest)) ∧
      sofiaGlueProfileRecover plainSofia threeCalls (ascii "ext") true = ([], [otherCall]) ∧
      (sofiaGlueTrackEventHandler plainSofia threeCalls (utilsSendRequestAll (ascii "ext"))).2 =
        threeCalls.map (fun r => (ascii "ext", r.insertSql)) ∧
      plainDatabase.execute ownCall.insertSql [quotedCall] = [quotedCall, ownCall] := by
  have hdb : plainSofia.db.Documented := documented_plainDatabase
  have hname : plainSofia.findProfile (ascii "ext") = some ⟨ascii "ext", true⟩ := by
    decide +kernel
  obtain ⟨hclean, hrecover, hflush, hanswer⟩ := statements_exact hdb hname threeCalls (ascii "V")
  have hcalls : (sofiaGlueProfileRecover plainSofia threeCalls (ascii "ext") false).1 =
      [quotedCall] := by decide +kernel
  have hkept : (sofiaGlueTrackEventHandler plainSofia threeCalls
      (utilsSendRequestAll (ascii "ext"))).1 = threeCalls := by decide +kernel
  obtain ⟨hsent, hadds⟩ := hanswer _ (Prod.ext hkept rfl) rfl
  refine ⟨hclean.trans (by decide +kernel), ⟨_, Prod.ext hcalls rfl, (hrecover _ _ rfl).2.2⟩,
    hflush.trans (by decide +kernel), hsent, ?_⟩
  exact (hadds ownCall (by decide +kernel) [quotedCall]).trans (by decide +kernel)

/-- The answer of this table, out of order, with one statement twice. -/
def threeAnswers : List CString :=
  [otherCall.insertSql, ownCall.insertSql, quotedCall.insertSql, ownCall.insertSql]

/-- The call `c` in another description, and a call of a third core. -/
def twoCalls : List CallRow :=
  [⟨ascii "V", ascii "ext", ascii "h", ascii "c", ascii "z"⟩,
    ⟨ascii "W", ascii "ext", ascii "h", ascii "f", []⟩]

theorem answer_adds_missing_twice :
    (∃ added, threeAnswers.foldl (fun u s => plainDatabase.execute s u) twoCalls =
        twoCalls ++ added ∧ added ⊆ threeCalls) ∧
      ((threeAnswers.foldl (fun u s => plainDatabase.execute s u) twoCalls).map
        CallRow.uuid).Nodup ∧
      (threeAnswers.foldl (fun u s => plainDatabase.execute s u) []).Perm threeCalls := by
  have hsent : ∀ s ∈ threeAnswers, ∃ r ∈ threeCalls, s = r.insertSql := by decide +kernel
  have hall : ∀ r ∈ threeCalls, r.insertSql ∈ threeAnswers := by decide +kernel
  obtain ⟨hadded, -, hnodup, -⟩ :=
    @answer_adds_missing _ documented_plainDatabase _ twoCalls _ hsent hall _ rfl
  obtain ⟨-, -, -, hempty⟩ :=
    @answer_adds_missing _ documented_plainDatabase _ [] _ hsent hall _ rfl
  exact ⟨hadded, hnodup (by decide +kernel), hempty rfl (by decide +kernel)⟩

end CpgFailover
