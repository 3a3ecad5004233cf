import CpgFailover.AddressText
import CpgFailover.Cluster
import CpgFailover.Lib.Columns
import CpgFailover.Lib.Quoted

/-!
# The status report

`cmd_status` of `mod_cpg.c`, with the names of the states. What it writes to the console shows each
virtual ip: its address, master and state, the members in the order of their list, the own one with
a star, then the profiles and, while a rollback is pending, where it goes. A vip without members is
shown without its profiles. The rules between the parts are lines of their own, so that nothing in
the report can be taken for something else.

## Main definitions

* `stateToString`: the name of a state
* `cmdStatus`: the report on the virtual ips in the order of the hash
* `Vip.shown`: what the report says of a vip
* `Vip.Legible`: the texts of a vip fit in a table

## Main results

* `cmdStatus_tells`: tables have the same report exactly when it says the same of their vips
-/

namespace CpgFailover

open Bytes (Endian)
open Columns (tab newline padLeft signed closedBy)
open Quoted (ascii)

/-! ## The command -/

/-- `state_to_string`: `st_names[state]`. -/
def stateToString : State → CString
  | .idle => ascii "IDLE"
  | .start => ascii "START"
  | .backup => ascii "BACKUP"
  | .master => ascii "MASTER"
  | .rback => ascii "ROLLBACK"

/-- `virtual_ip_get_state`. -/
def virtualIpGetState (vip : Vip) : CString := stateToString vip.state

/-- `line1` without its newline. -/
def rule1 : CString := List.replicate 80 61

/-- `line2` without its newline. -/
def rule2 : CString := List.replicate 80 45

/-- `line1`. -/
def line1 : CString := rule1 ++ [newline]

/-- `line2`. -/
def line2 : CString := rule2 ++ [newline]

/-- `"%25s\t%20s\t%10s\t\n"`. -/
def headLine (virtualIp masterIp state : CString) : CString :=
  padLeft 25 virtualIp ++ [tab] ++ padLeft 20 masterIp ++ [tab] ++ padLeft 10 state ++
    [tab, newline]

/-- `"prio/node%16d\t%8s%s\n"`. -/
def memberLine (e : Endian) (nodeId : NodeId) (node : Node) : CString :=
  ascii "prio/node" ++ padLeft 16 (signed node.priority) ++ [tab] ++
    padLeft 8 (if node.nodeid = nodeId then ascii "*" else []) ++
    utilsNodePidFormat e node.nodeid ++ [newline]

/-- `"profile\t%17s\n"`. -/
def profileLine (p : SofiaProfile) : CString :=
  ascii "profile" ++ [tab] ++ padLeft 17 p.name ++ [newline]

/-- `"\tRollback timer started, migration to %s\n"`. -/
def rollbackLine (e : Endian) (rollbackNodeId : NodeId) : CString :=
  [tab] ++ ascii "Rollback timer started, migration to " ++ utilsNodePidFormat e rollbackNodeId ++
    [newline]

/-- What `cmd_status` writes for one vip. -/
def vipStatus (e : Endian) (vip : Vip) : CString :=
  headLine vip.config.address (utilsNodePidFormat e vip.masterId) (virtualIpGetState vip) ++
    line2 ++
    if vip.nodeList = [] then line1
    else
      vip.nodeList.flatMap (memberLine e vip.nodeId) ++ line2 ++
        vip.config.usedProfiles.flatMap profileLine ++ line2 ++
        (if vip.state = .rback then rollbackLine e vip.rollbackNodeId else []) ++ line1

/-- `cmd_status`: what it writes to the stream; `hash` in the order of its iterator. -/
def cmdStatus (e : Endian) (hash : List Vip) : CString :=
  headLine (ascii "Virtual Ip") (ascii "Master Ip") (ascii "State") ++ line1 ++
    hash.flatMap (vipStatus e) ++ line1

/-! ## What is shown -/

/-- What the report says of a vip. -/
structure Shown where
  address : CString
  masterId : NodeId
  state : State
  members : List (ℤ × Bool × NodeId)
  profiles : List CString
  migration : Option NodeId
deriving DecidableEq

/-- Priority, whether it is the own node, and id of the members in the order of the list; profiles
and the target of the rollback only if there are members. -/
def Vip.shown (vip : Vip) : Shown where
  address := vip.config.address
  masterId := vip.masterId
  state := vip.state
  members := vip.nodeList.map fun n => (n.priority, decide (n.nodeid = vip.nodeId), n.nodeid)
  profiles := if vip.nodeList = [] then [] else vip.config.usedProfiles.map SofiaProfile.name
  migration :=
    if vip.nodeList ≠ [] ∧ vip.state = .rback then some vip.rollbackNodeId else none

/-- A text that a column does not hide: in one line, with no blank in front. -/
def Plain (s : CString) : Prop := newline ∉ s ∧ s.head? ≠ some Columns.blank

instance (s : CString) : Decidable (Plain s) :=
  inferInstanceAs (Decidable (newline ∉ s ∧ s.head? ≠ some Columns.blank))

/-- The texts of a vip fit in a table: a valid address, plain profile names, and ids of 32 bits. -/
structure Vip.Legible (vip : Vip) : Prop where
  address : utilsIpIsValid vip.config.address = true
  masterId : vip.masterId < 2 ^ 32
  rollbackNodeId : vip.rollbackNodeId < 2 ^ 32
  members : ∀ n ∈ vip.nodeList, n.nodeid < 2 ^ 32
  profiles : ∀ p ∈ vip.config.usedProfiles, Plain p.name

/-! ## Lines -/

/-- The first line of a vip. -/
def headRow (e : Endian) (s : Shown) : CString :=
  closedBy tab
    [padLeft 25 s.address, padLeft 20 (utilsNodePidFormat e s.masterId),
      padLeft 10 (stateToString s.state)]

/-- The line of a member. -/
def memberRow (e : Endian) (m : ℤ × Bool × NodeId) : CString :=
  (ascii "prio/node" ++ padLeft 16 (signed m.1)) ++
    tab :: (padLeft 8 (if m.2.1 then ascii "*" else []) ++ utilsNodePidFormat e m.2.2)

/-- The line of a profile. -/
def profileRow (name : CString) : CString := ascii "profile" ++ tab :: padLeft 17 name

/-- The line of a pending rollback. -/
def rollbackRow (e : Endian) (nodeid : NodeId) : CString :=
  tab :: (ascii "Rollback timer started, migration to " ++ utilsNodePidFormat e nodeid)

/-- The lines for a vip. -/
def Shown.rows (e : Endian) (s : Shown) : List CString :=
  if s.members = [] then closedBy rule2 [[headRow e s]]
  else
    closedBy rule2 [[headRow e s], s.members.map (memberRow e), s.profiles.map profileRow] ++
      s.migration.toList.map (rollbackRow e)

/-- The first line of the report. -/
def titleRow : CString :=
  closedBy tab
    [padLeft 25 (ascii "Virtual Ip"), padLeft 20 (ascii "Master Ip"), padLeft 10 (ascii "State")]

/-- The report: the title and the lines for each vip, with a rule after each, and a rule more. -/
def report (e : Endian) (table : List Shown) : CString :=
  closedBy newline (closedBy rule1 ([titleRow] :: (table.map (Shown.rows e) ++ [[]])))

/-- What is written for a vip is the lines of what is shown of it. -/
theorem vipStatus_eq (e : Endian) (vip : Vip) :
    vipStatus e vip = closedBy newline (vip.shown.rows e ++ [rule1]) := by
  have hmembers :
      vip.nodeList.flatMap (memberLine e vip.nodeId) =
        closedBy newline (vip.shown.members.map (memberRow e)) := by
    have hline :
        memberLine e vip.nodeId =
          fun n => memberRow e (n.priority, decide (n.nodeid = vip.nodeId), n.nodeid) ++
            [newline] := by
      funext n
      simp [memberLine, memberRow]
    rw [hline, closedBy, Vip.shown, List.map_map, List.flatMap_map]
    rfl
  have hprofiles :
      vip.config.usedProfiles.flatMap profileLine =
        closedBy newline ((vip.config.usedProfiles.map SofiaProfile.name).map profileRow) := by
    have hline : profileLine = fun p => profileRow p.name ++ [newline] := by
      funext p
      simp [profileLine, profileRow]
    rw [hline, closedBy, List.map_map, List.flatMap_map]
    rfl
  have hhead :
      headLine vip.config.address (utilsNodePidFormat e vip.masterId) (virtualIpGetState vip) =
        headRow e vip.shown ++ [newline] := by
    simp [headLine, headRow, Vip.shown, virtualIpGetState]
  by_cases hnone : vip.nodeList = []
  · have hshown : vip.shown.members = [] := by rw [Vip.shown, hnone, List.map_nil]
    rw [vipStatus, Shown.rows, if_pos hnone, if_pos hshown, hhead]
    simp [line1, line2]
  · have hshown : vip.shown.members ≠ [] := fun h => hnone (List.map_eq_nil_iff.mp h)
    have hnames : vip.shown.profiles = vip.config.usedProfiles.map SofiaProfile.name :=
      if_neg hnone
    rw [vipStatus, Shown.rows, if_neg hnone, if_neg hshown, hhead, hmembers, hprofiles, hnames]
    by_cases hrback : vip.state = .rback
    · have hmig : vip.shown.migration = some vip.rollbackNodeId := if_pos ⟨hnone, hrback⟩
      rw [if_pos hrback, hmig]
      simp [line1, line2, rollbackLine, rollbackRow]
    · have hmig : vip.shown.migration = none := if_neg fun h => hrback h.2
      rw [if_neg hrback, hmig]
      simp [line1, line2]

/-- **What `cmd_status` writes** depends on what is shown only. -/
theorem cmdStatus_eq (e : Endian) (hash : List Vip) :
    cmdStatus e hash = report e (hash.map Vip.shown) := by
  have hvips :
      hash.flatMap (vipStatus e) =
        closedBy newline (closedBy rule1 ((hash.map Vip.shown).map (Shown.rows e))) := by
    induction hash with
    | nil => rfl
    | cons vip hash ih =>
      rw [List.flatMap_cons, ih, vipStatus_eq]
      simp
  rw [cmdStatus, hvips, report]
  simp [headLine, titleRow, line1]

/-! ## Marks -/

/-- Made of digits and dots. -/
def Quad (s : CString) : Prop := ∀ c ∈ s, DottedQuad.isDigit c = true ∨ c = DottedQuad.dot

theorem quad_inetNtoa (bytes : List UInt8) : Quad (inetNtoa bytes) :=
  fun _ => DottedQuad.mem_dotted

theorem quad_utilsNodePidFormat (e : Endian) (nodeid : NodeId) :
    Quad (utilsNodePidFormat e nodeid) := by
  rw [utilsNodePidFormat_eq]
  exact quad_inetNtoa _

theorem quad_of_valid {s : CString} (h : utilsIpIsValid s = true) : Quad s := by
  obtain ⟨q, -, rfl, -⟩ := inetPton_of_valid h
  exact quad_inetNtoa q

theorem Quad.not_mem {s : CString} {c : UInt8} (h : Quad s) (hdigit : DottedQuad.isDigit c = false)
    (hdot : c ≠ DottedQuad.dot) : c ∉ s := by
  intro hc
  rcases h c hc with hd | hd
  · rw [hdigit] at hd
    cases hd
  · exact hdot hd

theorem Quad.plain {s : CString} (h : Quad s) : Plain s :=
  ⟨h.not_mem rfl (by decide),
    fun hb => h.not_mem (c := Columns.blank) rfl (by decide) (List.mem_of_head? hb)⟩

theorem stateToString_plain (st : State) : Plain (stateToString st) := by
  cases st <;> decide

theorem signed_plain (z : ℤ) : Plain (signed z) := by
  have hout {c : UInt8} (hm : c ≠ Columns.minus) (hd : DottedQuad.isDigit c = false) :
      c ∉ signed z := by
    intro hc
    rcases Columns.mem_signed hc with h | h
    · exact hm h
    · rw [hd] at h
      cases h
  exact ⟨hout (by decide) rfl,
    fun hb => hout (c := Columns.blank) (by decide) rfl (List.mem_of_head? hb)⟩

theorem Plain.padLeft {s : CString} (h : Plain s) (n : ℕ) : newline ∉ padLeft n s :=
  Columns.not_mem_padLeft (by decide) h.1

theorem tab_not_mem_rule1 : tab ∉ rule1 := by decide

theorem tab_not_mem_rule2 : tab ∉ rule2 := by decide

/-! ## What the lines tell -/

/-- What is shown fits in a table, and has nothing after the members unless there are some. -/
structure Shown.Legible (s : Shown) : Prop where
  address : utilsIpIsValid s.address = true
  masterId : s.masterId < 2 ^ 32
  members : ∀ m ∈ s.members, m.2.2 < 2 ^ 32
  profiles : ∀ name ∈ s.profiles, Plain name
  migration : ∀ nodeid ∈ s.migration, nodeid < 2 ^ 32
  alone : s.members = [] → s.profiles = [] ∧ s.migration = none

theorem Vip.Legible.shown {vip : Vip} (h : vip.Legible) : vip.shown.Legible where
  address := h.address
  masterId := h.masterId
  members := by
    intro m hm
    obtain ⟨n, hn, rfl⟩ := List.mem_map.mp hm
    exact h.members n hn
  profiles := by
    intro name hname
    rw [Vip.shown] at hname
    dsimp only at hname
    split_ifs at hname
    · cases hname
    · obtain ⟨p, hp, rfl⟩ := List.mem_map.mp hname
      exact h.profiles p hp
  migration := by
    intro nodeid hid
    rw [Vip.shown] at hid
    dsimp only at hid
    split_ifs at hid
    · cases hid
      exact h.rollbackNodeId
    · cases hid
  alone := by
    intro hnone
    have hlist : vip.nodeList = [] := List.map_eq_nil_iff.mp hnone
    simp [Vip.shown, hlist]

section Rows

variable {e : Endian} {s t : Shown}

theorem tab_mem_headRow : tab ∈ headRow e s := by
  simp [headRow]

theorem tab_mem_memberRow (m : ℤ × Bool × NodeId) : tab ∈ memberRow e m := by
  simp [memberRow]

theorem tab_mem_profileRow (name : CString) : tab ∈ profileRow name := by
  simp [profileRow]

theorem tab_mem_rollbackRow (nodeid : NodeId) : tab ∈ rollbackRow e nodeid := List.mem_cons_self

/-- What holds of the lines of each kind holds of the lines for a vip. -/
theorem forall_mem_rows {P : CString → Prop} (hrule : P rule2) (hhead : P (headRow e s))
    (hmembers : ∀ m, P (memberRow e m)) (hprofiles : ∀ name ∈ s.profiles, P (profileRow name))
    (hmigration : ∀ nodeid, P (rollbackRow e nodeid)) : ∀ row ∈ s.rows e, P row := by
  have hparts {parts : List (List CString)} (hp : ∀ part ∈ parts, ∀ row ∈ part, P row) :
      ∀ row ∈ closedBy rule2 parts, P row := by
    intro row hrow
    obtain ⟨part, hpart, hmem⟩ := List.mem_flatMap.mp hrow
    rcases List.mem_append.mp hmem with hmem | hmem
    · exact hp part hpart row hmem
    · rwa [List.mem_singleton.mp hmem]
  intro row hrow
  rw [Shown.rows] at hrow
  split_ifs at hrow
  · exact hparts (by simpa using hhead) row hrow
  · rcases List.mem_append.mp hrow with hrow | hrow
    · refine hparts ?_ row hrow
      simp only [List.forall_mem_cons, List.forall_mem_map]
      exact ⟨⟨hhead, by simp⟩, fun m _ => hmembers m, hprofiles, by simp⟩
    · obtain ⟨nodeid, -, rfl⟩ := List.mem_map.mp hrow
      exact hmigration nodeid

theorem rule1_not_mem_rows : rule1 ∉ s.rows e := by
  have hne : ∀ row ∈ s.rows e, row ≠ rule1 :=
    forall_mem_rows (by decide) (fun h => absurd (h ▸ tab_mem_headRow) tab_not_mem_rule1)
      (fun m h => absurd (h ▸ tab_mem_memberRow m) tab_not_mem_rule1)
      (fun name _ h => absurd (h ▸ tab_mem_profileRow name) tab_not_mem_rule1)
      (fun nodeid h => absurd (h ▸ tab_mem_rollbackRow nodeid) tab_not_mem_rule1)
  exact fun h => hne rule1 h rfl

theorem newline_not_mem_headRow (h : s.Legible) : newline ∉ headRow e s := by
  simp only [headRow, Columns.closedBy_cons, Columns.closedBy_nil, List.mem_append, List.mem_cons,
    List.not_mem_nil, or_false, not_or]
  exact ⟨(quad_of_valid h.address).plain.padLeft 25, by decide,
    (quad_utilsNodePidFormat e s.masterId).plain.padLeft 20, by decide,
    (stateToString_plain s.state).padLeft 10, by decide⟩

theorem newline_not_mem_memberRow (m : ℤ × Bool × NodeId) : newline ∉ memberRow e m := by
  have hstar : newline ∉ padLeft 8 (if m.2.1 then ascii "*" else []) := by
    cases m.2.1 <;> decide
  simp only [memberRow, List.mem_append, List.mem_cons, not_or]
  exact ⟨⟨by decide, (signed_plain m.1).padLeft 16⟩, by decide, hstar,
    (quad_utilsNodePidFormat e m.2.2).plain.1⟩

theorem newline_not_mem_rows (h : s.Legible) : ∀ row ∈ s.rows e, newline ∉ row := by
  refine forall_mem_rows (by decide) (newline_not_mem_headRow h) newline_not_mem_memberRow ?_ ?_
  · intro name hname
    simp only [profileRow, List.mem_append, List.mem_cons, not_or]
    exact ⟨by decide, by decide, (h.profiles name hname).padLeft 17⟩
  · intro nodeid
    simp only [rollbackRow, List.mem_append, List.mem_cons, not_or]
    exact ⟨by decide, by decide, (quad_utilsNodePidFormat e nodeid).plain.1⟩

/-! ## Lines are told apart -/

theorem stateToString_inj {a b : State} (h : stateToString a = stateToString b) : a = b := by
  cases a <;> cases b <;> first | rfl | exact absurd h (by decide)

theorem headRow_inj (hs : s.Legible) (ht : t.Legible) (h : headRow e s = headRow e t) :
    s.address = t.address ∧ s.masterId = t.masterId ∧ s.state = t.state := by
  have hcol {s : Shown} (hs : s.Legible) :
      ∀ part ∈ [padLeft 25 s.address, padLeft 20 (utilsNodePidFormat e s.masterId),
        padLeft 10 (stateToString s.state)], tab ∉ part := by
    have hquad {s : CString} {n : ℕ} (hq : Quad s) : tab ∉ padLeft n s :=
      Columns.not_mem_padLeft (by decide) (hq.not_mem rfl (by decide))
    have hstate : tab ∉ padLeft 10 (stateToString s.state) := by
      cases s.state <;> decide
    simp only [List.forall_mem_cons]
    exact ⟨hquad (quad_of_valid hs.address), hquad (quad_utilsNodePidFormat e _), hstate, by simp⟩
  have hcols := Columns.closedBy_inj (hcol hs) (hcol ht) h
  simp only [List.cons.injEq, and_true] at hcols
  obtain ⟨haddress, hmaster, hstate⟩ := hcols
  refine ⟨?_, ?_, ?_⟩
  · exact Columns.padLeft_inj (quad_of_valid hs.address).plain.2
      (quad_of_valid ht.address).plain.2 haddress
  · exact utilsNodePidFormat_inj hs.masterId ht.masterId
      (Columns.padLeft_inj (quad_utilsNodePidFormat e _).plain.2
        (quad_utilsNodePidFormat e _).plain.2 hmaster)
  · exact stateToString_inj
      (Columns.padLeft_inj (stateToString_plain _).2 (stateToString_plain _).2 hstate)

theorem memberRow_inj {m n : ℤ × Bool × NodeId} (hm : m.2.2 < 2 ^ 32) (hn : n.2.2 < 2 ^ 32)
    (h : memberRow e m = memberRow e n) : m = n := by
  have hprio {z : ℤ} : tab ∉ ascii "prio/node" ++ padLeft 16 (signed z) := by
    rw [List.mem_append, not_or]
    refine ⟨by decide, Columns.not_mem_padLeft (by decide) fun hc => ?_⟩
    rcases Columns.mem_signed hc with hc | hc <;> cases hc
  have hstar {b : Bool} : (padLeft 8 (if b then ascii "*" else [])).length = 8 := by
    cases b <;> rfl
  obtain ⟨hfront, hrest⟩ := Columns.append_cons_inj hprio hprio h
  obtain ⟨hown, hid⟩ := List.append_inj hrest (hstar.trans hstar.symm)
  have hz : m.1 = n.1 :=
    Columns.signed_inj
      (Columns.padLeft_inj (signed_plain _).2 (signed_plain _).2 (List.append_cancel_left hfront))
  have hb : m.2.1 = n.2.1 := by
    cases hmb : m.2.1 <;> cases hnb : n.2.1 <;>
      first | rfl | exact absurd hown (by rw [hmb, hnb]; decide)
  exact Prod.ext hz (Prod.ext hb (utilsNodePidFormat_inj hm hn hid))

theorem profileRow_inj {m n : CString} (hm : Plain m) (hn : Plain n)
    (h : profileRow m = profileRow n) : m = n :=
  Columns.padLeft_inj hm.2 hn.2 (List.tail_eq_of_cons_eq (List.append_cancel_left h))

theorem rollbackRow_inj {m n : NodeId} (hm : m < 2 ^ 32) (hn : n < 2 ^ 32)
    (h : rollbackRow e m = rollbackRow e n) : m = n :=
  utilsNodePidFormat_inj hm hn (List.append_cancel_left (List.tail_eq_of_cons_eq h))

/-- The first line is followed by a rule, and then come the members, if there are any. -/
theorem rows_eq (e : Endian) (s : Shown) :
    s.rows e = [headRow e s] ++ rule2 ::
      if s.members = [] then []
      else s.members.map (memberRow e) ++ rule2 ::
        (s.profiles.map profileRow ++ rule2 :: s.migration.toList.map (rollbackRow e)) := by
  by_cases hnone : s.members = []
  · simp [Shown.rows, hnone]
  · simp [Shown.rows, hnone]

/-- The lines for a vip are told apart. -/
theorem rows_inj (hs : s.Legible) (ht : t.Legible) (h : s.rows e = t.rows e) : s = t := by
  have hrule {row : CString} (htab : tab ∈ row) : rule2 ≠ row :=
    fun h => tab_not_mem_rule2 (h ▸ htab)
  have hhead (s : Shown) : rule2 ∉ [headRow e s] := by
    simpa using hrule tab_mem_headRow
  have hmembers (l : List (ℤ × Bool × NodeId)) : rule2 ∉ l.map (memberRow e) := by
    intro hmem
    obtain ⟨m, -, hrow⟩ := List.mem_map.mp hmem
    exact hrule (tab_mem_memberRow m) hrow.symm
  have hprofiles (l : List CString) : rule2 ∉ l.map profileRow := by
    intro hmem
    obtain ⟨name, -, hrow⟩ := List.mem_map.mp hmem
    exact hrule (tab_mem_profileRow name) hrow.symm
  have htoList : ∀ {a b : Option NodeId}, a.toList = b.toList → a = b := by
    rintro (_ | a) (_ | b) hab <;> simp_all
  rw [rows_eq, rows_eq] at h
  obtain ⟨hheads, hrest⟩ := Columns.append_cons_inj (hhead s) (hhead t) h
  obtain ⟨haddress, hmaster, hstate⟩ := headRow_inj hs ht (List.head_eq_of_cons_eq hheads)
  have hlater : s.members = t.members ∧ s.profiles = t.profiles ∧ s.migration = t.migration := by
    split_ifs at hrest with hsnone htnone htnone
    · rw [hsnone, htnone, (hs.alone hsnone).1, (hs.alone hsnone).2, (ht.alone htnone).1,
        (ht.alone htnone).2]
      exact ⟨rfl, rfl, rfl⟩
    · simp at hrest
    · simp at hrest
    · obtain ⟨hm, hrest⟩ := Columns.append_cons_inj (hmembers _) (hmembers _) hrest
      obtain ⟨hp, hr⟩ := Columns.append_cons_inj (hprofiles _) (hprofiles _) hrest
      refine ⟨?_, ?_, htoList ?_⟩
      · exact Columns.map_inj_on (fun m n => memberRow_inj) hs.members ht.members hm
      · exact Columns.map_inj_on (fun m n => profileRow_inj) hs.profiles ht.profiles hp
      · exact Columns.map_inj_on (P := (· < 2 ^ 32)) (fun m n => rollbackRow_inj)
          (fun nodeid hid => hs.migration nodeid (Option.mem_toList.mp hid))
          (fun nodeid hid => ht.migration nodeid (Option.mem_toList.mp hid)) hr
  obtain ⟨hm, hp, hr⟩ := hlater
  cases s
  cases t
  simp only at haddress hmaster hstate hm hp hr
  rw [haddress, hmaster, hstate, hm, hp, hr]

end Rows

/-- **The report is told apart** by what it shows. -/
theorem report_inj {e : Endian} {table table' : List Shown} (hs : ∀ s ∈ table, s.Legible)
    (ht : ∀ s ∈ table', s.Legible) (h : report e table = report e table') : table = table' := by
  have hparts {table : List Shown} (hs : ∀ s ∈ table, s.Legible) :
      ∀ part ∈ [titleRow] :: (table.map (Shown.rows e) ++ [[]]),
        rule1 ∉ part ∧ ∀ row ∈ part, newline ∉ row := by
    simp only [List.forall_mem_cons, List.forall_mem_append, List.forall_mem_map]
    exact ⟨⟨by decide, by decide, by simp⟩,
      fun s hmem => ⟨rule1_not_mem_rows, newline_not_mem_rows (hs s hmem)⟩, by simp⟩
  have hlines {table : List Shown} (hs : ∀ s ∈ table, s.Legible) :
      ∀ row ∈ closedBy rule1 ([titleRow] :: (table.map (Shown.rows e) ++ [[]])),
        newline ∉ row := by
    intro row hrow
    obtain ⟨part, hpart, hmem⟩ := List.mem_flatMap.mp hrow
    rcases List.mem_append.mp hmem with hmem | hmem
    · exact (hparts hs part hpart).2 row hmem
    · rw [List.mem_singleton.mp hmem]
      decide
  have hrows := Columns.closedBy_inj (hlines hs) (hlines ht) h
  have hblocks := Columns.closedBy_inj (fun part hpart => (hparts hs part hpart).1)
    (fun part hpart => (hparts ht part hpart).1) hrows
  exact Columns.map_inj_on (fun s t => rows_inj) hs ht
    (List.append_cancel_right (List.tail_eq_of_cons_eq hblocks))

/-- Machines of different byte order write the same report. -/
theorem report_endian (e e' : Endian) : report e = report e' := by
  have hid : utilsNodePidFormat e = utilsNodePidFormat e' := by
    funext nodeid
    rw [utilsNodePidFormat_eq, utilsNodePidFormat_eq]
  have hmember : memberRow e = memberRow e' := by
    funext m
    rw [memberRow, memberRow, hid]
  have hrollback : rollbackRow e = rollbackRow e' := by
    funext nodeid
    rw [rollbackRow, rollbackRow, hid]
  have hrows : Shown.rows e = Shown.rows e' := by
    funext s
    rw [Shown.rows, Shown.rows, headRow, headRow, hid, hmember, hrollback]
  funext table
  rw [report, report, hrows]

/-- **The report tells what it shows**: on machines of any byte order, two tables of legible vips
have the same report exactly when the same is shown of their vips, in the same order. -/
theorem cmdStatus_tells {e e' : Endian} {hash hash' : List Vip}
    (hl : ∀ vip ∈ hash, vip.Legible) (hl' : ∀ vip ∈ hash', vip.Legible) :
    cmdStatus e hash = cmdStatus e' hash' ↔ hash.map Vip.shown = hash'.map Vip.shown := by
  rw [cmdStatus_eq, cmdStatus_eq, report_endian e' e]
  constructor
  · refine report_inj ?_ ?_
    · exact List.forall_mem_map.mpr fun vip hvip => (hl vip hvip).shown
    · exact List.forall_mem_map.mpr fun vip hvip => (hl' vip hvip).shown
  · intro h
    rw [h]

/-- A vip that nobody has started. -/
def unstarted : Vip :=
  Vip.fresh { plainConfig 5 noProfiles with address := [49, 46, 49, 46, 49, 46, 49] }

/-- A node that serves an address with two profiles on an interface with this hardware address, and
has heard a node of higher priority. -/
def outranked (mac : CString) (state : State) : Vip :=
  { Vip.fresh { plainConfig 10 twoProfiles with mac := mac } with
    state := state, nodeId := 1, masterId := 1, rollbackNodeId := 2
    nodeList := [⟨2, 20⟩, ⟨1, 10⟩] }

theorem unstarted_legible : unstarted.Legible where
  address := rfl
  masterId := by
    show 0 < 2 ^ 32
    decide
  rollbackNodeId := by
    show 0 < 2 ^ 32
    decide
  members := by
    show ∀ n ∈ ([] : List Node), n.nodeid < 2 ^ 32
    decide
  profiles := by
    show ∀ p ∈ (plainConfig 5 noProfiles).usedProfiles, Plain p.name
    decide

theorem outranked_legible (mac : CString) (state : State) : (outranked mac state).Legible where
  address := rfl
  masterId := by
    show 1 < 2 ^ 32
    decide
  rollbackNodeId := by
    show 2 < 2 ^ 32
    decide
  members := by
    show ∀ n ∈ [(⟨2, 20⟩ : Node), ⟨1, 10⟩], n.nodeid < 2 ^ 32
    decide
  profiles := by
    show ∀ p ∈ (plainConfig 10 twoProfiles).usedProfiles, Plain p.name
    decide

/-- A rollback that is pending is seen on another machine too, and the hardware address is not. -/
theorem cmdStatus_tells_outranked :
    cmdStatus .little [unstarted, outranked [48] .rback] =
        cmdStatus .big [unstarted, outranked [49] .rback] ∧
      cmdStatus .little [unstarted, outranked [48] .rback] ≠
        cmdStatus .big [unstarted, outranked [48] .master] := by
  have hl (mac : CString) (state : State) : ∀ vip ∈ [unstarted, outranked mac state],
      vip.Legible := by
    intro vip hvip
    rcases List.mem_pair.mp hvip with rfl | rfl
    exacts [unstarted_legible, outranked_legible mac state]
  constructor
  · exact (cmdStatus_tells (hl _ _) (hl _ _)).mpr rfl
  · intro h
    exact absurd ((cmdStatus_tells (hl _ _) (hl _ _)).mp h) (by decide)

end CpgFailover
