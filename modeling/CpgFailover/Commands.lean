import CpgFailover.Machine
import CpgFailover.StatusReport
import CpgFailover.Unload

/-!
# The commands of the operator

`cpg_function` of `mod_cpg.c` and what it calls: the command line is cut into words, a `status`
writes the report, a `vip` finds the vip by its address and starts or stops it, and a text answers.
How the core cuts a line into words is taken as documented: at blanks, where nothing is quoted or
escaped.

## Main definitions

* `cpgFunction`, `cmdVip`, `Module.findVirtualIp`, `listVips`: the functions of the source
* `Separates`: what is documented of `switch_separate_string`
* `ConsoleStep`, `consoleStep`: the module with an operator who can only type
* `Candid`: the reply to a command says what it has done

## Main results

* `answer_cpgFunction`: what a command can do
* `console_exact`: typing reaches what calling reaches, and the replies are truthful
-/

namespace CpgFailover

open Bytes (Endian)
open Columns (newline blank)
open Quoted (ascii)
open Transition

/-! ## The functions -/

/-- `tolower` of the C locale. -/
def tolower (c : UInt8) : UInt8 := if 65 ≤ c ∧ c ≤ 90 then c + 32 else c

/-- Whether `strcasecmp` returns zero. -/
def strcasecmp (s t : CString) : Bool := s.map tolower = t.map tolower

/-- `usage_string`. -/
def usageString : CString :=
  ascii "USAGE:\n" ++ line2 ++ ascii "cpg help\n" ++ ascii "cpg status\n" ++
    ascii "cpg vip address start/stop\n" ++ line2

/-- `"starting %s\n"`. -/
def startingText (address : CString) : CString := ascii "starting " ++ address ++ [newline]

/-- `"stopping %s\n"`. -/
def stoppingText (address : CString) : CString := ascii "stopping " ++ address ++ [newline]

/-- The status that an API function returns. -/
inductive ApiStatus
  | success
  | memerr
deriving DecidableEq

/-- What a command leaves behind: the status, the text on the stream, and the module. -/
structure Reply where
  status : ApiStatus
  text : CString
  module : Module
deriving DecidableEq

/-- `find_virtual_ip` in the hash of the loaded module: the position of the vip. -/
def Module.findVirtualIp (m : Module) (address : CString) : Option ℕ :=
  m.vips.findIdx? fun v => v.proc.vip.config.address = address

/-- `list_vips`: the completions of an address, in the order of the hash. -/
def listVips (m : Module) : Status × List CString :=
  let found := m.vips.map fun v => v.proc.vip.config.address
  (if found = [] then .failure else .success, found)

/-- `virtual_ip_start`, with its status; `created` is the outcome of `switch_thread_create`. -/
def virtualIpStart (p : Proc) (created : Bool) : Status × Proc :=
  let o : Outcome := ⟨true, true, true, if created then some p.nextThread else none, []⟩
  ((fsmInputCmdStart o p.vip).status, p.cmdStart created)

/-- `virtual_ip_stop`, with its status. The reply follows when the stop has returned. -/
def virtualIpStop (p : Proc) : Status × Proc :=
  ((fsmInputCmdStop ⟨true, true, true, none, []⟩ p.vip).status, p.cmdStop none)

/-- `cmd_vip`, for the word after `vip` and the words after that. -/
def cmdVip (m : Module) (created : Bool) (address : CString) (args : List CString) : Reply :=
  match (m.findVirtualIp address).bind fun k => (m.proc k).map fun p => (k, p) with
  | none => ⟨.success, ascii "Invalid profile " ++ address ++ [newline], m⟩
  | some (k, p) =>
    match args with
    | [command] =>
      if strcasecmp command (ascii "start") then
        ⟨.success, if (virtualIpStart p created).1 = .success then startingText address
          else ascii "Profile " ++ address ++ ascii " already running\n",
          m.setProc k (virtualIpStart p created).2⟩
      else if strcasecmp command (ascii "stop") then
        ⟨.success, if (virtualIpStop p).1 = .success then stoppingText address
          else ascii "Profile " ++ address ++ ascii " not running\n",
          m.setProc k (virtualIpStop p).2⟩
      else ⟨.success, ascii "-ERR Unknown command!\n", m⟩
    | _ => ⟨.success, ascii "Invalid Args!\n", m⟩

/-- `cpg_function`: `none` is a null command, `copied` the outcome of `strdup`. -/
def cpgFunction (separate : CString → List CString) (e : Endian) (m : Module)
    (cmd : Option CString) (copied created : Bool) : Reply :=
  match cmd with
  | none | some [] => ⟨.success, usageString, m⟩
  | some line =>
    if copied = false then ⟨.memerr, [], m⟩
    else
      match separate line with
      | [] => ⟨.success, usageString, m⟩
      | verb :: args =>
        if strcasecmp verb (ascii "status") then
          ⟨.success, cmdStatus e (m.vips.map fun v => v.proc.vip), m⟩
        else if strcasecmp verb (ascii "vip") then
          match args with
          | [] | [] :: _ => ⟨.success, usageString, m⟩
          | address :: args => cmdVip m created address args
        else if strcasecmp verb (ascii "help") then ⟨.success, usageString, m⟩
        else ⟨.success, ascii "Unknown Command [" ++ verb ++ ascii "]\n", m⟩

/-! ## Words -/

/-- A word that needs no quotes. -/
def Word (w : CString) : Prop :=
  w ≠ [] ∧ ∀ c ∈ w, c ≠ blank ∧ c ≠ Quoted.quote ∧ c ≠ 34 ∧ c ≠ 92

theorem word_of_all {w : CString} (hne : w ≠ [])
    (h : w.all (fun c => c ≠ blank ∧ c ≠ Quoted.quote ∧ c ≠ 34 ∧ c ≠ 92) = true) : Word w :=
  ⟨hne, fun c hc => by simpa using List.all_eq_true.mp h c hc⟩

theorem word_vip : Word (ascii "vip") := word_of_all (by decide) (by decide)

theorem word_start : Word (ascii "start") := word_of_all (by decide) (by decide)

theorem word_stop : Word (ascii "stop") := word_of_all (by decide) (by decide)

/-- `switch_separate_string`, as documented: plain words with a blank between them come out again,
up to as many as the array holds. -/
def Separates (separate : CString → List CString) : Prop :=
  ∀ words, (∀ w ∈ words, Word w) → words.length ≤ 1024 →
    separate ([blank].intercalate words) = words

/-! ## What a command can do -/

/-- A text that is no answer to a start or a stop that has been accepted. -/
def Other (text : CString) : Prop := text.take 3 ≠ ascii "sta" ∧ text.take 3 ≠ ascii "sto"

instance (text : CString) : Decidable (Other text) :=
  inferInstanceAs (Decidable (text.take 3 ≠ ascii "sta" ∧ text.take 3 ≠ ascii "sto"))

/-- The replies, by what the command has done. -/
inductive Answer (m : Module) (created : Bool) : Reply → Prop
  | nothing {status : ApiStatus} {text : CString} : Other text → Answer m created ⟨status, text, m⟩
  | starts {k : ℕ} {p : Proc} : m.proc k = some p → p.vip.state = .idle →
      Answer m created
        ⟨.success, startingText p.vip.config.address, m.setProc k (p.cmdStart created)⟩
  | stops {k : ℕ} {p : Proc} : m.proc k = some p → p.vip.state ≠ .idle →
      Answer m created ⟨.success, stoppingText p.vip.config.address, m.setProc k (p.cmdStop none)⟩

section Answers

variable {m : Module} {created : Bool} {k : ℕ} {p : Proc} {a : CString}

theorem other_append {s t : CString} (h : 3 ≤ s.length) (hs : Other s) : Other (s ++ t) := by
  rw [Other, List.take_append_of_le_length h]
  exact hs

theorem virtualIpStart_status : (virtualIpStart p created).1 = .success ↔ p.vip.state = .idle := by
  cases hs : p.vip.state with
  | idle =>
    cases created <;> simp [virtualIpStart, fsmInputCmdStart, fsmDoTransaction, table, goUp, hs]
  | start | backup | master | rback =>
    simp [virtualIpStart, fsmInputCmdStart, fsmDoTransaction, table, error, hs]

theorem virtualIpStop_status : (virtualIpStop p).1 = .success ↔ p.vip.state ≠ .idle := by
  cases hs : p.vip.state with
  | idle => simp [virtualIpStop, fsmInputCmdStop, fsmDoTransaction, table, error, hs]
  | start | backup | master | rback =>
    simp [virtualIpStop, fsmInputCmdStop, fsmDoTransaction, table, goDown, hs]

/-- A process put in its own place changes nothing. -/
theorem Module.setProc_self (h : m.proc k = some p) : m.setProc k p = m := by
  obtain ⟨v, hv, rfl⟩ := Option.map_eq_some_iff.mp h
  have hvips : (m.vips.modify k fun w => { w with proc := v.proc }) = m.vips := by
    apply List.ext_getElem?
    intro j
    rw [List.getElem?_modify]
    split_ifs with hj
    · subst hj
      rw [hv]
      rfl
    · cases m.vips[j]? <;> rfl
  rw [setProc, hvips]

/-- The vip that is found has the address, and is where it is found. -/
theorem Module.findVirtualIp_eq_some (h : m.findVirtualIp a = some k) :
    ∃ p, m.proc k = some p ∧ p.vip.config.address = a := by
  obtain ⟨hk, ha, -⟩ := List.findIdx?_eq_some_iff_getElem.mp h
  refine ⟨m.vips[k].proc, ?_, by simpa using ha⟩
  rw [Module.proc, List.getElem?_eq_getElem hk]
  rfl

theorem other_cmdStatus (e : Endian) (hash : List Vip) : Other (cmdStatus e hash) := by
  rw [cmdStatus, headLine]
  simp only [List.append_assoc]
  exact other_append (by decide) (by decide)

theorem other_profile (s : CString) : Other (ascii "Profile " ++ s) :=
  other_append (by decide) (by decide)

/-- A start of a running vip is refused. -/
theorem answer_start (hp : m.proc k = some p) :
    Answer m created ⟨.success,
      if (virtualIpStart p created).1 = .success then startingText p.vip.config.address
      else ascii "Profile " ++ p.vip.config.address ++ ascii " already running\n",
      m.setProc k (virtualIpStart p created).2⟩ := by
  by_cases hidle : p.vip.state = .idle
  · rw [if_pos (virtualIpStart_status.mpr hidle)]
    exact .starts hp hidle
  · have hsame : m.setProc k (virtualIpStart p created).2 = m := by
      rw [virtualIpStart, Proc.cmdStart_running hidle]
      exact Module.setProc_self hp
    rw [if_neg fun h => hidle (virtualIpStart_status.mp h), hsame, List.append_assoc]
    exact .nothing (other_profile _)

/-- A stop of an idle vip is refused. -/
theorem answer_stop (hp : m.proc k = some p) :
    Answer m created ⟨.success,
      if (virtualIpStop p).1 = .success then stoppingText p.vip.config.address
      else ascii "Profile " ++ p.vip.config.address ++ ascii " not running\n",
      m.setProc k (virtualIpStop p).2⟩ := by
  by_cases hidle : p.vip.state = .idle
  · have hsame : m.setProc k (virtualIpStop p).2 = m := by
      rw [virtualIpStop, Proc.cmdStop_idle hidle]
      exact Module.setProc_self hp
    rw [if_neg fun h => virtualIpStop_status.mp h hidle, hsame, List.append_assoc]
    exact .nothing (other_profile _)
  · rw [if_pos (virtualIpStop_status.mpr hidle)]
    exact .stops hp hidle

theorem answer_cmdVip (address : CString) (args : List CString) :
    Answer m created (cmdVip m created address args) := by
  rw [cmdVip]
  split
  · rw [List.append_assoc]
    exact .nothing (other_append (by decide) (by decide))
  · rename_i k p hfound
    obtain ⟨k', hk', hp⟩ := Option.bind_eq_some_iff.mp hfound
    obtain ⟨q, hq, hkp⟩ := Option.map_eq_some_iff.mp hp
    obtain ⟨rfl, rfl⟩ := Prod.mk.inj hkp
    obtain ⟨q', hq', rfl⟩ := Module.findVirtualIp_eq_some hk'
    obtain rfl := Option.some.inj (hq.symm.trans hq')
    split
    · split
      · exact answer_start hq
      · split
        · exact answer_stop hq
        · exact .nothing (by decide)
    · exact .nothing (by decide)

/-- **What a command can do.** -/
theorem answer_cpgFunction (separate : CString → List CString) (e : Endian) (cmd : Option CString)
    (copied : Bool) : Answer m created (cpgFunction separate e m cmd copied created) := by
  have husage {status : ApiStatus} : Answer m created ⟨status, usageString, m⟩ :=
    .nothing (by decide)
  unfold cpgFunction
  split
  · exact husage
  · exact husage
  · split_ifs
    · exact .nothing (by decide)
    · split
      · exact husage
      · split_ifs
        · exact .nothing (other_cmdStatus e _)
        · split
          · exact husage
          · exact husage
          · exact answer_cmdVip _ _
        · exact husage
        · rw [List.append_assoc]
          exact .nothing (other_append (by decide) (by decide))

/-! ## Replies are truthful -/

/-- The reply says what has become of the module: a vip is starting if the command has started it,
it is stopping if the command has stopped it, and otherwise nothing has changed. -/
structure Candid (m : Module) (created : Bool) (r : Reply) : Prop where
  started (a : CString) : r.text = startingText a ↔ ∃ k p, m.proc k = some p ∧
    p.vip.config.address = a ∧ p.vip.state = .idle ∧ r.module = m.setProc k (p.cmdStart created)
  stopped (a : CString) : r.text = stoppingText a ↔ ∃ k p, m.proc k = some p ∧
    p.vip.config.address = a ∧ p.vip.state ≠ .idle ∧ r.module = m.setProc k (p.cmdStop none)
  otherwise : (∀ a, r.text ≠ startingText a ∧ r.text ≠ stoppingText a) → r.module = m

theorem startingText_inj {a b : CString} (h : startingText a = startingText b) : a = b :=
  List.append_cancel_left (List.append_cancel_right h)

theorem stoppingText_inj {a b : CString} (h : stoppingText a = stoppingText b) : a = b :=
  List.append_cancel_left (List.append_cancel_right h)

theorem startingText_ne_stoppingText (a b : CString) : startingText a ≠ stoppingText b := by
  intro h
  have htake := congrArg (List.take 3) h
  simp [startingText, stoppingText, ascii] at htake

theorem Other.ne_startingText {text : CString} (h : Other text) (a : CString) :
    text ≠ startingText a := by
  rintro rfl
  exact h.1 (by simp [startingText, ascii])

theorem Other.ne_stoppingText {text : CString} (h : Other text) (a : CString) :
    text ≠ stoppingText a := by
  rintro rfl
  exact h.2 (by simp [stoppingText, ascii])

theorem Proc.cmdStart_state (h : p.vip.state = .idle) (created : Bool) :
    (p.cmdStart created).vip.state = .start := by
  cases created with
  | true => rw [cmdStart_created h]
  | false => rw [cmdStart_failed h]

/-- What a vip becomes tells which vip it is. -/
theorem setProc_eq {p' q q' : Proc} {j : ℕ} (hp : m.proc k = some p) (hq : m.proc j = some q)
    (hne : p'.vip.state ≠ p.vip.state) (h : m.setProc k p' = m.setProc j q') :
    k = j ∧ p' = q' := by
  have hat := congrArg (fun m => Module.proc m k) h
  simp only [Module.proc_setProc, if_pos, hp, hq, Option.map_some] at hat
  split_ifs at hat with hkj
  · exact ⟨hkj, Option.some.inj hat⟩
  · exact absurd (congrArg (fun p => p.vip.state) (Option.some.inj hat)) hne

/-- A vip that has changed changes the module. -/
theorem setProc_ne {p' : Proc} (hp : m.proc k = some p) (hne : p'.vip.state ≠ p.vip.state) :
    m ≠ m.setProc k p' := by
  intro h
  have hat : (m.setProc k p').proc k = some p := h ▸ hp
  rw [Module.proc_setProc, if_pos rfl, hp, Option.map_some] at hat
  exact hne (congrArg (fun p => p.vip.state) (Option.some.inj hat))

theorem cmdStart_changes (hs : p.vip.state = .idle) :
    (p.cmdStart created).vip.state ≠ p.vip.state := by
  rw [Proc.cmdStart_state hs, hs]
  decide

theorem cmdStop_changes (hs : p.vip.state ≠ .idle) :
    (p.cmdStop none).vip.state ≠ p.vip.state := by
  rw [Proc.cmdStop_running hs]
  exact hs.symm

/-- **Replies are truthful.** -/
theorem Answer.candid {r : Reply} (h : Answer m created r) : Candid m created r := by
  cases h with
  | nothing ho =>
    refine ⟨fun a => ⟨fun h => absurd h (ho.ne_startingText a), ?_⟩,
      fun a => ⟨fun h => absurd h (ho.ne_stoppingText a), ?_⟩, fun _ => rfl⟩
    · rintro ⟨j, q, hq, -, hs, hm⟩
      exact absurd hm (setProc_ne hq (cmdStart_changes hs))
    · rintro ⟨j, q, hq, -, hs, hm⟩
      exact absurd hm (setProc_ne hq (cmdStop_changes hs))
  | @starts k p hp hs =>
    have hsame {j : ℕ} {q q' : Proc} (hq : m.proc j = some q)
        (hm : m.setProc k (p.cmdStart created) = m.setProc j q') : p = q := by
      obtain ⟨rfl, -⟩ := setProc_eq hp hq (cmdStart_changes hs) hm
      exact Option.some.inj (hp.symm.trans hq)
    refine ⟨fun a => ⟨fun h => ?_, ?_⟩, fun a => ⟨fun h => ?_, ?_⟩, fun h => ?_⟩
    · exact ⟨k, p, hp, startingText_inj h, hs, rfl⟩
    · rintro ⟨j, q, hq, rfl, -, hm⟩
      rw [hsame hq hm]
    · exact absurd h (startingText_ne_stoppingText _ _)
    · rintro ⟨j, q, hq, -, hqs, hm⟩
      exact absurd (hsame hq hm ▸ hs) hqs
    · exact absurd rfl (h p.vip.config.address).1
  | @stops k p hp hs =>
    have hsame {j : ℕ} {q q' : Proc} (hq : m.proc j = some q)
        (hm : m.setProc k (p.cmdStop none) = m.setProc j q') : p = q := by
      obtain ⟨rfl, -⟩ := setProc_eq hp hq (cmdStop_changes hs) hm
      exact Option.some.inj (hp.symm.trans hq)
    refine ⟨fun a => ⟨fun h => ?_, ?_⟩, fun a => ⟨fun h => ?_, ?_⟩, fun h => ?_⟩
    · exact absurd h.symm (startingText_ne_stoppingText _ _)
    · rintro ⟨j, q, hq, -, hqs, hm⟩
      exact absurd (hsame hq hm ▸ hqs) hs
    · exact ⟨k, p, hp, stoppingText_inj h, hs, rfl⟩
    · rintro ⟨j, q, hq, rfl, -, hm⟩
      rw [hsame hq hm]
    · exact absurd rfl (h p.vip.config.address).2

end Answers

/-! ## Typing and calling -/

/-- The steps of a module whose operator has a console: a command, or a step of the module that is
no call of an operator. -/
inductive ConsoleStep
  | command (cmd : Option CString) (copied created : Bool)
  | module (l : RuntimeStep)
deriving DecidableEq

/-- A call of an operator. -/
def RuntimeStep.isCommand : RuntimeStep → Bool
  | .vip _ i => i.isCommand
  | _ => false

/-- One step. -/
def consoleStep (separate : CString → List CString) (e : Endian) (m : Module) :
    ConsoleStep → Option Module
  | .command cmd copied created => some (cpgFunction separate e m cmd copied created).module
  | .module l => if l.isCommand then none else m.step l

section Console

variable {sys : Platform} {doc : List VirtualIpElement} {order : List ConfiguredVip}
  {separate : CString → List CString} {e : Endian} {m m' : Module} {k : ℕ} {p : Proc}
  {created : Bool}

/-- Every vip has the address of its record. -/
def Addressed (order : List ConfiguredVip) (m : Module) : Prop :=
  ∀ k p, m.proc k = some p → ∃ r, order[k]? = some r ∧ p.vip.config.address = r.address

theorem addressed_loadedModule : Addressed order (loadedModule sys order) := by
  intro k p hp
  obtain ⟨r, hr, rfl⟩ := proc_loadedModule hp
  exact ⟨r, hr, rfl⟩

theorem Addressed.setProc (h : Addressed order m) {p' : Proc} (hp : m.proc k = some p)
    (hc : p'.vip.config = p.vip.config) : Addressed order (m.setProc k p') := by
  intro j q hq
  rcases Module.proc_of_setProc hq with ⟨rfl, rfl⟩ | ⟨-, hq⟩
  · rw [hc]
    exact h _ _ hp
  · exact h j q hq

theorem Addressed.step (h : Addressed order m) {l : RuntimeStep} (hs : m.step l = some m') :
    Addressed order m' := by
  cases Module.stepTo_of_step hs with
  | vip hp hstep => exact h.setProc hp (Proc.step_config hstep)
  | @stop k p hk hp =>
    refine h.setProc (m := m) hp ?_
    rcases Proc.cmdStop_vip p (some runtimeThread) with hv | ⟨-, hv⟩ <;> rw [hv]
    rfl
  | @start k p created hk hp =>
    exact h.setProc hp (Proc.step_config (i := .start created) rfl)
  | stays | returns | fails | stopEnds | stopReturns | skip | startEnds => exact h

/-- A vip is found by its address. -/
theorem Addressed.findVirtualIp (h : Addressed order m)
    (hdoc : (doConfig sys (some doc)).1 = .success)
    (horder : order.Perm (doConfig sys (some doc)).2) (hp : m.proc k = some p) :
    m.findVirtualIp p.vip.config.address = some k := by
  obtain ⟨v, hv, rfl⟩ := Option.map_eq_some_iff.mp hp
  obtain ⟨j, hj⟩ : ∃ j, m.findVirtualIp v.proc.vip.config.address = some j := by
    apply Option.isSome_iff_exists.mp
    rw [Module.findVirtualIp, List.findIdx?_isSome, List.any_eq_true]
    exact ⟨v, List.mem_of_getElem? hv, by simp⟩
  obtain ⟨q, hq, haddr⟩ := Module.findVirtualIp_eq_some hj
  obtain ⟨r, hr, hra⟩ := h k _ hp
  obtain ⟨s, hs, hsa⟩ := h j q hq
  -- no two records have the same address, and none is in the hash twice
  have hsame : s = r :=
    (doConfig_hash hdoc).eq_of_address (horder.subset (List.mem_of_getElem? hs))
      (horder.subset (List.mem_of_getElem? hr)) (hsa.symm.trans (haddr.trans hra))
  have hnodup : order.Nodup := horder.nodup_iff.mpr (doConfig_hash hdoc).nodup
  obtain ⟨hjlt, hsj⟩ := List.getElem?_eq_some_iff.mp hs
  obtain ⟨hklt, hrk⟩ := List.getElem?_eq_some_iff.mp hr
  have hjk : j = k := (List.Nodup.getElem_inj_iff hnodup).mp (by rw [hsj, hrk, hsame])
  rw [hj, hjk]

/-- The address of a vip is a word. -/
theorem Addressed.word (h : Addressed order m) (hdoc : (doConfig sys (some doc)).1 = .success)
    (horder : order.Perm (doConfig sys (some doc)).2) (hp : m.proc k = some p) :
    Word p.vip.config.address := by
  obtain ⟨r, hr, ha⟩ := h k p hp
  have hvalid := (doConfig_group hdoc (horder.subset (List.mem_of_getElem? hr))).1
  have hquad := quad_of_valid hvalid
  rw [ha]
  refine ⟨?_, fun c hc => ⟨?_, ?_, ?_, ?_⟩⟩
  · intro hnil
    rw [hnil] at hvalid
    cases hvalid
  all_goals
    rintro rfl
    exact hquad.not_mem rfl (by decide) hc

/-- `vip <address> <verb>`. -/
def vipLine (address verb : CString) : CString := [blank].intercalate [ascii "vip", address, verb]

/-- A line that is typed so comes to `cmd_vip`. -/
theorem cpgFunction_vipLine (hsep : Separates separate) {address verb : CString}
    (ha : Word address) (hv : Word verb) :
    cpgFunction separate e m (some (vipLine address verb)) true created =
      cmdVip m created address [verb] := by
  have hwords : separate (vipLine address verb) = [ascii "vip", address, verb] := by
    refine hsep _ (fun w hw => ?_) (by simp)
    simp only [List.mem_cons, List.not_mem_nil, or_false] at hw
    rcases hw with rfl | rfl | rfl
    · exact word_vip
    · exact ha
    · exact hv
  obtain ⟨c, rest, hline⟩ : ∃ c rest, vipLine address verb = c :: rest := ⟨_, _, rfl⟩
  obtain ⟨b, bs, hbytes⟩ := List.exists_cons_of_ne_nil ha.1
  rw [hline] at hwords ⊢
  rw [hbytes] at hwords ⊢
  simp only [cpgFunction, hwords]
  rw [if_neg (by decide), if_neg (by decide), if_pos (by decide)]

/-- A start that is typed is a start that is called. -/
theorem cpgFunction_start (hsep : Separates separate) (h : Addressed order m)
    (hdoc : (doConfig sys (some doc)).1 = .success)
    (horder : order.Perm (doConfig sys (some doc)).2) (hp : m.proc k = some p) :
    (cpgFunction separate e m (some (vipLine p.vip.config.address (ascii "start"))) true
      created).module = m.setProc k (p.cmdStart created) := by
  rw [cpgFunction_vipLine hsep (h.word hdoc horder hp) word_start, cmdVip,
    h.findVirtualIp hdoc horder hp, Option.bind_some, hp]
  rfl

/-- A stop that is typed is a stop that is called. -/
theorem cpgFunction_stop (hsep : Separates separate) (h : Addressed order m)
    (hdoc : (doConfig sys (some doc)).1 = .success)
    (horder : order.Perm (doConfig sys (some doc)).2) (hp : m.proc k = some p) :
    (cpgFunction separate e m (some (vipLine p.vip.config.address (ascii "stop"))) true
      created).module = m.setProc k (p.cmdStop none) := by
  rw [cpgFunction_vipLine hsep (h.word hdoc horder hp) word_stop, cmdVip,
    h.findVirtualIp hdoc horder hp, Option.bind_some, hp]
  rfl

/-- What a command does can be called. -/
theorem Answer.reaches {r : Reply} (h : Answer m created r) : Reaches Module.step m r.module := by
  cases h with
  | nothing => exact .refl
  | @starts k p hp hs =>
    have hstep : m.step (.vip k (.start created)) = some (m.setProc k (p.cmdStart created)) := by
      simp [Module.step, hp, Proc.step]
    exact ReachesWhen.refl.tail trivial hstep
  | @stops k p hp hs =>
    have hstep : m.step (.vip k .stop) = some (m.setProc k (p.cmdStop none)) := by
      simp [Module.step, hp, Proc.step]
    exact ReachesWhen.refl.tail trivial hstep

/-- What is called can be typed. -/
theorem Addressed.exists_consoleStep (hsep : Separates separate) (h : Addressed order m)
    (hdoc : (doConfig sys (some doc)).1 = .success)
    (horder : order.Perm (doConfig sys (some doc)).2) {l : RuntimeStep}
    (hs : m.step l = some m') : ∃ c, consoleStep separate e m c = some m' := by
  by_cases hl : l.isCommand = true
  · cases l with
    | vip k i =>
      obtain ⟨p, hp, hstep⟩ := Option.bind_eq_some_iff.mp hs
      obtain ⟨p', hp', rfl⟩ := Option.map_eq_some_iff.mp hstep
      cases i with
      | start created =>
        obtain rfl := Option.some.inj hp'
        exact ⟨.command _ true created,
          congrArg some (cpgFunction_start hsep h hdoc horder hp)⟩
      | stop =>
        obtain rfl := Option.some.inj hp'
        exact ⟨.command _ true true, congrArg some (cpgFunction_stop hsep h hdoc horder hp)⟩
      | _ => cases hl
    | _ => cases hl
  · exact ⟨.module l, by rw [consoleStep, if_neg hl, hs]⟩

/-- The completions of an address are the addresses of vips that are found. -/
theorem mem_listVips (a : CString) : a ∈ (listVips m).2 ↔ (m.findVirtualIp a).isSome = true := by
  simp [listVips, Module.findVirtualIp, List.findIdx?_isSome]

/-- Every state that is reached by calling is reached by typing, and has the vips where the records
are. -/
theorem typed_of_called (hsep : Separates separate) (hdoc : (doConfig sys (some doc)).1 = .success)
    (horder : order.Perm (doConfig sys (some doc)).2)
    (h : Reaches Module.step (loadedModule sys order) m) :
    Addressed order m ∧ Reaches (consoleStep separate e) (loadedModule sys order) m := by
  refine h.invariant (I := fun m => Addressed order m ∧
    Reaches (consoleStep separate e) (loadedModule sys order) m)
    ⟨addressed_loadedModule, .refl⟩ fun m l m' _ hI _ hs => ⟨hI.1.step hs, ?_⟩
  obtain ⟨c, hc⟩ := hI.1.exists_consoleStep (e := e) hsep hdoc horder hs
  exact hI.2.tail trivial hc

/-- Every state that is reached by typing is reached by calling. -/
theorem called_of_typed {m₀ : Module} (h : Reaches (consoleStep separate e) m₀ m) :
    Reaches Module.step m₀ m := by
  refine h.invariant .refl fun m c m' _ ih _ hs => ?_
  cases c with
  | command cmd copied created =>
    obtain rfl := Option.some.inj hs
    exact ih.trans (answer_cpgFunction separate e cmd copied).reaches
  | module l =>
    rw [consoleStep] at hs
    split_ifs at hs
    exact ih.tail trivial hs

/-- **The console is exact.** Let `switch_separate_string` do as documented, and the module be
loaded from a document that `do_config` accepts, with profile names that fit. Then with commands
that are typed it comes to the same states as with starts and stops that are called. In each of them
every vip is found by its address, which is among the completions; and the reply to every command
line is truthful. -/
theorem console_exact (hsep : Separates separate) (hdoc : Accepted sys doc)
    (horder : order.Perm (doConfig sys (some doc)).2) :
    (Reaches (consoleStep separate e) (loadedModule sys order) m ↔
      Reaches Module.step (loadedModule sys order) m) ∧
      (Reaches Module.step (loadedModule sys order) m →
        (∀ k p, m.proc k = some p → m.findVirtualIp p.vip.config.address = some k ∧
          p.vip.config.address ∈ (listVips m).2) ∧
        ∀ cmd copied created,
          Candid m created (cpgFunction separate e m cmd copied created)) := by
  refine ⟨⟨called_of_typed, fun h => (typed_of_called hsep hdoc.success horder h).2⟩,
    fun h => ⟨fun k p hp => ?_, fun cmd copied _ => ?_⟩⟩
  · have haddressed := (typed_of_called (e := e) hsep hdoc.success horder h).1
    have hfound := haddressed.findVirtualIp hdoc.success horder hp
    exact ⟨hfound, (mem_listVips _).mpr (by rw [hfound]; rfl)⟩
  · exact (answer_cpgFunction separate e cmd copied).candid

end Console

/-! ## A console -/

/-- A line cut at its blanks. -/
def cutAtBlanks (line : CString) : List CString := (line.splitOn blank).filter (· ≠ [])

theorem separates_cutAtBlanks : Separates cutAtBlanks := by
  intro words hwords _
  rw [cutAtBlanks]
  cases words with
  | nil => rfl
  | cons w ws =>
    rw [List.splitOn_intercalate blank _ (List.cons_ne_nil w ws)]
    · exact List.filter_eq_self.mpr fun v hv => by simpa using (hwords v hv).1
    · exact fun v hv hb => ((hwords v hv).2 blank hb).1 rfl

/-- Two virtual ips, before anybody has started them. -/
def uncalledModule : Module :=
  loadedModule oneInterface (doConfig oneInterface (some [autoloaded, unattended])).2

/-- The operator has called `virtual_ip_start` for the second. -/
def calledModule : Module :=
  (run Module.step uncalledModule [.vip 1 (.start true)]).getD uncalledModule

/-- It could have been typed, both are offered, and a second start of it is refused. -/
theorem console_exact_called :
    Reaches (consoleStep cutAtBlanks .little) uncalledModule calledModule ∧
      (autoloaded.address ∈ (listVips calledModule).2 ∧
        unattended.address ∈ (listVips calledModule).2) ∧
      (cpgFunction cutAtBlanks .little calledModule
        (some (vipLine unattended.address (ascii "start"))) true true).text ≠
          startingText unattended.address := by
  have hdoc : Accepted oneInterface [autoloaded, unattended] := ⟨by decide, by decide⟩
  have hexact := console_exact (e := .little) (m := calledModule) separates_cutAtBlanks hdoc
    (List.Perm.refl _)
  have hcalled : Reaches Module.step uncalledModule calledModule := reaches_getD _
  obtain ⟨hfound, hcandid⟩ := hexact.2 hcalled
  have hlisted (k : ℕ) (a : CString)
      (h : ∃ p ∈ calledModule.proc k, p.vip.config.address = a) :
      a ∈ (listVips calledModule).2 := by
    obtain ⟨p, hp, rfl⟩ := h
    exact (hfound k p hp).2
  refine ⟨hexact.1.mpr hcalled,
    ⟨hlisted 0 _ (by decide +kernel), hlisted 1 _ (by decide +kernel)⟩, fun h => ?_⟩
  obtain ⟨k, p, hp, ha, hidle, -⟩ := ((hcandid _ _ _).started _).mp h
  -- the one with this address is not idle any more
  have hall : ∀ v ∈ calledModule.vips, v.proc.vip.config.address = unattended.address →
      v.proc.vip.state ≠ .idle := by decide +kernel
  obtain ⟨v, hv, rfl⟩ := Option.map_eq_some_iff.mp hp
  exact hall v (List.mem_of_getElem? hv) ha hidle

end CpgFailover
