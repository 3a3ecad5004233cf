import CpgFailover.Lib.Agreed
import CpgFailover.Lib.Bytes
import CpgFailover.Lib.FirstOccurrences
import CpgFailover.Lib.Memory
import CpgFailover.VirtualIp

/-!
# The profile table

`do_config` copies the names of the `<profile>` elements into an array of eight slots inside the
record of the virtual ip. All lookups rely on the names standing in the first slots, with empty
names behind them. The loop counts the slots it has filled. Once they are all filled the next
element, whatever it names, has a terminator written one slot past the end, where the state of the
virtual ip lies.

## Main definitions

* `ProfileElement`: a `<profile>` element
* `TableState`, `profileLoop`: the loop, on the memory from the array on, with every write it makes
* `profileTable`: the array as it is read afterwards
* `met`: the accepted elements, without repeated names
* `Gapless`: no name stands behind an empty slot
* `TableBuilt`: no write outside the array, and the right names and flags in it, without a gap

## Main results

* `profileTable_profileLoop`: the contents of the array
* `gapless_tableOf_iff`: when they are without a gap
* `tableBuilt_iff`: when no write goes past the array either
* `ninth_profile_overruns`: nine profiles
-/

namespace CpgFailover

open Bytes (Endian store load)
open FirstOccurrences (firsts)
open Memory (Mem bytes cstring)

/-! ## The loop -/

/-- `MAX_SOFIA_NAME`. -/
def maxSofiaName : ℕ := 128

/-- `sizeof(sofia_profile_t)`: the name, then `autorecover` and `running`. -/
def slotSize : ℕ := maxSofiaName + 4 + 4

/-- `sizeof(config.profiles)`; the next field of the record is its `state`. -/
def tableSize : ℕ := maxSofiaProfiles * slotSize

/-- The address of `profiles[i].name`, from the start of the array. -/
def nameAddress (i : ℕ) : ℕ := i * slotSize

/-- The address of `profiles[i].autorecover`. -/
def autorecoverAddress (i : ℕ) : ℕ := i * slotSize + maxSofiaName

/-- `"true"`. -/
def trueText : CString := [116, 114, 117, 101]

/-- A `<profile>` element, with its attributes as C strings; a missing one is empty. -/
structure ProfileElement where
  name : CString
  autorecover : CString
  terminated : 0 ∉ name
deriving DecidableEq

/-- What the element asks for. -/
def ProfileElement.profile (p : ProfileElement) : SofiaProfile :=
  ⟨p.name, p.autorecover = trueText⟩

/-- Bytes written from an address on. -/
structure Write where
  address : ℕ
  bytes : List UInt8
deriving DecidableEq, Repr

/-- The memory from `config.profiles` on, the `counter` of the loop, and all that has been
written. -/
structure TableState where
  mem : Mem
  counter : ℕ
  writes : List Write

namespace TableState

/-- The record as it is allocated. -/
def zeroed : TableState := ⟨fun _ => 0, 0, []⟩

/-- Write some bytes. -/
def put (s : TableState) (a : ℕ) (bs : List UInt8) : TableState :=
  { s with mem := Memory.write s.mem a bs, writes := s.writes ++ [⟨a, bs⟩] }

end TableState

/-- `profiles[i].name` as `strcmp` reads it; a name that has overrun its slot is read to its end,
which lies no more than a name of 256 bytes past the array. -/
def slotName (m : Mem) (i : ℕ) : CString := cstring m (nameAddress i) (tableSize + 256)

/-- `profile_name_is_present`. -/
def profileNameIsPresent (m : Mem) (index : ℕ) (name : CString) : Bool :=
  (List.range index).any fun i => slotName m i = name

/-- The rest of the loop body, once the name is known to be valid and new. -/
def TableState.fill (e : Endian) (s : TableState) (p : ProfileElement) : TableState :=
  let s := s.put (autorecoverAddress s.counter) (store e 4 0)
  let s :=
    if p.autorecover = trueText then s.put (autorecoverAddress s.counter) (store e 4 1) else s
  -- `switch_snprintf(name, 256, ...)`, into 128 bytes
  let s := s.put (nameAddress s.counter) (snprintf 256 p.name ++ [0])
  { s with counter := s.counter + 1 }

/-- The profile loop of `do_config`; `accepts` is `utils_profile_control`. -/
def profileLoop (e : Endian) (accepts : CString → Bool) :
    TableState → List ProfileElement → TableState
  | s, [] => s
  | s, p :: ps =>
    if maxSofiaProfiles ≤ s.counter then s.put (nameAddress s.counter) [0]
    else if ¬ accepts p.name then profileLoop e accepts s ps
    else if profileNameIsPresent s.mem s.counter p.name then profileLoop e accepts s ps
    else profileLoop e accepts (s.fill e p) ps

/-- `profiles[i]` as the rest of the module reads it. -/
def slotProfile (e : Endian) (m : Mem) (i : ℕ) : SofiaProfile :=
  ⟨slotName m i, load e (bytes m (autorecoverAddress i) 4) = 1⟩

/-- `config.profiles`. -/
def profileTable (e : Endian) (m : Mem) : List.Vector SofiaProfile maxSofiaProfiles :=
  List.Vector.ofFn fun i => slotProfile e m i

/-! ## What it is for -/

/-- An empty slot. -/
def emptyProfile : SofiaProfile := ⟨[], false⟩

/-- The first eight of a list, in order, and empty slots after its end. -/
def tableOf (l : List SofiaProfile) : List.Vector SofiaProfile maxSofiaProfiles :=
  List.Vector.ofFn fun i => l[i.1]?.getD emptyProfile

/-- The accepted elements, each name at its first accepted occurrence. -/
def met (accepts : CString → Bool) (ps : List ProfileElement) : List ProfileElement :=
  firsts ProfileElement.name (ps.filter fun p => accepts p.name)

/-- Nothing has been written outside the array. -/
def TableState.Inside (s : TableState) : Prop :=
  ∀ w ∈ s.writes, w.address + w.bytes.length ≤ tableSize

/-- No slot behind one without a name has a name. -/
def Gapless (t : List.Vector SofiaProfile maxSofiaProfiles) : Prop :=
  ∀ i j, i < j → (t.get i).name = [] → (t.get j).name = []

/-- The loop has written nothing but the array, and the array holds the first eight distinct
accepted names with their flags, without a gap. -/
structure TableBuilt (e : Endian) (accepts : CString → Bool) (ps : List ProfileElement) :
    Prop where
  inside : (profileLoop e accepts .zeroed ps).Inside
  contents : profileTable e (profileLoop e accepts .zeroed ps).mem =
    tableOf ((met accepts ps).map ProfileElement.profile)
  gapless : Gapless (profileTable e (profileLoop e accepts .zeroed ps).mem)

/-! ## What one element does -/

/-- The slots before the counter hold these elements, and the memory behind them is untouched. -/
structure Filled (e : Endian) (kept : List ProfileElement) (s : TableState) : Prop where
  counter : s.counter = kept.length
  size : kept.length ≤ maxSofiaProfiles
  name : ∀ i p, kept[i]? = some p →
    bytes s.mem (nameAddress i) (p.name.length + 1) = p.name ++ [0]
  fits : ∀ p ∈ kept, p.name.length < maxSofiaName
  autorecover : ∀ i p, kept[i]? = some p →
    bytes s.mem (autorecoverAddress i) 4 = store e 4 (if p.autorecover = trueText then 1 else 0)
  rest : ∀ x, nameAddress kept.length ≤ x → s.mem x = 0

section Filled

variable {e : Endian} {kept : List ProfileElement} {s : TableState}

theorem filled_zeroed (e : Endian) : Filled e [] .zeroed where
  counter := rfl
  size := Nat.zero_le _
  name i p h := by simp at h
  fits p h := by simp at h
  autorecover i p h := by simp at h
  rest _ _ := rfl

/-- It is a fact about the memory and the counter. -/
theorem Filled.congr (h : Filled e kept s) {s' : TableState} (hmem : s'.mem = s.mem)
    (hcounter : s'.counter = s.counter) : Filled e kept s' := by
  constructor
  · rw [hcounter, h.counter]
  · exact h.size
  · rw [hmem]
    exact h.name
  · exact h.fits
  · rw [hmem]
    exact h.autorecover
  · rw [hmem]
    exact h.rest

theorem Filled.slotName (h : Filled e kept s) {i : ℕ} {p : ProfileElement}
    (hp : kept[i]? = some p) : slotName s.mem i = p.name := by
  have hlt := h.fits p (List.mem_of_getElem? hp)
  apply Memory.cstring_of_bytes (h.name i p hp) p.terminated
  simp only [maxSofiaName, tableSize, maxSofiaProfiles, slotSize] at *
  omega

/-- A slot that has been filled. -/
theorem Filled.slotProfile_kept (h : Filled e kept s) {i : ℕ} {p : ProfileElement}
    (hp : kept[i]? = some p) : slotProfile e s.mem i = p.profile := by
  rw [slotProfile, h.slotName hp, h.autorecover i p hp]
  by_cases ha : p.autorecover = trueText
  · simp [ha, ProfileElement.profile, Bytes.load_store e (n := 4) (x := 1) (by decide)]
  · simp [ha, ProfileElement.profile, Bytes.load_store e (n := 4) (x := 0) (by decide)]

/-- A slot that has not. -/
theorem Filled.slotProfile_rest (h : Filled e kept s) {i : ℕ} (hi : kept.length ≤ i) :
    slotProfile e s.mem i = emptyProfile := by
  have hzero (k : ℕ) : s.mem (nameAddress i + k) = 0 := by
    apply h.rest
    exact le_trans (Nat.mul_le_mul_right _ hi) (Nat.le_add_right _ _)
  have hname : CpgFailover.slotName s.mem i = [] := Memory.cstring_of_zero (hzero 0) _
  have hflag : bytes s.mem (autorecoverAddress i) 4 = store e 4 0 := by
    rw [Memory.bytes_of_zero]
    · cases e <;> rfl
    · intro k _
      rw [autorecoverAddress, Nat.add_assoc]
      exact hzero _
  rw [slotProfile, hname, hflag, Bytes.load_store e (by decide)]
  rfl

/-- The duplicate check sees the names kept so far. -/
theorem Filled.profileNameIsPresent (h : Filled e kept s) (name : CString) :
    profileNameIsPresent s.mem s.counter name = true ↔
      name ∈ kept.map ProfileElement.name := by
  rw [CpgFailover.profileNameIsPresent, List.any_eq_true, h.counter, List.mem_map]
  constructor
  · rintro ⟨i, hi, hname⟩
    have hi : i < kept.length := List.mem_range.mp hi
    have hget : kept[i]? = some kept[i] := List.getElem?_eq_getElem hi
    rw [h.slotName hget] at hname
    exact ⟨kept[i], List.getElem_mem hi, of_decide_eq_true hname⟩
  · rintro ⟨p, hp, rfl⟩
    obtain ⟨i, hi⟩ := List.mem_iff_getElem?.mp hp
    refine ⟨i, List.mem_range.mpr (List.getElem?_eq_some_iff.mp hi).1, ?_⟩
    rw [h.slotName hi]
    exact decide_eq_true rfl

end Filled

/-! ## Filling a slot -/

section Fill

variable {e : Endian} {kept : List ProfileElement} {s : TableState} {p : ProfileElement}

theorem snprintf_name (h : p.name.length < maxSofiaName) : snprintf 256 p.name = p.name := by
  apply List.take_of_length_le
  simp only [maxSofiaName] at h
  omega

@[simp] theorem fill_counter : (s.fill e p).counter = s.counter + 1 := by
  simp only [TableState.fill, TableState.put]
  split <;> rfl

/-- Outside the slot nothing changes. -/
theorem fill_outside (hp : p.name.length < maxSofiaName) {x : ℕ}
    (hx : x < nameAddress s.counter ∨ nameAddress (s.counter + 1) ≤ x) :
    (s.fill e p).mem x = s.mem x := by
  simp only [nameAddress, slotSize, maxSofiaName] at hx hp
  have hflag (m : Mem) (k : ℕ) :
      Memory.write m (autorecoverAddress s.counter) (store e 4 k) x = m x := by
    apply Memory.write_of_disjoint
    simp only [autorecoverAddress, slotSize, maxSofiaName, Bytes.length_store]
    omega
  have hname (m : Mem) :
      Memory.write m (nameAddress s.counter) (snprintf 256 p.name ++ [0]) x = m x := by
    apply Memory.write_of_disjoint
    rw [snprintf_name hp, List.length_append, List.length_singleton]
    simp only [nameAddress, slotSize, maxSofiaName]
    omega
  simp only [TableState.fill, TableState.put]
  split <;> simp only [hname, hflag]

theorem fill_name (hp : p.name.length < maxSofiaName) :
    bytes (s.fill e p).mem (nameAddress s.counter) (p.name.length + 1) = p.name ++ [0] := by
  have hself (m : Mem) := Memory.bytes_write_self m (nameAddress s.counter) (p.name ++ [0])
  rw [List.length_append, List.length_singleton] at hself
  simp only [TableState.fill, TableState.put, snprintf_name hp]
  split <;> exact hself _

theorem fill_autorecover (hp : p.name.length < maxSofiaName) :
    bytes (s.fill e p).mem (autorecoverAddress s.counter) 4 =
      store e 4 (if p.autorecover = trueText then 1 else 0) := by
  have hname (m : Mem) :
      bytes (Memory.write m (nameAddress s.counter) (p.name ++ [0]))
        (autorecoverAddress s.counter) 4 = bytes m (autorecoverAddress s.counter) 4 := by
    apply Memory.bytes_write_of_disjoint
    rw [List.length_append, List.length_singleton]
    simp only [autorecoverAddress, nameAddress, maxSofiaName] at *
    omega
  have hflag (m : Mem) (k : ℕ) :
      bytes (Memory.write m (autorecoverAddress s.counter) (store e 4 k))
        (autorecoverAddress s.counter) 4 = store e 4 k := by
    have hself := Memory.bytes_write_self m (autorecoverAddress s.counter) (store e 4 k)
    rwa [Bytes.length_store] at hself
  by_cases ha : p.autorecover = trueText <;>
    simp only [TableState.fill, TableState.put, snprintf_name hp, ha, if_true, if_false, hname,
      hflag]

/-- The slots filled before lie before this one. -/
theorem fill_old (hp : p.name.length < maxSofiaName) {i : ℕ} (hi : i < s.counter) {a n : ℕ}
    (ha : a + n ≤ nameAddress i + slotSize) :
    bytes (s.fill e p).mem a n = bytes s.mem a n := by
  apply Memory.bytes_congr
  intro k hk
  apply fill_outside hp
  left
  have hle : (i + 1) * slotSize ≤ s.counter * slotSize := Nat.mul_le_mul_right _ hi
  rw [Nat.add_mul, Nat.one_mul] at hle
  simp only [nameAddress] at *
  omega

/-- **A new name** takes the next slot. -/
theorem Filled.fill (h : Filled e kept s) (hsize : kept.length < maxSofiaProfiles)
    (hp : p.name.length < maxSofiaName) : Filled e (kept ++ [p]) (s.fill e p) := by
  have hlength : (kept ++ [p]).length = s.counter + 1 := by
    rw [List.length_append, List.length_singleton, h.counter]
  have hcases {i : ℕ} {q : ProfileElement} (hq : (kept ++ [p])[i]? = some q) :
      (i < s.counter ∧ kept[i]? = some q) ∨ (i = s.counter ∧ q = p) := by
    rw [h.counter]
    rcases Agreed.getElem?_snoc_cases hq with hq | hq
    · exact Or.inl ⟨(List.getElem?_eq_some_iff.mp hq).1, hq⟩
    · exact Or.inr hq
  constructor
  · rw [fill_counter, hlength]
  · rw [List.length_append]
    exact hsize
  · intro i q hq
    rcases hcases hq with ⟨hi, hq⟩ | ⟨rfl, rfl⟩
    · have hfit := h.fits q (List.mem_of_getElem? hq)
      rw [fill_old hp hi, h.name i q hq]
      simp only [slotSize, maxSofiaName] at *
      omega
    · exact fill_name hp
  · intro q hq
    rcases List.mem_append.mp hq with hq | hq
    · exact h.fits q hq
    · obtain rfl := List.mem_singleton.mp hq
      exact hp
  · intro i q hq
    rcases hcases hq with ⟨hi, hq⟩ | ⟨rfl, rfl⟩
    · rw [fill_old hp hi, h.autorecover i q hq]
      simp only [autorecoverAddress, nameAddress, slotSize]
      omega
    · exact fill_autorecover hp
  · intro x hx
    rw [hlength] at hx
    rw [fill_outside hp (Or.inr hx)]
    apply h.rest
    rw [← h.counter]
    exact le_trans (Nat.mul_le_mul_right _ (Nat.le_succ _)) hx

/-- A slot before the end is written without leaving the array. -/
theorem inside_fill (hsize : s.counter < maxSofiaProfiles) (hp : p.name.length < maxSofiaName) :
    (s.fill e p).Inside ↔ s.Inside := by
  have hroom : nameAddress s.counter + slotSize ≤ tableSize := by
    have hle := Nat.mul_le_mul_right slotSize (Nat.succ_le_of_lt hsize)
    rwa [Nat.succ_eq_add_one, Nat.add_mul, Nat.one_mul] at hle
  have hput {t : TableState} {a : ℕ} {bs : List UInt8} (h : a + bs.length ≤ tableSize) :
      (t.put a bs).Inside ↔ t.Inside := by
    simp only [TableState.Inside, TableState.put, List.mem_append, List.mem_singleton]
    constructor
    · intro ht w hw
      exact ht w (Or.inl hw)
    · rintro ht w (hw | rfl)
      · exact ht w hw
      · exact h
  have hflag (k : ℕ) :
      autorecoverAddress s.counter + (store e 4 k).length ≤ tableSize := by
    simp only [autorecoverAddress, nameAddress, slotSize, Bytes.length_store] at *
    omega
  have hname : nameAddress s.counter + (snprintf 256 p.name ++ [0]).length ≤ tableSize := by
    rw [snprintf_name hp, List.length_append, List.length_singleton]
    simp only [slotSize] at *
    omega
  by_cases ha : p.autorecover = trueText
  · simp only [TableState.fill, ha, if_true]
    exact ((hput hname).trans (hput (hflag 1))).trans (hput (hflag 0))
  · simp only [TableState.fill, ha, if_false]
    exact (hput hname).trans (hput (hflag 0))

end Fill

/-! ## The whole loop -/

section Loop

variable {e : Endian} {accepts : CString → Bool} {done : List ProfileElement} {s : TableState}

theorem met_grows (accepts : CString → Bool) (ps ps' : List ProfileElement) :
    met accepts ps <+: met accepts (ps ++ ps') :=
  FirstOccurrences.firsts_filter_grows _ ps ps'

/-- **One element**: it ends the loop when the slots are used up, and is taken in otherwise. -/
theorem profileLoop_cons (h : Filled e (met accepts done) s) {p : ProfileElement}
    (hp : p.name.length < maxSofiaName) (ps : List ProfileElement) :
    ((met accepts done).length = maxSofiaProfiles ∧
      profileLoop e accepts s (p :: ps) = s.put (nameAddress s.counter) [0]) ∨
    ((met accepts done).length < maxSofiaProfiles ∧
      ∃ s', profileLoop e accepts s (p :: ps) = profileLoop e accepts s' ps ∧
        Filled e (met accepts (done ++ [p])) s' ∧ (s'.Inside ↔ s.Inside)) := by
  rw [profileLoop]
  by_cases hfull : maxSofiaProfiles ≤ s.counter
  · left
    rw [if_pos hfull]
    exact ⟨le_antisymm h.size (h.counter ▸ hfull), rfl⟩
  right
  have hlt : (met accepts done).length < maxSofiaProfiles := by
    rw [← h.counter]
    exact Nat.lt_of_not_le hfull
  refine ⟨hlt, ?_⟩
  rw [if_neg hfull]
  by_cases ha : accepts p.name = true
  · rw [if_neg (not_not.mpr ha)]
    by_cases hmem : p.name ∈ (met accepts done).map ProfileElement.name
    · have hold : met accepts (done ++ [p]) = met accepts done :=
        FirstOccurrences.firsts_filter_concat_old fun _ => hmem
      rw [if_pos ((h.profileNameIsPresent p.name).mpr hmem), hold]
      exact ⟨s, rfl, h, Iff.rfl⟩
    · have hnew : met accepts (done ++ [p]) = met accepts done ++ [p] :=
        FirstOccurrences.firsts_filter_concat_new ha hmem
      rw [if_neg (fun hn => hmem ((h.profileNameIsPresent p.name).mp hn)), hnew]
      exact ⟨s.fill e p, rfl, h.fill hlt hp, inside_fill (Nat.lt_of_not_le hfull) hp⟩
  · have hold : met accepts (done ++ [p]) = met accepts done :=
      FirstOccurrences.firsts_filter_concat_old fun hp => absurd hp ha
    rw [if_pos ha, hold]
    exact ⟨s, rfl, h, Iff.rfl⟩

/-- The array after the loop. -/
theorem filled_profileLoop (h : Filled e (met accepts done) s) {ps : List ProfileElement}
    (hps : ∀ p ∈ ps, p.name.length < maxSofiaName) :
    Filled e ((met accepts (done ++ ps)).take maxSofiaProfiles) (profileLoop e accepts s ps) := by
  induction ps generalizing done s with
  | nil =>
    rw [List.append_nil, List.take_of_length_le h.size]
    exact h
  | cons p ps ih =>
    have hp := hps p List.mem_cons_self
    rcases profileLoop_cons h hp ps with ⟨hsize, hloop⟩ | ⟨-, s', hloop, h', -⟩
    · -- the terminator behind the array is written where there is one already
      have hmem : (s.put (nameAddress s.counter) [0]).mem = s.mem := by
        apply funext
        intro x
        by_cases hx : x = nameAddress s.counter
        · have hwrite : (s.put (nameAddress s.counter) [0]).mem (nameAddress s.counter + 0) = 0 :=
            Memory.write_of_lt s.mem Nat.zero_lt_one
          rw [Nat.add_zero] at hwrite
          rw [hx, hwrite, h.rest _ (by rw [h.counter])]
        · apply Memory.write_of_disjoint
          rw [List.length_singleton]
          omega
      obtain ⟨l, hl⟩ := met_grows accepts done (p :: ps)
      have htake : (met accepts (done ++ p :: ps)).take maxSofiaProfiles = met accepts done := by
        rw [← hl, ← hsize, List.take_left]
      rw [htake, hloop]
      exact h.congr hmem rfl
    · rw [hloop, List.append_cons]
      exact ih h' fun q hq => hps q (List.mem_cons_of_mem _ hq)

/-- The loop leaves the array when it finds it full. -/
theorem inside_profileLoop (h : Filled e (met accepts done) s) {ps : List ProfileElement}
    (hps : ∀ p ∈ ps, p.name.length < maxSofiaName) :
    (profileLoop e accepts s ps).Inside ↔
      s.Inside ∧ (ps ≠ [] → (met accepts (done ++ ps.dropLast)).length < maxSofiaProfiles) := by
  induction ps generalizing done s with
  | nil =>
    rw [profileLoop]
    exact ⟨fun hs => ⟨hs, fun hne => absurd rfl hne⟩, fun hs => hs.1⟩
  | cons p ps ih =>
    have hp := hps p List.mem_cons_self
    rcases profileLoop_cons h hp ps with ⟨hsize, hloop⟩ | ⟨hlt, s', hloop, h', hs'⟩
    · rw [hloop]
      constructor
      · intro hin
        have hlast := hin ⟨nameAddress s.counter, [0]⟩
          (List.mem_append_right _ List.mem_cons_self)
        simp only [h.counter, hsize, List.length_singleton] at hlast
        exact absurd hlast (by decide)
      · rintro ⟨-, hmet⟩
        have hle := (met_grows accepts done (p :: ps).dropLast).length_le
        have := hmet (List.cons_ne_nil p ps)
        omega
    · rw [hloop, ih h' fun q hq => hps q (List.mem_cons_of_mem _ hq), hs']
      cases ps with
      | nil => simp [hlt]
      | cons q qs =>
        rw [List.dropLast_cons_cons, List.append_cons]
        simp

/-- From the record as it is allocated. -/
theorem inside_profileLoop_zeroed {ps : List ProfileElement}
    (hps : ∀ p ∈ ps, p.name.length < maxSofiaName) :
    (profileLoop e accepts .zeroed ps).Inside ↔
      (ps ≠ [] → (met accepts ps.dropLast).length < maxSofiaProfiles) := by
  have hzeroed : Filled e (met accepts []) .zeroed := filled_zeroed e
  have hinside : TableState.zeroed.Inside := fun w hw => absurd hw List.not_mem_nil
  rw [inside_profileLoop hzeroed hps, and_iff_right hinside, List.nil_append]

end Loop

/-- **The contents of the array** are always the first eight distinct accepted names, in order, with
the flag of the first accepted occurrence, and empty slots behind them. -/
theorem profileTable_profileLoop (e : Endian) (accepts : CString → Bool)
    {ps : List ProfileElement} (hps : ∀ p ∈ ps, p.name.length < maxSofiaName) :
    profileTable e (profileLoop e accepts .zeroed ps).mem =
      tableOf ((met accepts ps).map ProfileElement.profile) := by
  have hzeroed : Filled e (met accepts []) .zeroed := filled_zeroed e
  have h := filled_profileLoop hzeroed hps
  rw [List.nil_append] at h
  apply List.Vector.ext
  intro i
  rw [profileTable, tableOf, List.Vector.get_ofFn, List.Vector.get_ofFn]
  have hget : ((met accepts ps).take maxSofiaProfiles)[i.1]? = (met accepts ps)[i.1]? :=
    List.getElem?_take_of_lt i.2
  rw [List.getElem?_map, ← hget]
  cases hkept : ((met accepts ps).take maxSofiaProfiles)[i.1]? with
  | none => exact h.slotProfile_rest (List.getElem?_eq_none_iff.mp hkept)
  | some p => exact h.slotProfile_kept hkept

/-! ## Gaps -/

section Gaps

variable {accepts : CString → Bool} {ps : List ProfileElement}

theorem name_tableOf (l : List ProfileElement) (i : Fin maxSofiaProfiles) :
    ((tableOf (l.map ProfileElement.profile)).get i).name =
      (l.map ProfileElement.name)[i.1]?.getD [] := by
  rw [tableOf, List.Vector.get_ofFn, List.getElem?_map, List.getElem?_map]
  cases l[i.1]? <;> rfl

/-- A table of elements with different names has no gap if and only if the empty name is not
followed by another. -/
theorem gapless_tableOf_iff {l : List ProfileElement} (hd : (l.map ProfileElement.name).Nodup)
    (hl : l.length ≤ maxSofiaProfiles) : Gapless (tableOf (l.map ProfileElement.profile)) ↔
      [] ∉ (l.map ProfileElement.name).dropLast := by
  simp only [Gapless, name_tableOf]
  rw [← List.length_map ProfileElement.name] at hl
  generalize l.map ProfileElement.name = names at hd hl
  constructor
  · intro h hmem
    obtain ⟨i, hi, hempty⟩ := List.mem_iff_getElem.mp hmem
    rw [List.length_dropLast] at hi
    rw [List.getElem_dropLast] at hempty
    -- the slot that follows has a name of its own
    have hlt : i + 1 < names.length := by omega
    have hnext : names[i]?.getD [] = [] → names[i + 1]?.getD [] = [] :=
      h ⟨i, by omega⟩ ⟨i + 1, by omega⟩ (Fin.mk_lt_mk.mpr (Nat.lt_succ_self i))
    rw [List.getElem?_eq_getElem (Nat.lt_of_succ_lt hlt), List.getElem?_eq_getElem hlt] at hnext
    have hsame := hd.getElem_inj_iff.mp ((hnext hempty).trans hempty.symm)
    omega
  · intro h i j hij hempty
    by_cases hj : j.1 < names.length
    · have hi : i.1 < names.dropLast.length := by
        rw [List.length_dropLast]
        have : i.1 < j.1 := hij
        omega
      rw [List.getElem?_eq_getElem (by omega), Option.getD_some] at hempty
      refine absurd (List.mem_iff_getElem.mpr ⟨i.1, hi, ?_⟩) h
      rw [List.getElem_dropLast]
      exact hempty
    · rw [List.getElem?_eq_none (Nat.le_of_not_lt hj), Option.getD_none]

/-- One more element is at most one more name. -/
theorem length_met_concat (accepts : CString → Bool) (ps : List ProfileElement)
    (p : ProfileElement) : (met accepts (ps ++ [p])).length ≤ (met accepts ps).length + 1 := by
  by_cases hnew : accepts p.name = true ∧ p.name ∉ (met accepts ps).map ProfileElement.name
  · have h : met accepts (ps ++ [p]) = met accepts ps ++ [p] :=
      FirstOccurrences.firsts_filter_concat_new hnew.1 hnew.2
    rw [h, List.length_append, List.length_singleton]
  · have h : met accepts (ps ++ [p]) = met accepts ps :=
      FirstOccurrences.firsts_filter_concat_old fun ha =>
        by_contra fun hmem => hnew ⟨ha, hmem⟩
    rw [h]
    exact Nat.le_succ _

end Gaps

/-- **Profile table construction.** The array always gets the first eight distinct accepted names.
No write goes past it and there is no gap in it if and only if fewer than eight distinct accepted
names come before the last element, and the empty one is not followed by another: otherwise the
element that follows the eighth has a terminator written to the state of the virtual ip, or the name
that follows the empty one is behind it. -/
theorem tableBuilt_iff (e : Endian) (accepts : CString → Bool) {ps : List ProfileElement}
    (hps : ∀ p ∈ ps, p.name.length < maxSofiaName) :
    TableBuilt e accepts ps ↔ (met accepts ps.dropLast).length < maxSofiaProfiles ∧
      [] ∉ ((met accepts ps).map ProfileElement.name).dropLast := by
  have hcontents := profileTable_profileLoop e accepts hps
  have hinside : (profileLoop e accepts .zeroed ps).Inside ↔
      (met accepts ps.dropLast).length < maxSofiaProfiles := by
    rw [inside_profileLoop_zeroed hps]
    cases ps with
    | nil => simp [met, maxSofiaProfiles]
    | cons p ps => simp
  have hsize (h : (met accepts ps.dropLast).length < maxSofiaProfiles) :
      (met accepts ps).length ≤ maxSofiaProfiles := by
    rcases List.eq_nil_or_concat ps with rfl | ⟨init, p, rfl⟩
    · exact Nat.zero_le _
    · rw [List.concat_eq_append] at h ⊢
      rw [List.dropLast_concat] at h
      exact (length_met_concat accepts init p).trans h
  have hgapless (h : (met accepts ps.dropLast).length < maxSofiaProfiles) :
      Gapless (profileTable e (profileLoop e accepts .zeroed ps).mem) ↔
        [] ∉ ((met accepts ps).map ProfileElement.name).dropLast := by
    rw [hcontents]
    exact gapless_tableOf_iff (FirstOccurrences.nodup_firsts _) (hsize h)
  constructor
  · intro hb
    have hfew := hinside.mp hb.inside
    exact ⟨hfew, (hgapless hfew).mp hb.gapless⟩
  · rintro ⟨hfew, hlast⟩
    exact ⟨hinside.mpr hfew, hcontents, (hgapless hfew).mpr hlast⟩

/-- An element with a name of one letter. -/
def lettered (k : Fin 26) : ProfileElement where
  name := [97 + UInt8.ofNat k]
  autorecover := trueText
  terminated := by
    revert k
    decide

/-- Eight profiles are as many as there are slots. -/
theorem tableBuilt_eight :
    TableBuilt .little (fun _ => true) ((List.finRange 26).take 8 |>.map lettered) :=
  (tableBuilt_iff .little _ (by decide)).mpr ⟨by decide, by decide⟩

/-- **Nine profiles**: the ninth has the first byte of the state of the virtual ip written. -/
theorem ninth_profile_overruns : ¬ ∀ (e : Endian) (accepts : CString → Bool)
    (ps : List ProfileElement), (∀ p ∈ ps, p.name.length < maxSofiaName) →
      TableBuilt e accepts ps := by
  intro h
  have hfits : ∀ p ∈ ((List.finRange 26).take 9).map lettered, p.name.length < maxSofiaName := by
    decide
  have hin := (h .little (fun _ => true) (((List.finRange 26).take 9).map lettered) hfits).inside
  rw [inside_profileLoop_zeroed hfits] at hin
  exact absurd (hin (by decide)) (by decide)

end CpgFailover
