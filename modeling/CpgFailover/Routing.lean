import CpgFailover.DoConfig

/-!
# Routing of the statements

A statement from sofia names a profile, and `event_handler` multicasts it in the group of the
virtual ip that lists the profile. It takes the first one that it comes upon in the hash. Within one
element `do_config` passes over a name that it has seen, but it never compares the names of two
elements: where two virtual ips list a profile, the order of the hash decides which of the two
groups gets the statement, and the other gets none.

## Main definitions

* `listsProfile`, `findVirtualIpFromProfile`, `virtualIpProfileIndex`: the lookups by name
* `eventMulticasts`: what `event_handler` multicasts, and in which group
* `ConfiguredVip.Names`: a virtual ip has the profile in one of its slots
* `RoutesUniquely`: whatever the order of the hash, the one virtual ip with the profile is found
* `Unshared`, `NamesDistinct`: what this asks of the document

## Main results

* `routesUniquely_iff`: when every statement is multicast wherever it is needed
* `shared_profile_misrouted`: two virtual ips with one profile
-/

namespace CpgFailover

open Bytes (Endian)

/-! ## The lookups -/

/-- The inner loop of `find_virtual_ip_from_profile`: it stops at the first empty name. -/
def listsProfile (profileName : CString) : List SofiaProfile → Bool
  | [] => false
  | p :: ps =>
    if p.name = [] then false
    else if p.name = profileName then true
    else listsProfile profileName ps

/-- `find_virtual_ip_from_profile`, where the hash is gone through in this order. -/
def findVirtualIpFromProfile (e : Endian) (order : List ConfiguredVip) (profileName : CString) :
    Option ConfiguredVip :=
  order.find? fun r => listsProfile profileName (profileTable e r.profiles).toList

/-- The loop of `virtual_ip_profile_index`, from the `i`-th slot on. -/
def profileIndexLoop (profileName : CString) : ℤ → List SofiaProfile → ℤ
  | _, [] => -2
  | i, p :: ps =>
    if p.name = [] then -1
    else if p.name = profileName then i
    else profileIndexLoop profileName (i + 1) ps

/-- `virtual_ip_profile_index`. -/
def virtualIpProfileIndex (t : List.Vector SofiaProfile maxSofiaProfiles)
    (profileName : CString) : ℤ :=
  profileIndexLoop profileName 0 t.toList

/-- `event_handler`: what it multicasts, and to which group. -/
def eventMulticasts (e : Endian) (order : List ConfiguredVip) (profileName sql : CString) :
    List (CpgName × Msg) :=
  match findVirtualIpFromProfile e order profileName with
  | some r => [(r.groupName, .sql profileName sql)]
  | none => []

/-- The names in the slots of a table. -/
def slotNames (t : List.Vector SofiaProfile maxSofiaProfiles) : List CString :=
  t.toList.map SofiaProfile.name

/-- The virtual ip has the profile in one of its slots. -/
def ConfiguredVip.Names (e : Endian) (r : ConfiguredVip) (name : CString) : Prop :=
  name ≠ [] ∧ name ∈ slotNames (profileTable e r.profiles)

/-- A lookup sees the names before the first empty one. -/
theorem listsProfile_iff {name : CString} {ps : List SofiaProfile} :
    listsProfile name ps = true ↔ name ∈ (ps.map SofiaProfile.name).takeWhile (· ≠ []) := by
  induction ps with
  | nil => simp [listsProfile]
  | cons p ps ih =>
    rw [listsProfile, List.map_cons]
    by_cases hempty : p.name = []
    · simp [hempty]
    · rw [if_neg hempty, List.takeWhile_cons_of_pos (by simpa using hempty), List.mem_cons]
      by_cases hname : p.name = name
      · simp [hname]
      · rw [if_neg hname, ih, or_iff_right (Ne.symm hname)]

/-- It finds no empty name, and nothing that is in no slot. -/
theorem mem_slotNames_of_lists {name : CString} {t : List.Vector SofiaProfile maxSofiaProfiles}
    (h : listsProfile name t.toList = true) : name ≠ [] ∧ name ∈ slotNames t := by
  have hmem := listsProfile_iff.mp h
  have hne := List.mem_takeWhile_imp hmem
  exact ⟨of_decide_eq_true hne, (List.takeWhile_sublist _).mem hmem⟩

/-! ## The document -/

section Document

variable {sys : Platform} {doc : List VirtualIpElement} {x : VirtualIpElement} {r : ConfiguredVip}

/-- The names that the profile loop leaves in the slots of an element. -/
def tableNames (sys : Platform) (x : VirtualIpElement) : List CString :=
  slotNames (profileTable sys.byteOrder
    (profileLoop sys.byteOrder (utilsProfileControl sys) .zeroed x.profiles).mem)

theorem slotNames_configure (h : configure sys x = some r) :
    slotNames (profileTable sys.byteOrder r.profiles) = tableNames sys x := by
  obtain ⟨r', -, rfl⟩ := Option.map_eq_some_iff.mp h
  rfl

theorem names_configure (h : configure sys x = some r) {name : CString} :
    r.Names sys.byteOrder name ↔ name ≠ [] ∧ name ∈ tableNames sys x := by
  rw [ConfiguredVip.Names, slotNames_configure h]

theorem listsProfile_configure (h : configure sys x = some r) {name : CString} :
    listsProfile name (profileTable sys.byteOrder r.profiles).toList = true ↔
      name ∈ (tableNames sys x).takeWhile (· ≠ []) := by
  rw [listsProfile_iff, ← slotNames_configure h, slotNames]

/-- Every statement for a profile goes to the one virtual ip that has it, in whatever order the hash
is gone through, and is multicast to its group and no other. -/
def RoutesUniquely (sys : Platform) (doc : List VirtualIpElement) : Prop :=
  (doConfig sys (some doc)).1 = .success →
    ∀ order : List ConfiguredVip, order.Perm (doConfig sys (some doc)).2 →
      ∀ name sql : CString,
        (∀ r, findVirtualIpFromProfile sys.byteOrder order name = some r ↔
          r ∈ (doConfig sys (some doc)).2 ∧ r.Names sys.byteOrder name) ∧
        ∀ r ∈ (doConfig sys (some doc)).2,
          (r.groupName, Msg.sql name sql) ∈ eventMulticasts sys.byteOrder order name sql ↔
            r.Names sys.byteOrder name

/-- No two elements have a name in common, and no element has a name behind an empty one. -/
def Unshared (sys : Platform) (doc : List VirtualIpElement) : Prop :=
  (∀ x ∈ installed doc, ∀ y ∈ installed doc, x ≠ y →
      ∀ name ∈ tableNames sys x, name ≠ [] → name ∉ tableNames sys y) ∧
    ∀ x ∈ installed doc, ∀ name ∈ tableNames sys x, name ≠ [] →
      name ∈ (tableNames sys x).takeWhile (· ≠ [])

/-- The first eight distinct accepted names of an element. -/
def listed (sys : Platform) (x : VirtualIpElement) : List CString :=
  ((met (utilsProfileControl sys) x.profiles).take maxSofiaProfiles).map ProfileElement.name

/-- No two elements list a name, and no element lists the empty name before another. -/
def NamesDistinct (sys : Platform) (doc : List VirtualIpElement) : Prop :=
  (∀ x ∈ installed doc, ∀ y ∈ installed doc, x ≠ y →
      ∀ name ∈ listed sys x, name ≠ [] → name ∉ listed sys y) ∧
    ∀ x ∈ installed doc, [] ∉ (listed sys x).dropLast

end Document

section Routing

variable {sys : Platform} {doc : List VirtualIpElement} {x : VirtualIpElement} {r : ConfiguredVip}
  {hash order : List ConfiguredVip}

/-- Whoever lists a profile is found when nobody else lists it, in whatever order. -/
theorem find_iff (h : Built sys doc hash) (hu : Unshared sys doc) (ho : order.Perm hash)
    {name : CString} :
    findVirtualIpFromProfile sys.byteOrder order name = some r ↔
      r ∈ hash ∧ r.Names sys.byteOrder name := by
  constructor
  · intro hf
    have hlists := List.find?_some hf
    exact ⟨ho.mem_iff.mp (List.mem_of_find?_eq_some hf), mem_slotNames_of_lists hlists⟩
  · rintro ⟨hr, hnames⟩
    obtain ⟨x, hx, hc⟩ := h.element hr
    obtain ⟨hne, hname⟩ := (names_configure hc).mp hnames
    have hlists : listsProfile name (profileTable sys.byteOrder r.profiles).toList = true :=
      (listsProfile_configure hc).mpr (hu.2 x hx name hname hne)
    have hsome : (findVirtualIpFromProfile sys.byteOrder order name).isSome := by
      rw [findVirtualIpFromProfile, List.find?_isSome]
      exact ⟨r, ho.mem_iff.mpr hr, hlists⟩
    obtain ⟨r', hf⟩ := Option.isSome_iff_exists.mp hsome
    have hr' : r' ∈ hash := ho.mem_iff.mp (List.mem_of_find?_eq_some hf)
    obtain ⟨x', hx', hc'⟩ := h.element hr'
    have hlists' := List.find?_some hf
    have hname' := ((names_configure hc').mp (mem_slotNames_of_lists hlists')).2
    -- the two records are of one element
    have hsame : x = x' := by
      by_contra hdiff
      exact hu.1 x hx x' hx' hdiff name hname hne hname'
    rw [← hsame, hc] at hc'
    rw [hf, Option.some.inj hc']

/-- The groups that a statement goes to. -/
theorem mem_eventMulticasts_iff (h : Built sys doc hash) (hu : Unshared sys doc)
    (ho : order.Perm hash) (hr : r ∈ hash) {name sql : CString} :
    (r.groupName, Msg.sql name sql) ∈ eventMulticasts sys.byteOrder order name sql ↔
      r.Names sys.byteOrder name := by
  rw [eventMulticasts]
  constructor
  · intro hmem
    cases hf : findVirtualIpFromProfile sys.byteOrder order name with
    | none =>
      rw [hf] at hmem
      exact absurd hmem List.not_mem_nil
    | some r' =>
      rw [hf] at hmem
      obtain ⟨hr', hnames⟩ := (find_iff h hu ho).mp hf
      have hgroup : r.groupName = r'.groupName :=
        congrArg Prod.fst (List.mem_singleton.mp hmem)
      have hsame : r = r' := by
        apply h.eq_of_address hr hr'
        rw [← h.group hr, ← h.group hr', hgroup]
      rw [hsame]
      exact hnames
  · intro hnames
    rw [(find_iff h hu ho).mpr ⟨hr, hnames⟩]
    exact List.mem_cons_self

/-- Where statements are routed uniquely no name is shared. -/
theorem unshared_of_routes (h : Built sys doc hash)
    (hroutes : ∀ name r, findVirtualIpFromProfile sys.byteOrder hash name = some r ↔
      r ∈ hash ∧ r.Names sys.byteOrder name) : Unshared sys doc := by
  constructor
  · intro x hx y hy hdiff name hname hne hname'
    obtain ⟨r, hr, hc⟩ := h.record hx
    obtain ⟨r', hr', hc'⟩ := h.record hy
    have hf := (hroutes name r).mpr ⟨hr, (names_configure hc).mpr ⟨hne, hname⟩⟩
    have hf' := (hroutes name r').mpr ⟨hr', (names_configure hc').mpr ⟨hne, hname'⟩⟩
    rw [hf] at hf'
    apply hdiff
    apply List.inj_on_of_nodup_map (FirstOccurrences.nodup_firsts _) hx hy
    rw [← configure_address hc (valid_of_mem_installed hx),
      ← configure_address hc' (valid_of_mem_installed hy), Option.some.inj hf']
  · intro x hx name hname hne
    obtain ⟨r, hr, hc⟩ := h.record hx
    have hf := (hroutes name r).mpr ⟨hr, (names_configure hc).mpr ⟨hne, hname⟩⟩
    have hlists := List.find?_some hf
    exact (listsProfile_configure hc).mp hlists

end Routing

/-! ## Names that fit -/

section Fits

variable {sys : Platform} {x : VirtualIpElement}

theorem toList_tableOf {l : List SofiaProfile} (h : l.length ≤ maxSofiaProfiles) :
    (tableOf l).toList = l ++ List.replicate (maxSofiaProfiles - l.length) emptyProfile := by
  rw [tableOf, List.Vector.toList_ofFn]
  apply List.ext_getElem?
  intro i
  rw [List.getElem?_ofFn]
  by_cases hi : i < l.length
  · rw [List.getElem?_append_left hi, dif_pos (lt_of_lt_of_le hi h)]
    simp [List.getElem?_eq_getElem hi]
  · have hi : l.length ≤ i := Nat.le_of_not_lt hi
    rw [List.getElem?_append_right hi, List.getElem?_replicate]
    by_cases h8 : i < maxSofiaProfiles
    · rw [dif_pos h8, if_pos (by omega), List.getElem?_eq_none hi]
      rfl
    · rw [dif_neg h8, if_neg (by omega)]

theorem tableOf_take (l : List SofiaProfile) : tableOf (l.take maxSofiaProfiles) = tableOf l := by
  rw [tableOf, tableOf]
  congr 1
  funext i
  rw [List.getElem?_take_of_lt i.2]

/-- **The slots of an element** hold the names it lists, and are empty behind them. -/
theorem tableNames_eq (h : ∀ p ∈ x.profiles, p.name.length < maxSofiaName) :
    tableNames sys x =
      listed sys x ++ List.replicate (maxSofiaProfiles - (listed sys x).length) [] := by
  rw [tableNames, profileTable_profileLoop _ _ h, ← tableOf_take, slotNames, toList_tableOf]
  · simp [listed, List.map_take, ProfileElement.profile, emptyProfile, Function.comp_def]
  · exact List.length_take_le _ _

theorem mem_tableNames_iff (h : ∀ p ∈ x.profiles, p.name.length < maxSofiaName) {name : CString}
    (hne : name ≠ []) : name ∈ tableNames sys x ↔ name ∈ listed sys x := by
  rw [tableNames_eq h, List.mem_append, or_iff_left]
  intro hmem
  exact hne (List.eq_of_mem_replicate hmem)

/-- All others come before an element if and only if it is nowhere but at the end. -/
theorem forall_mem_takeWhile_iff {α : Type} [DecidableEq α] {a : α} {l : List α} (h : l.Nodup) :
    (∀ b ∈ l, b ≠ a → b ∈ l.takeWhile (· ≠ a)) ↔ a ∉ l.dropLast := by
  induction l with
  | nil => simp
  | cons c l ih =>
    obtain ⟨hc, hl⟩ := List.nodup_cons.mp h
    by_cases hca : c = a
    · subst hca
      rw [List.takeWhile_cons_of_neg (by simp)]
      cases l with
      | nil => simp
      | cons d l =>
        have hd : d ≠ c := fun hd => hc (hd ▸ List.mem_cons_self)
        refine iff_of_false (fun hall => ?_) (by simp)
        exact absurd (hall d (by simp) hd) List.not_mem_nil
    · rw [List.takeWhile_cons_of_pos (by simpa using hca)]
      cases l with
      | nil => simp
      | cons d l =>
        rw [List.dropLast_cons_cons, List.mem_cons, not_or, ← ih hl]
        constructor
        · intro hall
          refine ⟨Ne.symm hca, fun b hb hba => ?_⟩
          apply (List.mem_cons.mp (hall b (List.mem_cons_of_mem _ hb) hba)).resolve_left
          rintro rfl
          exact hc hb
        · rintro ⟨-, hall⟩ b hb hba
          rcases List.mem_cons.mp hb with rfl | hb
          · exact List.mem_cons_self
          · exact List.mem_cons_of_mem _ (hall b hb hba)

theorem nodup_listed : (listed sys x).Nodup := by
  rw [listed, List.map_take]
  exact (FirstOccurrences.nodup_firsts _).sublist (List.take_sublist _ _)

/-- A lookup sees the listed names before the first empty one. -/
theorem mem_takeWhile_tableNames (h : ∀ p ∈ x.profiles, p.name.length < maxSofiaName)
    {name : CString} : name ∈ (tableNames sys x).takeWhile (· ≠ []) ↔
      name ∈ (listed sys x).takeWhile (· ≠ []) := by
  rw [tableNames_eq h, List.takeWhile_append]
  split
  · rename_i hall
    have hnil : (List.replicate (maxSofiaProfiles - (listed sys x).length)
        ([] : CString)).takeWhile (· ≠ []) = [] := by
      cases maxSofiaProfiles - (listed sys x).length <;> rfl
    rw [hnil, List.append_nil, List.Sublist.eq_of_length (List.takeWhile_sublist _) hall]
  · rfl

/-- What the slots hold is what the elements list. -/
theorem unshared_iff {doc : List VirtualIpElement}
    (h : ∀ x ∈ installed doc, ∀ p ∈ x.profiles, p.name.length < maxSofiaName) :
    Unshared sys doc ↔ NamesDistinct sys doc := by
  apply and_congr
  · apply forall₂_congr
    intro x hx
    apply forall₂_congr
    intro y hy
    apply imp_congr_right
    intro _
    apply forall_congr'
    intro name
    constructor
    · intro hall hname hne hname'
      exact hall ((mem_tableNames_iff (h x hx) hne).mpr hname) hne
        ((mem_tableNames_iff (h y hy) hne).mpr hname')
    · intro hall hname hne hname'
      exact hall ((mem_tableNames_iff (h x hx) hne).mp hname) hne
        ((mem_tableNames_iff (h y hy) hne).mp hname')
  · apply forall₂_congr
    intro x hx
    rw [← forall_mem_takeWhile_iff nodup_listed]
    apply forall_congr'
    intro name
    constructor
    · intro hall hname hne
      exact (mem_takeWhile_tableNames (h x hx)).mp
        (hall ((mem_tableNames_iff (h x hx) hne).mpr hname) hne)
    · intro hall hname hne
      exact (mem_takeWhile_tableNames (h x hx)).mpr
        (hall ((mem_tableNames_iff (h x hx) hne).mp hname) hne)

end Fits

/-- **Routing of the statements.** Every statement goes to the one virtual ip that has its profile,
whatever the order of the hash, if and only if the document is refused, or no two elements have a
name in common in their slots and none has a name behind an empty one. If the names fit into their
slots these are the first eight distinct accepted names of the elements. -/
theorem routesUniquely_iff (sys : Platform) (doc : List VirtualIpElement) :
    (RoutesUniquely sys doc ↔ Refused sys doc ∨ Unshared sys doc) ∧
      ((∀ x ∈ installed doc, ∀ p ∈ x.profiles, p.name.length < maxSofiaName) →
        (Unshared sys doc ↔ NamesDistinct sys doc)) := by
  refine ⟨?_, unshared_iff⟩
  by_cases hrefused : Refused sys doc
  · exact iff_of_true (fun hs => absurd hs (not_success_of_refused hrefused)) (Or.inl hrefused)
  rw [or_iff_right hrefused]
  have hs := success_of_not_refused hrefused
  have hbuilt := doConfig_hash hs
  rw [RoutesUniquely, imp_iff_right hs]
  constructor
  · intro hroutes
    exact unshared_of_routes hbuilt fun name r => (hroutes _ (List.Perm.refl _) name []).1 r
  · intro hu order ho name sql
    exact ⟨fun r => find_iff hbuilt hu ho, fun r hr => mem_eventMulticasts_iff hbuilt hu ho hr⟩

/-- A machine on which every profile has a file. -/
def everyProfile : Platform := { oneInterface with fileExists := fun _ => true }

/-- `<virtualip address="1.1.1.n">` with the one profile of a letter. -/
def withProfile (n : Fin 10) (k : Fin 26) : VirtualIpElement where
  address := [49, 46, 49, 46, 49, 46, 48 + UInt8.ofNat n]
  cidrNetmask := []
  params := []
  profiles := [lettered k]

/-- Two virtual ips with profiles of their own. -/
theorem routesUniquely_apart : RoutesUniquely everyProfile [withProfile 1 0, withProfile 2 1] := by
  obtain ⟨hiff, hfit⟩ := routesUniquely_iff everyProfile [withProfile 1 0, withProfile 2 1]
  apply hiff.mpr
  right
  apply (hfit (by decide)).mpr
  unfold NamesDistinct
  decide

/-- **Two virtual ips with one profile**: the statements go to the group of one of them only. -/
theorem shared_profile_misrouted :
    ¬ ∀ (sys : Platform) (doc : List VirtualIpElement), RoutesUniquely sys doc := by
  intro h
  have hs : (doConfig everyProfile (some [withProfile 1 0, withProfile 2 0])).1 = .success := by
    decide
  have hroutes := h everyProfile [withProfile 1 0, withProfile 2 0] hs _ (List.Perm.refl _)
  have hu := unshared_of_routes (doConfig_hash hs) fun name r => (hroutes name []).1 r
  have hdistinct := (unshared_iff (by decide)).mp hu
  revert hdistinct
  unfold NamesDistinct
  decide

end CpgFailover
