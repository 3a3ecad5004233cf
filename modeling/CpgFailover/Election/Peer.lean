import CpgFailover.Callback

/-!
# The election, abstractly

What a member's part in the election depends on: its role, its list, the master it remembers and
the size of the view. `ST_MASTER` and `ST_RBACK` are one role here, the leader. A member claims the
address when it is alone, or when the master it remembers departs while it heads its own list; the
claim succeeds with the calls that take the address.

## Main definitions

* `Peer`: the abstract member
* `Peer.hear`, `Peer.lose`, `Peer.change`, `Peer.handle`: how it takes an entry
* `Peer.claims`: whether it claims the address while taking an entry
* `Peer.InTurn`: the departures let it claim the address
* `Peer.Retains`: what an entry leaves of it, with memory for its list or without

## Main results

* `Peer.greatest_of_first`: the head of what remains has the greatest priority among it
* `Peer.change_cases`, `Peer.hear_cases`: what an entry does to a member
-/

namespace CpgFailover

open Agreed (Entry)

inductive Role
  | idle
  | start
  | backup
  | leader
deriving DecidableEq

/-- A member, as far as the election is concerned. -/
structure Peer where
  role : Role
  self : NodeId
  roster : List Node
  master : NodeId
  size : ℕ
deriving DecidableEq

namespace Peer

/-- Out of the group, everything forgotten. -/
def gone : Peer := ⟨.idle, 0, [], 0, 0⟩

/-- The member heads its own list. -/
def Heads (p : Peer) : Prop := p.self = nodeFirst p.roster

instance (p : Peer) : Decidable p.Heads := inferInstanceAs (Decidable (_ = _))

/-- The member has claimed the address; `ok` is the outcome. -/
def claim (p : Peer) (ok : Bool) : Peer := if ok then { p with role := .leader } else gone

/-- The writes of a state message. -/
def note (p : Peer) (y : NodeId) (nm : NodeMsg) : Peer :=
  { p with
    roster := nodeAdd true p.roster y nm.priority
    master := if nm.state.serves then y else p.master }

/-- The member takes a state message; `prio` is its own priority. -/
def hear (prio : ℤ) (ok : Bool) (p : Peer) (y : NodeId) (nm : NodeMsg) : Peer :=
  let p := p.note y nm
  match p.role with
  | .start =>
    if nm.priority = prio ∧ y ≠ p.self then gone
    else if p.size = 1 then if p.Heads then p.claim ok else gone
    else if listEntries p.roster = p.size then { p with role := .backup }
    else p
  -- a leader may begin a rollback or end one, which is not told apart here
  | _ => p

/-- The departed node is taken off the list. -/
def strike (p : Peer) (x : NodeId) : Peer := { p with roster := nodeRemove p.roster x }

/-- The member takes one departure. -/
def lose (ok : Bool) (p : Peer) (x : NodeId) : Peer :=
  let p := p.strike x
  if p.master = x then
    match p.role with
    -- a member in start gives up where a backup goes on waiting
    | .start => if p.Heads then p.claim ok else gone
    | .backup => if p.Heads then p.claim ok else p
    | _ => p
  else p

/-- The member takes the departures of one configuration change, one after the other. -/
def loseAll (ok : Bool) (p : Peer) (left : List NodeId) : Peer := left.foldl (lose ok) p

/-- The member takes a configuration change. -/
def change (ok : Bool) (p : Peer) (members left : List NodeId) : Peer :=
  loseAll ok { p with size := members.length } left

/-- The member takes an entry of the agreed log. -/
def handle (prio : ℤ) (ok : Bool) (p : Peer) : Entry NodeId Msg → Peer
  | .confchg members left _ => p.change ok members left
  | .message y (.nodeState nm) => p.hear prio ok y nm
  | .message _ (.sql _ _) => p

/-! ## Claims -/

/-- Whether a state message makes the member claim the address. -/
def claimsOnHearing (prio : ℤ) (p : Peer) (y : NodeId) (nm : NodeMsg) : Prop :=
  p.role = .start ∧ ¬ (nm.priority = prio ∧ y ≠ p.self) ∧ p.size = 1 ∧ (p.note y nm).Heads

/-- Whether one departure does. -/
def claimsOnLoss (p : Peer) (x : NodeId) : Prop :=
  (p.role = .start ∨ p.role = .backup) ∧ p.master = x ∧ (p.strike x).Heads

/-- Whether one of the departures does. -/
def claimsOnLosses (ok : Bool) : Peer → List NodeId → Prop
  | _, [] => False
  | p, x :: rest => p.claimsOnLoss x ∨ claimsOnLosses ok (p.lose ok x) rest

/-- Whether the member claims the address while taking an entry. -/
def claims (prio : ℤ) (ok : Bool) (p : Peer) : Entry NodeId Msg → Prop
  | .confchg members left _ => claimsOnLosses ok { p with size := members.length } left
  | .message y (.nodeState nm) => p.claimsOnHearing prio y nm
  | .message _ (.sql _ _) => False

/-- What is left of a list after departures. -/
def remaining (roster : List Node) (left : List NodeId) : List Node := left.foldl nodeRemove roster

/-- The master departs at a moment when the member heads what is left of its list. -/
def InTurn (p : Peer) (left : List NodeId) : Prop :=
  ∃ before after, left = before ++ p.master :: after ∧
    p.self = nodeFirst (remaining p.roster (before ++ [p.master]))

/-! ## Departures -/

theorem remaining_sublist (roster : List Node) (left : List NodeId) :
    (remaining roster left).Sublist roster := by
  induction left generalizing roster with
  | nil => exact List.Sublist.refl _
  | cons x left ih => exact (ih _).trans (nodeRemove_sublist _ _)

@[simp] theorem remaining_nil (left : List NodeId) : remaining [] left = [] :=
  List.eq_nil_of_sublist_nil (remaining_sublist [] left)

theorem remaining_append (roster : List Node) (left left' : List NodeId) :
    remaining roster (left ++ left') = remaining (remaining roster left) left' :=
  List.foldl_append

theorem wellOrdered_remaining {roster : List Node} (h : WellOrdered roster) (left : List NodeId) :
    WellOrdered (remaining roster left) := by
  induction left generalizing roster with
  | nil => exact h
  | cons x left ih => exact ih (h.nodeRemove x)

theorem mem_ids_remaining {roster : List Node} (h : WellOrdered roster) {left : List NodeId}
    {y : NodeId} : y ∈ ids (remaining roster left) ↔ y ∈ ids roster ∧ y ∉ left := by
  induction left generalizing roster with
  | nil => simp [remaining]
  | cons x left ih =>
    have hstep := ih (h.nodeRemove x)
    rw [h.mem_ids_nodeRemove] at hstep
    simpa [remaining, List.mem_cons, and_assoc] using hstep

/-- The head of what remains is on the list, has not departed, and has the greatest priority among
those who remain. -/
theorem greatest_of_first {roster : List Node} (hw : WellOrdered roster) {left : List NodeId}
    {n : NodeId} (h₀ : n ≠ 0) (hf : n = nodeFirst (remaining roster left)) :
    n ∉ left ∧ ∃ x ∈ roster, x.nodeid = n ∧
      ∀ m ∈ roster, m.nodeid ∉ left → m.priority ≤ x.priority := by
  have hsub := remaining_sublist roster left
  have hw' := wellOrdered_remaining hw left
  cases hr : remaining roster left with
  | nil => exact absurd (by simpa [hr, nodeFirst] using hf) h₀
  | cons x rest =>
    rw [hr] at hf hw' hsub
    obtain rfl : n = x.nodeid := hf
    have hx : x.nodeid ∈ ids (remaining roster left) := by rw [hr]; exact List.mem_cons_self
    refine ⟨((mem_ids_remaining hw).mp hx).2, x, hsub.subset List.mem_cons_self, rfl, ?_⟩
    intro m hm hml
    apply hw'.priority_le
    have hmi : m.nodeid ∈ ids (x :: rest) := by
      rw [← hr]
      exact (mem_ids_remaining hw).mpr ⟨mem_ids.mpr ⟨m, hm, rfl⟩, hml⟩
    -- ids are distinct, so the node that remains is the one of the list
    obtain ⟨m', hm', he⟩ := mem_ids.mp hmi
    obtain rfl := List.inj_on_of_nodup_map hw.nodup (hsub.subset hm') hm he
    exact hm'

@[simp] theorem gone_role : gone.role = .idle := rfl

@[simp] theorem strike_role (p : Peer) (x : NodeId) : (p.strike x).role = p.role := rfl

@[simp] theorem strike_master (p : Peer) (x : NodeId) : (p.strike x).master = p.master := rfl

@[simp] theorem note_role (p : Peer) (y : NodeId) (nm : NodeMsg) : (p.note y nm).role = p.role := rfl

@[simp] theorem note_self (p : Peer) (y : NodeId) (nm : NodeMsg) : (p.note y nm).self = p.self := rfl

@[simp] theorem note_size (p : Peer) (y : NodeId) (nm : NodeMsg) : (p.note y nm).size = p.size := rfl

theorem hear_of_start {prio : ℤ} {ok : Bool} {p : Peer} (h : p.role = .start) (y : NodeId)
    (nm : NodeMsg) : p.hear prio ok y nm =
      if nm.priority = prio ∧ y ≠ p.self then gone
      else if p.size = 1 then if (p.note y nm).Heads then (p.note y nm).claim ok else gone
      else if listEntries (p.note y nm).roster = p.size then { p.note y nm with role := .backup }
      else p.note y nm := by
  simp only [hear, note_role, note_self, note_size, h]
  rfl

theorem hear_of_ne_start {prio : ℤ} {ok : Bool} {p : Peer} (h : p.role ≠ .start) (y : NodeId)
    (nm : NodeMsg) : p.hear prio ok y nm = p.note y nm := by
  cases hr : p.role with
  | start => exact absurd hr h
  | idle | backup | leader => simp only [hear, note_role, hr]

theorem lose_of_start {ok : Bool} {p : Peer} (h : p.role = .start) (x : NodeId) :
    p.lose ok x =
      if p.master = x then if (p.strike x).Heads then (p.strike x).claim ok else gone
      else p.strike x := by
  simp only [lose, strike_role, strike_master, h]

theorem lose_of_backup {ok : Bool} {p : Peer} (h : p.role = .backup) (x : NodeId) :
    p.lose ok x =
      if p.master = x ∧ (p.strike x).Heads then (p.strike x).claim ok else p.strike x := by
  simp only [lose, strike_role, strike_master, h]
  split_ifs <;> tauto

theorem lose_of_idle {ok : Bool} {p : Peer} (h : p.role = .idle) (x : NodeId) :
    p.lose ok x = p.strike x := by
  simp only [lose, strike_role, h]
  split_ifs <;> rfl

theorem lose_of_leader {ok : Bool} {p : Peer} (h : p.role = .leader) (x : NodeId) :
    p.lose ok x = p.strike x := by
  simp only [lose, strike_role, h]
  split_ifs <;> rfl

theorem loseAll_of_idle (ok : Bool) {p : Peer} (h : p.role = .idle) (left : List NodeId) :
    p.loseAll ok left = { p with roster := remaining p.roster left } ∧
      ¬ claimsOnLosses ok p left := by
  induction left generalizing p with
  | nil => exact ⟨rfl, id⟩
  | cons x left ih =>
    obtain ⟨he, hn⟩ := ih (p := p.strike x) h
    simp only [loseAll, List.foldl_cons, lose_of_idle h, claimsOnLosses] at he hn ⊢
    exact ⟨he, by simp [claimsOnLoss, h, hn]⟩

theorem loseAll_of_leader (ok : Bool) {p : Peer} (h : p.role = .leader) (left : List NodeId) :
    p.loseAll ok left = { p with roster := remaining p.roster left } ∧
      ¬ claimsOnLosses ok p left := by
  induction left generalizing p with
  | nil => exact ⟨rfl, id⟩
  | cons x left ih =>
    obtain ⟨he, hn⟩ := ih (p := p.strike x) h
    simp only [loseAll, List.foldl_cons, lose_of_leader h, claimsOnLosses] at he hn ⊢
    exact ⟨he, by simp [claimsOnLoss, h, hn]⟩

theorem InTurn.of_strike {p : Peer} {x : NodeId} {left : List NodeId}
    (h : (p.strike x).InTurn left) : p.InTurn (x :: left) := by
  obtain ⟨before, after, hl, hf⟩ := h
  exact ⟨x :: before, after, by simpa using hl, hf⟩

/-- A turn comes with the first departure or with a later one. -/
theorem InTurn.cons_cases {p : Peer} {x : NodeId} {left : List NodeId} (h : p.InTurn (x :: left)) :
    p.master = x ∧ (p.strike x).Heads ∨ (p.strike x).InTurn left := by
  obtain ⟨before, after, hl, hf⟩ := h
  cases before with
  | nil =>
    obtain ⟨hx, -⟩ := List.cons.inj hl
    exact Or.inl ⟨hx.symm, by simpa [Heads, strike, remaining, hx] using hf⟩
  | cons b before =>
    rw [List.cons_append] at hl
    obtain ⟨rfl, hl'⟩ := List.cons.inj hl
    exact Or.inr ⟨before, after, hl', hf⟩

theorem inTurn_cons {p : Peer} {x : NodeId} {left : List NodeId} : p.InTurn (x :: left) ↔
    p.master = x ∧ (p.strike x).Heads ∨ (p.strike x).InTurn left := by
  refine ⟨InTurn.cons_cases, ?_⟩
  rintro (⟨rfl, hh⟩ | ht)
  · exact ⟨[], left, rfl, hh⟩
  · exact ht.of_strike

theorem not_inTurn_nil (p : Peer) : ¬ p.InTurn [] := by
  rintro ⟨before, after, hl, -⟩
  simp at hl

instance InTurn.decidable : (p : Peer) → (left : List NodeId) → Decidable (p.InTurn left)
  | p, [] => isFalse (not_inTurn_nil p)
  | p, x :: left =>
    have := InTurn.decidable (p.strike x) left
    decidable_of_iff _ inTurn_cons.symm

/-- The head of a list that does not depart is the head of what remains. -/
theorem nodeFirst_remaining {roster : List Node} {n : NodeId} {left : List NodeId} (h₀ : n ≠ 0)
    (hf : n = nodeFirst roster) (hn : n ∉ left) : n = nodeFirst (remaining roster left) := by
  induction left generalizing roster with
  | nil => exact hf
  | cons x left ih =>
    obtain ⟨hx, hn⟩ := not_or.mp (List.mem_cons.not.mp hn)
    refine ih ?_ hn
    cases roster with
    | nil => exact absurd hf h₀
    | cons m rest =>
      have hm : m.nodeid = n := hf.symm
      rw [nodeRemove, if_pos (by rw [hm]; exact hx)]
      exact hf

/-- A member in its turn heads what remains of its list. -/
theorem InTurn.first {p : Peer} {left : List NodeId} (h : p.InTurn left) (h₀ : p.self ≠ 0)
    (hn : p.self ∉ left) : p.self = nodeFirst (remaining p.roster left) := by
  obtain ⟨before, after, hl, hf⟩ := h
  have hsplit : left = (before ++ [p.master]) ++ after := by simp [hl]
  rw [hsplit, remaining_append]
  refine nodeFirst_remaining h₀ hf fun ha => hn ?_
  rw [hsplit]
  exact List.mem_append_right _ ha

/-- A member in its turn claims the address, if nobody departs twice. -/
theorem claimsOnLosses_of_inTurn {ok : Bool} {p : Peer} {left : List NodeId}
    (hr : p.role = .start ∨ p.role = .backup) (hl : left.Nodup) (h : p.InTurn left) :
    claimsOnLosses ok p left := by
  -- Induction on the departures; the list shortens along with them.
  induction left generalizing p with
  | nil => exact absurd h (not_inTurn_nil p)
  | cons x left ih =>
    obtain ⟨hx, hl⟩ := List.nodup_cons.mp hl
    by_cases hm : p.master = x ∧ (p.strike x).Heads
    · exact Or.inl ⟨hr, hm.1, hm.2⟩
    · apply Or.inr
      rcases h.cons_cases with hc | ht
      · exact absurd hc hm
      · -- the master departs later, so this departure only shortens the list
        have hne : p.master ≠ x := by
          rintro rfl
          obtain ⟨before, after, rfl, -⟩ := ht
          exact hx (List.mem_append_right _ List.mem_cons_self)
        have hlose : p.lose ok x = p.strike x := if_neg hne
        rw [hlose]
        exact ih hr hl ht

/-- **What departures do to a member without the address**: nothing but to its list; or a member in
start goes down, because its master departed and it was not its turn; or the member claims the
address, in its turn. -/
theorem loseAll_cases (ok : Bool) {p : Peer} (h : p.role = .start ∨ p.role = .backup)
    (left : List NodeId) :
    (p.loseAll ok left = { p with roster := remaining p.roster left } ∧
        ¬ claimsOnLosses ok p left ∧ (p.role = .start → p.master ∉ left) ∧ ¬ p.InTurn left) ∨
      (p.role = .start ∧ (p.loseAll ok left).role = .idle ∧ ¬ claimsOnLosses ok p left ∧
        p.master ∈ left) ∨
      (claimsOnLosses ok p left ∧ p.InTurn left ∧
        p.loseAll ok left = if ok then { p with role := .leader, roster := remaining p.roster left }
          else gone) := by
  -- Induction on the departures: the first one decides, or leaves the question to the rest.
  induction left generalizing p with
  | nil =>
    exact Or.inl ⟨rfl, id, by simp, not_inTurn_nil p⟩
  | cons x left ih =>
    have hcons (q : Peer) (hq : p.lose ok x = q) :
        p.loseAll ok (x :: left) = q.loseAll ok left := by rw [← hq]; rfl
    by_cases hm : p.master = x
    · by_cases hh : (p.strike x).Heads
      · -- the claim; afterwards the member is the leader or gone
        have hl : p.lose ok x = (p.strike x).claim ok := by
          rcases h with h | h <;> simp [lose, h, hm, hh]
        refine Or.inr (Or.inr ⟨Or.inl ⟨h, hm, hh⟩, ⟨[], left, by simp [hm], ?_⟩, ?_⟩)
        · simpa [Heads, strike, remaining, hm] using hh
        · rw [hcons _ hl]
          cases ok
          · simpa [gone, claim] using (loseAll_of_idle false (p := gone) rfl left).1
          · exact (loseAll_of_leader true (p := { p.strike x with role := .leader }) rfl
              left).1
      · rcases h with h | h
        · -- a member in start that is not first goes down
          have hl : p.lose ok x = gone := by simp [lose, h, hm, hh]
          obtain ⟨he, hn⟩ := loseAll_of_idle ok (p := gone) rfl left
          refine Or.inr (Or.inl ⟨h, by rw [hcons _ hl, he]; rfl, ?_, by simp [hm]⟩)
          simp only [claimsOnLosses, claimsOnLoss, hl]
          tauto
        -- a backup that is not first waits, and another departure may make it first
        · have hl : p.lose ok x = p.strike x := by simp [lose, h, hm, hh]
          have hc : ¬ p.claimsOnLoss x := fun hc => hh hc.2.2
          simp only [hcons _ hl, claimsOnLosses, hl, hc, false_or]
          rcases ih (p := p.strike x) (Or.inr h) with ⟨he, hn, -, ht⟩ | ⟨hs, -⟩ | ⟨hn, ht, he⟩
          · refine Or.inl ⟨he, hn, by simp [h], fun hi => ?_⟩
            rcases hi.cons_cases with ⟨-, hi⟩ | hi
            exacts [hh hi, ht hi]
          · simp [h] at hs
          · exact Or.inr (Or.inr ⟨hn, ht.of_strike, he⟩)
    -- another node departs, which only shortens the list
    · have hl : p.lose ok x = p.strike x := by simp [lose, hm]
      have hc : ¬ p.claimsOnLoss x := fun hc => hm hc.2.1
      simp only [hcons _ hl, claimsOnLosses, hl, hc, false_or]
      rcases ih (p := p.strike x) h with ⟨he, hn, hs, ht⟩ | ⟨hs, hi, hn, hml⟩ | ⟨hn, ht, he⟩
      · refine Or.inl ⟨he, hn, fun h' => ?_, fun hi => ?_⟩
        · simpa [hm] using hs h'
        · rcases hi.cons_cases with ⟨hi, -⟩ | hi
          exacts [hm hi, ht hi]
      · exact Or.inr (Or.inl ⟨hs, hi, hn, List.mem_cons_of_mem _ hml⟩)
      · exact Or.inr (Or.inr ⟨hn, ht.of_strike, he⟩)

/-! ## One configuration change, one state message -/

/-- **What a configuration change does to a member**: its list loses the departed and its size is
the new one; or it goes down or claims the address, as with the departures. -/
theorem change_cases (ok : Bool) (p : Peer) (members left : List NodeId) :
    (p.change ok members left =
        { p with size := members.length, roster := remaining p.roster left } ∧
      ¬ claimsOnLosses ok { p with size := members.length } left ∧
      (p.role = .start → p.master ∉ left) ∧ (p.role = .start ∨ p.role = .backup → ¬ p.InTurn left)) ∨
    (p.role = .start ∧ (p.change ok members left).role = .idle ∧
      ¬ claimsOnLosses ok { p with size := members.length } left) ∨
    ((p.role = .start ∨ p.role = .backup) ∧ p.InTurn left ∧
      claimsOnLosses ok { p with size := members.length } left ∧
      p.change ok members left = if ok then
        { p with role := .leader, size := members.length, roster := remaining p.roster left }
        else gone) := by
  have hturn : ({ p with size := members.length } : Peer).InTurn left ↔ p.InTurn left := Iff.rfl
  by_cases hr : p.role = .start ∨ p.role = .backup
  · rcases loseAll_cases ok (p := { p with size := members.length }) hr left with
      ⟨he, hn, hs, ht⟩ | ⟨hs, hi, hn, -⟩ | ⟨hn, ht, he⟩
    · exact Or.inl ⟨he, hn, hs, fun _ h => ht (hturn.mpr h)⟩
    · exact Or.inr (Or.inl ⟨hs, hi, hn⟩)
    · exact Or.inr (Or.inr ⟨hr, hturn.mp ht, hn, he⟩)
  · have hs : p.role ≠ .start := fun h => hr (Or.inl h)
    -- an idle member and a leader take departures off the list and no more
    apply Or.inl
    have hrole : p.role = .idle ∨ p.role = .leader := by
      cases h : p.role <;> simp_all
    rcases hrole with h | h
    · obtain ⟨he, hn⟩ := loseAll_of_idle ok (p := { p with size := members.length }) h left
      exact ⟨he, hn, fun h' => absurd h' hs, fun h' => absurd h' hr⟩
    · obtain ⟨he, hn⟩ := loseAll_of_leader ok (p := { p with size := members.length }) h left
      exact ⟨he, hn, fun h' => absurd h' hs, fun h' => absurd h' hr⟩

/-- **What a state message does to a member**: its list takes the sender, and a serving sender is
the master; or a member in start goes down, completes its list, or claims the address alone. -/
theorem hear_cases (prio : ℤ) (ok : Bool) (p : Peer) (y : NodeId) (nm : NodeMsg) :
    (p.hear prio ok y nm = p.note y nm ∧ ¬ p.claimsOnHearing prio y nm ∧
      (p.role = .start → ¬ (nm.priority = prio ∧ y ≠ p.self) ∧ p.size ≠ 1 ∧
        listEntries (p.note y nm).roster ≠ p.size)) ∨
    (p.role = .start ∧ (p.hear prio ok y nm).role = .idle ∧ ¬ p.claimsOnHearing prio y nm) ∨
    (p.role = .start ∧ ¬ (nm.priority = prio ∧ y ≠ p.self) ∧ p.size ≠ 1 ∧
      listEntries (p.note y nm).roster = p.size ∧ ¬ p.claimsOnHearing prio y nm ∧
      p.hear prio ok y nm = { p.note y nm with role := .backup }) ∨
    (p.role = .start ∧ ¬ (nm.priority = prio ∧ y ≠ p.self) ∧ p.size = 1 ∧ (p.note y nm).Heads ∧
      p.claimsOnHearing prio y nm ∧
      p.hear prio ok y nm = (p.note y nm).claim ok) := by
  by_cases hr : p.role = .start
  · rw [hear_of_start hr]
    unfold claimsOnHearing
    -- the branches of the state message, in the order they are tried
    by_cases hd : nm.priority = prio ∧ y ≠ p.self
    · rw [if_pos hd]
      exact Or.inr (Or.inl ⟨hr, rfl, fun h => h.2.1 hd⟩)
    rw [if_neg hd]
    by_cases h₁ : p.size = 1
    · rw [if_pos h₁]
      by_cases hh : (p.note y nm).Heads
      · rw [if_pos hh]
        exact Or.inr (Or.inr (Or.inr ⟨hr, hd, h₁, hh, ⟨hr, hd, h₁, hh⟩, rfl⟩))
      · rw [if_neg hh]
        exact Or.inr (Or.inl ⟨hr, rfl, fun h => hh h.2.2.2⟩)
    rw [if_neg h₁]
    by_cases he : listEntries (p.note y nm).roster = p.size
    · rw [if_pos he]
      exact Or.inr (Or.inr (Or.inl ⟨hr, hd, h₁, he, fun h => h₁ h.2.2.1, rfl⟩))
    · rw [if_neg he]
      exact Or.inl ⟨rfl, fun h => h₁ h.2.2.1, fun _ => ⟨hd, h₁, he⟩⟩
  · exact Or.inl ⟨hear_of_ne_start hr y nm, fun h => hr h.1, fun h => absurd h hr⟩

/-- **When a member claims the address**: in its turn, or when it is alone. -/
theorem claims_cases {prio : ℤ} {ok : Bool} {p : Peer} {e : Entry NodeId Msg}
    (h : p.claims prio ok e) :
    (∃ members left joined, e = .confchg members left joined ∧ (p.role = .start ∨ p.role = .backup) ∧
      p.InTurn left) ∨
    ∃ y nm, e = .message y (.nodeState nm) ∧ p.role = .start ∧ ¬ (nm.priority = prio ∧ y ≠ p.self) ∧
      p.size = 1 ∧ (p.note y nm).Heads := by
  cases e with
  | confchg members left joined =>
    rcases change_cases ok p members left with ⟨-, hn, -⟩ | ⟨-, -, hn⟩ | ⟨hr, ht, -⟩
    · exact absurd h hn
    · exact absurd h hn
    · exact Or.inl ⟨members, left, joined, rfl, hr, ht⟩
  | message y m =>
    cases m with
    | sql => exact absurd h id
    | nodeState nm => exact Or.inr ⟨y, nm, rfl, h⟩

/-- Only a member without the address claims it. -/
theorem claims_role {prio : ℤ} {ok : Bool} {p : Peer} {e : Entry NodeId Msg}
    (h : p.claims prio ok e) : p.role = .start ∨ p.role = .backup := by
  rcases claims_cases h with ⟨-, -, -, -, hr, -⟩ | ⟨-, -, -, hr, -⟩
  exacts [hr, Or.inl hr]

/-- Who takes part in the election after an entry took part before, under the same id. -/
theorem self_handle {prio : ℤ} {ok : Bool} {p : Peer} {e : Entry NodeId Msg}
    (h : (p.handle prio ok e).role ≠ .idle) :
    p.role ≠ .idle ∧ (p.handle prio ok e).self = p.self := by
  cases e with
  | confchg members left joined =>
    simp only [handle] at h ⊢
    rcases change_cases ok p members left with ⟨he, -⟩ | ⟨-, hi, -⟩ | ⟨hr, -, -, he⟩
    · rw [he] at h ⊢
      exact ⟨h, rfl⟩
    · exact absurd hi h
    · cases ok with
      | true => rcases hr with hr | hr <;> simp [hr, he]
      | false => simp [he] at h
  | message y m =>
    cases m with
    | sql => exact ⟨h, rfl⟩
    | nodeState nm =>
      simp only [handle] at h ⊢
      rcases hear_cases prio ok p y nm with ⟨he, -⟩ | ⟨-, hi, -⟩ | ⟨hr, -, -, -, -, he⟩ |
        ⟨hr, -, -, -, -, he⟩
      · rw [he] at h ⊢
        exact ⟨h, rfl⟩
      · exact absurd hi h
      · simp [hr, he]
      · cases ok with
        | true => simp [hr, he, claim]
        | false => simp [he, claim] at h

/-- A claim that succeeds makes the leader. -/
theorem role_handle_claims {prio : ℤ} {p : Peer} {e : Entry NodeId Msg}
    (h : p.claims prio true e) : (p.handle prio true e).role = .leader := by
  cases e with
  | confchg members left joined =>
    simp only [handle]
    rcases change_cases true p members left with ⟨-, hn, -⟩ | ⟨-, -, hn⟩ | ⟨-, -, -, he⟩
    · exact absurd h hn
    · exact absurd h hn
    · rw [he]
      rfl
  | message y m =>
    cases m with
    | sql => exact absurd h id
    | nodeState nm =>
      simp only [handle]
      rcases hear_cases prio true p y nm with ⟨-, hn, -⟩ | ⟨-, -, hn⟩ | ⟨-, -, -, -, hn, -⟩ |
        ⟨-, -, -, -, -, he⟩
      · exact absurd h hn
      · exact absurd h hn
      · exact absurd h hn
      · rw [he]
        rfl

/-- The list after an entry. -/
def rosterAfter (p : Peer) : Entry NodeId Msg → List Node
  | .confchg _ left _ => remaining p.roster left
  | .message y (.nodeState nm) => nodeAdd true p.roster y nm.priority
  | .message _ (.sql _ _) => p.roster

/-- The size of the view after an entry. -/
def sizeAfter (p : Peer) : Entry NodeId Msg → ℕ
  | .confchg members _ _ => members.length
  | .message _ _ => p.size

/-- What an entry makes of a member that goes on taking part, whether or not there is memory for its
list: it took part before, nobody but the sender has got on its list, and if it is a backup now it
was one, or a state message has found it in start and left its list as long as the view. -/
structure Retains (p : Peer) (e : Entry NodeId Msg) (q : Peer) : Prop where
  running : p.role ≠ .idle
  roster : q.roster.Sublist (p.rosterAfter e)
  size : q.size = p.sizeAfter e
  backup : q.role = .backup → p.role = .backup ∨
    ∃ y nm, e = .message y (.nodeState nm) ∧ listEntries q.roster = q.size

/-- Whoever takes part in the election after an entry has written the entry to its list. -/
theorem roster_handle {prio : ℤ} {ok : Bool} {p : Peer} {e : Entry NodeId Msg}
    (h : (p.handle prio ok e).role ≠ .idle) : (p.handle prio ok e).roster = p.rosterAfter e := by
  cases e with
  | confchg members left joined =>
    simp only [handle, rosterAfter] at h ⊢
    rcases change_cases ok p members left with ⟨he, -⟩ | ⟨-, hi, -⟩ | ⟨-, -, -, he⟩
    · rw [he]
    · exact absurd hi h
    · cases ok with
      | true => rw [he]; rfl
      | false => simp [he] at h
  | message y m =>
    cases m with
    | sql => rfl
    | nodeState nm =>
      simp only [handle, rosterAfter] at h ⊢
      rcases hear_cases prio ok p y nm with ⟨he, -⟩ | ⟨-, hi, -⟩ | ⟨-, -, -, -, -, he⟩ |
        ⟨-, -, -, -, -, he⟩
      · rw [he]; rfl
      · exact absurd hi h
      · rw [he]; rfl
      · cases ok with
        | true => rw [he]; rfl
        | false => simp [he, claim] at h

/-- The leader stays the leader. -/
theorem role_handle_leader {prio : ℤ} {ok : Bool} {p : Peer} {e : Entry NodeId Msg}
    (h : p.role = .leader) : (p.handle prio ok e).role = .leader := by
  cases e with
  | confchg members left joined =>
    simp only [handle, change]
    -- the leader only shortens its list
    rw [(loseAll_of_leader ok (p := { p with size := members.length }) h left).1]
    exact h
  | message y m =>
    cases m with
    | sql => exact h
    | nodeState nm =>
      simp only [handle]
      rw [hear_of_ne_start (by simp [h]), note_role, h]

/-- **How a member comes to wait, or goes on waiting, for the address**: the departed are off its
list, its master is not among them while it starts, and it was not in its turn; or it has heard a
state message, by which a member in start may have become a backup. -/
theorem waiting_cases {prio : ℤ} {ok : Bool} {p : Peer} {e : Entry NodeId Msg}
    (h : (p.handle prio ok e).role = .start ∨ (p.handle prio ok e).role = .backup) :
    ¬ p.claims prio ok e ∧
      ((∃ members left joined, e = .confchg members left joined ∧
          p.handle prio ok e =
            { p with size := members.length, roster := remaining p.roster left } ∧
          (p.role = .start → p.master ∉ left) ∧ ¬ p.InTurn left) ∨
        (∃ y nm, e = .message y (.nodeState nm) ∧
          p.handle prio ok e = { p.note y nm with role := (p.handle prio ok e).role } ∧
          (p.role = (p.handle prio ok e).role ∨ p.role = .start)) ∨
        ∃ y name sql, e = .message y (.sql name sql)) := by
  cases e with
  | confchg members left joined =>
    simp only [handle, claims] at h ⊢
    rcases change_cases ok p members left with ⟨hc, hn, hs, ht⟩ | ⟨-, hi, -⟩ | ⟨-, -, -, hc⟩
    · rw [hc] at h
      exact ⟨hn, Or.inl ⟨members, left, joined, rfl, hc, hs, ht h⟩⟩
    · simp [hi] at h
    · cases ok <;> simp [hc] at h
  | message y m =>
    cases m with
    | sql name sql => exact ⟨id, Or.inr (Or.inr ⟨y, name, sql, rfl⟩)⟩
    | nodeState nm =>
      simp only [handle, claims] at h ⊢
      rcases hear_cases prio ok p y nm with ⟨hc, hn, -⟩ | ⟨-, hi, -⟩ | ⟨hs, -, -, -, hn, hc⟩ |
        ⟨-, -, -, -, -, hc⟩
      · rw [hc]
        exact ⟨hn, Or.inr (Or.inl ⟨y, nm, rfl, rfl, Or.inl rfl⟩)⟩
      · simp [hi] at h
      · refine ⟨hn, Or.inr (Or.inl ⟨y, nm, rfl, ?_, Or.inr hs⟩)⟩
        rw [hc]
      · cases ok <;> simp [hc, claim] at h

/-- A member that a state message leaves in start has been there, and its list is not complete. -/
theorem open_of_start {prio : ℤ} {ok : Bool} {p : Peer} {y : NodeId} {nm : NodeMsg}
    (h : (p.handle prio ok (.message y (.nodeState nm))).role = .start) :
    p.role = .start ∧ p.handle prio ok (.message y (.nodeState nm)) = p.note y nm ∧
      listEntries (p.note y nm).roster ≠ p.size := by
  simp only [handle] at h ⊢
  rcases hear_cases prio ok p y nm with ⟨hc, -, hopen⟩ | ⟨-, hi, -⟩ | ⟨-, -, -, -, -, hc⟩ |
    ⟨-, -, -, -, -, hc⟩
  · rw [hc] at h
    exact ⟨h, hc, (hopen h).2.2⟩
  · simp [hi] at h
  · simp [hc] at h
  · cases ok <;> simp [hc, claim] at h

/-- **How a member comes to be a backup**: it was one, or it was in start and a state message
completes its list. -/
theorem backup_cases {prio : ℤ} {ok : Bool} {p : Peer} {e : Entry NodeId Msg}
    (h : (p.handle prio ok e).role = .backup) :
    p.role = .backup ∨ ∃ y nm, e = .message y (.nodeState nm) ∧ p.role = .start ∧
      ¬ (nm.priority = prio ∧ y ≠ p.self) ∧ p.size ≠ 1 ∧
      listEntries (p.note y nm).roster = p.size ∧
      p.handle prio ok e = { p.note y nm with role := .backup } := by
  cases e with
  | confchg members left joined =>
    apply Or.inl
    simp only [handle] at h
    rcases change_cases ok p members left with ⟨hc, -⟩ | ⟨-, hi, -⟩ | ⟨-, -, -, hc⟩
    · rwa [hc] at h
    · simp [hi] at h
    · cases ok <;> simp [hc] at h
  | message y m =>
    cases m with
    | sql => exact Or.inl h
    | nodeState nm =>
      simp only [handle] at h ⊢
      rcases hear_cases prio ok p y nm with ⟨hc, -⟩ | ⟨-, hi, -⟩ | ⟨hs, hd, hone, hlen, -, hc⟩ |
        ⟨-, -, -, -, -, hc⟩
      · rw [hc] at h
        exact Or.inl h
      · simp [hi] at h
      · exact Or.inr ⟨y, nm, rfl, hs, hd, hone, hlen, hc⟩
      · cases ok <;> simp [hc, claim] at h

end Peer

end CpgFailover
