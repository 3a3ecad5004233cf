import CpgFailover.Election.Refinement
import CpgFailover.Lib.Agreed

/-!
# Histories of the election

The abstract members of a group and the agreed log they handle. A turn is the handling of one
entry by one member. Facts about a member hold after each entry it handles; they are proved by
induction on the position in the log, for all members at once. A chronicle is what is known if a
member may lose its list for want of memory; in a history nobody does.

## Main definitions

* `Turn`, `Chronicle`, `History`: the handlings of a group and what is known of them
* `Held`: what a member is after a prefix of the log
* `Announced`: the members whose announcement the log holds
* `Peer.Tracked`, `Peer.Sound`: what a member's list says about the view and the announcements

## Main results

* `Chronicle.pred`: a member's turn follows its join, or its turn before
* `Chronicle.tracked`: every member's list holds announced members only
* `History.sound`: every member's list is sound
* `History.backup_ids`: a backup's list holds exactly the announced members
* `History.backup_prio_ne`, `History.backup_first_unique`: two backups after the same prefix have
  different priorities, and at most one of them heads what remains of its list
-/

namespace CpgFailover

open Agreed

/-- A member that has handled nothing yet. -/
def Peer.Fresh (p : Peer) : Prop := p.role = .start ∧ p.roster = [] ∧ p.master = 0

/-- The handling of one entry by one member; `claims` says whether it asked for the address. -/
structure Turn where
  node : NodeId
  pos : ℕ
  pre : Peer
  post : Peer
  claims : Prop

/-- What is known of the handlings of a group, whatever their calls come to. -/
structure Chronicle (prio : NodeId → ℤ) (log : List (Entry NodeId Msg)) (turns : List Turn) :
    Prop where
  wellFormed : LogSound log
  /-- No member has the id that stands for no node. -/
  zero : ∀ {k n}, JoinsAt log k n → n ≠ 0
  /-- A turn takes the entry at its position, as a member of the view after it. -/
  kept : ∀ t ∈ turns, ∃ e, log[t.pos]? = some e ∧ (t.post.role ≠ .idle → t.pre.Retains e t.post) ∧
    t.node ∈ viewAfter (log.take (t.pos + 1))
  unique : ∀ t ∈ turns, ∀ t' ∈ turns, t.node = t'.node → t.pos = t'.pos → t = t'
  /-- A member starts fresh. -/
  join : ∀ t ∈ turns, JoinsAt log t.pos t.node →
    t.pre.role = .idle ∨ t.pre.Fresh ∧ t.pre.self = t.node
  /-- From one entry to the next a member stays what it is, or goes down. -/
  next : ∀ t ∈ turns, ¬ JoinsAt log t.pos t.node → ∃ t' ∈ turns, t'.node = t.node ∧
    t'.pos + 1 = t.pos ∧ t.node ∈ viewAfter (log.take t.pos) ∧
      (t.pre.role = .idle ∨ t.pre = t'.post)
  /-- A state message was sent by its sender, in the same membership, with the state after a turn
  and its priority. -/
  said : ∀ {k y nm}, log[k]? = some (.message y (.nodeState nm)) → nm.priority = prio y ∧
    nm.state ≠ .idle ∧ ∃ t ∈ turns, t.node = y ∧ t.pos < k ∧ Stays log y t.pos k ∧
      t.post.role = Role.ofState nm.state

/-- What is known in addition if there is memory for every list. -/
structure History (prio : NodeId → ℤ) (log : List (Entry NodeId Msg)) (turns : List Turn) : Prop
    extends Chronicle prio log turns where
  turn : ∀ t ∈ turns, ∃ e ok, log[t.pos]? = some e ∧ t.post = t.pre.handle (prio t.node) ok e ∧
    (t.claims ↔ t.pre.claims (prio t.node) ok e) ∧ t.node ∈ viewAfter (log.take (t.pos + 1))

/-- `n` takes part in the election as `p` after the first `k` entries. -/
def Held (turns : List Turn) (k : ℕ) (n : NodeId) (p : Peer) : Prop :=
  ∃ t ∈ turns, t.node = n ∧ t.pos + 1 = k ∧ t.post = p ∧ p.role ≠ .idle

theorem held_of_mem {turns : List Turn} {t : Turn} (ht : t ∈ turns) (hr : t.post.role ≠ .idle) :
    Held turns (t.pos + 1) t.node t.post :=
  ⟨t, ht, rfl, rfl, rfl, hr⟩

/-- The log's first `k` entries hold a state message of `n` in its present membership. -/
def Announced (log : List (Entry NodeId Msg)) (k : ℕ) (n : NodeId) : Prop :=
  ∃ i nm, i < k ∧ log[i]? = some (.message n (.nodeState nm)) ∧ Stays log n i k

section Announced

variable {log : List (Entry NodeId Msg)} {k : ℕ} {n : NodeId}

theorem Announced.mem_view (h : Announced log k n) : n ∈ viewAfter (log.take k) := by
  obtain ⟨i, nm, hi, -, hs⟩ := h
  exact hs.mem hi

/-- Who is announced after one more entry. -/
theorem announced_succ : Announced log (k + 1) n ↔ n ∈ viewAfter (log.take (k + 1)) ∧
    (Announced log k n ∨ ∃ nm, log[k]? = some (.message n (.nodeState nm))) := by
  constructor
  · rintro ⟨i, nm, hi, he, hs⟩
    refine ⟨hs.mem hi, ?_⟩
    rcases Nat.lt_or_ge i k with hlt | hge
    · exact Or.inl ⟨i, nm, hlt, he, hs.mono le_rfl (Nat.le_succ k)⟩
    · obtain rfl : i = k := by omega
      exact Or.inr ⟨nm, he⟩
  · rintro ⟨hv, ⟨i, nm, hi, he, hs⟩ | ⟨nm, he⟩⟩
    · exact ⟨i, nm, by omega, he, hs.snoc hv⟩
    · exact ⟨k, nm, Nat.lt_succ_self k, he, (stays_self log n k).snoc hv⟩

theorem Announced.succ (h : Announced log k n) (hv : n ∈ viewAfter (log.take (k + 1))) :
    Announced log (k + 1) n :=
  announced_succ.mpr ⟨hv, Or.inl h⟩

/-- A configuration change announces nobody. -/
theorem announced_confchg {members left joined : List NodeId}
    (he : log[k]? = some (.confchg members left joined)) :
    Announced log (k + 1) n ↔ n ∈ viewAfter (log.take (k + 1)) ∧ Announced log k n := by
  rw [announced_succ]
  simp [he]

/-- A member that has just joined is not announced. -/
theorem not_announced_join (hl : LogSound log) (hj : JoinsAt log k n) :
    ¬ Announced log (k + 1) n := by
  rintro ⟨i, nm, hi, he, hs⟩
  rcases Nat.lt_or_ge i k with hlt | hge
  · exact hl.not_joinsAt (hs k hlt (Nat.le_succ k)) hj
  · obtain rfl : i = k := by omega
    obtain ⟨ms, l, j, hk, -⟩ := hj
    simp [he] at hk

end Announced

/-! ## Sound lists -/

/-- What a member's list says about the view and the announcements after `k` entries, even if it has
been lost on the way. -/
structure Peer.Tracked (log : List (Entry NodeId Msg)) (k : ℕ) (p : Peer) : Prop where
  ordered : WellOrdered p.roster
  announced : ∀ y ∈ ids p.roster, Announced log k y
  size : p.size = (viewAfter (log.take k)).length

/-- What the list of the member `n` says if it has never been lost. -/
structure Peer.Known (prio : NodeId → ℤ) (log : List (Entry NodeId Msg)) (k : ℕ) (n : NodeId)
    (p : Peer) : Prop extends p.Tracked log k where
  self : p.self = n
  priority : ∀ m ∈ p.roster, m.priority = prio m.nodeid
  own : Announced log k n → n ∈ ids p.roster

/-- What its role says in addition. -/
structure Peer.Sound (prio : NodeId → ℤ) (log : List (Entry NodeId Msg)) (k : ℕ) (n : NodeId)
    (p : Peer) : Prop extends p.Known prio log k n where
  /-- A member in start has met no other member of its own priority. -/
  distinct : p.role = .start → ∀ y ∈ ids p.roster, y ≠ n → prio y ≠ prio n
  /-- A backup knows every announced member, itself included. -/
  complete : p.role = .backup → Announced log k n ∧ ∀ y, Announced log k y → y ∈ ids p.roster
  leader : p.role = .leader → Announced log k n

section Sound

variable {prio : NodeId → ℤ} {log : List (Entry NodeId Msg)} {k : ℕ} {n : NodeId} {p : Peer}

/-- A list as long as the view holds the whole view. -/
theorem Peer.Tracked.mem_of_length (h : p.Tracked log k) (hlen : listEntries p.roster = p.size)
    {y : NodeId} (hy : y ∈ viewAfter (log.take k)) : y ∈ ids p.roster := by
  have hsub : (ids p.roster).Subperm (viewAfter (log.take k)) :=
    List.subperm_of_subset h.ordered.nodup fun y hy => (h.announced y hy).mem_view
  refine (hsub.perm_of_length_le ?_).mem_iff.mpr hy
  rw [length_ids, hlen, h.size]

/-- A list that holds the whole view is as long as the view. -/
theorem Peer.Tracked.length_of_mem (h : p.Tracked log k) (hl : LogSound log)
    (hall : ∀ y ∈ viewAfter (log.take k), y ∈ ids p.roster) : listEntries p.roster = p.size := by
  have hperm : (ids p.roster).Perm (viewAfter (log.take k)) :=
    (List.perm_ext_iff_of_nodup h.ordered.nodup (hl.nodup k)).mpr
      fun y => ⟨fun hy => (h.announced y hy).mem_view, hall y⟩
  rw [← length_ids, hperm.length_eq, h.size]

/-- A member that heads its list is on it. -/
theorem Peer.Heads.mem (h : p.Heads) (h₀ : p.self ≠ 0) : p.self ∈ ids p.roster := by
  have hf : p.self = nodeFirst p.roster := h
  rw [hf] at h₀ ⊢
  exact nodeFirst_mem_of_ne_zero h₀

/-- Whoever heads what remains of its list has the greatest priority among those who remain. -/
theorem Peer.Known.le_of_first (h : p.Known prio log k n) (h₀ : n ≠ 0) {left : List NodeId}
    (hf : n = nodeFirst (remaining p.roster left)) :
    n ∉ left ∧ n ∈ ids p.roster ∧ ∀ y ∈ ids p.roster, y ∉ left → prio y ≤ prio n := by
  obtain ⟨hn, x, hx, hxn, hmax⟩ := greatest_of_first h.ordered h₀ hf
  refine ⟨hn, mem_ids.mpr ⟨x, hx, hxn⟩, fun y hy hyl => ?_⟩
  obtain ⟨z, hz, rfl⟩ := mem_ids.mp hy
  have hle := hmax z hz hyl
  rwa [h.priority z hz, h.priority x hx, hxn] at hle

/-- Nobody on a sound list comes before its head. -/
theorem Peer.Known.le_nodeFirst (h : p.Known prio log k n) {y : NodeId} (hy : y ∈ ids p.roster) :
    prio y ≤ prio (nodeFirst p.roster) := by
  obtain ⟨z, hz, rfl⟩ := mem_ids.mp hy
  have hw := h.ordered
  have hp := h.priority
  cases hr : p.roster with
  | nil => simp [hr] at hz
  | cons x l =>
    rw [hr] at hw hz hp
    have hle := hw.priority_le hz
    rwa [hp z hz, hp x List.mem_cons_self] at hle

/-- A member in its turn has the greatest priority among those who remain. -/
theorem Peer.Known.le_of_inTurn (h : p.Known prio log k n) (h₀ : n ≠ 0) {left : List NodeId}
    (ht : p.InTurn left) : p.master ∈ left ∧ n ∈ ids p.roster ∧
      ∀ y ∈ ids p.roster, y ∉ left → prio y ≤ prio n := by
  obtain ⟨before, after, hl, hf⟩ := ht
  rw [h.self] at hf
  obtain ⟨-, hn, hmax⟩ := h.le_of_first h₀ hf
  refine ⟨by simp [hl], hn, fun y hy hyl => hmax y hy fun hyb => hyl ?_⟩
  rw [hl]
  simp only [List.mem_append, List.mem_cons, List.not_mem_nil, or_false] at hyb ⊢
  tauto

/-- Whoever is on the list after an entry has been announced. -/
theorem Peer.Tracked.announced_after (h : p.Tracked log k) (hl : LogSound log)
    {e : Entry NodeId Msg} (he : log[k]? = some e) {y : NodeId} (hy : y ∈ ids (p.rosterAfter e)) :
    Announced log (k + 1) y := by
  cases e with
  | confchg members left joined =>
    obtain ⟨hy, hyl⟩ := (mem_ids_remaining h.ordered).mp hy
    have ha := h.announced y hy
    exact ha.succ ((hl.mem_view_confchg he).mpr (Or.inl ⟨ha.mem_view, hyl⟩))
  | message x m =>
    have hold (hy : y ∈ ids p.roster) : Announced log (k + 1) y :=
      (h.announced y hy).succ ((mem_view_message he).mpr (h.announced y hy).mem_view)
    cases m with
    | sql => exact hold hy
    | nodeState nm =>
      rcases mem_ids_nodeAdd.mp hy with rfl | hy
      · exact announced_succ.mpr
          ⟨(mem_view_message he).mpr (hl.message_at he), Or.inr ⟨nm, he⟩⟩
      · exact hold hy

/-- An entry leaves a list sound that holds nobody but those it may. -/
theorem Peer.Tracked.after (h : p.Tracked log k) (hl : LogSound log) {e : Entry NodeId Msg}
    (he : log[k]? = some e) {q : Peer} (hr : q.roster.Sublist (p.rosterAfter e))
    (hs : q.size = p.sizeAfter e) : q.Tracked log (k + 1) where
  ordered := by
    refine WellOrdered.sublist ?_ hr
    cases e with
    | confchg members left joined => exact wellOrdered_remaining h.ordered left
    | message x m =>
      cases m with
      | sql => exact h.ordered
      | nodeState nm => exact h.ordered.nodeAdd x nm.priority
  announced y hy := h.announced_after hl he ((hr.map Node.nodeid).subset hy)
  size := by
    rw [hs, viewAfter_take_succ he]
    cases e with
    | confchg => rfl
    | message => exact h.size

/-- A state message leaves a sound list sound. -/
theorem Peer.Known.note (h : p.Known prio log k n) (hl : LogSound log) {y : NodeId} {nm : NodeMsg}
    (he : log[k]? = some (.message y (.nodeState nm))) (hp : nm.priority = prio y) :
    (p.note y nm).Known prio log (k + 1) n where
  toTracked := h.toTracked.after hl he (List.Sublist.refl _) rfl
  self := h.self
  priority m hm := by
    simp only [Peer.note] at hm
    by_cases hy : y ∈ ids p.roster
    · rw [nodeAdd_of_mem hy] at hm
      exact h.priority m hm
    · rw [nodeAdd_of_not_mem hy, mem_insertNode] at hm
      rcases hm with rfl | hm
      exacts [hp, h.priority m hm]
  own ha := by
    apply mem_ids_nodeAdd.mpr
    rcases (announced_succ.mp ha).2 with ha | ⟨nm', he'⟩
    · exact Or.inr (h.own ha)
    · rw [he] at he'
      cases he'
      exact Or.inl rfl

theorem Peer.Known.withRole (h : p.Known prio log k n) (role : Role) :
    ({ p with role := role } : Peer).Known prio log k n where
  ordered := h.ordered
  announced := h.announced
  size := h.size
  self := h.self
  priority := h.priority
  own := h.own

/-- Nobody who stays in the view is among the departed. -/
theorem not_mem_left (hl : LogSound log) {members left joined : List NodeId} {y : NodeId}
    (he : log[k]? = some (.confchg members left joined)) (hy : y ∈ viewAfter (log.take k))
    (hy' : y ∈ viewAfter (log.take (k + 1))) : y ∉ left := by
  rcases (hl.mem_view_confchg he).mp hy' with h | h
  · exact h.2
  · exact absurd hy ((hl.confchg_at he).2.2 y h)

/-- A configuration change leaves a sound list sound. -/
theorem Peer.Known.change (h : p.Known prio log k n) (hl : LogSound log)
    {members left joined : List NodeId} (he : log[k]? = some (.confchg members left joined))
    (role : Role) :
    ({ p with role := role, size := members.length, roster := remaining p.roster left } :
      Peer).Known prio log (k + 1) n where
  toTracked := h.toTracked.after hl he (List.Sublist.refl _) rfl
  self := h.self
  priority m hm := h.priority m ((remaining_sublist p.roster left).subset hm)
  own ha := by
    obtain ⟨hv, ha⟩ := (announced_confchg he).mp ha
    exact (mem_ids_remaining h.ordered).mpr ⟨h.own ha, not_mem_left hl he ha.mem_view hv⟩

/-- The sender of a message that is no duplicate has another priority. -/
theorem Peer.Sound.distinct_note (h : p.Sound prio log k n) {y : NodeId} {nm : NodeMsg}
    (hp : nm.priority = prio y) (hs : p.role = .start)
    (hd : ¬ (nm.priority = prio n ∧ y ≠ p.self)) :
    ∀ x ∈ ids (p.note y nm).roster, x ≠ n → prio x ≠ prio n := by
  intro x hx hne
  rcases mem_ids_nodeAdd.mp hx with rfl | hx
  · intro heq
    exact hd ⟨hp.trans heq, h.self ▸ hne⟩
  · exact h.distinct hs x hx hne

/-- A configuration change leaves a member sound, unless the member goes down. -/
theorem Peer.Sound.change (h : p.Sound prio log k n) (hl : LogSound log) (h₀ : n ≠ 0)
    {members left joined : List NodeId} (he : log[k]? = some (.confchg members left joined))
    (hv : n ∈ viewAfter (log.take (k + 1))) {ok : Bool}
    (hrun : (p.change ok members left).role ≠ .idle) :
    (p.change ok members left).Sound prio log (k + 1) n := by
  rcases change_cases ok p members left with ⟨hc, -⟩ | ⟨-, hi, -⟩ | ⟨-, ht, -, hc⟩
  · -- the departed are taken off the list
    rw [hc]
    refine ⟨h.toKnown.change hl he p.role, fun hs y hy => ?_, fun hb => ?_, fun hr => ?_⟩
    · exact h.distinct hs y ((mem_ids_remaining h.ordered).mp hy).1
    · obtain ⟨ha, hall⟩ := h.complete hb
      refine ⟨ha.succ hv, fun y hy => ?_⟩
      obtain ⟨hyv, hy⟩ := (announced_confchg he).mp hy
      exact (mem_ids_remaining h.ordered).mpr ⟨hall y hy, not_mem_left hl he hy.mem_view hyv⟩
    · exact (h.leader hr).succ hv
  · exact absurd hi hrun
  · -- the member claims the address, and so is on its list
    cases ok with
    | false => simp [hc] at hrun
    | true =>
      rw [hc]
      refine ⟨h.toKnown.change hl he .leader, by simp, by simp, fun _ => ?_⟩
      exact (h.announced n (h.toKnown.le_of_inTurn h₀ ht).2.1).succ hv

/-- A statement announces nobody. -/
theorem Peer.Sound.statement (h : p.Sound prio log k n) (hl : LogSound log) {y : NodeId}
    {name sql : CString}
    (he : log[k]? = some (.message y (.sql name sql))) : p.Sound prio log (k + 1) n := by
  have hann (x : NodeId) : Announced log (k + 1) x ↔ Announced log k x := by
    rw [announced_succ, mem_view_message he]
    simp only [he, Option.some.injEq, Entry.message.injEq, reduceCtorEq, and_false,
      exists_false, or_false]
    exact ⟨And.right, fun ha => ⟨ha.mem_view, ha⟩⟩
  refine ⟨⟨h.toTracked.after hl he (List.Sublist.refl _) rfl, h.self, h.priority, ?_⟩,
    h.distinct, ?_, ?_⟩
  · simpa only [hann] using h.own
  · simpa only [hann] using h.complete
  · simpa only [hann] using h.leader

/-- A state message leaves a member sound, unless the member goes down. -/
theorem Peer.Sound.hear (h : p.Sound prio log k n) (hl : LogSound log) (h₀ : n ≠ 0) {y : NodeId}
    {nm : NodeMsg} (he : log[k]? = some (.message y (.nodeState nm))) (hp : nm.priority = prio y)
    (hv : n ∈ viewAfter (log.take (k + 1))) {ok : Bool}
    (hrun : (p.hear (prio n) ok y nm).role ≠ .idle) :
    (p.hear (prio n) ok y nm).Sound prio log (k + 1) n := by
  have hknown := h.toKnown.note hl he hp
  rcases hear_cases (prio n) ok p y nm with ⟨hc, -, hs⟩ | ⟨-, hi, -⟩ |
    ⟨hs, hd, -, hlen, -, hc⟩ | ⟨hs, hd, -, hh, -, hc⟩
  · rw [hc]
    refine ⟨hknown, fun hs' => h.distinct_note hp hs' (hs hs').1, fun hb => ?_, fun hr => ?_⟩
    · obtain ⟨ha, hall⟩ := h.complete hb
      refine ⟨ha.succ hv, fun x hx => mem_ids_nodeAdd.mpr ?_⟩
      rcases (announced_succ.mp hx).2 with hx | ⟨nm', he'⟩
      · exact Or.inr (hall x hx)
      · rw [he] at he'
        cases he'
        exact Or.inl rfl
    · exact (h.leader hr).succ hv
  · exact absurd hi hrun
  · -- the list is complete: it holds the whole view
    rw [hc]
    have hall {x : NodeId} (hx : x ∈ viewAfter (log.take (k + 1))) :
        x ∈ ids (p.note y nm).roster := hknown.mem_of_length hlen hx
    refine ⟨hknown.withRole .backup, by simp,
      fun _ => ⟨hknown.announced n (hall hv), fun x hx => hall hx.mem_view⟩, by simp⟩
  · cases ok with
    | false => simp [hc, claim] at hrun
    | true =>
      rw [hc]
      have hn : n ∈ ids (p.note y nm).roster := by
        have := hh.mem (by rwa [note_self, h.self])
        rwa [note_self, h.self] at this
      exact ⟨hknown.withRole .leader, by simp [claim], by simp [claim], fun _ => hknown.announced n hn⟩

/-- **An entry leaves a member sound**, unless the member goes down. -/
theorem Peer.Sound.handle (h : p.Sound prio log k n) (hl : LogSound log) (h₀ : n ≠ 0)
    {e : Entry NodeId Msg} (he : log[k]? = some e)
    (hp : ∀ y nm, e = .message y (.nodeState nm) → nm.priority = prio y)
    (hv : n ∈ viewAfter (log.take (k + 1))) {ok : Bool}
    (hrun : (p.handle (prio n) ok e).role ≠ .idle) :
    (p.handle (prio n) ok e).Sound prio log (k + 1) n := by
  cases e with
  | confchg members left joined => exact h.change hl h₀ he hv hrun
  | message y m =>
    cases m with
    | sql name sql => exact h.statement hl he
    | nodeState nm => exact h.hear hl h₀ he (hp y nm rfl) hv hrun

end Sound

/-! ## What a turn follows -/

namespace Chronicle

variable {prio : NodeId → ℤ} {log : List (Entry NodeId Msg)} {turns : List Turn}

theorem lt_length (h : Chronicle prio log turns) {t : Turn} (ht : t ∈ turns) :
    t.pos < log.length := by
  obtain ⟨e, he, -⟩ := h.kept t ht
  exact (List.getElem?_eq_some_iff.mp he).1

theorem mem_view (h : Chronicle prio log turns) {t : Turn} (ht : t ∈ turns) :
    t.node ∈ viewAfter (log.take (t.pos + 1)) := by
  obtain ⟨e, -, -, hv⟩ := h.kept t ht
  exact hv

theorem zero_notMem (h : Chronicle prio log turns) {k : ℕ} (hk : k ≤ log.length) :
    0 ∉ viewAfter (log.take k) := by
  intro h₀
  obtain ⟨j, -, hj, -⟩ := h.wellFormed.exists_joinsAt hk h₀
  exact h.zero hj rfl

theorem node_ne_zero (h : Chronicle prio log turns) {t : Turn} (ht : t ∈ turns) : t.node ≠ 0 := by
  intro h₀
  have hv := h.mem_view ht
  rw [h₀] at hv
  exact h.zero_notMem (h.lt_length ht) hv

theorem held_unique (h : Chronicle prio log turns) {k : ℕ} {n : NodeId} {p q : Peer}
    (hp : Held turns k n p) (hq : Held turns k n q) : p = q := by
  obtain ⟨t, ht, htn, htk, rfl, -⟩ := hp
  obtain ⟨t', ht', htn', htk', rfl, -⟩ := hq
  rw [h.unique t ht t' ht' (htn.trans htn'.symm) (by omega)]

theorem held_mem_view (h : Chronicle prio log turns) {k : ℕ} {n : NodeId} {p : Peer}
    (hp : Held turns k n p) : n ∈ viewAfter (log.take k) := by
  obtain ⟨t, ht, rfl, rfl, -⟩ := hp
  exact h.mem_view ht

/-- **A member's turn follows its join, or its turn before.** -/
theorem pred (h : Chronicle prio log turns) {t : Turn} (ht : t ∈ turns)
    (hrun : t.pre.role ≠ .idle) :
    JoinsAt log t.pos t.node ∨ Held turns t.pos t.node t.pre := by
  by_cases hj : JoinsAt log t.pos t.node
  · exact Or.inl hj
  · obtain ⟨t', ht', hn, hk, -, hi | he⟩ := h.next t ht hj
    · exact absurd hi hrun
    · exact Or.inr ⟨t', ht', hn, hk, he.symm, hrun⟩

theorem pre_running (h : Chronicle prio log turns) {t : Turn} (ht : t ∈ turns)
    (hrun : t.post.role ≠ .idle) : t.pre.role ≠ .idle := by
  obtain ⟨e, -, hkept, -⟩ := h.kept t ht
  exact (hkept hrun).running

/-- **The induction over the turns of a member**: what holds of a member that has handled its join,
and goes from the member before a turn to the member after it, holds of every member. -/
theorem held_rule (h : Chronicle prio log turns) {P : ℕ → NodeId → Peer → Prop}
    (hjoin : ∀ t ∈ turns, JoinsAt log t.pos t.node → t.post.role ≠ .idle →
      P (t.pos + 1) t.node t.post)
    (hstep : ∀ t ∈ turns, t.post.role ≠ .idle → Held turns t.pos t.node t.pre →
      P t.pos t.node t.pre → P (t.pos + 1) t.node t.post)
    {k : ℕ} {n : NodeId} {p : Peer} (hp : Held turns k n p) : P k n p := by
  induction k generalizing n p with
  | zero =>
    obtain ⟨t, -, -, hk, -⟩ := hp
    omega
  | succ k ih =>
    obtain ⟨t, ht, rfl, hk, rfl, hrun⟩ := hp
    obtain rfl : t.pos = k := by omega
    rcases h.pred ht (h.pre_running ht hrun) with hj | hheld
    · exact hjoin t ht hj hrun
    · exact hstep t ht hrun hheld (ih hheld)

/-- Who takes part now has taken part after every entry since its join. -/
theorem held_back (h : Chronicle prio log turns) {i j k : ℕ} {n : NodeId} {p : Peer}
    (hp : Held turns k n p) (hs : Stays log n i k) (hij : i < j) (hjk : j ≤ k) :
    ∃ q, Held turns j n q := by
  refine h.held_rule (P := fun k n _ => Stays log n i k → j ≤ k → ∃ q, Held turns j n q) ?_ ?_
    hp hs hjk
  · intro t ht hjoin hrun hs hjk
    rcases Nat.lt_or_ge t.pos j with hlt | hge
    · obtain rfl : j = t.pos + 1 := by omega
      exact ⟨_, held_of_mem ht hrun⟩
    · exact absurd hjoin (h.wellFormed.not_joinsAt (hs t.pos (by omega) (Nat.le_succ _)))
  · intro t ht hrun _ ih hs hjk
    rcases Nat.lt_or_ge t.pos j with hlt | hge
    · obtain rfl : j = t.pos + 1 := by omega
      exact ⟨_, held_of_mem ht hrun⟩
    · exact ih (hs.mono le_rfl (Nat.le_succ _)) hge

/-- A member that handles its own join has nobody on its list. -/
theorem join_empty (h : Chronicle prio log turns) {t : Turn} (ht : t ∈ turns)
    (hj : JoinsAt log t.pos t.node) (hrun : t.post.role ≠ .idle) :
    t.post.roster = [] ∧ t.post.role ≠ .backup ∧
      t.post.size = (viewAfter (log.take (t.pos + 1))).length := by
  obtain ⟨e, he, hkept, -⟩ := h.kept t ht
  have hkept := hkept hrun
  have hjoin := h.join t ht hj
  obtain ⟨members, left, joined, hk, -⟩ := hj
  obtain rfl := Option.some.inj (he.symm.trans hk)
  rcases hjoin with hi | ⟨⟨hs, hl, -⟩, -⟩
  · exact absurd hi hkept.running
  refine ⟨?_, fun hb => ?_, ?_⟩
  · have hsub := hkept.roster
    simp only [Peer.rosterAfter, hl, Peer.remaining_nil] at hsub
    exact List.eq_nil_of_sublist_nil hsub
  · rcases hkept.backup hb with hb | ⟨y, nm, heq, -⟩
    · rw [hs] at hb
      cases hb
    · cases heq
  · rw [hkept.size, viewAfter_take_succ hk]
    rfl

/-- **Every member's list holds announced members only**, whether or not it has been lost on the
way. -/
theorem tracked (h : Chronicle prio log turns) {k : ℕ} {n : NodeId} {p : Peer}
    (hp : Held turns k n p) : p.Tracked log k := by
  refine h.held_rule (P := fun k _ p => p.Tracked log k) ?_ ?_ hp
  · intro t ht hj hrun
    obtain ⟨hl, -, hsize⟩ := h.join_empty ht hj hrun
    exact ⟨by rw [hl]; exact .nil, by simp [hl], hsize⟩
  · intro t ht hrun _ htracked
    obtain ⟨e, he, hkept, -⟩ := h.kept t ht
    exact htracked.after h.wellFormed he (hkept hrun).roster (hkept hrun).size

end Chronicle

namespace History

variable {prio : NodeId → ℤ} {log : List (Entry NodeId Msg)} {turns : List Turn}

/-- A member that handles its own join stays fresh, or is down. -/
theorem join_fresh (h : History prio log turns) {t : Turn} (ht : t ∈ turns)
    (hj : JoinsAt log t.pos t.node) : ¬ t.claims ∧ (t.post.role ≠ .idle →
      t.post.Fresh ∧ t.post.self = t.node ∧
        t.post.size = (viewAfter (log.take (t.pos + 1))).length) := by
  obtain ⟨e, ok, he, hpost, hclaims, -⟩ := h.turn t ht
  have hjoin := h.join t ht hj
  obtain ⟨members, left, joined, hk, -⟩ := hj
  obtain rfl := Option.some.inj (he.symm.trans hk)
  rcases hjoin with hi | ⟨⟨hs, hl, hm⟩, hself⟩
  · refine ⟨fun hc => ?_, fun hrun => ?_⟩
    · rcases Peer.claims_role (hclaims.mp hc) with hr | hr <;> simp [hi] at hr
    · rw [hpost] at hrun
      exact absurd hi (Peer.self_handle hrun).1
  · -- nobody departs that the fresh member takes for its master
    have hml : t.pre.master ∉ left := by
      rw [hm]
      exact fun h₀ => h.zero_notMem (Nat.le_of_lt (h.lt_length ht))
        ((h.wellFormed.confchg_at hk).2.1 0 h₀)
    simp only [Peer.handle] at hpost
    simp only [Peer.claims] at hclaims
    rcases Peer.change_cases ok t.pre members left with ⟨hc, hn, -⟩ | ⟨-, hi, hn⟩ | ⟨-, hturn, -⟩
    · refine ⟨fun hc => hn (hclaims.mp hc), fun _ => ?_⟩
      rw [hpost, hc, viewAfter_take_succ hk]
      exact ⟨⟨hs, by simp [hl], hm⟩, hself, rfl⟩
    · exact ⟨fun hc => hn (hclaims.mp hc), fun hrun => absurd (hpost ▸ hi) hrun⟩
    · obtain ⟨before, after, hl', -⟩ := hturn
      exact absurd (by simp [hl']) hml

/-- A member that claims the address has handled an entry before. -/
theorem held_of_claims (h : History prio log turns) {t : Turn} (ht : t ∈ turns) (hc : t.claims) :
    Held turns t.pos t.node t.pre := by
  obtain ⟨e, ok, -, -, hclaims, -⟩ := h.turn t ht
  have hrun : t.pre.role ≠ .idle := by
    rcases Peer.claims_role (hclaims.mp hc) with hr | hr <;> simp [hr]
  rcases h.pred ht hrun with hj | hheld
  · exact absurd hc (h.join_fresh ht hj).1
  · exact hheld

/-- **Every member's list is sound.** -/
theorem sound (h : History prio log turns) {k : ℕ} {n : NodeId} {p : Peer}
    (hp : Held turns k n p) : p.Sound prio log k n := by
  refine h.held_rule (P := fun k n p => p.Sound prio log k n) ?_ ?_ hp
  · -- a fresh member knows nobody, and is not announced yet
    intro t ht hj hrun
    obtain ⟨⟨hs, hl, -⟩, hself, -⟩ := (h.join_fresh ht hj).2 hrun
    have hnil : ids t.post.roster = [] := by rw [hl]; rfl
    refine ⟨⟨h.tracked (held_of_mem ht hrun), hself, by simp [hl], fun ha => ?_⟩,
      by simp [hnil], by simp [hs], by simp [hs]⟩
    exact absurd ha (not_announced_join h.wellFormed hj)
  · intro t ht hrun _ hsound
    obtain ⟨e, ok, he, hpost, -, hv⟩ := h.turn t ht
    rw [hpost] at hrun ⊢
    refine hsound.handle h.wellFormed (h.node_ne_zero ht) he ?_ hv hrun
    rintro y nm rfl
    exact (h.said he).1

/-- A backup's list holds exactly the announced members. -/
theorem backup_ids (h : History prio log turns) {k : ℕ} {n y : NodeId} {p : Peer}
    (hp : Held turns k n p) (hb : p.role = .backup) : y ∈ ids p.roster ↔ Announced log k y :=
  ⟨(h.sound hp).announced y, ((h.sound hp).complete hb).2 y⟩

/-- A member becomes a backup by a message that completes its list, and no member of the view has
its priority. -/
theorem backup_pred (h : History prio log turns) {t : Turn} (ht : t ∈ turns)
    (hb : t.post.role = .backup) : Held turns t.pos t.node t.pre ∧ (t.pre.role = .backup ∨
      ∀ x ∈ viewAfter (log.take (t.pos + 1)), x ≠ t.node → prio x ≠ prio t.node) := by
  have hrun := h.pre_running ht (by simp [hb])
  rcases h.pred ht hrun with hj | hheld
  · have hs := ((h.join_fresh ht hj).2 (by simp [hb])).1.1
    simp [hb] at hs
  refine ⟨hheld, ?_⟩
  have hpre := h.sound hheld
  obtain ⟨e, ok, he, hpe, -, -⟩ := h.turn t ht
  rw [hpe] at hb
  rcases Peer.backup_cases hb with hold | ⟨y, nm, rfl, hs, hd, -, hlen, -⟩
  · exact Or.inl hold
  · -- whoever is in the view is on the list, and the list takes no equal priority
    refine Or.inr fun x hx => hpre.distinct_note (h.said he).1 hs hd x ?_
    exact (hpre.toKnown.note h.wellFormed he (h.said he).1).mem_of_length hlen hx

/-- **Two backups after the same prefix have different priorities.** -/
theorem backup_prio_ne (h : History prio log turns) {k : ℕ} {n m : NodeId} {p q : Peer}
    (hp : Held turns k n p) (hq : Held turns k m q) (hpb : p.role = .backup)
    (hqb : q.role = .backup) (hnm : n ≠ m) : prio n ≠ prio m := by
  induction k generalizing p q with
  | zero =>
    obtain ⟨t, -, -, hk, -⟩ := hp
    omega
  | succ k ih =>
    have hnv := h.held_mem_view hp
    have hmv := h.held_mem_view hq
    obtain ⟨t, ht, rfl, hk, rfl, -⟩ := hp
    obtain ⟨t', ht', rfl, hk', rfl, -⟩ := hq
    obtain ⟨hheld, hcase⟩ := h.backup_pred ht hpb
    obtain ⟨hheld', hcase'⟩ := h.backup_pred ht' hqb
    rw [hk] at hcase
    rw [hk'] at hcase'
    -- whoever became a backup last has met the other
    rcases hcase with hb | hdist
    · rcases hcase' with hb' | hdist'
      · obtain rfl : t.pos = k := by omega
        exact ih hheld (by rwa [show t.pos = t'.pos by omega]) hb hb'
      · exact hdist' _ hnv hnm
    · exact (hdist _ hmv hnm.symm).symm

/-- Of two backups after the same prefix, at most one heads what remains of its list. -/
theorem backup_first_unique (h : History prio log turns) {k : ℕ} {n m : NodeId} {p q : Peer}
    (hp : Held turns k n p) (hq : Held turns k m q) (hpb : p.role = .backup)
    (hqb : q.role = .backup) (hn₀ : n ≠ 0) (hm₀ : m ≠ 0) {left left' : List NodeId}
    (hn : n ∉ left') (hm : m ∉ left) (hpf : n = nodeFirst (Peer.remaining p.roster left))
    (hqf : m = nodeFirst (Peer.remaining q.roster left')) : n = m := by
  by_contra hnm
  obtain ⟨-, hnp, hmax⟩ := (h.sound hp).le_of_first hn₀ hpf
  obtain ⟨-, hmq, hmax'⟩ := (h.sound hq).le_of_first hm₀ hqf
  have hmp : m ∈ ids p.roster := (h.backup_ids hp hpb).mpr ((h.backup_ids hq hqb).mp hmq)
  have hnq : n ∈ ids q.roster := (h.backup_ids hq hqb).mpr ((h.backup_ids hp hpb).mp hnp)
  exact h.backup_prio_ne hp hq hpb hqb hnm (le_antisymm (hmax' n hnq hn) (hmax m hmp hm))

/-- Of the backups that handle an entry, at most one claims the address. -/
theorem backup_claims_unique (h : History prio log turns) {t t' : Turn} (ht : t ∈ turns)
    (ht' : t' ∈ turns) (hk : t.pos = t'.pos) (hb : t.pre.role = .backup)
    (hb' : t'.pre.role = .backup) (hc : t.claims) (hc' : t'.claims) : t.node = t'.node := by
  have hp := h.held_of_claims ht hc
  have hq := h.held_of_claims ht' hc'
  obtain ⟨e, ok, he, -, hclaims, hv⟩ := h.turn t ht
  obtain ⟨e', ok', he', -, hclaims', hv'⟩ := h.turn t' ht'
  rw [← hk] at he' hq hv'
  obtain rfl := Option.some.inj (he.symm.trans he')
  rcases Peer.claims_cases (hclaims.mp hc) with ⟨members, left, joined, rfl, -, hturn⟩ |
    ⟨y, nm, -, hs, -⟩
  · rcases Peer.claims_cases (hclaims'.mp hc') with ⟨members', left', joined', heq, -, hturn'⟩ |
      ⟨y, nm, heq, -⟩
    · cases heq
      have hn := not_mem_left h.wellFormed he (h.held_mem_view hp) hv
      have hm := not_mem_left h.wellFormed he (h.held_mem_view hq) hv'
      obtain ⟨before, after, hl, hf⟩ := hturn
      obtain ⟨before', after', hl', hf'⟩ := hturn'
      rw [(h.sound hp).self] at hf
      rw [(h.sound hq).self] at hf'
      refine h.backup_first_unique hp hq hb hb' (h.node_ne_zero ht) (h.node_ne_zero ht') ?_ ?_ hf hf'
      · exact fun hx => hn (by rw [hl']; simp at hx ⊢; tauto)
      · exact fun hx => hm (by rw [hl]; simp at hx ⊢; tauto)
    · cases heq
  · simp [hb] at hs

end History

end CpgFailover
