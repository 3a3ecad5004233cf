import CpgFailover.Election.Leadership

/-!
# Who waits for whom

A member that waits for the address, in start or as a backup, waits for the master it remembers. It
waits in vain if that master is gone and nobody will tell it. This module says on which entries a
member can come to wait in vain, and that otherwise the head of a complete list waits for a member
that has claimed the address.

## Main definitions

* `Peer.Watchful`: the entry does not make the member wait in vain
* `Following`: what a member that waits knows of its master
* `Heard`: a member's announcement, after a given entry
* `Completes`: a state message after which everybody has been heard

## Main results

* `History.following`: watchful members follow a leader
* `History.mem_of_heard`: a member's list holds whoever it has heard
* `Chronicle.heard_of_mem`: and nobody else
* `Chronicle.completes_of_turn`, `History.completes_of_backup`, `History.role_of_completes`: a
  member leaves start for `ST_BACKUP` with the message that completes its list
* `History.leader_of_lead`: whoever leads is the leader, if every claim succeeds
-/

namespace CpgFailover

open Agreed

/-- The entry does not make the member wait in vain: a message that completes the list of a member
in start and leaves it first also leaves its master on the list; a configuration change that leaves
a member first, a backup or one in start with a complete list, leaves its master on the list or
puts it in its turn; and the master a member remembers without having it on its list announces
itself as a master. -/
def Peer.Watchful (prio : ℤ) (p : Peer) : Entry NodeId Msg → Prop
  | .confchg members left _ =>
    p.role = .backup ∨ p.role = .start ∧ (∀ m ∈ members, m ∈ ids (remaining p.roster left)) →
      p.self = nodeFirst (remaining p.roster left) → p.master ∉ ids (remaining p.roster left) →
        p.InTurn left
  | .message y (.nodeState nm) =>
    (p.role = .start ∧ ¬ (nm.priority = prio ∧ y ≠ p.self) ∧ p.size ≠ 1 ∧
      listEntries (p.note y nm).roster = p.size ∧ (p.note y nm).Heads →
        (p.note y nm).master ∈ ids (p.note y nm).roster) ∧
    ((p.role = .start ∨ p.role = .backup) ∧ p.master = y ∧ y ∉ ids p.roster →
      nm.state.serves = true)
  | .message _ (.sql _ _) => True

instance (prio : ℤ) (p : Peer) (e : Entry NodeId Msg) : Decidable (p.Watchful prio e) := by
  unfold Peer.Watchful
  split <;> infer_instance

/-- What a member that waits knows of its master after `k` entries: a master on the list leads; a
backup at the head of its list has its master there; and so has a member in start whose list is
complete. -/
structure Following (log : List (Entry NodeId Msg)) (turns : List Turn) (k : ℕ) (p : Peer) :
    Prop where
  lead : p.role = .start ∨ p.role = .backup → p.master ∈ ids p.roster →
    Lead log turns p.master k
  backup : p.role = .backup → p.Heads → p.master ∈ ids p.roster
  start : p.role = .start → (∀ m ∈ viewAfter (log.take k), m ∈ ids p.roster) → p.Heads →
    p.master ∈ ids p.roster

/-- A new node at the head of a list, or the old head. -/
theorem nodeFirst_nodeAdd {l : List Node} {n y : NodeId} {prio : ℤ} (hn : n ∈ ids l)
    (hf : n = nodeFirst (nodeAdd true l y prio)) : n = nodeFirst l := by
  rcases nodeFirst_nodeAdd_cases l y prio with hold | hnew
  · exact hf.trans hold
  · -- the new head was on the list already
    obtain rfl := hf.trans hnew
    rwa [nodeAdd_of_mem hn] at hf

namespace History

variable {prio : NodeId → ℤ} {log : List (Entry NodeId Msg)} {turns : List Turn}

/-- A configuration change that leaves a watchful member waiting: it does not leave the member at the
head of its list without a master. -/
theorem following_change (h : History prio log turns) {t : Turn}
    {members left joined : List NodeId} (he : log[t.pos]? = some (.confchg members left joined))
    (hw : t.pre.Watchful (prio t.node) (.confchg members left joined))
    (hsound : t.pre.Sound prio log t.pos t.node) (hold : Following log turns t.pos t.pre)
    (hturn : ¬ t.pre.InTurn left) : Following log turns (t.pos + 1)
      { t.pre with size := members.length, roster := Peer.remaining t.pre.roster left } where
  lead hr hm := by
    obtain ⟨hm, hml⟩ := (Peer.mem_ids_remaining hsound.ordered).mp hm
    have hlead := hold.lead hr hm
    exact hlead.succ ((h.wellFormed.mem_view_confchg he).mpr (Or.inl ⟨hlead.mem_view, hml⟩))
  backup hb hh := by
    by_contra hm
    exact hturn (hw (Or.inl hb) hh hm)
  start hs hall hh := by
    by_contra hm
    refine hturn (hw (Or.inr ⟨hs, fun x hx => hall x ?_⟩) hh hm)
    rw [viewAfter_take_succ he]
    exact hx

/-- A state message that leaves a watchful member waiting. -/
theorem following_message (h : History prio log turns) {t : Turn} {y : NodeId} {nm : NodeMsg}
    {ok : Bool} (he : log[t.pos]? = some (.message y (.nodeState nm)))
    (hpost : t.post = t.pre.handle (prio t.node) ok (.message y (.nodeState nm)))
    (hw : t.pre.Watchful (prio t.node) (.message y (.nodeState nm)))
    (hsound : t.pre.Sound prio log t.pos t.node) (hold : Following log turns t.pos t.pre)
    (hnote : t.post = { t.pre.note y nm with role := t.post.role })
    (hrole : t.pre.role = t.post.role ∨ t.pre.role = .start) :
    Following log turns (t.pos + 1) t.post where
  lead hr hm := by
    have hview {x : NodeId} := mem_view_message he (n := x)
    have hpre : t.pre.role = .start ∨ t.pre.role = .backup := by
      rcases hrole with hr' | hr'
      · rwa [hr']
      · exact Or.inl hr'
    rw [hnote] at hm ⊢
    -- a master on the list is the sender, or was there before
    by_cases hserves : nm.state.serves = true
    · simp only [Peer.note, hserves, if_true]
      have hlead := h.lead_of_message he hserves
      exact hlead.succ (hview.mpr hlead.mem_view)
    · simp only [Peer.note, if_neg hserves] at hm ⊢
      rcases mem_ids_nodeAdd.mp hm with hy | hm
      · by_cases hmem : y ∈ ids t.pre.roster
        · have hlead := hold.lead hpre (hy ▸ hmem)
          exact hlead.succ (hview.mpr hlead.mem_view)
        · exact absurd (hw.2 ⟨hpre, hy, hmem⟩) hserves
      · have hlead := hold.lead hpre hm
        exact hlead.succ (hview.mpr hlead.mem_view)
  backup hb hh := by
    have hbackup := hb
    rw [hpost] at hbackup
    rw [hnote] at hh ⊢
    rcases Peer.backup_cases hbackup with hb' | ⟨y', nm', heq, hs, hd, hone, hlen, -⟩
    · -- a backup stays at the head of a list with its master
      have hn : t.pre.self ∈ ids t.pre.roster := by
        rw [hsound.self]
        exact (hsound.complete hb').2 _ (hsound.complete hb').1
      have hm := hold.backup hb' (nodeFirst_nodeAdd hn hh)
      apply mem_ids_nodeAdd.mpr
      by_cases hserves : nm.state.serves = true
      · exact Or.inl (by simp [Peer.note, hserves])
      · exact Or.inr (by simpa [Peer.note, hserves] using hm)
    · -- a member in start has completed its list
      cases heq
      exact hw.1 ⟨hs, hsound.self.symm ▸ hd, hone, hlen, hh⟩
  start hs hall hh := by
    -- a member that stays in start has not completed its list
    have hstart := hs
    rw [hpost] at hstart
    rw [hnote] at hall
    have hknown := hsound.toKnown.note h.wellFormed he (h.said he).1
    exact absurd (hknown.length_of_mem h.wellFormed hall) (Peer.open_of_start hstart).2.2

/-- **A turn of a watchful member**: who follows a leader goes on following one. -/
theorem following_succ (h : History prio log turns) {t : Turn} (ht : t ∈ turns)
    (hw : ∀ e, log[t.pos]? = some e → t.pre.Watchful (prio t.node) e)
    (hheld : Held turns t.pos t.node t.pre) (hold : Following log turns t.pos t.pre) :
    Following log turns (t.pos + 1) t.post := by
  obtain ⟨e, ok, he, hpost, -, hv⟩ := h.turn t ht
  have hsound := h.sound hheld
  by_cases hwait : t.post.role = .start ∨ t.post.role = .backup
  case neg =>
    exact ⟨fun hr => absurd hr hwait, fun hr => absurd (Or.inr hr) hwait,
      fun hr => absurd (Or.inl hr) hwait⟩
  have hwait' := hwait
  rw [hpost] at hwait'
  rcases (Peer.waiting_cases hwait').2 with ⟨members, left, joined, rfl, hc, -, hturn⟩ |
    ⟨y, nm, rfl, hc, hrole⟩ | ⟨y, name, sql, rfl⟩
  · rw [hpost, hc]
    exact h.following_change he (hw _ he) hsound hold hturn
  · rw [← hpost] at hc hrole
    exact h.following_message he hpost (hw _ he) hsound hold hc hrole
  · have hsame : t.post = t.pre := hpost
    rw [hsame] at hwait ⊢
    have hview {x : NodeId} := mem_view_message he (n := x)
    refine ⟨fun hr hm => ?_, hold.backup, fun hs hall => hold.start hs fun m hm => ?_⟩
    · have hlead := hold.lead hr hm
      exact hlead.succ (hview.mpr hlead.mem_view)
    · exact hall m (hview.mpr hm)

/-- **Watchful members follow a leader.** -/
theorem following (h : History prio log turns)
    (hw : ∀ t ∈ turns, ∀ e, log[t.pos]? = some e → t.pre.Watchful (prio t.node) e) {k : ℕ}
    {n : NodeId} {p : Peer} (hp : Held turns k n p) : Following log turns k p := by
  refine h.held_rule (P := fun k _ p => Following log turns k p) ?_ ?_ hp
  · -- a member that has just joined has nobody on its list
    intro t ht hj hrun
    obtain ⟨⟨hs, hl, -⟩, -⟩ := (h.join_fresh ht hj).2 hrun
    have hnil : ids t.post.roster = [] := by rw [hl]; rfl
    refine ⟨fun _ hm => ?_, fun hb => ?_, fun _ hall => ?_⟩
    · simp [hnil] at hm
    · simp [hs] at hb
    · have hown := hall t.node (h.mem_view ht)
      simp [hnil] at hown
  · exact fun t ht _ hheld hold => h.following_succ ht (hw t ht) hheld hold

end History

/-! ## Who has been heard -/

/-- After the entry at position `i`, the first `k` entries hold a state message of `m`, which has
stayed in the view since. -/
def Heard (log : List (Entry NodeId Msg)) (i k : ℕ) (m : NodeId) : Prop :=
  ∃ j nm, i < j ∧ j < k ∧ log[j]? = some (.message m (.nodeState nm)) ∧ Stays log m j k

/-- The sender of a state message. -/
def stateSender : Entry NodeId Msg → Option NodeId
  | .message y (.nodeState _) => some y
  | _ => none

theorem stateSender_eq_some {m : NodeId} {e : Entry NodeId Msg} :
    stateSender e = some m ↔ ∃ nm, e = .message m (.nodeState nm) := by
  cases e with
  | confchg => simp [stateSender]
  | message y x => cases x <;> simp [stateSender]

instance (log : List (Entry NodeId Msg)) (i k : ℕ) (m : NodeId) : Decidable (Heard log i k m) :=
  decidable_of_iff (∃ j < k, i < j ∧ (∃ e ∈ log[j]?, stateSender e = some m) ∧ Stays log m j k) <| by
    constructor
    · rintro ⟨j, hjk, hij, ⟨e, he, hm⟩, hst⟩
      obtain ⟨nm, rfl⟩ := stateSender_eq_some.mp hm
      exact ⟨j, nm, hij, hjk, he, hst⟩
    · rintro ⟨j, nm, hij, hjk, he, hst⟩
      exact ⟨j, hjk, hij, ⟨_, he, stateSender_eq_some.mpr ⟨nm, rfl⟩⟩, hst⟩

/-- A longer log says the same about who has been heard. -/
theorem heard_append_iff {log : List (Entry NodeId Msg)} {i k : ℕ} {m : NodeId}
    {e : Entry NodeId Msg} (hk : k ≤ log.length) : Heard (log ++ [e]) i k m ↔ Heard log i k m := by
  constructor <;> rintro ⟨j, nm, hij, hjk, he, hst⟩
  · rw [List.getElem?_append_left (by omega)] at he
    exact ⟨j, nm, hij, hjk, he, (stays_append_iff hk).mp hst⟩
  · exact ⟨j, nm, hij, hjk, getElem?_append_one he, (stays_append_iff hk).mpr hst⟩

namespace Chronicle

variable {prio : NodeId → ℤ} {log : List (Entry NodeId Msg)} {turns : List Turn}

/-- Whoever is on a member's list has been heard since it joined. -/
theorem heard_of_mem (h : Chronicle prio log turns) {i k : ℕ} {n m : NodeId} {p : Peer}
    (hp : Held turns k n p) (hik : i < k) (hj : JoinsAt log i n) (hs : Stays log n i k)
    (hm : m ∈ ids p.roster) : Heard log i k m := by
  refine h.held_rule (P := fun k n p => i < k → JoinsAt log i n → Stays log n i k →
    ∀ m ∈ ids p.roster, Heard log i k m) ?_ ?_ hp hik hj hs m hm
  · -- a member that has just joined has nobody on its list
    intro t ht hj hrun _ _ _ m hm
    rw [(h.join_empty ht hj hrun).1] at hm
    cases hm
  · intro t ht hrun hheld ih hik hj hs m hm
    have hik : i < t.pos := by
      rcases Nat.lt_succ_iff_lt_or_eq.mp hik with hlt | rfl
      · exact hlt
      · exact absurd hj (h.wellFormed.not_joinsAt (h.held_mem_view hheld))
    have hview := ((h.tracked (held_of_mem ht hrun)).announced m hm).mem_view
    obtain ⟨e, he, hkept, -⟩ := h.kept t ht
    -- whoever was on the list before has been heard before
    have hold (hm : m ∈ ids t.pre.roster) : Heard log i (t.pos + 1) m := by
      obtain ⟨j, nm, hij, hjk, hmsg, hst⟩ := ih hik hj (hs.mono le_rfl (Nat.le_succ _)) m hm
      exact ⟨j, nm, hij, by omega, hmsg, hst.snoc hview⟩
    have hm := ((hkept hrun).roster.map Node.nodeid).subset hm
    cases e with
    | confchg members left joined =>
      exact hold ((Peer.mem_ids_remaining (h.tracked hheld).ordered).mp hm).1
    | message y x =>
      cases x with
      | sql => exact hold hm
      | nodeState nm =>
        rcases mem_ids_nodeAdd.mp hm with rfl | hm
        · exact ⟨t.pos, nm, hik, Nat.lt_succ_self _, he, (stays_self log m t.pos).snoc hview⟩
        · exact hold hm

end Chronicle

namespace History

variable {prio : NodeId → ℤ} {log : List (Entry NodeId Msg)} {turns : List Turn}

/-- **A member's list holds whoever it has heard in its present membership.** -/
theorem mem_of_heard (h : History prio log turns) {i k : ℕ} {n m : NodeId} {p : Peer}
    (hp : Held turns k n p) (hs : Stays log n i k) (hm : Heard log i k m) :
    m ∈ ids p.roster := by
  refine h.held_rule (P := fun k n p => Stays log n i k → Heard log i k m → m ∈ ids p.roster) ?_ ?_
    hp hs hm
  · -- nobody has been heard since the join
    rintro t ht hj - hs ⟨j, nm, hij, hjk, he, -⟩
    rcases Nat.lt_or_ge i t.pos with hlt | hge
    · exact absurd hj (h.wellFormed.not_joinsAt (hs t.pos hlt (Nat.le_succ _)))
    · omega
  · rintro t ht hrun hheld ih hs ⟨j, nm, hij, hjk, hmsg, hst⟩
    obtain ⟨e, ok, he, hpost, -, -⟩ := h.turn t ht
    have hroster : t.post.roster = t.pre.rosterAfter e := by
      rw [hpost] at hrun ⊢
      exact Peer.roster_handle hrun
    rw [hroster]
    rcases Nat.lt_or_ge j t.pos with hlt | hge
    · -- heard before this turn
      have hmem := ih (hs.mono le_rfl (Nat.le_succ _))
        ⟨j, nm, hij, hlt, hmsg, hst.mono le_rfl (Nat.le_succ _)⟩
      cases e with
      | confchg members left joined =>
        refine (Peer.mem_ids_remaining (h.sound hheld).ordered).mpr ⟨hmem, ?_⟩
        exact not_mem_left h.wellFormed he ((h.sound hheld).announced m hmem).mem_view
          (hst.mem hjk)
      | message y x =>
        cases x with
        | sql => exact hmem
        | nodeState nm' => exact mem_ids_nodeAdd.mpr (Or.inr hmem)
    · -- heard in this turn
      obtain rfl : j = t.pos := by omega
      obtain rfl := Option.some.inj (he.symm.trans hmsg)
      exact mem_ids_nodeAdd.mpr (Or.inl rfl)

/-- Whoever leads is the leader, as long as every claim succeeds. -/
theorem leader_of_lead (h : History prio log turns)
    (hwin : ∀ t ∈ turns, t.claims → t.post.role = .leader) {k : ℕ} {n : NodeId} {p : Peer}
    (hl : Lead log turns n k) (hp : Held turns k n p) : p.role = .leader := by
  have hnew {t : Turn} (ht : t ∈ turns)
      (hl : ∃ t' ∈ turns, t'.node = t.node ∧ t'.pos = t.pos ∧ t'.claims) :
      t.post.role = .leader := by
    obtain ⟨t', ht', hn, hk, hc⟩ := hl
    exact hwin t ht (h.unique t' ht' t ht hn hk ▸ hc)
  refine h.held_rule (P := fun k n p => Lead log turns n k → p.role = .leader) ?_ ?_ hp hl
  · intro t ht hj _ hl
    rcases (lead_succ.mp hl).2 with hl | hl
    · exact absurd hj (h.wellFormed.not_joinsAt hl.mem_view)
    · exact hnew ht hl
  · intro t ht _ _ ih hl
    rcases (lead_succ.mp hl).2 with hl | hl
    · obtain ⟨e, ok, -, hpost, -, -⟩ := h.turn t ht
      rw [hpost]
      exact Peer.role_handle_leader (ih hl)
    · exact hnew ht hl

end History

/-! ## Complete lists -/

/-- The entry at position `j` is a state message, and after it everybody in the view has been heard
since the entry at position `i`. -/
def Completes (log : List (Entry NodeId Msg)) (i j : ℕ) : Prop :=
  (∃ y nm, log[j]? = some (.message y (.nodeState nm))) ∧
    ∀ m ∈ viewAfter (log.take (j + 1)), Heard log i (j + 1) m

instance (log : List (Entry NodeId Msg)) (i j : ℕ) : Decidable (Completes log i j) :=
  decidable_of_iff ((∃ e ∈ log[j]?, (stateSender e).isSome) ∧
    ∀ m ∈ viewAfter (log.take (j + 1)), Heard log i (j + 1) m) <| and_congr_left fun _ => by
    constructor
    · rintro ⟨e, he, hsome⟩
      obtain ⟨y, hy⟩ := Option.isSome_iff_exists.mp hsome
      obtain ⟨nm, rfl⟩ := stateSender_eq_some.mp hy
      exact ⟨y, nm, he⟩
    · rintro ⟨y, nm, he⟩
      exact ⟨_, he, rfl⟩

/-- A longer log says the same about who has completed a list. -/
theorem completes_append_iff {log : List (Entry NodeId Msg)} {i j : ℕ} {e : Entry NodeId Msg}
    (hj : j < log.length) : Completes (log ++ [e]) i j ↔ Completes log i j := by
  simp only [Completes, heard_append_iff (Nat.succ_le_of_lt hj),
    take_append_one (Nat.succ_le_of_lt hj),
    List.getElem?_append_left hj]

/-- **The turn in which a member in start becomes a backup** completes its list, even if the list has
been lost before. -/
theorem Chronicle.completes_of_turn {prio : NodeId → ℤ} {log : List (Entry NodeId Msg)}
    {turns : List Turn} (h : Chronicle prio log turns) {t : Turn} (ht : t ∈ turns) {i : ℕ}
    (hit : i ≤ t.pos) (hj : JoinsAt log i t.node) (hs : Stays log t.node i (t.pos + 1))
    (hstart : t.pre.role = .start) (hb : t.post.role = .backup) :
    i < t.pos ∧ Completes log i t.pos := by
  have hrun : t.post.role ≠ .idle := by simp [hb]
  rcases h.pred ht (h.pre_running ht hrun) with hjoin | hheld
  · exact absurd hb (h.join_empty ht hjoin hrun).2.1
  have hit : i < t.pos := by
    refine lt_of_le_of_ne hit ?_
    rintro rfl
    exact h.wellFormed.not_joinsAt (h.held_mem_view hheld) hj
  obtain ⟨e, he, hkept, -⟩ := h.kept t ht
  rcases (hkept hrun).backup hb with hold | ⟨y, nm, rfl, hlen⟩
  · rw [hstart] at hold
    cases hold
  · have hheld' := held_of_mem ht hrun
    refine ⟨hit, ⟨y, nm, he⟩, fun m hm => ?_⟩
    exact h.heard_of_mem hheld' (by omega) hj hs ((h.tracked hheld').mem_of_length hlen hm)

namespace History

variable {prio : NodeId → ℤ} {log : List (Entry NodeId Msg)} {turns : List Turn} {i k : ℕ}
  {n : NodeId} {p : Peer}

/-- **Whoever is a backup has completed its list** in its present membership. -/
theorem completes_of_backup (h : History prio log turns) (hp : Held turns k n p) (hik : i < k)
    (hj : JoinsAt log i n) (hs : Stays log n i k) (hb : p.role = .backup) :
    ∃ j, i < j ∧ j < k ∧ Completes log i j := by
  refine h.held_rule (P := fun k n p => i < k → JoinsAt log i n → Stays log n i k →
    p.role = .backup → ∃ j, i < j ∧ j < k ∧ Completes log i j) ?_ ?_ hp hik hj hs hb
  · intro t ht hj hrun _ _ _ hb
    rw [((h.join_fresh ht hj).2 hrun).1.1] at hb
    cases hb
  · intro t ht hrun hheld ih hik hj hs hb
    -- it was a backup before, or is one since this turn
    obtain ⟨e, ok, he, hpost, -, -⟩ := h.turn t ht
    have hbefore := hb
    rw [hpost] at hbefore
    rcases Peer.backup_cases hbefore with hold | ⟨-, -, -, hstart, -⟩
    · have hik' : i < t.pos := by
        rcases Nat.lt_succ_iff_lt_or_eq.mp hik with hlt | rfl
        · exact hlt
        · exact absurd hj (h.wellFormed.not_joinsAt (h.held_mem_view hheld))
      obtain ⟨j, hij, hjk, hc⟩ := ih hik' hj (hs.mono le_rfl (Nat.le_succ _)) hold
      exact ⟨j, hij, by omega, hc⟩
    · obtain ⟨hit, hc⟩ := h.completes_of_turn ht (Nat.lt_succ_iff.mp hik) hj hs hstart hb
      exact ⟨t.pos, hit, Nat.lt_succ_self _, hc⟩

/-- **Whoever has completed its list is out of start.** -/
theorem role_of_completes (h : History prio log turns) (hp : Held turns k n p)
    (hs : Stays log n i k) {j : ℕ} (hij : i < j) (hjk : j < k) (hc : Completes log i j) :
    p.role ≠ .start := by
  refine h.held_rule (P := fun k n p => Stays log n i k → j < k → p.role ≠ .start) ?_ ?_ hp hs hjk
  · -- nobody completes its list before it has joined
    intro t ht hj _ hs hjk
    exact absurd hj (h.wellFormed.not_joinsAt (hs t.pos (by omega) (Nat.le_succ _)))
  · intro t ht hrun hheld ih hs hjk hstart
    obtain ⟨e, ok, he, hpost, -, -⟩ := h.turn t ht
    have hpre : t.pre.role = .start := by
      rw [hpost] at hstart
      rcases (Peer.waiting_cases (Or.inl hstart)).2 with ⟨members, left, joined, rfl, hc, -⟩ |
        ⟨y, nm, rfl, -, hr⟩ | ⟨y, name, sql, rfl⟩
      · rw [hc] at hstart
        exact hstart
      · rcases hr with hr | hr
        exacts [hr.trans hstart, hr]
      · exact hstart
    rcases Nat.lt_succ_iff_lt_or_eq.mp hjk with hlt | rfl
    · exact ih (hs.mono le_rfl (Nat.le_succ _)) hlt hpre
    · -- the message that completes the list moves the member out of start
      obtain ⟨⟨y, nm, hmsg⟩, hall⟩ := hc
      obtain rfl := Option.some.inj (he.symm.trans hmsg)
      have hknown := (h.sound (held_of_mem ht hrun)).toKnown
      have hlen := hknown.length_of_mem h.wellFormed fun m hm =>
        h.mem_of_heard (held_of_mem ht hrun) hs (hall m hm)
      rw [hpost] at hstart hlen
      obtain ⟨-, hnote, hopen⟩ := Peer.open_of_start hstart
      rw [hnote] at hlen
      exact hopen hlen

end History

end CpgFailover
