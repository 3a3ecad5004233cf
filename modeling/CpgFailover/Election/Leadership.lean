import CpgFailover.Election.History

/-!
# Who holds the leadership

A member leads from its claim on, for as long as it stays in the view. A member in start may claim
with a list that misses members of the view, and then there can be two leaders; as long as no such
claim is made, the leader is unique.

## Main definitions

* `Lead`: the member has claimed the address in its present membership
* `StartsComplete`: a member in start that is in its turn knows whoever remains
* `Ruled`: the invariant that relates the leader, the remembered masters and the priorities

## Main results

* `History.lead_of_leader`, `History.lead_of_message`: a leader, and the sender of a leader's
  message, have claimed the address
* `History.ruled`: the invariant holds after every prefix
* `History.lead_unique`: at most one member leads
-/

namespace CpgFailover

open Agreed

/-- `n` has claimed the address, and has stayed in the view up to the prefix of length `k`. -/
def Lead (log : List (Entry NodeId Msg)) (turns : List Turn) (n : NodeId) (k : ℕ) : Prop :=
  ∃ t ∈ turns, t.node = n ∧ t.pos < k ∧ t.claims ∧ Stays log n t.pos k

/-- Members of different ids have different priorities. -/
def Distinct (prio : NodeId → ℤ) (log : List (Entry NodeId Msg)) : Prop :=
  ∀ i j n m, JoinsAt log i n → JoinsAt log j m → prio n = prio m → n = m

/-- A member in start that is in its turn knows every member of the new configuration that has not
just joined. -/
def StartsComplete (log : List (Entry NodeId Msg)) (turns : List Turn) : Prop :=
  ∀ t ∈ turns, t.pre.role = .start → ∀ members left joined,
    log[t.pos]? = some (.confchg members left joined) → t.pre.InTurn left →
      ∀ m ∈ members, m ∉ joined → m ∈ ids t.pre.roster

section Lead

variable {log : List (Entry NodeId Msg)} {turns : List Turn} {n : NodeId} {k : ℕ}

theorem Lead.mem_view (h : Lead log turns n k) : n ∈ viewAfter (log.take k) := by
  obtain ⟨t, -, -, hk, -, hs⟩ := h
  exact hs.mem hk

/-- Who leads after one more entry. -/
theorem lead_succ : Lead log turns n (k + 1) ↔ n ∈ viewAfter (log.take (k + 1)) ∧
    (Lead log turns n k ∨ ∃ t ∈ turns, t.node = n ∧ t.pos = k ∧ t.claims) := by
  constructor
  · rintro ⟨t, ht, hn, hk, hc, hs⟩
    refine ⟨hs.mem hk, ?_⟩
    rcases Nat.lt_or_ge t.pos k with hlt | hge
    · exact Or.inl ⟨t, ht, hn, hlt, hc, hs.mono le_rfl (Nat.le_succ k)⟩
    · exact Or.inr ⟨t, ht, hn, by omega, hc⟩
  · rintro ⟨hv, ⟨t, ht, hn, hk, hc, hs⟩ | ⟨t, ht, hn, rfl, hc⟩⟩
    · exact ⟨t, ht, hn, by omega, hc, hs.snoc hv⟩
    · exact ⟨t, ht, hn, Nat.lt_succ_self _, hc, (stays_self log n _).snoc hv⟩

theorem Lead.succ (h : Lead log turns n k) (hv : n ∈ viewAfter (log.take (k + 1))) :
    Lead log turns n (k + 1) :=
  lead_succ.mpr ⟨hv, Or.inl h⟩

theorem Lead.extend {j : ℕ} (h : Lead log turns n k) (hs : Stays log n k j) (hkj : k ≤ j) :
    Lead log turns n j := by
  obtain ⟨t, ht, hn, hk, hc, hs'⟩ := h
  exact ⟨t, ht, hn, by omega, hc, hs'.trans hs⟩

theorem Announced.extend {j : ℕ} (h : Announced log k n) (hs : Stays log n k j) (hkj : k ≤ j) :
    Announced log j n := by
  obtain ⟨i, nm, hi, he, hs'⟩ := h
  exact ⟨i, nm, by omega, he, hs'.trans hs⟩

end Lead

namespace History

variable {prio : NodeId → ℤ} {log : List (Entry NodeId Msg)} {turns : List Turn}

/-- Members of one view with equal priorities are equal. -/
theorem eq_of_prio (h : History prio log turns) (hd : Distinct prio log) {i j : ℕ}
    (hi : i ≤ log.length) (hj : j ≤ log.length) {n m : NodeId} (hn : n ∈ viewAfter (log.take i))
    (hm : m ∈ viewAfter (log.take j)) (hp : prio n = prio m) : n = m := by
  obtain ⟨i', -, hji, -⟩ := h.wellFormed.exists_joinsAt hi hn
  obtain ⟨j', -, hjj, -⟩ := h.wellFormed.exists_joinsAt hj hm
  exact hd i' j' n m hji hjj hp

/-- Whoever claims the address is announced. -/
theorem announced_of_claims (h : History prio log turns) {t : Turn} (ht : t ∈ turns)
    (hc : t.claims) : Announced log (t.pos + 1) t.node := by
  have hheld := h.held_of_claims ht hc
  have hs := h.sound hheld
  have h₀ := h.node_ne_zero ht
  obtain ⟨e, ok, he, -, hclaims, hv⟩ := h.turn t ht
  rcases Peer.claims_cases (hclaims.mp hc) with ⟨members, left, joined, rfl, -, hturn⟩ |
    ⟨y, nm, rfl, -, -, -, hh⟩
  · exact (hs.announced _ (hs.le_of_inTurn h₀ hturn).2.1).succ hv
  · have hmem := hh.mem (by rwa [Peer.note_self, hs.self])
    rw [Peer.note_self, hs.self] at hmem
    exact (hs.toKnown.note h.wellFormed he (h.said he).1).announced _ hmem

theorem announced_of_lead (h : History prio log turns) {n : NodeId} {k : ℕ}
    (hl : Lead log turns n k) : Announced log k n := by
  obtain ⟨t, ht, rfl, hk, hc, hs⟩ := hl
  exact (h.announced_of_claims ht hc).extend (hs.mono (Nat.le_succ _) le_rfl) hk

/-- Whoever is the leader after a turn was it before, or claims the address in the turn. -/
theorem leader_pred (h : History prio log turns) {t : Turn} (ht : t ∈ turns)
    (hr : t.post.role = .leader) : t.claims ∨ t.pre.role = .leader := by
  obtain ⟨e, ok, he, hpost, hclaims, -⟩ := h.turn t ht
  rw [hclaims]
  rw [hpost] at hr
  cases e with
  | confchg members left joined =>
    simp only [Peer.handle] at hr
    rcases Peer.change_cases ok t.pre members left with ⟨hc, -⟩ | ⟨-, hi, -⟩ | ⟨-, -, hc, -⟩
    · rw [hc] at hr
      exact Or.inr hr
    · simp [hi] at hr
    · exact Or.inl hc
  | message y m =>
    cases m with
    | sql => exact Or.inr hr
    | nodeState nm =>
      simp only [Peer.handle] at hr
      rcases Peer.hear_cases (prio t.node) ok t.pre y nm with ⟨hc, -⟩ | ⟨-, hi, -⟩ |
        ⟨-, -, -, -, -, hc⟩ | ⟨-, -, -, -, hc, -⟩
      · rw [hc] at hr
        exact Or.inr hr
      · simp [hi] at hr
      · simp [hc] at hr
      · exact Or.inl hc

/-- A leader has claimed the address. -/
theorem lead_of_leader (h : History prio log turns) {k : ℕ} {n : NodeId} {p : Peer}
    (hp : Held turns k n p) (hr : p.role = .leader) : Lead log turns n k := by
  refine h.held_rule (P := fun k n p => p.role = .leader → Lead log turns n k) ?_ ?_ hp hr
  · intro t ht hj hrun hr
    have hs := ((h.join_fresh ht hj).2 hrun).1.1
    simp [hr] at hs
  · intro t ht _ _ ih hr
    refine lead_succ.mpr ⟨h.mem_view ht, ?_⟩
    rcases h.leader_pred ht hr with hc | hl
    · exact Or.inr ⟨t, ht, rfl, rfl, hc⟩
    · exact Or.inl (ih hl)

/-- The sender of a leader's message has claimed the address. -/
theorem lead_of_message (h : History prio log turns) {k : ℕ} {y : NodeId} {nm : NodeMsg}
    (he : log[k]? = some (.message y (.nodeState nm))) (hs : nm.state.serves = true) :
    Lead log turns y k := by
  obtain ⟨-, -, t, ht, rfl, hk, hst, hrole⟩ := h.said he
  have hr : t.post.role = .leader := by rw [hrole, Role.ofState_eq_leader, hs]
  exact (h.lead_of_leader (held_of_mem ht (by simp [hr])) hr).extend
    (hst.mono (Nat.le_succ _) le_rfl) hk

/-- A member alone in the view is the only one. -/
theorem eq_of_alone (h : History prio log turns) {k : ℕ} {n m : NodeId} {p : Peer}
    (hp : Held turns k n p) (hone : p.size = 1) (hm : m ∈ viewAfter (log.take k)) : m = n := by
  have hn := h.held_mem_view hp
  obtain ⟨x, hx⟩ := List.length_eq_one_iff.mp ((h.sound hp).size.symm.trans hone)
  rw [hx, List.mem_singleton] at hn hm
  rw [hn, hm]

end History

/-! ## The leader is unique -/

/-- What holds after `k` entries: one member leads, members in start remember it or nobody, and a
backup remembers it or nobody, or yields to it. -/
structure Ruled (prio : NodeId → ℤ) (log : List (Entry NodeId Msg)) (turns : List Turn) (k : ℕ) :
    Prop where
  unique : ∀ {n m}, Lead log turns n k → Lead log turns m k → n = m
  start : ∀ {n p}, Held turns k n p → p.role = .start →
    p.master = 0 ∨ Lead log turns p.master k
  backup : ∀ {n m p}, Held turns k n p → p.role = .backup → Lead log turns m k →
    p.master = 0 ∨ p.master = m ∨ prio n < prio m

namespace History

variable {prio : NodeId → ℤ} {log : List (Entry NodeId Msg)} {turns : List Turn}

/-- The departed are not the zero id. -/
theorem zero_notMem_left (h : History prio log turns) {k : ℕ} {members left joined : List NodeId}
    (he : log[k]? = some (.confchg members left joined)) : 0 ∉ left := by
  intro h₀
  have hk : k < log.length := (List.getElem?_eq_some_iff.mp he).1
  exact h.zero_notMem (Nat.le_of_lt hk) ((h.wellFormed.confchg_at he).2.1 0 h₀)

/-- A member that claims the address while others depart knows the announced members that remain. -/
theorem knows_of_claims (h : History prio log turns) (hstart : StartsComplete log turns) {t : Turn}
    (ht : t ∈ turns) (hc : t.claims) {members left joined : List NodeId}
    (he : log[t.pos]? = some (.confchg members left joined)) (hturn : t.pre.InTurn left)
    {m : NodeId} (hm : Announced log t.pos m) (hv : m ∈ viewAfter (log.take (t.pos + 1))) :
    m ∈ ids t.pre.roster := by
  obtain ⟨e, ok, -, -, hclaims, -⟩ := h.turn t ht
  rcases Peer.claims_role (hclaims.mp hc) with hs | hb
  · refine hstart t ht hs members left joined he hturn m ?_ fun hj => ?_
    · rwa [viewAfter_take_succ he] at hv
    · exact (h.wellFormed.confchg_at he).2.2 m hj hm.mem_view
  · exact (h.backup_ids (h.held_of_claims ht hc) hb).mpr hm

/-- Among the announced members that remain, whoever claims the address comes first. -/
theorem le_of_claims (h : History prio log turns) (hstart : StartsComplete log turns) {t : Turn}
    (ht : t ∈ turns) (hc : t.claims) {members left joined : List NodeId}
    (he : log[t.pos]? = some (.confchg members left joined)) (hturn : t.pre.InTurn left)
    {m : NodeId} (hm : Announced log t.pos m) (hv : m ∈ viewAfter (log.take (t.pos + 1))) :
    prio m ≤ prio t.node := by
  have hs := h.sound (h.held_of_claims ht hc)
  refine (hs.le_of_inTurn (h.node_ne_zero ht) hturn).2.2 m ?_ ?_
  · exact h.knows_of_claims hstart ht hc he hturn hm hv
  · exact not_mem_left h.wellFormed he hm.mem_view hv

/-- While somebody leads who stays, nobody else claims the address. -/
theorem eq_of_lead_of_claims (h : History prio log turns) {t : Turn} (ht : t ∈ turns)
    (hr : Ruled prio log turns t.pos) (hc : t.claims) {m : NodeId}
    (hm : Lead log turns m t.pos) (hv : m ∈ viewAfter (log.take (t.pos + 1))) : m = t.node := by
  have hheld := h.held_of_claims ht hc
  have hsound := h.sound hheld
  obtain ⟨e, ok, he, -, hclaims, -⟩ := h.turn t ht
  rcases Peer.claims_cases (hclaims.mp hc) with ⟨members, left, joined, rfl, hrole, hturn⟩ |
    ⟨y, nm, rfl, -, -, hone, -⟩
  · exfalso
    obtain ⟨hml, -, hmax⟩ := hsound.le_of_inTurn (h.node_ne_zero ht) hturn
    have hm₀ : t.pre.master ≠ 0 := fun h₀ => h.zero_notMem_left he (h₀ ▸ hml)
    have hmleft := not_mem_left h.wellFormed he hm.mem_view hv
    rcases hrole with hs | hb
    · -- in start, the departed master is the leader
      rcases hr.start hheld hs with h₀ | hlead
      · exact hm₀ h₀
      · exact hmleft (hr.unique hlead hm ▸ hml)
    · -- a backup yields to the leader, which is on its list
      rcases hr.backup hheld hb hm with h₀ | heq | hlt
      · exact hm₀ h₀
      · exact hmleft (heq ▸ hml)
      · have hids := (h.backup_ids hheld hb).mpr (h.announced_of_lead hm)
        exact absurd (hmax m hids hmleft) (not_le.mpr hlt)
  · exact h.eq_of_alone hheld hone hm.mem_view

/-- Two members that claim the address with the same entry are the same. -/
theorem eq_of_claims (h : History prio log turns) (hd : Distinct prio log)
    (hstart : StartsComplete log turns) {t t' : Turn} (ht : t ∈ turns) (ht' : t' ∈ turns)
    (hk : t.pos = t'.pos) (hc : t.claims) (hc' : t'.claims) : t.node = t'.node := by
  have hheld := h.held_of_claims ht hc
  have hheld' := h.held_of_claims ht' hc'
  have hlen := h.lt_length ht
  obtain ⟨e, ok, he, -, hclaims, hv⟩ := h.turn t ht
  obtain ⟨e', ok', he', -, hclaims', hv'⟩ := h.turn t' ht'
  have heq : e = e' := Option.some.inj (he.symm.trans (hk ▸ he'))
  subst heq
  rcases Peer.claims_cases (hclaims.mp hc) with ⟨members, left, joined, rfl, -, hturn⟩ |
    ⟨y, nm, rfl, -, -, hone, -⟩
  · obtain ⟨members', left', joined', hcc, -, hturn'⟩ | ⟨y, nm, hcc, -⟩ :=
      Peer.claims_cases (hclaims'.mp hc')
    · cases hcc
      have hann (s : Turn) (hs : s ∈ turns) (hh : Held turns s.pos s.node s.pre)
          (hi : s.pre.InTurn left) : Announced log s.pos s.node :=
        (h.sound hh).announced _ ((h.sound hh).le_of_inTurn (h.node_ne_zero hs) hi).2.1
      have hle := h.le_of_claims hstart ht hc he hturn
        (hk ▸ hann t' ht' hheld' hturn') (hk ▸ hv')
      have hle' := h.le_of_claims hstart ht' hc' he' hturn'
        (hk ▸ hann t ht hheld hturn) (hk ▸ hv)
      exact h.eq_of_prio hd hlen (hk ▸ hlen) hv (hk ▸ hv') (le_antisymm hle' hle)
    · cases hcc
  · exact (h.eq_of_alone hheld hone (hk ▸ h.held_mem_view hheld')).symm

/-- A member that waits after a turn has waited before it, or has just joined. -/
theorem waiting_pred (h : History prio log turns) {t : Turn} (ht : t ∈ turns)
    (hr : t.post.role = .start ∨ t.post.role = .backup) :
    (t.post.Fresh ∧ JoinsAt log t.pos t.node) ∨ Held turns t.pos t.node t.pre := by
  have hrun : t.post.role ≠ .idle := by rcases hr with hr | hr <;> simp [hr]
  rcases h.pred ht (h.pre_running ht hrun) with hj | hheld
  · exact Or.inl ⟨((h.join_fresh ht hj).2 hrun).1, hj⟩
  · exact Or.inr hheld

/-- A message leaves the leaders who stay, unless its receiver is alone. -/
theorem lead_of_succ (h : History prio log turns) {t : Turn} (ht : t ∈ turns)
    (hn : ¬ t.claims) {y : NodeId} {m : Msg} (he : log[t.pos]? = some (.message y m)) {x : NodeId}
    (hx : Lead log turns x (t.pos + 1)) : Lead log turns x t.pos := by
  rcases (lead_succ.mp hx).2 with hx | ⟨t', ht', rfl, hk, hc⟩
  · exact hx
  · -- whoever claims the address with a message is alone, and so is the member of this turn
    exfalso
    have hheld := h.held_of_claims ht' hc
    obtain ⟨e, ok, he', -, hclaims, -⟩ := h.turn t' ht'
    rcases Peer.claims_cases (hclaims.mp hc) with ⟨members, left, joined, rfl, -⟩ |
      ⟨y', nm, rfl, -, -, hone, -⟩
    · rw [hk, he] at he'
      cases he'
    · have hv := h.mem_view ht
      rw [mem_view_message he, ← hk] at hv
      have hnode := h.eq_of_alone hheld hone hv
      exact hn (h.unique t ht t' ht' hnode hk.symm ▸ hc)

/-- One more entry leaves one leader. -/
theorem unique_succ (h : History prio log turns) (hd : Distinct prio log)
    (hstart : StartsComplete log turns) {k : ℕ} (hr : Ruled prio log turns k) {n m : NodeId}
    (hn : Lead log turns n (k + 1)) (hm : Lead log turns m (k + 1)) : n = m := by
  -- two leaders: old ones, an old and a new one, or two new ones
  obtain ⟨hnv, hn⟩ := lead_succ.mp hn
  obtain ⟨hmv, hm⟩ := lead_succ.mp hm
  rcases hn with hn | ⟨t, ht, rfl, hk, hc⟩ <;> rcases hm with hm | ⟨t', ht', rfl, hk', hc'⟩
  · exact hr.unique hn hm
  · subst hk'
    exact h.eq_of_lead_of_claims ht' hr hc' hn hnv
  · subst hk
    exact (h.eq_of_lead_of_claims ht hr hc hm hmv).symm
  · exact h.eq_of_claims hd hstart ht ht' (hk.trans hk'.symm) hc hc'

/-- A member that is still in start after a turn remembers the leader, or nobody. -/
theorem start_succ (h : History prio log turns) {t : Turn} (ht : t ∈ turns)
    (hr : Ruled prio log turns t.pos) (hs : t.post.role = .start) :
    t.post.master = 0 ∨ Lead log turns t.post.master (t.pos + 1) := by
  obtain ⟨e, ok, he, hpost, -, -⟩ := h.turn t ht
  rcases h.waiting_pred ht (Or.inl hs) with ⟨hfresh, -⟩ | hheld
  · exact Or.inl hfresh.2.2
  have hw := hs
  rw [hpost] at hw
  rcases (Peer.waiting_cases (Or.inl hw)).2 with ⟨members, left, joined, rfl, hc, hl, -⟩ |
    ⟨y, nm, rfl, hc, hrole⟩ | ⟨y, name, sql, rfl⟩
  · -- a configuration change that the master has survived
    have hs' : t.pre.role = .start := by rwa [hc] at hw
    rw [hpost, hc]
    rcases hr.start hheld hs' with h₀ | hlead
    · exact Or.inl h₀
    · refine Or.inr (hlead.succ ((h.wellFormed.mem_view_confchg he).mpr (Or.inl ⟨?_, hl hs'⟩)))
      exact hlead.mem_view
  · -- a state message, of the new master or of another member
    have hs' : t.pre.role = .start := by
      rcases hrole with hr | hr
      exacts [hr.trans hw, hr]
    rw [hpost, hc]
    have hkeep {x : NodeId} (hx : Lead log turns x t.pos) : Lead log turns x (t.pos + 1) :=
      hx.succ ((mem_view_message he).mpr hx.mem_view)
    by_cases hserves : nm.state.serves = true
    · simp only [Peer.note, hserves, if_true]
      exact Or.inr (hkeep (h.lead_of_message he hserves))
    · simp only [Peer.note, hserves]
      exact (hr.start hheld hs').imp id hkeep
  · -- a statement
    have hsame : t.post = t.pre := hpost
    rw [hsame] at hs ⊢
    refine (hr.start hheld hs).imp id fun hx => hx.succ ?_
    exact (mem_view_message he).mpr hx.mem_view

/-- A backup after a turn remembers the leader, or nobody, or yields to the leader. -/
theorem backup_succ (h : History prio log turns) (hd : Distinct prio log)
    (hstart : StartsComplete log turns) {t : Turn} (ht : t ∈ turns)
    (hr : Ruled prio log turns t.pos) (hb : t.post.role = .backup) {m : NodeId}
    (hm : Lead log turns m (t.pos + 1)) :
    t.post.master = 0 ∨ t.post.master = m ∨ prio t.node < prio m := by
  obtain ⟨e, ok, he, hpost, hclaims, hv⟩ := h.turn t ht
  rcases h.waiting_pred ht (Or.inr hb) with ⟨hfresh, -⟩ | hheld
  · simp [hfresh.1] at hb
  have hw := hb
  rw [hpost] at hw
  obtain ⟨hnone, hcase⟩ := Peer.waiting_cases (Or.inr hw)
  have hn : ¬ t.claims := fun hc => hnone (hclaims.mp hc)
  rcases hcase with ⟨members, left, joined, rfl, hc, -, -⟩ | ⟨y, nm, rfl, hc, hrole⟩ |
    ⟨y, name, sql, rfl⟩
  · have hb' : t.pre.role = .backup := by rwa [hc] at hw
    rw [hpost, hc]
    rcases (lead_succ.mp hm).2 with hm | ⟨t', ht', rfl, hk', hc'⟩
    · have hold := hr.backup hheld hb' hm
      exact hold
    · -- the new leader comes before every announced member that remains
      obtain ⟨e', ok', he', -, hclaims', hv'⟩ := h.turn t' ht'
      have heq : Entry.confchg members left joined = e' :=
        Option.some.inj (he.symm.trans (hk' ▸ he'))
      subst heq
      rcases Peer.claims_cases (hclaims'.mp hc') with ⟨members', left', joined', hcc, -, hturn⟩ |
        ⟨y, nm, hcc, -⟩
      · cases hcc
        have hann : Announced log t'.pos t.node := hk' ▸ ((h.sound hheld).complete hb').1
        have hle := h.le_of_claims hstart ht' hc' he' hturn hann (hk' ▸ hv)
        refine Or.inr (Or.inr (lt_of_le_of_ne hle fun heq => hn ?_))
        have hnode := h.eq_of_prio hd (h.lt_length ht) (h.lt_length ht') hv hv' heq
        exact h.unique t ht t' ht' hnode hk'.symm ▸ hc'
      · cases hcc
  · -- a state message: nobody becomes the leader with it but a member alone
    have hm' := h.lead_of_succ ht hn he hm
    rw [hpost, hc]
    by_cases hserves : nm.state.serves = true
    · simp only [Peer.note, hserves, if_true]
      exact Or.inr (Or.inl (hr.unique (h.lead_of_message he hserves) hm'))
    · simp only [Peer.note, hserves]
      rcases hrole with hrole | hrole
      · exact hr.backup hheld (hrole.trans hw) hm'
      · rcases hr.start hheld hrole with h₀ | hlead
        exacts [Or.inl h₀, Or.inr (Or.inl (hr.unique hlead hm'))]
  · -- a statement
    have hsame : t.post = t.pre := hpost
    rw [hsame] at hb ⊢
    exact hr.backup hheld hb (h.lead_of_succ ht hn he hm)

/-- **One leader after every prefix.** -/
theorem ruled (h : History prio log turns) (hd : Distinct prio log)
    (hstart : StartsComplete log turns) (k : ℕ) : Ruled prio log turns k := by
  induction k with
  | zero =>
    -- nobody has handled anything
    refine ⟨?_, ?_, ?_⟩
    · rintro n m ⟨t, -, -, hk, -⟩
      omega
    · rintro n p ⟨t, -, -, hk, -⟩
      omega
    · rintro n m p ⟨t, -, -, hk, -⟩
      omega
  | succ k ih =>
    refine ⟨fun hn hm => h.unique_succ hd hstart ih hn hm, fun hp hs => ?_, fun hp hb hm => ?_⟩
    · obtain ⟨t, ht, rfl, hk, rfl, -⟩ := hp
      obtain rfl : t.pos = k := by omega
      exact h.start_succ ht ih hs
    · obtain ⟨t, ht, rfl, hk, rfl, -⟩ := hp
      obtain rfl : t.pos = k := by omega
      exact h.backup_succ hd hstart ht ih hb hm

/-- **At most one member leads.** -/
theorem lead_unique (h : History prio log turns) (hd : Distinct prio log)
    (hstart : StartsComplete log turns) {k : ℕ} {n m : NodeId} (hn : Lead log turns n k)
    (hm : Lead log turns m k) : n = m :=
  (h.ruled hd hstart k).unique hn hm

end History

end CpgFailover
