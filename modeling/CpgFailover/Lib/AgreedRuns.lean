import CpgFailover.Lib.Agreed
import CpgFailover.Lib.Transition

/-!
# Runs of a group under agreed delivery

What holds in every run of a group: the log is well formed, every member has handled exactly the
entries from its join up to its next one, each once, and every message in the log was multicast by
its sender while handling an earlier entry of the same membership (or by a local step).

## Main definitions

* `Quiet`: a local step that neither connects nor disconnects
* `Group.Sound`: the invariant of a run
* `Kind`: how far a connection has come

## Main results

* `Group.Sound.of_reachesWhen`: the invariant holds in every state reached
* `Group.site_invariant`: the rule for an invariant of the single processes
* `Group.record_condition`: a condition on every handling holds of every record
* `Group.recordsOf_sorted`: a process handles entries in the agreed order
-/

namespace Agreed

open Transition Relation

variable {ι M S O A X : Type}

/-- A local step that meets `C` and neither connects nor disconnects. -/
def Quiet (B : Behaviour ι M S O A X) (C : ι → S → A → Prop) (n : ι) (s s' : S) : Prop :=
  ∃ a sig, C n s a ∧ B.act n s a = some (s', sig) ∧ (sig = .quiet ∨ ∃ m, sig = .send m)

/-- A message a process multicasts by a local step. -/
def SentLocally (B : Behaviour ι M S O A X) (n : ι) (m : M) : Prop :=
  ∃ s a s', B.act n s a = some (s', .send m)

/-- The message comes from `n` handling an entry from `i` on, still in the same membership at `j`,
or from a local step of `n`. -/
def SaidBy (B : Behaviour ι M S O A X) (log : List (Entry ι M)) (tr : List (Record ι S O))
    (n : ι) (m : M) (j : ℕ) : Prop :=
  (∃ r ∈ tr, r.node = n ∧ r.pos < j ∧ Stays log n r.pos j ∧ m ∈ B.mcast r.out) ∨ SentLocally B n m

/-- How far a connection has come; an admitted member has not handled its own join yet. -/
inductive Kind where
  | out
  | joining
  | admitted
  | active
deriving DecidableEq

def Conn.kind : Conn → Kind
  | .out => .out
  | .joining => .joining
  | .member since next => if next = since then .admitted else .active

/-- The kind of a connection after a local step. -/
def Signal.kind (k : Kind) : Signal M → Kind
  | .quiet | .send _ => k
  | .connect => .joining
  | .disconnect => .out

/-! ## Who said what -/

section SaidBy

variable {B : Behaviour ι M S O A X} {log : List (Entry ι M)} {tr tr' : List (Record ι S O)} {n : ι}
  {m : M} {j : ℕ}

theorem SaidBy.mono_transcript (h : SaidBy B log tr n m j) (htr : ∀ r ∈ tr, r ∈ tr') :
    SaidBy B log tr' n m j := by
  rcases h with ⟨r, hr, hn, hp, hs, hm⟩ | h
  · exact Or.inl ⟨r, htr r hr, hn, hp, hs, hm⟩
  · exact Or.inr h

theorem SaidBy.append {e : Entry ι M} (h : SaidBy B log tr n m j) (hj : j ≤ log.length) :
    SaidBy B (log ++ [e]) tr n m j := by
  rcases h with ⟨r, hr, hn, hp, hs, hm⟩ | h
  · exact Or.inl ⟨r, hr, hn, hp, (stays_append_iff hj).mpr hs, hm⟩
  · exact Or.inr h

/-- What waits keeps waiting while its sender is in the view. -/
theorem SaidBy.extend {e : Entry ι M} (h : SaidBy B log tr n m log.length)
    (he : n ∈ viewAfter log → n ∈ e.view (viewAfter log)) :
    SaidBy B (log ++ [e]) tr n m (log ++ [e]).length := by
  rcases h with ⟨r, hr, hn, hp, hs, hm⟩ | h
  · refine Or.inl ⟨r, hr, hn, by simp; omega, hs.append (he ?_), hm⟩
    simpa using hs.mem hp
  · exact Or.inr h

end SaidBy

namespace Group

/-- The invariant of the runs of a group whose local steps meet `C`. -/
structure Sound [DecidableEq ι] (B : Behaviour ι M S O A X) (C : ι → S → A → Prop)
    (g : Group ι M S O) : Prop where
  /-- The log is well formed. -/
  log : LogSound g.log
  /-- A member joined at `since` and has stayed in the view. -/
  member : ∀ {n since next}, (g.site n).conn = .member since next →
    (g.site n).up = true ∧ since ≤ next ∧ next ≤ g.log.length ∧ since < g.log.length ∧
      JoinsAt g.log since n ∧ Stays g.log n since g.log.length
  /-- Only a running process is connecting. -/
  joining : ∀ {n}, (g.site n).conn = .joining → (g.site n).up = true
  /-- A record is a handling of its entry by a member of the view. -/
  record : ∀ r ∈ g.transcript, ∃ e x, g.log[r.pos]? = some e ∧
    B.deliver r.node r.pre e x = some (r.post, r.out) ∧
      r.node ∈ viewAfter (g.log.take (r.pos + 1))
  /-- A process handles an entry at most once. -/
  unique : ∀ r ∈ g.transcript, ∀ r' ∈ g.transcript, r.node = r'.node → r.pos = r'.pos → r = r'
  /-- A handling is the first of its membership, or follows the handling of the entry before. -/
  origin : ∀ r ∈ g.transcript, JoinsAt g.log r.pos r.node ∨
    ∃ r' ∈ g.transcript, r'.node = r.node ∧ r'.pos + 1 = r.pos ∧
      r.node ∈ viewAfter (g.log.take r.pos) ∧ ReflTransGen (Quiet B C r.node) r'.post r.pre
  /-- A member has handled everything from its join to its next entry, and nothing after. -/
  current : ∀ {n since next}, (g.site n).conn = .member since next →
    (∀ i, since ≤ i → i < next → ∃ r ∈ g.transcript, r.node = n ∧ r.pos = i) ∧
      (∀ r ∈ g.transcript, r.node = n → r.pos < next) ∧
      (since < next → ∃ r ∈ g.transcript, r.node = n ∧ r.pos + 1 = next ∧
        ReflTransGen (Quiet B C n) r.post (g.site n).st)
  /-- A process outside the group has handled nothing beyond the log. -/
  bounded : ∀ r ∈ g.transcript, r.pos < g.log.length
  /-- The messages of the log come from their senders. -/
  said : ∀ {k y m}, g.log[k]? = some (.message y m) → SaidBy B g.log g.transcript y m k
  /-- So do the messages waiting to be ordered. -/
  waiting : ∀ {n m}, m ∈ (g.site n).outbox → SaidBy B g.log g.transcript n m g.log.length
  /-- What a member has multicast in its present membership is ordered or waiting. -/
  heard : ∀ r ∈ g.transcript, Stays g.log r.node r.pos g.log.length → ∀ m ∈ B.mcast r.out,
    m ∈ (g.site r.node).outbox ∨ ∃ k, r.pos < k ∧ g.log[k]? = some (.message r.node m)

variable [DecidableEq ι] {B : Behaviour ι M S O A X} {C : ι → S → A → Prop} {g g' : Group ι M S O}

theorem sound_init : Sound B C (init B) where
  log := .nil
  member h := by simp [init] at h
  joining h := by simp [init] at h
  record r h := by simp [init] at h
  unique r h := by simp [init] at h
  origin r h := by simp [init] at h
  current h := by simp [init] at h
  bounded r h := by simp [init] at h
  said h := by simp [init] at h
  waiting h := by simp [init] at h
  heard r h := by simp [init] at h

/-! ## Steps that change one site only -/

/-- Replacing a site keeps the invariant when a member stays the member it was, by a quiet step,
and what waits is either old, sent locally, or still all there. -/
theorem Sound.setSite (h : Sound B C g) (n : ι) (p : Site M S)
    (hmem : ∀ {since next}, p.conn = .member since next →
      p.up = true ∧ (g.site n).conn = .member since next ∧
        ReflTransGen (Quiet B C n) (g.site n).st p.st)
    (hjoin : p.conn = .joining → p.up = true)
    (hout : ∀ m ∈ p.outbox, m ∈ (g.site n).outbox ∨ SentLocally B n m)
    (hall : ∀ m ∈ (g.site n).outbox, m ∈ p.outbox) : Sound B C (g.setSite n p) where
  log := h.log
  -- The log and the transcript stay; whatever speaks of the sites has a new case at `n`.
  member {m since next} hc := by
    by_cases hm : m = n
    · subst hm
      simp only [Group.setSite_self] at hc ⊢
      obtain ⟨hup, hc', -⟩ := hmem hc
      exact ⟨hup, (h.member hc').2⟩
    · simp only [Group.setSite_of_ne hm] at hc ⊢
      exact h.member hc
  joining {m} hc := by
    by_cases hm : m = n
    · subst hm
      simp only [Group.setSite_self] at hc ⊢
      exact hjoin hc
    · simp only [Group.setSite_of_ne hm] at hc ⊢
      exact h.joining hc
  record := h.record
  unique := h.unique
  origin := h.origin
  current {m since next} hc := by
    by_cases hm : m = n
    · subst hm
      simp only [Group.setSite_self] at hc ⊢
      obtain ⟨-, hc', hq⟩ := hmem hc
      obtain ⟨h₁, h₂, h₃⟩ := h.current hc'
      refine ⟨h₁, h₂, fun hlt => ?_⟩
      -- the quiet step extends the chain from the last record
      obtain ⟨r, hr, hn, hp, hs⟩ := h₃ hlt
      exact ⟨r, hr, hn, hp, hs.trans hq⟩
    · simp only [Group.setSite_of_ne hm] at hc ⊢
      exact h.current hc
  bounded := h.bounded
  said := h.said
  waiting {m x} hx := by
    by_cases hm : m = n
    · subst hm
      simp only [Group.setSite_self] at hx ⊢
      rcases hout x hx with hx | hx
      exacts [h.waiting hx, Or.inr hx]
    · simp only [Group.setSite_of_ne hm] at hx ⊢
      exact h.waiting hx
  heard r hr hs x hx := by
    rcases h.heard r hr hs x hx with ho | hk
    · left
      by_cases hm : r.node = n
      · simp only [hm, Group.setSite_self]
        exact hall x (hm ▸ ho)
      · simpa only [Group.setSite_of_ne hm] using ho
    · exact Or.inr hk

theorem Sound.act (h : Sound B C g) {n : ι} {a : A} {s : S} {sig : Signal M} {p : Site M S}
    (hC : C n (g.site n).st a) (hup : (g.site n).up = true)
    (ha : B.act n (g.site n).st a = some (s, sig)) (hp : (g.site n).signal s sig = some p) :
    Sound B C (g.setSite n p) := by
  cases sig with
  | quiet =>
    obtain rfl := Option.some.inj hp
    exact h.setSite n _ (fun hc => ⟨hup, hc, .single ⟨a, _, hC, ha, Or.inl rfl⟩⟩) (fun _ => hup)
      (fun m hm => Or.inl hm) fun m hm => hm
  | connect =>
    simp only [Site.signal] at hp
    split_ifs at hp
    obtain rfl := Option.some.inj hp
    exact h.setSite n _ (fun hc => by simp at hc) (fun _ => hup) (fun m hm => Or.inl hm)
      fun m hm => hm
  | disconnect =>
    obtain rfl := Option.some.inj hp
    exact h.setSite n _ (fun hc => by simp at hc) (fun _ => hup) (fun m hm => Or.inl hm)
      fun m hm => hm
  | send m =>
    simp only [Site.signal] at hp
    split at hp
    · obtain rfl := Option.some.inj hp
      refine h.setSite n _ (fun hc => ⟨hup, hc, .single ⟨a, _, hC, ha, Or.inr ⟨m, rfl⟩⟩⟩)
        (fun _ => hup) ?_ ?_
      · intro x hx
        rcases List.mem_append.mp hx with hx | hx
        · exact Or.inl hx
        · obtain rfl := List.mem_singleton.mp hx
          -- the new message is sent by this local step
          exact Or.inr ⟨_, _, _, ha⟩
      · exact fun x hx => List.mem_append_left _ hx
    · cases hp

/-! ## Handling an entry -/

section Handling

variable {n : ι} {since next : ℕ} {e : Entry ι M} {x : X} {s : S} {out : O}

/-- A member has handled nothing at or after its next entry. -/
theorem Sound.handled_unique (h : Sound B C g) (hc : (g.site n).conn = .member since next) :
    ∀ r ∈ (g.handled B n since next s out).transcript,
      ∀ r' ∈ (g.handled B n since next s out).transcript,
        r.node = r'.node → r.pos = r'.pos → r = r' := by
  have hnone {r : Record ι S O} (hr : r ∈ g.transcript) (hn : r.node = n) : r.pos ≠ next :=
    Nat.ne_of_lt ((h.current hc).2.1 r hr hn)
  intro r hr r' hr' hn hp
  rcases mem_handled.mp hr with hr | rfl <;> rcases mem_handled.mp hr' with hr' | rfl
  · exact h.unique r hr r' hr' hn hp
  · exact absurd hp (hnone hr hn)
  · exact absurd hp.symm (hnone hr' hn.symm)
  · rfl

/-- The first entry of a membership is the join; any other follows a handled one. -/
theorem Sound.handled_origin (h : Sound B C g) (hc : (g.site n).conn = .member since next) :
    ∀ r ∈ (g.handled B n since next s out).transcript, JoinsAt g.log r.pos r.node ∨
      ∃ r' ∈ (g.handled B n since next s out).transcript, r'.node = r.node ∧ r'.pos + 1 = r.pos ∧
        r.node ∈ viewAfter (g.log.take r.pos) ∧ ReflTransGen (Quiet B C r.node) r'.post r.pre := by
  obtain ⟨-, hsn, hnl, -, hj, hst⟩ := h.member hc
  intro r hr
  rcases mem_handled.mp hr with hr | rfl
  · rcases h.origin r hr with hj | ⟨r', hr', hn, hp, hv, hq⟩
    · exact Or.inl hj
    · exact Or.inr ⟨r', mem_handled.mpr (Or.inl hr'), hn, hp, hv, hq⟩
  · rcases Nat.lt_or_ge since next with hlt | hge
    · obtain ⟨r', hr', hn, hp, hq⟩ := (h.current hc).2.2 hlt
      exact Or.inr ⟨r', mem_handled.mpr (Or.inl hr'), hn, hp, hst next hlt hnl, hq⟩
    · obtain rfl : since = next := by omega
      exact Or.inl hj

/-- What a member has handled grows by its next entry; what any other has handled stays. -/
theorem Sound.handled_current (h : Sound B C g) (hc : (g.site n).conn = .member since next)
    {m : ι} {since' next' : ℕ}
    (hc' : ((g.handled B n since next s out).site m).conn = .member since' next') :
    (∀ i, since' ≤ i → i < next' →
      ∃ r ∈ (g.handled B n since next s out).transcript, r.node = m ∧ r.pos = i) ∧
    (∀ r ∈ (g.handled B n since next s out).transcript, r.node = m → r.pos < next') ∧
    (since' < next' → ∃ r ∈ (g.handled B n since next s out).transcript, r.node = m ∧
      r.pos + 1 = next' ∧
      ReflTransGen (Quiet B C m) r.post ((g.handled B n since next s out).site m).st) := by
  by_cases hm : m = n
  · subst hm
    obtain ⟨hall, hbelow, -⟩ := h.current hc
    simp only [handled_self, Conn.member.injEq] at hc' ⊢
    obtain ⟨rfl, rfl⟩ := hc'
    have hnew : (⟨m, next, (g.site m).st, s, out⟩ : Record ι S O) ∈
        (g.handled B m since next s out).transcript := mem_handled.mpr (Or.inr rfl)
    refine ⟨fun i hi hi' => ?_, fun r hr hn => ?_, fun _ => ⟨_, hnew, rfl, rfl, .refl⟩⟩
    · rcases Nat.lt_or_ge i next with hlt | hge
      · obtain ⟨r, hr, hn, hp⟩ := hall i hi hlt
        exact ⟨r, mem_handled.mpr (Or.inl hr), hn, hp⟩
      · exact ⟨_, hnew, rfl, by simp; omega⟩
    · rcases mem_handled.mp hr with hr | rfl
      · exact Nat.lt_succ_of_lt (hbelow r hr hn)
      · exact Nat.lt_succ_self next
  · simp only [handled_of_ne hm] at hc' ⊢
    obtain ⟨hall, hbelow, hlast⟩ := h.current hc'
    refine ⟨fun i hi hi' => ?_, fun r hr hn => ?_, fun hlt => ?_⟩
    · obtain ⟨r, hr, hn, hp⟩ := hall i hi hi'
      exact ⟨r, mem_handled.mpr (Or.inl hr), hn, hp⟩
    · rcases mem_handled.mp hr with hr | rfl
      · exact hbelow r hr hn
      · exact absurd hn.symm hm
    · obtain ⟨r, hr, hn, hp, hq⟩ := hlast hlt
      exact ⟨r, mem_handled.mpr (Or.inl hr), hn, hp, hq⟩

/-- What a handling multicasts goes to the outbox. -/
theorem Sound.handled_heard (h : Sound B C g) :
    ∀ r ∈ (g.handled B n since next s out).transcript, Stays g.log r.node r.pos g.log.length →
      ∀ m ∈ B.mcast r.out, m ∈ ((g.handled B n since next s out).site r.node).outbox ∨
        ∃ k, r.pos < k ∧ g.log[k]? = some (.message r.node m) := by
  intro r hr hs m hm
  by_cases hn : r.node = n
  · simp only [hn, handled_self, List.mem_append]
    rcases mem_handled.mp hr with hr | rfl
    · rcases h.heard r hr hs m hm with ho | hk
      · exact Or.inl (Or.inl (hn ▸ ho))
      · exact Or.inr (hn ▸ hk)
    · exact Or.inl (Or.inr hm)
  · simp only [handled_of_ne hn]
    rcases mem_handled.mp hr with hr | rfl
    · exact h.heard r hr hs m hm
    · exact absurd rfl hn

/-- A handling keeps the invariant. -/
theorem Sound.handled (h : Sound B C g) (hc : (g.site n).conn = .member since next)
    (he : g.log[next]? = some e) (hd : B.deliver n (g.site n).st e x = some (s, out)) :
    Sound B C (g.handled B n since next s out) := by
  obtain ⟨hup, hsn, hnl, hsl, hj, hst⟩ := h.member hc
  have hlen : next < g.log.length := (List.getElem?_eq_some_iff.mp he).1
  have hview : n ∈ viewAfter (g.log.take (next + 1)) := hst _ (by omega) (by omega)
  have hold {r : Record ι S O} (hr : r ∈ g.transcript) :
      r ∈ (g.handled B n since next s out).transcript := mem_handled.mpr (Or.inl hr)
  constructor
  case log => exact h.log
  case member =>
    intro m since' next' hc'
    by_cases hm : m = n
    · subst hm
      simp only [handled_self, handled_log, Conn.member.injEq] at hc' ⊢
      obtain ⟨rfl, rfl⟩ := hc'
      exact ⟨hup, by omega, by omega, hsl, hj, hst⟩
    · simp only [handled_of_ne hm] at hc' ⊢
      exact h.member hc'
  case joining =>
    intro m hc'
    by_cases hm : m = n
    · subst hm
      simp at hc'
    · simp only [handled_of_ne hm] at hc' ⊢
      exact h.joining hc'
  case record =>
    intro r hr
    rcases mem_handled.mp hr with hr | rfl
    · exact h.record r hr
    · exact ⟨e, x, he, hd, hview⟩
  case unique => exact h.handled_unique hc
  case origin => exact h.handled_origin hc
  case current => exact h.handled_current hc
  case bounded =>
    intro r hr
    rcases mem_handled.mp hr with hr | rfl
    exacts [h.bounded r hr, hlen]
  case said => exact fun hk => (h.said hk).mono_transcript fun r hr => hold hr
  case waiting =>
    intro m y hy
    by_cases hm : m = n
    · subst hm
      simp only [handled_self, List.mem_append] at hy
      rcases hy with hy | hy
      · exact (h.waiting hy).mono_transcript fun r hr => hold hr
      -- a message of the new handling, in the same membership
      · exact Or.inl ⟨_, mem_handled.mpr (Or.inr rfl), rfl, hlen, hst.mono hsn le_rfl, hy⟩
    · simp only [handled_of_ne hm] at hy
      exact (h.waiting hy).mono_transcript fun r hr => hold hr
  case heard => exact h.handled_heard

end Handling

/-! ## Growing the log -/

/-- Appending an entry keeps the invariant when no member loses its place, nobody becomes a member
but at the new entry, and what waited waits still or is the new entry. -/
theorem Sound.append (h : Sound B C g) {e : Entry ι M} {site : ι → Site M S}
    (hlog : LogSound (g.log ++ [e]))
    (hmem : ∀ {n since next}, (site n).conn = .member since next →
      ((g.site n).conn = .member since next ∧ (site n).up = (g.site n).up ∧
        (site n).st = (g.site n).st ∧ n ∈ e.view g.view) ∨
      (since = g.log.length ∧ next = g.log.length ∧ (site n).up = true ∧
        JoinsAt (g.log ++ [e]) g.log.length n))
    (hjoin : ∀ {n}, (site n).conn = .joining → (site n).up = true)
    (hout : ∀ {n m}, m ∈ (site n).outbox → m ∈ (g.site n).outbox ∧ (n ∈ g.view → n ∈ e.view g.view))
    (hsaid : ∀ {y m}, e = .message y m → m ∈ (g.site y).outbox)
    (hall : ∀ {n m}, n ∈ g.view → n ∈ e.view g.view → m ∈ (g.site n).outbox →
      m ∈ (site n).outbox ∨ e = .message n m) :
    Sound B C { g with log := g.log ++ [e], site := site } where
  log := hlog
  member {n since next} hc := by
    rcases hmem hc with ⟨hc', hup, -, hv⟩ | ⟨rfl, rfl, hup, hj⟩
    · obtain ⟨hup', h₁, h₂, h₃, hj, hst⟩ := h.member hc'
      exact ⟨hup ▸ hup', h₁, by simp; omega, by simp; omega, hj.append, hst.append hv⟩
    -- a new member: the only view since its join is that of the entry itself
    · refine ⟨hup, le_rfl, by simp, by simp, hj, fun k hk hk' => ?_⟩
      simp only [List.length_append, List.length_singleton] at hk'
      obtain rfl : k = g.log.length + 1 := by omega
      obtain ⟨ms, l, j, hk, hn⟩ := hj
      exact (hlog.mem_view_confchg hk).mpr (Or.inr hn)
  joining := hjoin
  record r hr := by
    obtain ⟨e', x, he, hd, hv⟩ := h.record r hr
    refine ⟨e', x, getElem?_append_one he, hd, ?_⟩
    rwa [take_append_one (h.bounded r hr)]
  unique := h.unique
  origin r hr := by
    rcases h.origin r hr with hj | ⟨r', hr', hn, hp, hv, hq⟩
    · exact Or.inl hj.append
    · refine Or.inr ⟨r', hr', hn, hp, ?_, hq⟩
      rwa [take_append_one (Nat.le_of_lt (h.bounded r hr))]
  current {n since next} hc := by
    rcases hmem hc with ⟨hc', -, hst, -⟩ | ⟨rfl, rfl, -, -⟩
    · have hcur := h.current hc'
      rwa [← hst] at hcur
    -- a new member has handled nothing of this membership yet
    · exact ⟨fun i hi hi' => by omega, fun r hr _ => h.bounded r hr, fun hlt => by omega⟩
  bounded r hr := by
    have := h.bounded r hr
    simp only [List.length_append, List.length_singleton]
    omega
  said {k y m} hk := by
    rcases getElem?_snoc_cases hk with hk | ⟨rfl, rfl⟩
    · exact (h.said hk).append (Nat.le_of_lt (List.getElem?_eq_some_iff.mp hk).1)
    -- the message that is ordered was waiting
    · exact (h.waiting (hsaid rfl)).append le_rfl
  waiting {n m} hm := by
    obtain ⟨hm', hv⟩ := hout hm
    exact (h.waiting hm').extend hv
  heard r hr hs m hm := by
    have hb := h.bounded r hr
    rcases h.heard r hr hs.of_append m hm with ho | ⟨k, hp, hk⟩
    · have hv : r.node ∈ g.view := by simpa [view] using hs.of_append.mem hb
      have hv' : r.node ∈ e.view g.view := by
        have hm := hs.mem (by simp; omega)
        rwa [List.take_length, viewAfter_snoc] at hm
      -- a message that waited waits still, or is the entry
      rcases hall hv hv' ho with ho | rfl
      · exact Or.inl ho
      · exact Or.inr ⟨_, hb, by simp⟩
    · exact Or.inr ⟨k, hp, getElem?_append_one hk⟩

theorem Sound.order (h : Sound B C g) {n : ι} {m : M} {rest : List M} (hv : n ∈ g.view)
    (hout : (g.site n).outbox = m :: rest) :
    Sound B C
      { g.setSite n { g.site n with outbox := rest } with log := g.log ++ [.message n m] } := by
  have hsite (y : ι) : (g.setSite n { g.site n with outbox := rest }).site y =
      { g.site y with outbox := if y = n then rest else (g.site y).outbox } := by
    by_cases hy : y = n
    · subst hy; simp
    · simp [Group.setSite_of_ne, hy]
  -- only the outbox of the sender changes, by the message that is ordered
  refine h.append (e := .message n m) (.message h.log hv) ?_ ?_ ?_ ?_ ?_
  · intro y since next hc
    rw [hsite] at hc ⊢
    have hm := h.member hc
    exact Or.inl ⟨hc, rfl, rfl, by simpa [view, Entry.view] using hm.2.2.2.2.2.mem hm.2.2.2.1⟩
  · intro y hc
    rw [hsite] at hc ⊢
    exact h.joining hc
  · intro y x hx
    rw [hsite] at hx
    refine ⟨?_, id⟩
    by_cases hy : y = n
    · subst hy
      simp only [if_true] at hx
      exact hout ▸ List.mem_cons_of_mem _ hx
    · simpa only [if_neg hy] using hx
  · rintro y x ⟨⟩
    exact hout ▸ List.mem_cons_self
  · intro y x _ _ hx
    rw [hsite]
    by_cases hy : y = n
    · subst hy
      rw [hout] at hx
      rcases List.mem_cons.mp hx with rfl | hx
      · exact Or.inr rfl
      · exact Or.inl (by simpa using hx)
    · exact Or.inl (by simpa only [if_neg hy] using hx)

theorem Sound.change (h : Sound B C g) {left joined : List ι} (hc : g.CanChange left joined) :
    Sound B C (g.change left joined) := by
  obtain ⟨-, hjn, -, hl, hj⟩ := hc
  have hview {n : ι} : n ∈ Entry.view (M := M) (.confchg (g.members left joined) left joined) g.view ↔
      n ∈ g.view ∧ n ∉ left ∨ n ∈ joined := by simp [Entry.view, members]
  have hdisj {n : ι} (hn : n ∈ joined) : n ∉ left := fun hnl => (hj n hn).1 (hl n hnl).1
  have hlog : LogSound (g.log ++ [.confchg (g.members left joined) left joined]) :=
    .confchg h.log hjn (fun n hn => (hl n hn).1) fun n hn => (hj n hn).1
  refine h.append hlog ?_ ?_ ?_ ?_ ?_
  · intro n since next hn
    by_cases hnl : n ∈ left
    -- the departed are no members
    · simp only [if_pos hnl] at hn
      have := (hl n hnl).2
      simp [hn, Conn.isMember] at this
    · simp only [if_neg hnl] at hn ⊢
      by_cases hnj : n ∈ joined
      -- the joined become members with this entry
      · simp only [if_pos hnj, Site.enter, Conn.member.injEq] at hn ⊢
        refine Or.inr ⟨hn.1.symm, hn.2.symm, h.joining (hj n hnj).2, ?_⟩
        exact ⟨g.members left joined, left, joined, by simp, hnj⟩
      · simp only [if_neg hnj] at hn ⊢
        have hm := h.member hn
        -- anyone else keeps its place in the view
        have hv : n ∈ g.view := by simpa [view] using hm.2.2.2.2.2.mem hm.2.2.2.1
        exact Or.inl ⟨hn, trivial, trivial, hview.mpr (Or.inl ⟨hv, hnl⟩)⟩
  · intro n hn
    split_ifs at hn ⊢
    · exact h.joining hn
    · simp [Site.enter] at hn
    · exact h.joining hn
  · intro n m hm
    by_cases hnl : n ∈ left
    · simp [hnl] at hm
    · refine ⟨?_, fun hv => hview.mpr (Or.inl ⟨hv, hnl⟩)⟩
      by_cases hnj : n ∈ joined <;> simpa [hnl, hnj, Site.enter] using hm
  · intro y m he
    cases he
  · intro n m hv hv' hm
    rcases hview.mp hv' with ⟨-, hnl⟩ | hnj
    · have hnj : n ∉ joined := fun hnj => (hj n hnj).1 hv
      exact Or.inl (by simpa [hnl, hnj] using hm)
    · exact absurd hv (hj n hnj).1

/-! ## Every run -/

theorem Sound.step (h : Sound B C g) {a : Action ι A X}
    (hC : ∀ n l, a = .act n l → C n (g.site n).st l) (hs : g.step B a = some g') :
    Sound B C g' := by
  cases stepTo_of_step hs with
  | act hup ha hp => exact h.act (hC _ _ rfl) hup ha hp
  | deliver hc he hd => exact h.handled hc he hd
  | order hv hout => exact h.order hv hout
  | confchg hc => exact h.change hc
  | crash n =>
    exact h.setSite n _ (fun hc => by simp at hc) (fun hc => by simp at hc)
      (fun m hm => Or.inl hm) fun m hm => hm
  | @boot n hup =>
    exact h.setSite n _ (fun hc => absurd (h.member hc).1 hup) (fun _ => rfl)
      (fun m hm => Or.inl hm) fun m hm => hm

/-- **The invariant of a run** holds in every state reached. -/
theorem Sound.of_reachesWhen {ok : Group ι M S O → Action ι A X → Prop}
    (hC : ∀ {g n a}, ok g (.act n a) → C n (g.site n).st a)
    (h : ReachesWhen (Group.step B) ok (init B) g) : Sound B C g :=
  h.invariant sound_init fun _ _ _ _ ih hok hs => ih.step (fun _ _ ha => hC (ha ▸ hok)) hs

/-- The invariant with no condition on the local steps. -/
theorem Sound.of_reaches (h : Reaches (Group.step B) (init B) g) :
    Sound B (fun _ _ _ => True) g :=
  .of_reachesWhen (fun _ => trivial) h

/-- **A process has handled every entry since it joined.** -/
theorem Sound.exists_record (h : Sound B C g) {r : Record ι S O} (hr : r ∈ g.transcript) {j k : ℕ}
    (hjk : j ≤ k) (hk : k ≤ r.pos) (hs : Stays g.log r.node j (r.pos + 1)) :
    ∃ r' ∈ g.transcript, r'.node = r.node ∧ r'.pos = k := by
  -- Induction on how far back the entry is.
  induction hd : r.pos - k generalizing r with
  | zero => exact ⟨r, hr, rfl, by omega⟩
  | succ i ih =>
    rcases h.origin r hr with hjoin | ⟨r', hr', hn, hpos, -, -⟩
    · exact absurd hjoin (h.log.not_joinsAt (hs r.pos (by omega) (Nat.le_succ _)))
    · have hs' : Stays g.log r'.node j (r'.pos + 1) := hn ▸ hs.mono le_rfl (by omega)
      obtain ⟨r'', hr'', hn', hk'⟩ := ih hr' (by omega) hs' (by omega)
      exact ⟨r'', hr'', hn'.trans hn, hk'⟩

omit [DecidableEq ι] in
/-- The messages of a process that stay where they are. -/
theorem outbox_grows [DecidableEq ι] {a : Action ι A X} (hs : g.step B a = some g')
    (ha : match a with | .order _ | .confchg _ _ => False | _ => True) (m : ι) :
    g'.log = g.log ∧ ∃ extra, (g'.site m).outbox = (g.site m).outbox ++ extra := by
  have hset (n : ι) (p : Site M S) (hp : ∃ extra, p.outbox = (g.site n).outbox ++ extra) :
      ∃ extra, ((g.setSite n p).site m).outbox = (g.site m).outbox ++ extra := by
    by_cases hm : m = n
    · subst hm
      simpa using hp
    · exact ⟨[], by simp [setSite_of_ne hm]⟩
  cases stepTo_of_step hs with
  | @act n a s sig p hup hact hp =>
    refine ⟨rfl, hset n p ?_⟩
    cases sig with
    | quiet | disconnect =>
      obtain rfl := Option.some.inj hp
      exact ⟨[], (List.append_nil _).symm⟩
    | connect =>
      obtain ⟨-, hp⟩ := Option.ite_none_right_eq_some.mp hp
      obtain rfl := Option.some.inj hp
      exact ⟨[], (List.append_nil _).symm⟩
    | send x =>
      simp only [Site.signal] at hp
      split at hp
      · obtain rfl := Option.some.inj hp
        exact ⟨[x], rfl⟩
      · cases hp
  | @deliver n x since next e s out hc he hd =>
    exact ⟨rfl, hset n _ ⟨B.mcast out, rfl⟩⟩
  | crash n => exact ⟨rfl, hset n _ ⟨[], (List.append_nil _).symm⟩⟩
  | @boot n hup => exact ⟨rfl, hset n _ ⟨[], (List.append_nil _).symm⟩⟩
  | order | confchg => exact ha.elim

/-! ## Invariants of the single processes -/

/-- A condition on the steps of the group that speaks of local steps and of handlings. -/
structure SiteRule (B : Behaviour ι M S O A X) (ok : Group ι M S O → Action ι A X → Prop)
    (I : ι → Kind → S → Prop) : Prop where
  boot : ∀ n, I n .out (B.boot n)
  act : ∀ {g n a k s sig}, ok g (.act n a) → I n k (g.site n).st →
    B.act n (g.site n).st a = some (s, sig) → I n (sig.kind k) s
  deliver : ∀ {g n x k e s out}, ok g (.deliver n x) → I n k (g.site n).st →
    (∃ since next, (g.site n).conn = .member since next ∧ g.log[next]? = some e) →
    B.deliver n (g.site n).st e x = some (s, out) → I n .active s
  enter : ∀ {n s}, I n .joining s → I n .admitted s

variable {ok : Group ι M S O → Action ι A X → Prop} {I : ι → Kind → S → Prop}

/-- A running process satisfies the invariant of its kind, and so did every process when it joined
and when it handled the entries of the transcript. -/
structure SiteSound (I : ι → Kind → S → Prop) (g : Group ι M S O) : Prop where
  site : ∀ n, (g.site n).up = true → I n (g.site n).conn.kind (g.site n).st
  joined : ∀ k n, JoinsAt g.log k n → ∃ s, I n .admitted s
  first : ∀ r ∈ g.transcript, JoinsAt g.log r.pos r.node → I r.node .admitted r.pre
  later : ∀ r ∈ g.transcript, ¬ JoinsAt g.log r.pos r.node → I r.node .active r.pre
  after : ∀ r ∈ g.transcript, I r.node .active r.post

theorem SiteSound.setSite (h : SiteSound I g) {n : ι} {p : Site M S}
    (hp : p.up = true → I n p.conn.kind p.st) : SiteSound I (g.setSite n p) where
  site m hup := by
    by_cases hm : m = n
    · subst hm
      simp only [Group.setSite_self] at hup ⊢
      exact hp hup
    · simp only [Group.setSite_of_ne hm] at hup ⊢
      exact h.site m hup
  joined := h.joined
  first := h.first
  later := h.later
  after := h.after

theorem SiteSound.act (hI : SiteRule B ok I) (h : SiteSound I g) {n : ι} {a : A} {s : S}
    {sig : Signal M} {p : Site M S} (hok : ok g (.act n a)) (hup : (g.site n).up = true)
    (ha : B.act n (g.site n).st a = some (s, sig)) (hp : (g.site n).signal s sig = some p) :
    SiteSound I (g.setSite n p) := by
  apply h.setSite
  intro _
  have hs := hI.act hok (h.site n hup) ha
  cases sig with
  | quiet => obtain rfl := Option.some.inj hp; exact hs
  | connect =>
    simp only [Site.signal] at hp
    split_ifs at hp
    obtain rfl := Option.some.inj hp
    exact hs
  | disconnect => obtain rfl := Option.some.inj hp; exact hs
  | send m =>
    simp only [Site.signal] at hp
    split at hp
    · obtain rfl := Option.some.inj hp
      exact hs
    · cases hp

theorem SiteSound.handled (hI : SiteRule B ok I) (h : SiteSound I g) (hg : Sound B C g) {n : ι}
    {since next : ℕ} {e : Entry ι M} {x : X} {s : S} {out : O} (hok : ok g (.deliver n x))
    (hc : (g.site n).conn = .member since next) (he : g.log[next]? = some e)
    (hd : B.deliver n (g.site n).st e x = some (s, out)) :
    SiteSound I (g.handled B n since next s out) := by
  obtain ⟨hup, hsn, -, -, hj, hst⟩ := hg.member hc
  have hlen : next < g.log.length := (List.getElem?_eq_some_iff.mp he).1
  have hpre := h.site n hup
  have hpost := hI.deliver hok hpre ⟨since, next, hc, he⟩ hd
  simp only [hc, Conn.kind] at hpre
  constructor
  case site =>
    intro m hm
    by_cases hmn : m = n
    · subst hmn
      simp only [Group.handled_self, Conn.kind]
      rwa [if_neg (by omega)]
    · simp only [Group.handled_of_ne hmn] at hm ⊢
      exact h.site m hm
  case joined => exact h.joined
  case first =>
    intro r hr hj
    rw [Group.mem_handled] at hr
    rcases hr with hr | rfl
    · exact h.first r hr hj
    -- a member that has handled its join is in the view before its next entry
    · have hns : next = since := by
        by_contra hne
        exact hg.log.not_joinsAt (hst next (by omega) (Nat.le_of_lt hlen)) hj
      rwa [if_pos hns] at hpre
  case later =>
    intro r hr hj'
    rw [Group.mem_handled] at hr
    rcases hr with hr | rfl
    · exact h.later r hr hj'
    · have hns : next ≠ since := fun hns => hj' (hns ▸ hj)
      rwa [if_neg hns] at hpre
  case after =>
    intro r hr
    rw [Group.mem_handled] at hr
    rcases hr with hr | rfl
    exacts [h.after r hr, hpost]

theorem SiteSound.grow (h : SiteSound I g) (hg : Sound B C g) {e : Entry ι M} {site : ι → Site M S}
    (hsite : ∀ n, (site n).up = true → I n (site n).conn.kind (site n).st)
    (hjoin : ∀ members left joined, e = .confchg members left joined →
      ∀ n ∈ joined, ∃ s, I n .admitted s) :
    SiteSound I { g with log := g.log ++ [e], site := site } := by
  -- Every record is of an entry before the new one, so its membership is the old one.
  have hold {k : ℕ} {n : ι} (hj : JoinsAt (g.log ++ [e]) k n) (hk : k ≠ g.log.length) :
      JoinsAt g.log k n := by
    obtain ⟨ms, l, j, hm, hn⟩ := hj
    rcases getElem?_snoc_cases hm with hm | ⟨hm, -⟩
    · exact ⟨ms, l, j, hm, hn⟩
    · exact absurd hm hk
  have hne {r : Record ι S O} (hr : r ∈ g.transcript) : r.pos ≠ g.log.length :=
    Nat.ne_of_lt (hg.bounded r hr)
  constructor
  case site => exact hsite
  case joined =>
    intro k n hj
    by_cases hk : k = g.log.length
    · obtain ⟨ms, l, j, hm, hn⟩ := hj
      rcases getElem?_snoc_cases hm with hm | ⟨-, he⟩
      · exact h.joined k n ⟨ms, l, j, hm, hn⟩
      · exact hjoin ms l j he.symm n hn
    · exact h.joined k n (hold hj hk)
  case first => exact fun r hr hj => h.first r hr (hold hj (hne hr))
  case later => exact fun r hr hj => h.later r hr fun hj' => hj hj'.append
  case after => exact h.after

/-- **The rule for invariants of the single processes**: an invariant that each local step, each
handling and each admission keeps holds of every running process and of every record. -/
theorem site_invariant (hI : SiteRule B ok I) (h : ReachesWhen (Group.step B) ok (init B) g) :
    SiteSound I g := by
  -- Induction on the run: only a change of the connection asks for more than the step itself.
  refine h.invariant (I := SiteSound I)
    ⟨fun n _ => hI.boot n, fun k n hj => by obtain ⟨ms, l, j, hk, -⟩ := hj; simp [init] at hk,
      by simp [init], by simp [init], by simp [init]⟩ ?_
  intro g a g' hr h hok hs
  have hg := Sound.of_reaches hr.reaches
  cases stepTo_of_step hs with
  | act hup ha hp => exact h.act hI hok hup ha hp
  | deliver hc he hd => exact h.handled hI hg hok hc he hd
  | @order n m rest hv hout =>
    refine h.grow hg (fun m hm => ?_) (fun _ _ _ he => by cases he)
    by_cases hmn : m = n
    · subst hmn
      simp only [Group.setSite_self] at hm ⊢
      exact h.site m hm
    · simp only [Group.setSite_of_ne hmn] at hm ⊢
      exact h.site m hm
  | @confchg left joined hc =>
    have henter (m : ι) (hj : m ∈ joined) : I m .admitted (g.site m).st := by
      have hconn := (hc.2.2.2.2 m hj).2
      have hk := h.site m (hg.joining hconn)
      rw [hconn] at hk
      exact hI.enter hk
    refine h.grow hg (fun m hm => ?_) ?_
    · split_ifs at hm ⊢ with hl hj
      · exact h.site m hm
      · simpa [Site.enter, Conn.kind] using henter m hj
      · exact h.site m hm
    · rintro ms l j ⟨⟩ m hm
      exact ⟨_, henter m hm⟩
  | crash n => exact h.setSite fun hup => by simp at hup
  | @boot n hup =>
    apply h.setSite
    intro _
    -- a process that is down is not connected
    have hout : (g.site n).conn = .out := by
      cases hc : (g.site n).conn with
      | out => rfl
      | joining => exact absurd (hg.joining hc) hup
      | member since next => exact absurd (hg.member hc).1 hup
    simpa [hout, Conn.kind] using hI.boot n

/-- A condition that every handling step meets holds of every record. -/
theorem record_condition {W : ι → S → Entry ι M → X → Prop}
    (hW : ∀ {g n x since next e}, ok g (.deliver n x) → (g.site n).conn = .member since next →
      g.log[next]? = some e → W n (g.site n).st e x)
    (h : ReachesWhen (Group.step B) ok (init B) g) :
    ∀ r ∈ g.transcript, ∃ e x, g.log[r.pos]? = some e ∧
      B.deliver r.node r.pre e x = some (r.post, r.out) ∧ W r.node r.pre e x := by
  refine h.invariant
    (I := fun g => ∀ r ∈ g.transcript, ∃ e x, g.log[r.pos]? = some e ∧
      B.deliver r.node r.pre e x = some (r.post, r.out) ∧ W r.node r.pre e x)
    (by simp [init]) ?_
  intro g a g' hr ih hok hs r hr'
  have hgrow {e' : Entry ι M} (hr : r ∈ g.transcript) :
      ∃ e x, (g.log ++ [e'])[r.pos]? = some e ∧
        B.deliver r.node r.pre e x = some (r.post, r.out) ∧ W r.node r.pre e x := by
    obtain ⟨e, x, he, hd, hw⟩ := ih r hr
    exact ⟨e, x, getElem?_append_one he, hd, hw⟩
  cases stepTo_of_step hs with
  | act => exact ih r hr'
  | deliver hc he hd =>
    rcases mem_handled.mp hr' with hr' | rfl
    · exact ih r hr'
    -- the new record is of the step itself
    · exact ⟨_, _, he, hd, hW hok hc he⟩
  | order => exact hgrow hr'
  | confchg => exact hgrow hr'
  | crash => exact ih r hr'
  | boot => exact ih r hr'

/-- The records of `n`, in the order of its handlings. -/
def recordsOf (g : Group ι M S O) (n : ι) : List (Record ι S O) :=
  g.transcript.filter fun r => r.node = n

theorem mem_recordsOf {n : ι} {r : Record ι S O} :
    r ∈ g.recordsOf n ↔ r ∈ g.transcript ∧ r.node = n := by
  simp [recordsOf]

/-- **A process handles entries in the agreed order**, each at most once. -/
theorem recordsOf_sorted (h : ReachesWhen (Group.step B) ok (init B) g) (n : ι) :
    (g.recordsOf n).Pairwise fun r r' => r.pos < r'.pos := by
  refine h.invariant (I := fun g => (g.recordsOf n).Pairwise fun r r' => r.pos < r'.pos)
    (by simp [recordsOf, init]) ?_
  intro g a g' hr ih _ hs
  cases stepTo_of_step hs with
  | act | order | confchg | crash | boot => exact ih
  | @deliver m x since next e s out hc he hd =>
    have hbelow := ((Sound.of_reaches hr.reaches).current hc).2.1
    simp only [recordsOf, handled, List.filter_append]
    by_cases hm : m = n
    · -- the new record is of an entry beyond all the process has handled
      subst hm
      refine List.pairwise_append.mpr ⟨ih, by simp, ?_⟩
      intro r hr' r' hr''
      obtain ⟨hrt, hrn⟩ := mem_recordsOf.mp hr'
      obtain rfl : r' = _ := List.mem_singleton.mp (List.mem_of_mem_filter hr'')
      exact hbelow r hrt hrn
    · simpa [recordsOf, List.filter_cons, hm] using ih

/-- Nobody departs twice in one configuration change. -/
theorem left_nodup (h : ReachesWhen (Group.step B) ok (init B) g) :
    ∀ (k : ℕ) (members left joined : List ι),
      g.log[k]? = some (.confchg members left joined) → left.Nodup := by
  refine h.invariant (I := fun g => ∀ (k : ℕ) (members left joined : List ι),
    g.log[k]? = some (.confchg members left joined) → left.Nodup) (by simp [init]) ?_
  intro g a g' _ ih _ hs k members left joined he
  cases stepTo_of_step hs with
  | act | deliver | crash | boot => exact ih k members left joined he
  | order =>
    rcases getElem?_snoc_cases he with he | ⟨-, he⟩
    · exact ih k members left joined he
    · cases he
  | confchg hc =>
    rcases getElem?_snoc_cases he with he | ⟨-, he⟩
    · exact ih k members left joined he
    -- the new change was checked when it was ordered
    · cases he
      exact hc.1

end Group

end Agreed
