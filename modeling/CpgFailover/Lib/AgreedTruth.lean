import CpgFailover.Lib.AgreedRuns

/-!
# What is said in a group

An invariant of the single processes may rest on what the messages say, and what the messages say on
the processes that multicast them. Both are kept together: what each process says is true while the
processes keep their invariant, and a process that is told nothing but the truth keeps it. What a
handling puts out then meets whatever follows from both.

## Main definitions

* `Group.TruthRule`: what each step keeps, of the processes, of what they say and of what they do
* `Group.Truth`: the invariant of a run

## Main results

* `Group.truth`: the rule for invariants of the processes and of the messages
-/

namespace Agreed

open Transition

variable {ι M S O A X : Type}

namespace Group

variable [DecidableEq ι]

/-- What each step keeps: `I` of the processes, `P` of what they say, and `Q` of what a handling of
an entry puts out. -/
structure TruthRule (B : Behaviour ι M S O A X) (ok : Group ι M S O → Action ι A X → Prop)
    (I : ι → Kind → S → Prop) (P : ι → M → Prop) (Q : ι → Entry ι M → O → Prop) : Prop where
  boot : ∀ n, I n .out (B.boot n)
  act : ∀ {g n a k s sig}, ok g (.act n a) → I n k (g.site n).st →
    B.act n (g.site n).st a = some (s, sig) → I n (sig.kind k) s ∧ ∀ m, sig = .send m → P n m
  deliver : ∀ {g n x k e s out}, ok g (.deliver n x) → I n k (g.site n).st →
    (∀ y m, e = .message y m → P y m) → B.deliver n (g.site n).st e x = some (s, out) →
      I n .active s ∧ (∀ m ∈ B.mcast out, P n m) ∧ Q n e out
  enter : ∀ {n s}, I n .joining s → I n .admitted s

/-- The running processes keep their invariant, whoever has joined kept it then, all that has been
said is true, and every handling has put out what it may. -/
structure Truth (I : ι → Kind → S → Prop) (P : ι → M → Prop) (Q : ι → Entry ι M → O → Prop)
    (g : Group ι M S O) : Prop where
  site : ∀ n, (g.site n).up = true → I n (g.site n).conn.kind (g.site n).st
  joined : ∀ k n, JoinsAt g.log k n → ∃ s, I n .admitted s
  said : ∀ {k : ℕ} {y : ι} {m : M}, g.log[k]? = some (.message y m) → P y m
  waiting : ∀ n, ∀ m ∈ (g.site n).outbox, P n m
  record : ∀ r ∈ g.transcript, ∃ e, g.log[r.pos]? = some e ∧ Q r.node e r.out

variable {B : Behaviour ι M S O A X} {ok : Group ι M S O → Action ι A X → Prop}
  {I : ι → Kind → S → Prop} {P : ι → M → Prop} {Q : ι → Entry ι M → O → Prop} {g : Group ι M S O}

omit [DecidableEq ι] in
theorem truth_init (hI : TruthRule B ok I P Q) : Truth I P Q (init B) where
  site n _ := hI.boot n
  joined k n hj := by
    obtain ⟨ms, l, j, hk, -⟩ := hj
    simp [init] at hk
  said h := by simp [init] at h
  waiting n m h := by simp [init] at h
  record r h := by simp [init] at h

/-- One site changes, the log and the transcript stay. -/
theorem Truth.setSite (h : Truth I P Q g) {n : ι} {p : Site M S}
    (hp : p.up = true → I n p.conn.kind p.st) (hout : ∀ m ∈ p.outbox, P n m) :
    Truth I P Q (g.setSite n p) where
  site m hup := by
    by_cases hm : m = n
    · subst hm
      simp only [setSite_self] at hup ⊢
      exact hp hup
    · simp only [setSite_of_ne hm] at hup ⊢
      exact h.site m hup
  joined := h.joined
  said := h.said
  waiting m x hx := by
    by_cases hm : m = n
    · subst hm
      rw [setSite_self] at hx
      exact hout x hx
    · rw [setSite_of_ne hm] at hx
      exact h.waiting m x hx
  record := h.record

omit [DecidableEq ι] in
/-- One entry more. -/
theorem Truth.grow (h : Truth I P Q g) {e : Entry ι M} {site : ι → Site M S}
    (hsite : ∀ n, (site n).up = true → I n (site n).conn.kind (site n).st)
    (hjoin : ∀ n ∈ e.joined, ∃ s, I n .admitted s) (hsaid : ∀ y m, e = .message y m → P y m)
    (hout : ∀ n, ∀ m ∈ (site n).outbox, P n m) :
    Truth I P Q { g with log := g.log ++ [e], site := site } where
  site := hsite
  joined k n hj := by
    obtain ⟨ms, l, j, hk, hn⟩ := hj
    rcases getElem?_snoc_cases hk with hk | ⟨-, he⟩
    · exact h.joined k n ⟨ms, l, j, hk, hn⟩
    · exact hjoin n (by rw [← he]; exact hn)
  said {k y m} hk := by
    rcases getElem?_snoc_cases hk with hk | ⟨-, he⟩
    · exact h.said hk
    · exact hsaid y m he.symm
  waiting := hout
  record r hr := by
    obtain ⟨e', he', hq⟩ := h.record r hr
    exact ⟨e', getElem?_append_one he', hq⟩

/-- What a local step sends joins what waits. -/
theorem Truth.signal (h : Truth I P Q g) {n : ι} {s : S} {sig : Signal M} {p : Site M S}
    (hs : I n (sig.kind (g.site n).conn.kind) s) (hm : ∀ m, sig = .send m → P n m)
    (hp : (g.site n).signal s sig = some p) : Truth I P Q (g.setSite n p) := by
  have hwait := h.waiting n
  cases sig with
  | quiet | disconnect =>
    obtain rfl := Option.some.inj hp
    exact h.setSite (fun _ => hs) hwait
  | connect =>
    obtain ⟨-, heq⟩ := Option.ite_none_right_eq_some.mp hp
    obtain rfl := Option.some.inj heq
    exact h.setSite (fun _ => hs) hwait
  | send m =>
    simp only [Site.signal] at hp
    split at hp
    · obtain rfl := Option.some.inj hp
      refine h.setSite (fun _ => hs) fun x hx => ?_
      rcases List.mem_append.mp hx with hx | hx
      · exact hwait x hx
      · obtain rfl := List.mem_singleton.mp hx
        exact hm x rfl
    · cases hp

/-- **The rule for invariants of the processes and of the messages.** -/
theorem truth (hI : TruthRule B ok I P Q) (h : ReachesWhen (Group.step B) ok (init B) g) :
    Truth I P Q g := by
  -- Induction on the run.
  refine h.invariant (truth_init hI) ?_
  intro g a g' hr h hok hs
  have hg := Sound.of_reaches hr.reaches
  cases stepTo_of_step hs with
  | @act n a s sig p hup ha hp =>
    obtain ⟨hsite, hsend⟩ := hI.act hok (h.site n hup) ha
    exact h.signal hsite hsend hp
  | @deliver n x since next e s out hc he hd =>
    have hup := (hg.member hc).1
    obtain ⟨hsite, hmcast, hq⟩ := hI.deliver hok (h.site n hup)
      (fun y m hem => h.said (hem ▸ he)) hd
    -- the handling adds a record to what it changes at its site
    have hset := h.setSite (n := n)
      (p := ⟨(g.site n).up, s, .member since (next + 1), (g.site n).outbox ++ B.mcast out⟩)
      (fun _ => by
        have hlt : ¬ next + 1 = since := by
          have := (hg.member hc).2.1
          omega
        rwa [Conn.kind, if_neg hlt])
      (fun m hm => (List.mem_append.mp hm).elim (h.waiting n m) (hmcast m))
    refine ⟨hset.site, h.joined, h.said, hset.waiting, fun r hr => ?_⟩
    rcases mem_handled.mp hr with hr | rfl
    · exact h.record r hr
    · exact ⟨e, he, hq⟩
  | @order n m rest hv hout =>
    have hmem : P n m := h.waiting n m (by rw [hout]; exact List.mem_cons_self)
    have hset := h.setSite (n := n) (p := { g.site n with outbox := rest }) (h.site n)
      (fun x hx => h.waiting n x (by rw [hout]; exact List.mem_cons_of_mem m hx))
    refine h.grow hset.site (by simp [Entry.joined]) ?_ hset.waiting
    rintro y x he
    cases he
    exact hmem
  | @confchg left joined hc =>
    have henter (m : ι) (hj : m ∈ joined) : I m .admitted (g.site m).st := by
      have hconn := (hc.2.2.2.2 m hj).2
      have hk := h.site m (hg.joining hconn)
      rw [hconn] at hk
      exact hI.enter hk
    refine h.grow (fun m hm => ?_) (fun m hm => ⟨_, henter m hm⟩)
      (fun _ _ he => by cases he) fun m x hx => ?_
    · split_ifs at hm ⊢ with hl hj
      · exact h.site m hm
      · simpa [Site.enter, Conn.kind] using henter m hj
      · exact h.site m hm
    · split_ifs at hx with hl hj
      · cases hx
      · exact h.waiting m x hx
      · exact h.waiting m x hx
  | crash n => exact h.setSite (fun hup => by simp at hup) (h.waiting n)
  | @boot n hup =>
    refine h.setSite (fun _ => ?_) (h.waiting n)
    -- a process that is down is not connected
    have hout : (g.site n).conn = .out := by
      cases hc : (g.site n).conn with
      | out => rfl
      | joining => exact absurd (hg.joining hc) hup
      | member since next => exact absurd (hg.member hc).1 hup
    simpa [hout, Conn.kind] using hI.boot n

end Group

end Agreed
