import CpgFailover.Lib.Agreed
import CpgFailover.Lib.Transition
import Mathlib.Algebra.BigOperators.Group.Finset.Piecewise
import Mathlib.Algebra.BigOperators.Group.List.Basic
import Mathlib.Algebra.GroupWithZero.Nat
import Mathlib.Algebra.Order.BigOperators.Group.Finset

/-!
# Groups that settle

When no process connects or sends on its own accord, a group whose processes answer an entry only on
credit comes to rest: every delivery takes an entry off a backlog, every ordering a message off an
outbox, every configuration change a member off the view or a process off those that wait to get in,
and what a handling multicasts is paid for by the credit of its process or by an arrival the process
has still to handle.

## Main definitions

* `Settling`: processes that answer on credit, and whose calm local steps come to an end
* `Action.Settles`: the steps of a group that is left to itself
* `Group.measure`: what a group has still to do

## Main results

* `Group.measure_lt`: each step brings the measure down
* `Group.length_le_measure`: a run of a group that is left to itself has at most that many steps
-/

namespace Agreed

open Transition

variable {ι M S O A X : Type}

/-- `1` for a configuration change in which somebody joins. -/
def Entry.arrival : Entry ι M → ℕ
  | .confchg _ _ joined => if joined = [] then 0 else 1
  | .message _ _ => 0

/-- Good processes answer on credit: what a handling multicasts, one message may be the answer to an
arrival and the others use up credit. Calm local steps are quiet or disconnect, and bring a rank
down. -/
structure Settling (B : Behaviour ι M S O A X) (calm : A → Prop) (Good : ι → S → Prop)
    (credit rank : S → ℕ) : Prop where
  deliver : ∀ {n s e x s' out}, Good n s → B.deliver n s e x = some (s', out) →
    Good n s' ∧ (B.mcast out).length + credit s' ≤ credit s + e.arrival ∧ rank s' ≤ rank s
  act : ∀ {n s a s' sig}, Good n s → calm a → B.act n s a = some (s', sig) →
    Good n s' ∧ credit s' ≤ credit s ∧ rank s' < rank s ∧ (sig = .quiet ∨ sig = .disconnect)

/-- The steps of a group that is left to itself: deliveries, orderings, configuration changes, and
calm local steps. -/
def Action.Settles (calm : A → Prop) : Action ι A X → Prop
  | .deliver _ _ | .order _ | .confchg _ _ => True
  | .act _ a => calm a
  | .crash _ | .boot _ => False

/-- A sum over the nodes goes down with one of its terms. -/
theorem sum_lt_of_update {nodes : Finset ι} {f f' : ι → ℕ} {n : ι} (hn : n ∈ nodes)
    (hlt : f' n < f n)
    (hle : ∀ m, m ≠ n → f' m ≤ f m) : ∑ m ∈ nodes, f' m < ∑ m ∈ nodes, f m := by
  refine Finset.sum_lt_sum (fun m _ => ?_) ⟨n, hn, hlt⟩
  by_cases hm : m = n
  · exact hm ▸ hlt.le
  · exact hle m hm

namespace Group

/-- The entries a member has still to handle. -/
def backlog (g : Group ι M S O) (n : ι) : List (Entry ι M) :=
  match (g.site n).conn with
  | .member _ next => g.log.drop next
  | _ => []

/-- An entry more in the log is at most an entry more to handle. -/
theorem backlog_append (g : Group ι M S O) (e : Entry ι M) (site : ι → Site M S) (n : ι)
    (hn : (site n).conn = (g.site n).conn) :
    (backlog { g with log := g.log ++ [e], site := site } n).length ≤ (g.backlog n).length + 1 ∧
      ((backlog { g with log := g.log ++ [e], site := site } n).map Entry.arrival).sum ≤
        ((g.backlog n).map Entry.arrival).sum + e.arrival := by
  simp only [backlog, hn]
  cases (g.site n).conn with
  | out | joining => simp
  | member since next =>
    simp only [List.drop_append, List.length_append, List.map_append, List.sum_append]
    -- the new entry, unless the member is beyond it
    rcases Nat.eq_zero_or_pos (next - g.log.length) with h | h
    · simp [h]
    · rw [List.drop_eq_nil_of_le (show [e].length ≤ next - g.log.length from h)]
      simp

theorem backlog_eq_of_site {g g' : Group ι M S O} {n : ι} (hlog : g'.log = g.log)
    (hsite : g'.site n = g.site n) : g'.backlog n = g.backlog n := by
  simp only [backlog, hsite, hlog]

variable [DecidableEq ι]

/-- A place in the view, or one that a process waits for: it is worth an arrival for each of `k`
members, and more. -/
def place (k : ℕ) (g : Group ι M S O) (n : ι) : ℕ :=
  (if n ∈ g.view then 1 else 0) + if (g.site n).conn = .joining then k + 3 else 0

/-- The messages a process may still send, and its place. -/
def load (credit : S → ℕ) (k : ℕ) (g : Group ι M S O) (n : ι) : ℕ :=
  (g.site n).outbox.length + credit (g.site n).st + ((g.backlog n).map Entry.arrival).sum +
    g.place k n

/-- What the processes of `nodes` have still to do: each message and each configuration change may
cost every one of them a delivery. -/
def measure (credit rank : S → ℕ) (nodes : Finset ι) (g : Group ι M S O) : ℕ :=
  ∑ n ∈ nodes, (g.backlog n).length + (nodes.card + 1) * ∑ n ∈ nodes, g.load credit nodes.card n +
    ∑ n ∈ nodes, rank (g.site n).st

/-- A group in which only `nodes` take part. -/
structure Poised (Good : ι → S → Prop) (rank : S → ℕ) (nodes : Finset ι) (g : Group ι M S O) :
    Prop where
  running : ∀ n, (g.site n).conn ≠ .out → (g.site n).up = true
  good : ∀ n, (g.site n).up = true → Good n (g.site n).st
  outside : ∀ n ∉ nodes, (g.site n).conn = .out ∧ n ∉ g.view ∧
    ((g.site n).up = true → rank (g.site n).st = 0)

section Measure

variable {credit rank : S → ℕ} {nodes : Finset ι} {g g' : Group ι M S O}

/-- Less to hand out, no more messages to come, and no more calm steps. -/
theorem measure_lt_of_backlog
    (hb : ∑ n ∈ nodes, (g'.backlog n).length < ∑ n ∈ nodes, (g.backlog n).length)
    (hl : ∀ n, g'.load credit nodes.card n ≤ g.load credit nodes.card n)
    (hr : ∀ n, rank (g'.site n).st ≤ rank (g.site n).st) :
    g'.measure credit rank nodes < g.measure credit rank nodes := by
  have hload : ∑ n ∈ nodes, g'.load credit nodes.card n ≤ ∑ n ∈ nodes, g.load credit nodes.card n :=
    Finset.sum_le_sum fun n _ => hl n
  have hrank : ∑ n ∈ nodes, rank (g'.site n).st ≤ ∑ n ∈ nodes, rank (g.site n).st :=
    Finset.sum_le_sum fun n _ => hr n
  have hmul := Nat.mul_le_mul_left (nodes.card + 1) hload
  unfold measure
  omega

/-- One message or one place less, for at most one more delivery each. -/
theorem measure_lt_of_load (hb : ∀ n, (g'.backlog n).length ≤ (g.backlog n).length + 1)
    (hl : ∑ n ∈ nodes, g'.load credit nodes.card n < ∑ n ∈ nodes, g.load credit nodes.card n)
    (hr : ∀ n, rank (g'.site n).st ≤ rank (g.site n).st) :
    g'.measure credit rank nodes < g.measure credit rank nodes := by
  have hback : ∑ n ∈ nodes, (g'.backlog n).length ≤
      ∑ n ∈ nodes, (g.backlog n).length + nodes.card := by
    calc ∑ n ∈ nodes, (g'.backlog n).length
        ≤ ∑ n ∈ nodes, ((g.backlog n).length + 1) := Finset.sum_le_sum fun n _ => hb n
      _ = ∑ n ∈ nodes, (g.backlog n).length + nodes.card := by
        rw [Finset.sum_add_distrib, Finset.card_eq_sum_ones]
  have hrank : ∑ n ∈ nodes, rank (g'.site n).st ≤ ∑ n ∈ nodes, rank (g.site n).st :=
    Finset.sum_le_sum fun n _ => hr n
  have hmul := Nat.mul_le_mul_left (nodes.card + 1) (Nat.succ_le_of_lt hl)
  rw [Nat.mul_succ] at hmul
  unfold measure
  omega

/-- No more of anything, and a calm step less. -/
theorem measure_lt_of_rank (hb : ∀ n, (g'.backlog n).length ≤ (g.backlog n).length)
    (hl : ∀ n, g'.load credit nodes.card n ≤ g.load credit nodes.card n)
    (hr : ∑ n ∈ nodes, rank (g'.site n).st < ∑ n ∈ nodes, rank (g.site n).st) :
    g'.measure credit rank nodes < g.measure credit rank nodes := by
  have hload : ∑ n ∈ nodes, g'.load credit nodes.card n ≤ ∑ n ∈ nodes, g.load credit nodes.card n :=
    Finset.sum_le_sum fun n _ => hl n
  have hback : ∑ n ∈ nodes, (g'.backlog n).length ≤ ∑ n ∈ nodes, (g.backlog n).length :=
    Finset.sum_le_sum fun n _ => hb n
  have hmul := Nat.mul_le_mul_left (nodes.card + 1) hload
  unfold measure
  omega

end Measure

section Steps

variable {B : Behaviour ι M S O A X} {calm : A → Prop} {Good : ι → S → Prop}
  {credit rank : S → ℕ} {nodes : Finset ι} {g g' : Group ι M S O} {n : ι} {left joined : List ι}

/-- A change of one site of `nodes` that leaves a running process in a good state. -/
theorem Poised.of_site (h : Poised Good rank nodes g) (hn : n ∈ nodes) (hview : g'.view = g.view)
    (hsite : ∀ m, m ≠ n → g'.site m = g.site m) (hup : (g'.site n).up = true)
    (hgood : Good n (g'.site n).st) : Poised Good rank nodes g' where
  running m hm := by
    by_cases hmn : m = n
    · exact hmn ▸ hup
    · rw [hsite m hmn] at hm ⊢
      exact h.running m hm
  good m hm := by
    by_cases hmn : m = n
    · exact hmn ▸ hgood
    · rw [hsite m hmn] at hm ⊢
      exact h.good m hm
  outside m hm := by
    have hmn : m ≠ n := fun he => hm (he ▸ hn)
    rw [hsite m hmn, hview]
    exact h.outside m hm

/-- **The handling of an entry** brings the measure down. -/
theorem Poised.handled (h : Poised Good rank nodes g) (hB : Settling B calm Good credit rank)
    {since next : ℕ} {e : Entry ι M} {x : X} {s : S} {out : O}
    (hc : (g.site n).conn = .member since next) (he : g.log[next]? = some e)
    (hd : B.deliver n (g.site n).st e x = some (s, out)) :
    Poised Good rank nodes (g.handled B n since next s out) ∧
      (g.handled B n since next s out).measure credit rank nodes < g.measure credit rank nodes := by
  have hn : n ∈ nodes := by
    by_contra hn
    rw [(h.outside n hn).1] at hc
    cases hc
  have hup := h.running n (by simp [hc])
  obtain ⟨hgood, hcredit, hrank⟩ := hB.deliver (h.good n hup) hd
  have hother (m : ι) (hm : m ≠ n) : (g.handled B n since next s out).backlog m = g.backlog m :=
    backlog_eq_of_site rfl (handled_of_ne hm)
  -- the entry is the first of the backlog
  have hfirst : g.backlog n = e :: (g.handled B n since next s out).backlog n := by
    obtain ⟨hlen, rfl⟩ := List.getElem?_eq_some_iff.mp he
    simp only [backlog, hc, handled_self]
    exact List.drop_eq_getElem_cons hlen
  have hplace (m : ι) :
      (g.handled B n since next s out).place nodes.card m = g.place nodes.card m := by
    unfold place
    by_cases hmn : m = n
    · subst hmn
      rw [handled_self, hc]
      rfl
    · rw [handled_of_ne hmn]
      rfl
  constructor
  · refine h.of_site hn rfl (fun m hm => handled_of_ne hm) ?_ ?_
    · rw [handled_self]
      exact hup
    · rw [handled_self]
      exact hgood
  · refine measure_lt_of_backlog (sum_lt_of_update hn ?_ fun m hm => ?_) (fun m => ?_) fun m => ?_
    · simp [hfirst]
    · rw [hother m hm]
    · by_cases hmn : m = n
      · subst hmn
        simp only [load, hplace, handled_self, hfirst, List.length_append, List.map_cons,
          List.sum_cons]
        omega
      · simp only [load, hplace, hother m hmn, handled_of_ne hmn]
        exact le_rfl
    · by_cases hmn : m = n
      · subst hmn
        rw [handled_self]
        exact hrank
      · rw [handled_of_ne hmn]

/-- **The ordering of a message** brings the measure down. -/
theorem Poised.ordered (h : Poised Good rank nodes g) {m : M} {rest : List M} (hv : n ∈ g.view)
    (hout : (g.site n).outbox = m :: rest) :
    Poised Good rank nodes
        { g.setSite n { g.site n with outbox := rest } with log := g.log ++ [.message n m] } ∧
      measure credit rank nodes
          { g.setSite n { g.site n with outbox := rest } with log := g.log ++ [.message n m] } <
        g.measure credit rank nodes := by
  have hn : n ∈ nodes := by
    by_contra hn
    exact (h.outside n hn).2.1 hv
  generalize hg : ({ g.setSite n { g.site n with outbox := rest } with
    log := g.log ++ [.message n m] } : Group ι M S O) = g'
  have hview : g'.view = g.view := by
    rw [← hg]
    simp [view, Entry.view]
  have hsite (k : ι) (hk : k ≠ n) : g'.site k = g.site k := by
    rw [← hg]
    exact setSite_of_ne hk
  have hself : g'.site n = { g.site n with outbox := rest } := by
    rw [← hg]
    exact setSite_self
  have hst (k : ι) : (g'.site k).up = (g.site k).up ∧ (g'.site k).st = (g.site k).st ∧
      (g'.site k).conn = (g.site k).conn := by
    by_cases hk : k = n
    · subst hk
      rw [hself]
      exact ⟨rfl, rfl, rfl⟩
    · rw [hsite k hk]
      exact ⟨rfl, rfl, rfl⟩
  have hback (k : ι) := backlog_append g (.message n m) g'.site k (hst k).2.2
  have heq : ({ g with log := g.log ++ [.message n m], site := g'.site } : Group ι M S O) = g' := by
    rw [← hg]
    rfl
  rw [heq] at hback
  refine ⟨⟨fun k hk => ?_, fun k hk => ?_, fun k hk => ?_⟩, ?_⟩
  · rw [(hst k).1]
    exact h.running k ((hst k).2.2 ▸ hk)
  · rw [(hst k).2.1]
    exact h.good k ((hst k).1 ▸ hk)
  · rw [(hst k).1, (hst k).2.1, (hst k).2.2, hview]
    exact h.outside k hk
  · have hplace (k : ι) : g'.place nodes.card k = g.place nodes.card k := by
      unfold place
      rw [hview, (hst k).2.2]
    refine measure_lt_of_load (fun k => (hback k).1) (sum_lt_of_update hn ?_ fun k hk => ?_)
      fun k => (congrArg rank (hst k).2.1).le
    · have := (hback n).2
      simp only [load, hplace, hself, hout, List.length_cons, Entry.arrival] at this ⊢
      omega
    · have := (hback k).2
      simp only [load, hplace, hsite k hk, Entry.arrival] at this ⊢
      omega

/-- What a configuration change does to one process: the joined get a place for the one they waited
for, and the departed lose theirs. -/
theorem changed_site (hc : g.CanChange left joined) (k : ι) :
    ((g.change left joined).site k).up = (g.site k).up ∧
      ((g.change left joined).site k).st = (g.site k).st ∧
        ((g.change left joined).site k).outbox.length ≤ (g.site k).outbox.length ∧
          ((g.change left joined).backlog k).length ≤ (g.backlog k).length + 1 ∧
            (((g.change left joined).backlog k).map Entry.arrival).sum ≤
              ((g.backlog k).map Entry.arrival).sum + if joined = [] then 0 else 1 := by
  obtain ⟨-, -, -, hl, hj⟩ := hc
  by_cases hkj : k ∈ joined
  · -- the joined have the change to handle, and nothing before it
    have hkl : k ∉ left := fun hkl => (hj k hkj).1 (hl k hkl).1
    have hne : joined ≠ [] := List.ne_nil_of_mem hkj
    have hsite : (g.change left joined).site k = (g.site k).enter g.log.length := by
      simp [change, hkl, hkj]
    have hback : (g.change left joined).backlog k =
        [.confchg (g.members left joined) left joined] := by
      simp only [backlog, hsite, Site.enter]
      simp [change]
    simp [hsite, hback, Site.enter, Entry.arrival, hne]
  · have hconn : ((g.change left joined).site k).conn = (g.site k).conn := by
      by_cases hkl : k ∈ left <;> simp [change, hkl, hkj]
    obtain ⟨hlen, hsum⟩ := backlog_append g
      (.confchg (g.members left joined) left joined) (g.change left joined).site k hconn
    refine ⟨?_, ?_, ?_, hlen, hsum⟩
    all_goals by_cases hkl : k ∈ left <;> simp [change, hkl, hkj]

/-- Nobody gets a place for nothing. -/
theorem place_change (hc : g.CanChange left joined) (c : ℕ) (k : ι) :
    (g.change left joined).place c k + (if k ∈ left then 1 else 0) +
      (if k ∈ joined then c + 2 else 0) = g.place c k := by
  obtain ⟨-, -, -, hl, hj⟩ := hc
  have hview : k ∈ (g.change left joined).view ↔ k ∈ g.view ∧ k ∉ left ∨ k ∈ joined := by
    simp [view, change, Entry.view, members]
  by_cases hkj : k ∈ joined
  · have hkl : k ∉ left := fun hkl => (hj k hkj).1 (hl k hkl).1
    have hsite : ((g.change left joined).site k).conn = .member g.log.length g.log.length := by
      simp [change, hkl, hkj, Site.enter]
    simp only [place, hview, hsite, hkj, hkl, (hj k hkj).1, (hj k hkj).2]
    simp
    omega
  · have hconn : ((g.change left joined).site k).conn = (g.site k).conn := by
      by_cases hkl : k ∈ left <;> simp [change, hkl, hkj]
    by_cases hkl : k ∈ left
    · simp [place, hview, hconn, hkj, hkl, (hl k hkl).1]
      omega
    · simp [place, hview, hconn, hkj, hkl]

/-- A configuration change is an arrival for everybody at most, for the places it takes. -/
theorem load_change (credit : S → ℕ) (hc : g.CanChange left joined) (c : ℕ) (k : ι) :
    (g.change left joined).load credit c k + (if k ∈ left then 1 else 0) +
      (if k ∈ joined then c + 2 else 0) ≤ g.load credit c k + if joined = [] then 0 else 1 := by
  obtain ⟨-, hst, hout, -, hsum⟩ := changed_site hc k
  have hplace := place_change hc c k
  simp only [load, hst]
  omega

/-- The change costs the nodes more than it brings them. -/
theorem sum_load_change (hc : g.CanChange left joined) (hleft : ∀ x ∈ left, x ∈ nodes)
    (hjoined : ∀ x ∈ joined, x ∈ nodes) :
    ∑ k ∈ nodes, (g.change left joined).load credit nodes.card k <
      ∑ k ∈ nodes, g.load credit nodes.card k := by
  have hload := load_change credit hc nodes.card
  cases joined with
  | nil =>
    -- some node loses its place, and nobody hears of an arrival
    obtain ⟨x, hx⟩ := List.exists_mem_of_ne_nil _ (hc.2.2.1.resolve_right (not_not_intro rfl))
    refine sum_lt_of_update (hleft x hx) ?_ fun k _ => ?_
    · have := hload x
      simp only [hx, if_true] at this
      omega
    · have := hload k
      simp only [List.not_mem_nil, if_true, if_false] at this
      omega
  | cons x joined =>
    -- the place of one that joins pays for what everybody hears
    have hone (k : ι) : (g.change left (x :: joined)).load credit nodes.card k +
        (if k = x then nodes.card + 2 else 0) ≤ g.load credit nodes.card k + 1 := by
      have := hload k
      simp only [reduceCtorEq, if_false] at this
      by_cases hk : k = x
      · subst hk
        simp only [List.mem_cons_self, if_true] at this ⊢
        omega
      · rw [if_neg hk]
        omega
    have hsum := Finset.sum_le_sum fun k (_ : k ∈ nodes) => hone k
    rw [Finset.sum_add_distrib, Finset.sum_add_distrib, Finset.sum_ite_eq',
      if_pos (hjoined x List.mem_cons_self), ← Finset.card_eq_sum_ones] at hsum
    omega

/-- **A configuration change** brings the measure down. -/
theorem Poised.changed (h : Poised Good rank nodes g) (hc : g.CanChange left joined) :
    Poised Good rank nodes (g.change left joined) ∧
      (g.change left joined).measure credit rank nodes < g.measure credit rank nodes := by
  have hl (x : ι) (hx : x ∈ left) : x ∈ nodes := by
    by_contra hn
    exact (h.outside x hn).2.1 (hc.2.2.2.1 x hx).1
  have hj (x : ι) (hx : x ∈ joined) : x ∈ nodes := by
    by_contra hn
    have hout := (h.outside x hn).1
    rw [(hc.2.2.2.2 x hx).2] at hout
    cases hout
  have hsite (k : ι) := changed_site hc k
  have hconn (k : ι) (hk : k ∉ joined) : ((g.change left joined).site k).conn = (g.site k).conn := by
    by_cases hkl : k ∈ left <;> simp [change, hkl, hk]
  refine ⟨⟨fun k hk => ?_, fun k hk => ?_, fun k hk => ?_⟩, ?_⟩
  · rw [(hsite k).1]
    by_cases hkj : k ∈ joined
    · exact h.running k (by simp [(hc.2.2.2.2 k hkj).2])
    · exact h.running k (hconn k hkj ▸ hk)
  · rw [(hsite k).2.1]
    exact h.good k ((hsite k).1 ▸ hk)
  · have hkj : k ∉ joined := fun hkj => hk (hj k hkj)
    obtain ⟨hout, hv, hr⟩ := h.outside k hk
    rw [(hsite k).1, (hsite k).2.1, hconn k hkj]
    refine ⟨hout, fun hv' => ?_, hr⟩
    have hmem : k ∈ g.view ∧ k ∉ left ∨ k ∈ joined := by
      simpa [view, change, Entry.view, members] using hv'
    exact hmem.elim (fun hm => hv hm.1) hkj
  · exact measure_lt_of_load (fun k => (hsite k).2.2.2.1) (sum_load_change hc hl hj)
      fun k => (congrArg rank (hsite k).2.1).le

/-- **A calm local step** brings the measure down. -/
theorem Poised.acted (h : Poised Good rank nodes g) (hB : Settling B calm Good credit rank) {a : A}
    {s : S} {sig : Signal M} {p : Site M S} (ha : calm a) (hup : (g.site n).up = true)
    (hact : B.act n (g.site n).st a = some (s, sig)) (hp : (g.site n).signal s sig = some p) :
    Poised Good rank nodes (g.setSite n p) ∧
      (g.setSite n p).measure credit rank nodes < g.measure credit rank nodes := by
  obtain ⟨hgood, hcredit, hrank, hsig⟩ := hB.act (h.good n hup) ha hact
  have hn : n ∈ nodes := by
    by_contra hn
    have hzero := (h.outside n hn).2.2 hup
    omega
  -- the process keeps its connection or gives it up, and sends nothing
  obtain ⟨hpup, hpst, hpout, hpconn⟩ : p.up = (g.site n).up ∧ p.st = s ∧
      p.outbox = (g.site n).outbox ∧ (p.conn = (g.site n).conn ∨ p.conn = .out) := by
    rcases hsig with rfl | rfl <;> obtain rfl := Option.some.inj hp
    · exact ⟨rfl, rfl, rfl, Or.inl rfl⟩
    · exact ⟨rfl, rfl, rfl, Or.inr rfl⟩
  have hother (m : ι) (hm : m ≠ n) : (g.setSite n p).backlog m = g.backlog m :=
    backlog_eq_of_site rfl (setSite_of_ne hm)
  have hown : (g.setSite n p).backlog n = g.backlog n ∨ (g.setSite n p).backlog n = [] := by
    simp only [backlog, setSite_self]
    rcases hpconn with hc | hc
    · rw [hc]
      exact Or.inl rfl
    · rw [hc]
      exact Or.inr rfl
  have hplace (m : ι) : (g.setSite n p).place nodes.card m ≤ g.place nodes.card m := by
    unfold place
    refine Nat.add_le_add le_rfl ?_
    by_cases hmn : m = n
    · subst hmn
      rw [setSite_self]
      rcases hpconn with hc | hc <;> simp [hc]
    · rw [setSite_of_ne hmn]
  constructor
  · refine h.of_site hn rfl (fun m hm => setSite_of_ne hm) ?_ ?_
    · rw [setSite_self, hpup]
      exact hup
    · rw [setSite_self, hpst]
      exact hgood
  · refine measure_lt_of_rank (fun m => ?_) (fun m => ?_) (sum_lt_of_update hn ?_ fun m hm => ?_)
    · by_cases hmn : m = n
      · subst hmn
        rcases hown with hb | hb <;> simp [hb]
      · rw [hother m hmn]
    · by_cases hmn : m = n
      · subst hmn
        have := hplace m
        simp only [load, setSite_self, hpst, hpout]
        rcases hown with hb | hb
        · rw [hb]
          omega
        · rw [hb, List.map_nil, List.sum_nil]
          omega
      · have := hplace m
        simp only [load, hother m hmn, setSite_of_ne hmn]
        omega
    · rw [setSite_self, hpst]
      exact hrank
    · rw [setSite_of_ne hm]

/-- **Each step of a group that is left to itself brings the measure down.** -/
theorem measure_lt (h : Poised Good rank nodes g) (hB : Settling B calm Good credit rank)
    {l : Action ι A X} (hl : l.Settles calm) (hs : g.step B l = some g') :
    Poised Good rank nodes g' ∧
      g'.measure credit rank nodes < g.measure credit rank nodes := by
  cases stepTo_of_step hs with
  | act hup ha hp => exact h.acted hB hl hup ha hp
  | deliver hc he hd => exact h.handled hB hc he hd
  | order hv hout => exact h.ordered hv hout
  | confchg hc => exact h.changed hc
  | crash | boot => exact hl.elim

/-- **A group that is left to itself settles**: no run has more steps than the measure says. -/
theorem length_le_measure (h : Poised Good rank nodes g) (hB : Settling B calm Good credit rank)
    {ls : List (Action ι A X)} (hl : ∀ l ∈ ls, l.Settles calm)
    (hr : run (Group.step B) g ls = some g') : ls.length ≤ g.measure credit rank nodes := by
  -- Induction on the steps: each of them costs one.
  induction ls generalizing g with
  | nil => exact Nat.zero_le _
  | cons l ls ih =>
    obtain ⟨g₁, hs, hrun⟩ := Option.bind_eq_some_iff.mp hr
    obtain ⟨h₁, hlt⟩ := measure_lt h hB (hl l List.mem_cons_self) hs
    have hrest := ih h₁ (fun l hmem => hl l (List.mem_cons_of_mem _ hmem)) hrun
    rw [List.length_cons]
    omega

end Steps

end Group

end Agreed
