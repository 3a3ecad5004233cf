import CpgFailover.Lib.Partitions

/-!
# Introductions on a network

Processes that announce themselves whenever somebody is new in their ring, and know whoever has
announced itself and has not left. However the network has been cut and joined, two members of one
ring come to know each other: what one of them has not been told yet waits for it, or is still to be
ordered, or to be said.

## Main definitions

* `told`: whether a process knows another by the time it has handled what waits for it
* `Port.Met`: one process knows the other, or will
* `Network.Introducing`: processes that announce themselves to whoever is new

## Main results

* `Network.acquainted_of_reaches`: any two members of one ring have met
* `Network.acquainted`: of two members of one ring with nothing left to tell, each knows the other
-/

namespace Agreed

open Transition

variable {ι M S O A X : Type}

/-- Those whom an entry takes out of the view. -/
def Entry.left : Entry ι M → List ι
  | .confchg _ left _ => left
  | .message _ _ => []

/-- Whether `m` is known after an entry: it has introduced itself, or was known and has not left. -/
def tells (greets : M → Prop) (m : ι) (known : Prop) : Entry ι M → Prop
  | .confchg _ left _ => known ∧ m ∉ left
  | .message y x => known ∨ y = m ∧ greets x

/-- Whether `m` is known after the entries. -/
def told (greets : M → Prop) (m : ι) (known : Prop) (es : List (Entry ι M)) : Prop :=
  es.foldl (tells greets m) known

section Told

variable {greets : M → Prop} {m : ι} {known known' : Prop} {es : List (Entry ι M)}

theorem told_snoc (e : Entry ι M) :
    told greets m known (es ++ [e]) ↔ tells greets m (told greets m known es) e := by
  simp [told, List.foldl_append]

theorem tells_mono (h : known → known') (e : Entry ι M) (ht : tells greets m known e) :
    tells greets m known' e := by
  cases e with
  | confchg members left joined => exact ⟨h ht.1, ht.2⟩
  | message y x => exact ht.imp_left h

theorem told_mono (h : known → known') (ht : told greets m known es) :
    told greets m known' es := by
  induction es generalizing known known' with
  | nil => exact h ht
  | cons e es ih => exact ih (tells_mono h e) ht

/-- Messages without a greeting tell nothing. -/
theorem told_of_messages (hes : ∀ e ∈ es, ∃ y x, e = .message y x ∧ ¬ greets x)
    (ht : told greets m known es) : known := by
  induction es generalizing known with
  | nil => exact ht
  | cons e es ih =>
    obtain ⟨y, x, rfl, hx⟩ := hes e List.mem_cons_self
    have htells := ih (fun e he => hes e (List.mem_cons_of_mem _ he)) ht
    exact htells.resolve_right fun h => hx h.2

end Told

namespace Port

/-- An introduction is due: somebody new has still to be answered, or a greeting has still to be
ordered. -/
def Due (greets : M → Prop) (p : Port ι M S) : Prop :=
  (∃ e ∈ p.queue, e.joined ≠ []) ∨ ∃ x ∈ p.outbox, greets x

/-- The process knows `m`, or comes to know it by what waits for it. -/
def Told (greets : M → Prop) (knows : S → ι → Prop) (p : Port ι M S) (m : ι) : Prop :=
  told greets m (knows p.st m) p.queue

/-- Neither a configuration change nor a greeting is left to handle or to order. -/
def AtRest (greets : M → Prop) (p : Port ι M S) : Prop :=
  (∀ e ∈ p.queue, ∃ y x, e = .message y x ∧ ¬ greets x) ∧ ∀ x ∈ p.outbox, ¬ greets x

/-- The process at `p` has met the process `m` at `q`, unless one of the two is silent. -/
def Met (silent : S → Prop) (knows : S → ι → Prop) (greets : M → Prop) (m : ι) (p q : Port ι M S) :
    Prop :=
  silent p.st ∨ silent q.st ∨ q.Due greets ∨ p.Told greets knows m

/-- The port has become `p'` in the same membership: silence, what it is told and what it owes the
others persist. -/
structure Follows (silent : S → Prop) (knows : S → ι → Prop) (greets : M → Prop)
    (p p' : Port ι M S) : Prop where
  still : silent p.st → silent p'.st
  told : ∀ y, p.Told greets knows y → silent p'.st ∨ p'.Told greets knows y
  due : p.Due greets → silent p'.st ∨ p'.Due greets

section Met

variable {silent : S → Prop} {knows : S → ι → Prop} {greets : M → Prop} {m : ι}
  {p p' q q' : Port ι M S}

theorem Met.listener (h : Met silent knows greets m p q) (hp : Follows silent knows greets p p') :
    Met silent knows greets m p' q := by
  rcases h with h | h | h | h
  · exact Or.inl (hp.still h)
  · exact Or.inr (Or.inl h)
  · exact Or.inr (Or.inr (Or.inl h))
  · rcases hp.told m h with h | h
    exacts [Or.inl h, Or.inr (Or.inr (Or.inr h))]

theorem Met.speaker (h : Met silent knows greets m p q) (hq : Follows silent knows greets q q') :
    Met silent knows greets m p q' := by
  rcases h with h | h | h | h
  · exact Or.inl h
  · exact Or.inr (Or.inl (hq.still h))
  · rcases hq.due h with h | h
    exacts [Or.inr (Or.inl h), Or.inr (Or.inr (Or.inl h))]
  · exact Or.inr (Or.inr (Or.inr h))

end Met

end Port

namespace Network

/-- Processes that introduce themselves: a process that is not silent greets whoever is new, knows
whoever has greeted it and has not left, and its local steps do not undo this while it is connected.
-/
structure Introducing (B : Behaviour ι M S O A X) (ok : Network ι M S → NetAction ι A X → Prop)
    (I : ι → Kind → S → Prop) (silent : S → Prop) (knows : S → ι → Prop) (greets : M → Prop) :
    Prop where
  announce : ∀ {n s e x s' out}, B.deliver n s e x = some (s', out) → e.joined ≠ [] →
    silent s' ∨ ∃ m ∈ B.mcast out, greets m
  hear : ∀ {w n x k e rest s out y}, ok w (.deliver n x) → I n k (w.port n).st →
    (w.port n).queue = e :: rest → B.deliver n (w.port n).st e x = some (s, out) →
      tells greets y (knows (w.port n).st y) e → silent s ∨ knows s y
  still : ∀ {n s e x s' out}, B.deliver n s e x = some (s', out) → silent s → silent s'
  act : ∀ {w n a k s sig}, ok w (.act n a) → I n k (w.port n).st → k ≠ .out →
    B.act n (w.port n).st a = some (s, sig) →
      (silent (w.port n).st → silent s) ∧ ∀ y, knows (w.port n).st y → silent s ∨ knows s y

section Introductions

variable {B : Behaviour ι M S O A X} {ok : Network ι M S → NetAction ι A X → Prop}
  {I : ι → Kind → S → Prop} {P : ι → M → Prop} {silent : S → Prop} {knows : S → ι → Prop}
  {greets : M → Prop} {w w' : Network ι M S} {n m : ι}

theorem Together.symm (h : w.Together n m) : w.Together m n := ⟨h.2.1, h.1, h.2.2.symm⟩

/-- Any two members of one ring have met. -/
def Acquainted (silent : S → Prop) (knows : S → ι → Prop) (greets : M → Prop)
    (w : Network ι M S) : Prop :=
  ∀ n m, n ≠ m → w.Together n m → Port.Met silent knows greets m (w.port n) (w.port m)

/-- A handling. -/
theorem Introducing.handled (hB : Introducing B ok I silent knows greets) {k : Kind} {e : Entry ι M}
    {rest : List (Entry ι M)} {x : X} {s : S} {out : O} (hok : ok w (.deliver n x))
    (hI : I n k (w.port n).st) (hq : (w.port n).queue = e :: rest)
    (hd : B.deliver n (w.port n).st e x = some (s, out)) :
    Port.Follows silent knows greets (w.port n) ((w.port n).handled s (B.mcast out) rest) where
  still := hB.still hd
  told y ht := by
    by_cases hs : silent s
    · exact Or.inl hs
    · refine Or.inr (told_mono (fun h => (hB.hear hok hI hq hd h).resolve_left hs) ?_)
      rw [Port.Told, hq] at ht
      exact ht
  due hdue := by
    rcases hdue with ⟨e', he', hj⟩ | ⟨y, hy, hg⟩
    · rw [hq] at he'
      rcases List.mem_cons.mp he' with rfl | he'
      -- whoever is new is greeted by this handling
      · rcases hB.announce hd hj with hs | ⟨y, hy, hg⟩
        exacts [Or.inl hs, Or.inr (Or.inr ⟨y, List.mem_append_right _ hy, hg⟩)]
      · exact Or.inr (Or.inl ⟨e', he', hj⟩)
    · exact Or.inr (Or.inr ⟨y, List.mem_append_left _ hy, hg⟩)

/-- A local step that leaves the process in its ring. -/
theorem Introducing.signalled (hB : Introducing B ok I silent knows greets) {a : A} {s : S}
    {sig : Signal M} {p' : Port ι M S} (hok : ok w (.act n a))
    (hI : I n (w.port n).link.kind (w.port n).st) (ha : B.act n (w.port n).st a = some (s, sig))
    (hp : (w.port n).signal s sig = some p') (hl : p'.link.isMember = true) :
    p'.link = (w.port n).link ∧ p'.ring = (w.port n).ring ∧
      Port.Follows silent knows greets (w.port n) p' := by
  have hact (hlink : (w.port n).link.isMember = true) := by
    refine hB.act hok hI ?_ ha
    cases hk : (w.port n).link with
    | member handled => cases handled <;> simp [Link.kind]
    | out | joining => simp [hk, Link.isMember] at hlink
  cases sig with
  | quiet =>
    obtain rfl := Option.some.inj hp
    obtain ⟨hstill, hknows⟩ := hact hl
    refine ⟨rfl, rfl, hstill, fun y ht => ?_, Or.inr⟩
    by_cases hs : silent s
    · exact Or.inl hs
    · exact Or.inr (told_mono (fun h => (hknows y h).resolve_left hs) ht)
  | connect =>
    obtain ⟨-, hp⟩ := Option.ite_none_right_eq_some.mp hp
    obtain rfl := Option.some.inj hp
    cases hl
  | disconnect =>
    obtain rfl := Option.some.inj hp
    cases hl
  | send x =>
    simp only [Port.signal] at hp
    split at hp
    · obtain rfl := Option.some.inj hp
      obtain ⟨hstill, hknows⟩ := hact hl
      refine ⟨rfl, rfl, hstill, fun y ht => ?_, fun hdue => Or.inr ?_⟩
      · by_cases hs : silent s
        · exact Or.inl hs
        · exact Or.inr (told_mono (fun h => (hknows y h).resolve_left hs) ht)
      · apply hdue.imp_right
        rintro ⟨y, hy, hg⟩
        exact ⟨y, List.mem_append_left _ hy, hg⟩
    · cases hp

/-- A message from `n` in the ring of a member. -/
theorem ordered_port [DecidableEq ι] (w : Network ι M S) (n : ι) (x : M) (rest : List M) (k : ι) :
    ((w.ordered n x rest).port k).st = (w.port k).st ∧
      ((w.ordered n x rest).port k).link = (w.port k).link ∧
      ((w.ordered n x rest).port k).ring = (w.port k).ring ∧
      ((w.ordered n x rest).port k).outbox = (if k = n then rest else (w.port k).outbox) ∧
      ((w.ordered n x rest).port k).queue =
        if (w.port k).In (w.port n).ring then (w.port k).queue ++ [.message n x]
        else (w.port k).queue := by
  have hset : ((w.setPort n { w.port n with outbox := rest }).port k) =
      { w.port k with outbox := if k = n then rest else (w.port k).outbox } := by
    by_cases hk : k = n
    · subst hk
      rw [setPort_self, if_pos rfl]
    · rw [setPort_of_ne w hk, if_neg hk]
  simp only [ordered, broadcast, hset]
  by_cases hin : (w.port k).In (w.port n).ring
  · have hin' : Port.In { w.port k with outbox := if k = n then rest else (w.port k).outbox }
        (w.port n).ring := hin
    rw [if_pos hin', if_pos hin]
    exact ⟨rfl, rfl, rfl, rfl, rfl⟩
  · have hin' : ¬ Port.In { w.port k with outbox := if k = n then rest else (w.port k).outbox }
        (w.port n).ring := hin
    rw [if_neg hin', if_neg hin]
    exact ⟨rfl, rfl, rfl, rfl, rfl⟩

variable [DecidableEq ι]

/-- A step of one process, which leaves its ring by it or goes on in it. -/
theorem Acquainted.setPort (h : Acquainted silent knows greets w) {p : Port ι M S}
    (hp : p.link.isMember = true → (w.port n).link.isMember = true ∧ p.ring = (w.port n).ring ∧
      Port.Follows silent knows greets (w.port n) p) :
    Acquainted silent knows greets (w.setPort n p) := by
  intro k j hkj ht
  obtain ⟨hk, hj⟩ := ht
  by_cases hkn : k = n
  · subst hkn
    rw [setPort_self] at hk hj ⊢
    rw [setPort_of_ne w (Ne.symm hkj)] at hj ⊢
    obtain ⟨hl, hr, hf⟩ := hp hk
    exact (h k j hkj ⟨hl, hr ▸ hj⟩).listener hf
  · rw [setPort_of_ne w hkn] at hk hj ⊢
    by_cases hjn : j = n
    · subst hjn
      rw [setPort_self] at hj ⊢
      obtain ⟨hl, hr, hf⟩ := hp hj.1
      exact (h k j hkj ⟨hk, hl, hr.symm.trans hj.2⟩).speaker hf
    · rw [setPort_of_ne w hjn] at hj ⊢
      exact h k j hkj ⟨hk, hj⟩

/-- The ordering of a message: if it is a greeting, the ring has it to handle. -/
theorem Acquainted.ordered (h : Acquainted silent knows greets w) {x : M} {rest : List M}
    (hout : (w.port n).outbox = x :: rest) :
    Acquainted silent knows greets (w.ordered n x rest) := by
  intro k j hkj ht
  obtain ⟨hstk, hlk, hrk, -, hqk⟩ := w.ordered_port n x rest k
  obtain ⟨hstj, hlj, hrj, hoj, hqj⟩ := w.ordered_port n x rest j
  have ht' : w.Together k j := by
    obtain ⟨hk, hj, hr⟩ := ht
    exact ⟨hlk ▸ hk, hlj ▸ hj, by rw [← hrk, ← hrj]; exact hr⟩
  rw [Port.Met, hstk, hstj]
  rcases h k j hkj ht' with hs | hs | hdue | htold
  · exact Or.inl hs
  · exact Or.inr (Or.inl hs)
  · rcases hdue with ⟨e, he, hjoined⟩ | ⟨y, hy, hg⟩
    · refine Or.inr (Or.inr (Or.inl (Or.inl ⟨e, ?_, hjoined⟩)))
      rw [hqj]
      split_ifs
      exacts [List.mem_append_left _ he, he]
    · by_cases hjn : j = n
      · subst hjn
        rw [hout] at hy
        rcases List.mem_cons.mp hy with rfl | hy
        · -- the greeting itself, which `k` is in the ring to be told
          have hin : (w.port k).In (w.port j).ring := ⟨ht'.1, ht'.2.2.symm⟩
          refine Or.inr (Or.inr (Or.inr ?_))
          rw [Port.Told, hqk, if_pos hin, told_snoc]
          exact Or.inr ⟨rfl, hg⟩
        · exact Or.inr (Or.inr (Or.inl (Or.inr ⟨y, by rwa [hoj, if_pos rfl], hg⟩)))
      · exact Or.inr (Or.inr (Or.inl (Or.inr ⟨y, by rwa [hoj, if_neg hjn], hg⟩)))
  · refine Or.inr (Or.inr (Or.inr ?_))
    rw [Port.Told, hstk, hqk]
    split_ifs
    · exact (told_snoc _).mpr (Or.inl htold)
    · exact htold

/-- A new ring: whoever has not been in one ring before is new to the other. -/
theorem Acquainted.reconfigured (h : Acquainted silent knows greets w)
    (hplaced : ∀ k, (w.port k).link.isMember = true → (w.port k).ring < w.rings) (members : List ι) :
    Acquainted silent knows greets (w.reconfigured members) := by
  intro k j hkj ht
  have hin {i : ι} (hi : i ∈ members) : (w.reconfigured members).port i =
      (w.port i).enter w.rings members (w.change members i) := if_pos hi
  have hout {i : ι} (hi : i ∉ members) : (w.reconfigured members).port i = w.port i := if_neg hi
  obtain ⟨hk, hj, hr⟩ := ht
  by_cases hkm : k ∈ members <;> by_cases hjm : j ∈ members
  · rw [hin hkm, hin hjm]
    by_cases htog : w.Together k j
    · rcases h k j hkj htog with hs | hs | hdue | htold
      · exact Or.inl hs
      · exact Or.inr (Or.inl hs)
      · refine Or.inr (Or.inr (Or.inl (hdue.imp_left ?_)))
        rintro ⟨e, he, hjoined⟩
        exact ⟨e, List.mem_append_left _ he, hjoined⟩
      · -- `j` comes along
        refine Or.inr (Or.inr (Or.inr ((told_snoc _).mpr ⟨htold, fun hleft => ?_⟩)))
        have hnot := (List.mem_filter.mp hleft).2
        simp [hjm, htog] at hnot
    · refine Or.inr (Or.inr (Or.inl (Or.inl ⟨w.change members j, by simp [Port.enter], ?_⟩)))
      show w.newcomers members j ≠ []
      by_cases hlj : (w.port j).link = .joining
      · refine List.ne_nil_of_mem (a := j) (List.mem_filter.mpr ⟨hjm, ?_⟩)
        simp [hlj]
      · refine List.ne_nil_of_mem (a := k) (List.mem_filter.mpr ⟨hkm, ?_⟩)
        have hnot : ¬ w.Together j k := fun hjk => htog hjk.symm
        simp [hlj, hnot]
  -- the new ring has a number of its own
  · rw [hin hkm, hout hjm] at hr
    rw [hout hjm] at hj
    exact absurd hr (Nat.ne_of_lt (hplaced j hj))
  · rw [hout hkm, hin hjm] at hr
    rw [hout hkm] at hk
    exact absurd hr.symm (Nat.ne_of_lt (hplaced k hk))
  · rw [hout hkm] at hk hr ⊢
    rw [hout hjm] at hj hr ⊢
    exact h k j hkj ⟨hk, hj, hr⟩

/-- **Two members of one ring have met**, in every state reached. -/
theorem acquainted_of_reaches (hI : RuleFor B ok I P) (hB : Introducing B ok I silent knows greets)
    (h : ReachesWhen (Network.step B) ok (init B) w) : Acquainted silent knows greets w := by
  refine h.invariant (I := Acquainted silent knows greets) ?_ ?_
  · rintro n m - ⟨hn, -⟩
    cases hn
  intro w a w' hr hmet hok hs
  have hsound := sound hI hr
  cases stepTo_of_step hs with
  | @act n a s sig p hup ha hp =>
    apply hmet.setPort
    intro hl
    obtain ⟨hlink, hring, hf⟩ := hB.signalled hok ((hsound n).site hup) ha hp hl
    exact ⟨hlink ▸ hl, hring, hf⟩
  | @deliver n x e rest s out hl hq hd =>
    have hup : (w.port n).up = true := (hsound n).running fun ho => by simp [ho, Link.isMember] at hl
    exact hmet.setPort fun _ => ⟨hl, rfl, hB.handled hok ((hsound n).site hup) hq hd⟩
  | order hout => exact hmet.ordered hout
  | reconfigure => exact hmet.reconfigured (fun k => (hsound k).placed) _
  | crash n => exact hmet.setPort fun hl => (by cases hl)
  | @boot n hup =>
    apply hmet.setPort
    intro hl
    -- a process that is down is in no ring
    exact absurd ((hsound n).running fun ho => by simp [ho, Link.isMember] at hl) hup

/-- **Of two members of one ring with nothing left to tell, each knows the other**, unless one of
them is silent. -/
theorem acquainted (hI : RuleFor B ok I P) (hB : Introducing B ok I silent knows greets)
    (h : ReachesWhen (Network.step B) ok (init B) w) (hne : n ≠ m) (ht : w.Together n m)
    (hn : (w.port n).AtRest greets) (hm : (w.port m).AtRest greets) :
    silent (w.port n).st ∨ silent (w.port m).st ∨ knows (w.port n).st m := by
  rcases acquainted_of_reaches hI hB h n m hne ht with hs | hs | hdue | htold
  · exact Or.inl hs
  · exact Or.inr (Or.inl hs)
  · rcases hdue with ⟨e, he, hj⟩ | ⟨x, hx, hg⟩
    · obtain ⟨y, x, rfl, -⟩ := hm.1 e he
      exact absurd rfl hj
    · exact absurd hg (hm.2 x hx)
  · exact Or.inr (Or.inr (told_of_messages hn.1 htold))

end Introductions

end Network

end Agreed
