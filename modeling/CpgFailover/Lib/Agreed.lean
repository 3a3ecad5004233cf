import Mathlib.Data.List.Nodup
import Mathlib.Data.Nat.Basic
import Mathlib.Data.Nat.Find
import Mathlib.Logic.Function.Basic
import Mathlib.Logic.Relation

/-!
# Groups under agreed delivery

A group of processes around one totally ordered log of configuration changes and messages. Every
member handles the entries of the log from its own join on, each at its own pace; what it
multicasts while handling an entry waits in its outbox until the group orders it, which happens
only while the sender is in the view. There are no partitions: a member leaves the view only
after it has crashed or disconnected. The transcript records what every process has handled.

## Main definitions

* `Entry`, `viewAfter`: the agreed log and the view after a prefix of it
* `Behaviour`: the local side of a process
* `Group`, `Group.step`: the state of the group and its steps
* `LogSound`, `JoinsAt`, `Stays`: well-formed logs, joins, and uninterrupted membership
* `lastIn`: the last view a process was in

## Main results

* `Group.stepTo_of_step`: what a step can do
* `LogSound.nodup`, `LogSound.confchg_at`, `LogSound.message_at`: the entries of a well-formed log
* `LogSound.exists_joinsAt`: whoever is in the view has joined and stayed since
* `Stays.of_append`, `JoinsAt.append`: a longer log says the same about its prefixes
-/

namespace Agreed

variable {ι M S O A X : Type}

/-- What the group delivers. -/
inductive Entry (ι M : Type) where
  | confchg (members left joined : List ι)
  | message (sender : ι) (m : M)
deriving DecidableEq

/-- The view after an entry. -/
def Entry.view (e : Entry ι M) (v : List ι) : List ι :=
  match e with
  | .confchg members _ _ => members
  | .message _ _ => v

/-- The view after a log. -/
def viewAfter (log : List (Entry ι M)) : List ι := log.foldl (fun v e => e.view v) []

@[simp] theorem viewAfter_nil : viewAfter ([] : List (Entry ι M)) = [] := rfl

@[simp] theorem viewAfter_snoc (log : List (Entry ι M)) (e : Entry ι M) :
    viewAfter (log ++ [e]) = e.view (viewAfter log) := by
  simp [viewAfter, List.foldl_append]

/-! ## The local side -/

/-- What a local step asks of the group. -/
inductive Signal (M : Type) where
  | quiet
  | connect
  | disconnect
  | send (m : M)

/-- The local side of a process: its state at boot, its local steps, its handling of an entry with
what the handling puts out, and the messages it multicasts by it. -/
structure Behaviour (ι M S O A X : Type) where
  boot : ι → S
  act : ι → S → A → Option (S × Signal M)
  deliver : ι → S → Entry ι M → X → Option (S × O)
  mcast : O → List M

/-- The connection of a process: a member handles the log from entry `since` on, and `next` is the
entry it handles next. -/
inductive Conn where
  | out
  | joining
  | member (since next : ℕ)
deriving DecidableEq

/-- A process of the group. -/
structure Site (M S : Type) where
  up : Bool
  st : S
  conn : Conn
  outbox : List M

/-- One handled entry: the state before, the state after, and what was put out. -/
structure Record (ι S O : Type) where
  node : ι
  pos : ℕ
  pre : S
  post : S
  out : O

/-- The state of the group. -/
structure Group (ι M S O : Type) where
  log : List (Entry ι M)
  site : ι → Site M S
  transcript : List (Record ι S O)

/-- The steps of the group: a local step, the handling of the next entry, the ordering of a
message, a configuration change, a crash, and a new process after a crash. -/
inductive Action (ι A X : Type) where
  | act (n : ι) (a : A)
  | deliver (n : ι) (x : X)
  | order (n : ι)
  | confchg (left joined : List ι)
  | crash (n : ι)
  | boot (n : ι)

/-- The site after a local step; only a member sends, and only a process outside connects. -/
def Site.signal (p : Site M S) (s : S) : Signal M → Option (Site M S)
  | .quiet => some { p with st := s }
  | .connect => if p.conn = .out then some { p with st := s, conn := .joining } else none
  | .disconnect => some { p with st := s, conn := .out }
  | .send m =>
    match p.conn with
    | .member _ _ => some { p with st := s, outbox := p.outbox ++ [m] }
    | _ => none

/-- The site that has entered the view with the entry at position `k`. -/
def Site.enter (p : Site M S) (k : ℕ) : Site M S := { p with conn := .member k k }

/-- Whether the process is in the group, from its own point of view. -/
def Conn.isMember : Conn → Bool
  | .member _ _ => true
  | _ => false

namespace Group

/-- Nobody has joined yet. -/
def init (B : Behaviour ι M S O A X) : Group ι M S O :=
  ⟨[], fun n => ⟨true, B.boot n, .out, []⟩, []⟩

/-- The current view. -/
def view (g : Group ι M S O) : List ι := viewAfter g.log

variable [DecidableEq ι]

/-- Replace the site of `n`. -/
def setSite (g : Group ι M S O) (n : ι) (p : Site M S) : Group ι M S O :=
  { g with site := Function.update g.site n p }

/-- `n` handles the entry `e` at position `k`. -/
def handled (B : Behaviour ι M S O A X) (g : Group ι M S O) (n : ι) (since k : ℕ) (s : S) (out : O) :
    Group ι M S O :=
  { log := g.log
    site := Function.update g.site n
      { g.site n with
        st := s, conn := .member since (k + 1), outbox := (g.site n).outbox ++ B.mcast out }
    transcript := g.transcript ++ [⟨n, k, (g.site n).st, s, out⟩] }

section Sites

variable {B : Behaviour ι M S O A X} {g : Group ι M S O} {n m : ι} {p : Site M S} {since k : ℕ}
  {s : S} {out : O}

@[simp] theorem setSite_self : (g.setSite n p).site n = p := Function.update_self ..

theorem setSite_of_ne (hm : m ≠ n) : (g.setSite n p).site m = g.site m :=
  Function.update_of_ne hm ..

@[simp] theorem handled_log : (g.handled B n since k s out).log = g.log := rfl

@[simp] theorem handled_self : (g.handled B n since k s out).site n =
    { g.site n with
      st := s, conn := .member since (k + 1), outbox := (g.site n).outbox ++ B.mcast out } :=
  Function.update_self ..

theorem handled_of_ne (hm : m ≠ n) : (g.handled B n since k s out).site m = g.site m :=
  Function.update_of_ne hm ..

theorem mem_handled {r : Record ι S O} : r ∈ (g.handled B n since k s out).transcript ↔
    r ∈ g.transcript ∨ r = ⟨n, k, (g.site n).st, s, out⟩ := by
  simp [handled]

end Sites

/-- Whether the group may order this configuration change: the departed are in the view and no
longer connected, the joined are connected and not in the view. -/
def CanChange (g : Group ι M S O) (left joined : List ι) : Prop :=
  left.Nodup ∧ joined.Nodup ∧ (left ≠ [] ∨ joined ≠ []) ∧
    (∀ n ∈ left, n ∈ g.view ∧ (g.site n).conn.isMember = false) ∧
    ∀ n ∈ joined, n ∉ g.view ∧ (g.site n).conn = .joining

instance (g : Group ι M S O) (left joined : List ι) : Decidable (g.CanChange left joined) := by
  unfold CanChange
  infer_instance

/-- The members after a configuration change. -/
def members (g : Group ι M S O) (left joined : List ι) : List ι :=
  g.view.filter (fun n => n ∉ left) ++ joined

/-- The group after a configuration change. -/
def change (g : Group ι M S O) (left joined : List ι) : Group ι M S O :=
  { g with
    log := g.log ++ [.confchg (g.members left joined) left joined]
    site := fun n =>
      if n ∈ left then { g.site n with outbox := [] }
      else if n ∈ joined then (g.site n).enter g.log.length
      else g.site n }

/-- One step of the group. -/
def step (B : Behaviour ι M S O A X) (g : Group ι M S O) : Action ι A X → Option (Group ι M S O)
  | .act n a =>
    if (g.site n).up then
      match B.act n (g.site n).st a with
      | some (s, sig) => ((g.site n).signal s sig).map (g.setSite n)
      | none => none
    else none
  | .deliver n x =>
    match (g.site n).conn with
    | .member since next =>
      match g.log[next]? with
      | some e => (B.deliver n (g.site n).st e x).map fun r => g.handled B n since next r.1 r.2
      | none => none
    | _ => none
  | .order n =>
    match (g.site n).outbox with
    | m :: rest =>
      if n ∈ g.view then
        some { g.setSite n { g.site n with outbox := rest } with log := g.log ++ [.message n m] }
      else none
    | [] => none
  | .confchg left joined => if g.CanChange left joined then some (g.change left joined) else none
  -- a crash leaves the outbox: what was multicast may still be ordered
  | .crash n => some (g.setSite n { g.site n with up := false, conn := .out })
  | .boot n =>
    if (g.site n).up then none
    else some (g.setSite n { g.site n with up := true, st := B.boot n })

/-- The steps of the group, one constructor for each action. -/
inductive StepTo (B : Behaviour ι M S O A X) (g : Group ι M S O) :
    Action ι A X → Group ι M S O → Prop
  | act {n : ι} {a : A} {s : S} {sig : Signal M} {p : Site M S} :
      (g.site n).up = true → B.act n (g.site n).st a = some (s, sig) →
      (g.site n).signal s sig = some p → StepTo B g (.act n a) (g.setSite n p)
  | deliver {n : ι} {x : X} {since next : ℕ} {e : Entry ι M} {s : S} {out : O} :
      (g.site n).conn = .member since next → g.log[next]? = some e →
      B.deliver n (g.site n).st e x = some (s, out) →
      StepTo B g (.deliver n x) (g.handled B n since next s out)
  | order {n : ι} {m : M} {rest : List M} :
      n ∈ g.view → (g.site n).outbox = m :: rest →
      StepTo B g (.order n)
        { g.setSite n { g.site n with outbox := rest } with log := g.log ++ [.message n m] }
  | confchg {left joined : List ι} :
      g.CanChange left joined → StepTo B g (.confchg left joined) (g.change left joined)
  | crash (n : ι) : StepTo B g (.crash n) (g.setSite n { g.site n with up := false, conn := .out })
  | boot {n : ι} :
      ¬ (g.site n).up = true →
      StepTo B g (.boot n) (g.setSite n { g.site n with up := true, st := B.boot n })

/-- **What a step can do.** -/
theorem stepTo_of_step {B : Behaviour ι M S O A X} {g g' : Group ι M S O} {a : Action ι A X}
    (hs : g.step B a = some g') : StepTo B g a g' := by
  cases a with
  | act n a =>
    simp only [Group.step] at hs
    split_ifs at hs with hup
    split at hs
    · rename_i s sig ha
      obtain ⟨p, hp, rfl⟩ := Option.map_eq_some_iff.mp hs
      exact .act hup ha hp
    · cases hs
  | deliver n x =>
    simp only [Group.step] at hs
    split at hs
    · rename_i since next hc
      split at hs
      · rename_i e he
        obtain ⟨⟨s, out⟩, hd, rfl⟩ := Option.map_eq_some_iff.mp hs
        exact .deliver hc he hd
      · cases hs
    · cases hs
  | order n =>
    simp only [Group.step] at hs
    split at hs
    · rename_i m rest hout
      split_ifs at hs with hv
      obtain rfl := Option.some.inj hs
      exact .order hv hout
    · cases hs
  | confchg left joined =>
    simp only [Group.step] at hs
    split_ifs at hs with hc
    obtain rfl := Option.some.inj hs
    exact .confchg hc
  | crash n =>
    obtain rfl := Option.some.inj hs
    exact .crash n
  | boot n =>
    simp only [Group.step] at hs
    split_ifs at hs with hup
    obtain rfl := Option.some.inj hs
    exact .boot hup

end Group

/-! ## Well-formed logs -/

/-- The logs a group can order: the departed are in the view, the joined are not, and a message is
ordered only while its sender is in the view. -/
inductive LogSound [DecidableEq ι] : List (Entry ι M) → Prop
  | nil : LogSound []
  | confchg {log : List (Entry ι M)} {left joined : List ι} :
      LogSound log → joined.Nodup → (∀ n ∈ left, n ∈ viewAfter log) →
      (∀ n ∈ joined, n ∉ viewAfter log) →
      LogSound (log ++
        [.confchg ((viewAfter log).filter (fun n => n ∉ left) ++ joined) left joined])
  | message {log : List (Entry ι M)} {y : ι} {m : M} :
      LogSound log → y ∈ viewAfter log → LogSound (log ++ [.message y m])

/-- The entry at position `k` brings `n` into the view. -/
def JoinsAt (log : List (Entry ι M)) (k : ℕ) (n : ι) : Prop :=
  ∃ members left joined, log[k]? = some (.confchg members left joined) ∧ n ∈ joined

/-- Those whom an entry brings into the view. -/
def Entry.joined : Entry ι M → List ι
  | .confchg _ _ joined => joined
  | .message _ _ => []

instance [DecidableEq ι] (log : List (Entry ι M)) (k : ℕ) (n : ι) : Decidable (JoinsAt log k n) :=
  decidable_of_iff (∃ e ∈ log[k]?, n ∈ e.joined) <| by
    constructor
    · rintro ⟨e, he, hn⟩
      cases e with
      | confchg members left joined => exact ⟨members, left, joined, he, hn⟩
      | message y m => cases hn
    · rintro ⟨members, left, joined, he, hn⟩
      exact ⟨_, he, hn⟩

/-- `n` is in the view after every prefix longer than `i` and no longer than `j`. -/
def Stays (log : List (Entry ι M)) (n : ι) (i j : ℕ) : Prop :=
  ∀ k, i < k → k ≤ j → n ∈ viewAfter (log.take k)

instance [DecidableEq ι] (log : List (Entry ι M)) (n : ι) (i j : ℕ) : Decidable (Stays log n i j) :=
  decidable_of_iff (∀ k < j + 1, i < k → n ∈ viewAfter (log.take k))
    ⟨fun h k hk hk' => h k (Nat.lt_succ_of_le hk') hk, fun h k hk hk' => h k hk' (by omega)⟩

theorem Stays.mono {log : List (Entry ι M)} {n : ι} {i j i' j' : ℕ} (h : Stays log n i j)
    (hi : i ≤ i') (hj : j' ≤ j) : Stays log n i' j' :=
  fun k hk hk' => h k (by omega) (by omega)

theorem Stays.mem {log : List (Entry ι M)} {n : ι} {i j : ℕ} (h : Stays log n i j) (hij : i < j) :
    n ∈ viewAfter (log.take j) :=
  h j hij le_rfl

theorem Stays.snoc {log : List (Entry ι M)} {n : ι} {i j : ℕ} (h : Stays log n i j)
    (hj : n ∈ viewAfter (log.take (j + 1))) : Stays log n i (j + 1) := by
  intro k hk hk'
  rcases Nat.lt_or_ge j k with hlt | hge
  · obtain rfl : k = j + 1 := by omega
    exact hj
  · exact h k hk hge

theorem Stays.trans {log : List (Entry ι M)} {n : ι} {i j k : ℕ} (h : Stays log n i j)
    (h' : Stays log n j k) : Stays log n i k := by
  intro l hl hl'
  rcases Nat.lt_or_ge j l with hlt | hge
  · exact h' l hlt hl'
  · exact h l hl hge

theorem stays_self (log : List (Entry ι M)) (n : ι) (i : ℕ) : Stays log n i i :=
  fun k hk hk' => by omega

/-! ### Prefixes of a growing log -/

theorem take_append_one {log : List (Entry ι M)} {e : Entry ι M} {k : ℕ} (h : k ≤ log.length) :
    (log ++ [e]).take k = log.take k :=
  List.take_append_of_le_length h

/-- Messages leave the view alone. -/
theorem viewAfter_of_messages {log : List (Entry ι M)} {j k : ℕ} (hjk : j ≤ k)
    (h : ∀ i, j ≤ i → i < k → ∀ e, log[i]? = some e → ∃ y m, e = .message y m) :
    viewAfter (log.take k) = viewAfter (log.take j) := by
  -- Induction on the longer prefix: each entry it adds is a message.
  induction k, hjk using Nat.le_induction with
  | base => rfl
  | succ k hjk ih =>
    have hold := ih fun i hi hik => h i hi (by omega)
    rw [List.take_add_one]
    cases he : log[k]? with
    | none => simpa using hold
    | some e =>
      obtain ⟨y, m, rfl⟩ := h k hjk (Nat.lt_succ_self k) e he
      rw [Option.toList_some, viewAfter_snoc]
      exact hold

theorem take_succ_of_getElem? {log : List (Entry ι M)} {e : Entry ι M} {k : ℕ}
    (h : log[k]? = some e) : log.take (k + 1) = log.take k ++ [e] := by
  rw [List.take_add_one, h]
  rfl

theorem viewAfter_take_succ {log : List (Entry ι M)} {e : Entry ι M} {k : ℕ}
    (h : log[k]? = some e) : viewAfter (log.take (k + 1)) = e.view (viewAfter (log.take k)) := by
  rw [take_succ_of_getElem? h, viewAfter_snoc]

theorem getElem?_append_one {log : List (Entry ι M)} {e e' : Entry ι M} {k : ℕ}
    (h : log[k]? = some e) : (log ++ [e'])[k]? = some e := by
  have hk : k < log.length := (List.getElem?_eq_some_iff.mp h).1
  rw [List.getElem?_append_left hk, h]

/-- An element of the longer list is one of the shorter list, or the one appended. -/
theorem getElem?_snoc_cases {α : Type} {l : List α} {a a' : α} {k : ℕ}
    (h : (l ++ [a'])[k]? = some a) : l[k]? = some a ∨ k = l.length ∧ a = a' := by
  rw [List.getElem?_append] at h
  split_ifs at h with hk
  · exact Or.inl h
  · obtain ⟨hz, rfl⟩ := List.getElem?_eq_some_iff.mp h
    simp only [List.length_singleton] at hz
    exact Or.inr ⟨by omega, by simp⟩

theorem JoinsAt.append {log : List (Entry ι M)} {k : ℕ} {n : ι} {e : Entry ι M}
    (h : JoinsAt log k n) : JoinsAt (log ++ [e]) k n := by
  obtain ⟨ms, l, j, hk, hn⟩ := h
  exact ⟨ms, l, j, getElem?_append_one hk, hn⟩

theorem joinsAt_append_iff {log : List (Entry ι M)} {k : ℕ} {n : ι} {e : Entry ι M}
    (hk : k < log.length) : JoinsAt (log ++ [e]) k n ↔ JoinsAt log k n := by
  simp only [JoinsAt, List.getElem?_append_left hk]

theorem stays_append_iff {log : List (Entry ι M)} {n : ι} {i j : ℕ} {e : Entry ι M}
    (hj : j ≤ log.length) : Stays (log ++ [e]) n i j ↔ Stays log n i j := by
  constructor <;> intro h k hk hk' <;> have hm := h k hk hk'
  · rwa [take_append_one (by omega)] at hm
  · rwa [take_append_one (by omega)]

/-- The member who stays through the appended entry. -/
theorem Stays.append {log : List (Entry ι M)} {n : ι} {i : ℕ} {e : Entry ι M}
    (h : Stays log n i log.length) (he : n ∈ e.view (viewAfter log)) :
    Stays (log ++ [e]) n i (log ++ [e]).length := by
  rw [List.length_append, List.length_singleton]
  apply ((stays_append_iff le_rfl).mpr h).snoc
  rw [List.take_of_length_le (by simp), viewAfter_snoc]
  exact he

theorem Stays.of_append {log : List (Entry ι M)} {n : ι} {i : ℕ} {e : Entry ι M}
    (h : Stays (log ++ [e]) n i (log ++ [e]).length) : Stays log n i log.length :=
  (stays_append_iff le_rfl).mp (h.mono le_rfl (by simp))

/-! ### The entries of a well-formed log -/

section LogSound

variable [DecidableEq ι] {log : List (Entry ι M)}

theorem LogSound.nodup_view (h : LogSound log) : (viewAfter log).Nodup := by
  induction h with
  | nil => exact List.nodup_nil
  | @confchg log left joined hl hj _ hjn ih =>
    rw [viewAfter_snoc]
    refine List.nodup_append.mpr ⟨ih.filter _, hj, ?_⟩
    -- the joined are not in the view they join
    rintro n hn m hm rfl
    exact hjn n hm (List.mem_of_mem_filter hn)
  | message _ _ ih => rwa [viewAfter_snoc]

theorem LogSound.take (h : LogSound log) (k : ℕ) : LogSound (log.take k) := by
  induction h with
  | nil => simpa using LogSound.nil
  | @confchg log left joined hl hj hlv hjv ih =>
    -- the prefix is the whole log, or one of the log before the entry
    rcases Nat.lt_or_ge log.length k with hlt | hge
    · rw [List.take_of_length_le (by simp; omega)]
      exact .confchg hl hj hlv hjv
    · rwa [take_append_one hge]
  | @message log y m hl hy ih =>
    rcases Nat.lt_or_ge log.length k with hlt | hge
    · rw [List.take_of_length_le (by simp; omega)]
      exact .message hl hy
    · rwa [take_append_one hge]

/-- Every view has distinct members. -/
theorem LogSound.nodup (h : LogSound log) (k : ℕ) : (viewAfter (log.take k)).Nodup :=
  (h.take k).nodup_view

/-- A configuration change removes members of the view before it and adds others. -/
theorem LogSound.confchg_at (h : LogSound log) {k : ℕ} {members left joined : List ι}
    (hk : log[k]? = some (.confchg members left joined)) :
    members = (viewAfter (log.take k)).filter (fun n => n ∉ left) ++ joined ∧
      (∀ n ∈ left, n ∈ viewAfter (log.take k)) ∧ ∀ n ∈ joined, n ∉ viewAfter (log.take k) := by
  have hs := h.take (k + 1)
  rw [take_succ_of_getElem? hk] at hs
  -- the prefix that ends with the entry has been built by its constructor
  generalize log.take k = log' at hs
  generalize hlog : log' ++ [Entry.confchg members left joined] = l at hs
  cases hs with
  | nil => simp at hlog
  | confchg hl hj hlv hjv =>
    obtain ⟨rfl, he⟩ := List.append_inj' hlog rfl
    cases he
    exact ⟨rfl, hlv, hjv⟩
  | message hl hy =>
    obtain ⟨-, he⟩ := List.append_inj' hlog rfl
    cases he

/-- The sender of a message is in the view. -/
theorem LogSound.message_at (h : LogSound log) {k : ℕ} {y : ι} {m : M}
    (hk : log[k]? = some (.message y m)) : y ∈ viewAfter (log.take k) := by
  have hs := h.take (k + 1)
  rw [take_succ_of_getElem? hk] at hs
  generalize log.take k = log' at hs
  generalize hlog : log' ++ [Entry.message y m] = l at hs
  cases hs with
  | nil => simp at hlog
  | confchg hl hj hlv hjv =>
    obtain ⟨-, he⟩ := List.append_inj' hlog rfl
    cases he
  | message hl hy =>
    obtain ⟨rfl, he⟩ := List.append_inj' hlog rfl
    cases he
    exact hy

theorem LogSound.not_joinsAt (h : LogSound log) {k : ℕ} {n : ι}
    (hn : n ∈ viewAfter (log.take k)) : ¬ JoinsAt log k n := by
  rintro ⟨ms, l, j, hk, hj⟩
  exact (h.confchg_at hk).2.2 n hj hn

/-- Who is in the view after a configuration change. -/
theorem LogSound.mem_view_confchg (h : LogSound log) {k : ℕ} {members left joined : List ι}
    (hk : log[k]? = some (.confchg members left joined)) {n : ι} :
    n ∈ viewAfter (log.take (k + 1)) ↔
      n ∈ viewAfter (log.take k) ∧ n ∉ left ∨ n ∈ joined := by
  rw [viewAfter_take_succ hk]
  simp [Entry.view, (h.confchg_at hk).1]

/-- Whoever is in the view has joined and stayed since. -/
theorem LogSound.exists_joinsAt (h : LogSound log) {k : ℕ} {n : ι}
    (hk : k ≤ log.length) (hn : n ∈ viewAfter (log.take k)) :
    ∃ j < k, JoinsAt log j n ∧ Stays log n j k := by
  induction k with
  | zero => simp at hn
  | succ k ih =>
    have hlt : k < log.length := by omega
    -- the last entry of the prefix is the join, or the process was in the view before it
    by_cases hj : JoinsAt log k n
    · exact ⟨k, Nat.lt_succ_self k, hj, (stays_self log n k).snoc hn⟩
    · have hn' : n ∈ viewAfter (log.take k) := by
        have he := List.getElem?_eq_getElem hlt
        -- a configuration change brings in only those who join, and a message nobody
        rcases hlog : log[k] with ⟨members, left, joined⟩ | ⟨y, m⟩
        · rw [hlog] at he
          rcases (h.mem_view_confchg he).mp hn with hn | hn
          exacts [hn.1, absurd ⟨members, left, joined, he, hn⟩ hj]
        · rw [hlog] at he
          rwa [viewAfter_take_succ he] at hn
      obtain ⟨j, hjk, hjn, hs⟩ := ih (by omega) hn'
      exact ⟨j, by omega, hjn, hs.snoc hn⟩

omit [DecidableEq ι] in
theorem mem_view_message {k : ℕ} {y : ι} {m : M} (hk : log[k]? = some (.message y m)) {n : ι} :
    n ∈ viewAfter (log.take (k + 1)) ↔ n ∈ viewAfter (log.take k) := by
  rw [viewAfter_take_succ hk]
  rfl

/-! ### The last view of a process -/

/-- The length of the longest prefix after which `n` is in the view; `0` if it never is. -/
def lastIn (log : List (Entry ι M)) (n : ι) : ℕ :=
  Nat.findGreatest (fun i => n ∈ viewAfter (log.take i)) log.length

theorem lastIn_le (log : List (Entry ι M)) (n : ι) : lastIn log n ≤ log.length :=
  Nat.findGreatest_le _

theorem le_lastIn {n : ι} {k : ℕ} (hk : k ≤ log.length) (hn : n ∈ viewAfter (log.take k)) :
    k ≤ lastIn log n :=
  Nat.le_findGreatest hk hn

theorem mem_lastIn {n : ι} {k : ℕ} (hk : k ≤ log.length) (hn : n ∈ viewAfter (log.take k)) :
    n ∈ viewAfter (log.take (lastIn log n)) :=
  Nat.findGreatest_spec (P := fun i => n ∈ viewAfter (log.take i)) hk hn

/-- The last view of the longer log is not earlier. -/
theorem lastIn_append (log : List (Entry ι M)) (e : Entry ι M) (n : ι) :
    lastIn log n ≤ lastIn (log ++ [e]) n := by
  rcases Nat.eq_zero_or_pos (lastIn log n) with hz | hpos
  · rw [hz]
    exact Nat.zero_le _
  -- the prefix of the old log is one of the new
  · have hlen := lastIn_le log n
    have hmem : n ∈ viewAfter (log.take (lastIn log n)) :=
      Nat.findGreatest_of_ne_zero (P := fun i => n ∈ viewAfter (log.take i)) rfl (by omega)
    rw [← take_append_one (e := e) hlen] at hmem
    exact le_lastIn (by simp; omega) hmem

/-- Whoever does not join again stays until its last view. -/
theorem LogSound.stays_lastIn (h : LogSound log) {n : ι} {i k : ℕ} (hk : k ≤ log.length)
    (hn : n ∈ viewAfter (log.take k)) (hjoin : ∀ j, i < j → ¬ JoinsAt log j n) :
    Stays log n i (lastIn log n) := by
  obtain ⟨j, -, hj, hst⟩ := h.exists_joinsAt (lastIn_le log n) (mem_lastIn hk hn)
  -- a later join than `i` is ruled out
  have hji : j ≤ i := by
    by_contra hlt
    exact hjoin j (by omega) hj
  exact hst.mono hji le_rfl

end LogSound

end Agreed
