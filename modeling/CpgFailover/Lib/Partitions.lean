import CpgFailover.Lib.AgreedRuns

/-!
# Networks that partition and merge

Processes on a network whose connected parts change. Every part is a ring, which orders what its
members multicast: a message is ordered for all of them at once, and each handles what has been
ordered for it at its own pace. A new ring may take members from several old ones, and leave others
behind; each member is told who has not come with it, and who has not been with it before. What a
process has multicast and nobody has ordered yet is ordered in the ring that it is in by then.

## Main definitions

* `Port`, `Network`, `Network.step`: a process on the network, the network and its steps
* `Network.Together`: two members of one ring
* `Network.RuleFor`: what each step keeps, of the processes and of what they multicast

## Main results

* `Network.stepTo_of_step`: what a step can do
* `Network.sound`: the rule for invariants of the processes and of the messages
-/

namespace Agreed

open Transition

variable {ι M S O A X : Type}

/-- How far a process has come with its ring; a member has handled its join or not. -/
inductive Link where
  | out
  | joining
  | member (handled : Bool)
deriving DecidableEq

def Link.isMember : Link → Bool
  | .member _ => true
  | _ => false

def Link.kind : Link → Kind
  | .out => .out
  | .joining => .joining
  | .member handled => if handled then .active else .admitted

/-- The link of a process that a ring takes in. -/
def Link.admit : Link → Link
  | .joining => .member false
  | l => l

/-- A process on the network: its ring, the view it has of it, the messages that it has multicast
and nobody has ordered, and the entries that it has still to handle. -/
structure Port (ι M S : Type) where
  up : Bool
  st : S
  link : Link
  ring : ℕ
  view : List ι
  outbox : List M
  queue : List (Entry ι M)

/-- The state of the network; `rings` is the number of the next ring. -/
structure Network (ι M S : Type) where
  port : ι → Port ι M S
  rings : ℕ

/-- The steps of the network: a local step, the handling of the next entry, the ordering of a
message, a new ring, a crash, and a new process after a crash. -/
inductive NetAction (ι A X : Type) where
  | act (n : ι) (a : A)
  | deliver (n : ι) (x : X)
  | order (n : ι)
  | reconfigure (members : List ι)
  | crash (n : ι)
  | boot (n : ι)

namespace Port

/-- The port after a local step; only a member sends, and only a process outside connects. -/
def signal (p : Port ι M S) (s : S) : Signal M → Option (Port ι M S)
  | .quiet => some { p with st := s }
  | .connect =>
    if p.link = .out then
      some { p with st := s, link := .joining, view := [], outbox := [], queue := [] }
    else none
  | .disconnect => some { p with st := s, link := .out, queue := [] }
  | .send m =>
    match p.link with
    | .member _ => some { p with st := s, outbox := p.outbox ++ [m] }
    | _ => none

/-- The port that has handled the head of its queue. -/
def handled (p : Port ι M S) (s : S) (said : List M) (rest : List (Entry ι M)) : Port ι M S :=
  { p with st := s, link := .member true, outbox := p.outbox ++ said, queue := rest }

/-- An entry more to handle. -/
def receive (p : Port ι M S) (e : Entry ι M) : Port ι M S := { p with queue := p.queue ++ [e] }

/-- The port in its new ring, whose configuration it has still to handle. -/
def enter (p : Port ι M S) (ring : ℕ) (members : List ι) (e : Entry ι M) : Port ι M S :=
  { p with link := p.link.admit, ring := ring, view := members, queue := p.queue ++ [e] }

/-- A member of the ring. -/
def In (p : Port ι M S) (ring : ℕ) : Prop := p.link.isMember = true ∧ p.ring = ring

instance (p : Port ι M S) (ring : ℕ) : Decidable (p.In ring) := by
  unfold In
  infer_instance

end Port

namespace Network

/-- Nobody has joined yet. -/
def init (B : Behaviour ι M S O A X) : Network ι M S :=
  ⟨fun n => ⟨true, B.boot n, .out, 0, [], [], []⟩, 0⟩

/-- Two members of one ring. -/
def Together (w : Network ι M S) (n m : ι) : Prop :=
  (w.port n).link.isMember = true ∧ (w.port m).In (w.port n).ring

instance (w : Network ι M S) (n m : ι) : Decidable (w.Together n m) := by
  unfold Together
  infer_instance

/-- Those of a new ring who are new to `k`; to a process that joins, whoever else joins is. -/
def newcomers (w : Network ι M S) (members : List ι) (k : ι) : List ι :=
  members.filter fun m =>
    if (w.port k).link = .joining then (w.port m).link = .joining else ¬ w.Together k m

/-- A message or a configuration for all members of a ring. -/
def broadcast (w : Network ι M S) (ring : ℕ) (e : Entry ι M) : Network ι M S :=
  { w with port := fun k => if (w.port k).In ring then (w.port k).receive e else w.port k }

/-- Whether these processes may form a ring. -/
def CanForm (w : Network ι M S) (members : List ι) : Prop :=
  members.Nodup ∧ ∀ k ∈ members, (w.port k).link ≠ .out

instance [DecidableEq ι] (w : Network ι M S) (members : List ι) : Decidable (w.CanForm members) := by
  unfold CanForm
  infer_instance

variable [DecidableEq ι]

/-- Replace the port of `n`. -/
def setPort (w : Network ι M S) (n : ι) (p : Port ι M S) : Network ι M S :=
  { w with port := Function.update w.port n p }

/-- Those whom `k` does not take along to a new ring. -/
def leavers (w : Network ι M S) (members : List ι) (k : ι) : List ι :=
  (w.port k).view.filter fun m => ¬ (m ∈ members ∧ w.Together k m)

/-- The configuration change that `k` sees. -/
def change (w : Network ι M S) (members : List ι) (k : ι) : Entry ι M :=
  .confchg members (w.leavers members k) (w.newcomers members k)

/-- The network with a new ring. -/
def reconfigured (w : Network ι M S) (members : List ι) : Network ι M S where
  rings := w.rings + 1
  port k :=
    if k ∈ members then (w.port k).enter w.rings members (w.change members k) else w.port k

/-- The head of the outbox of `n` is ordered. -/
def ordered (w : Network ι M S) (n : ι) (m : M) (rest : List M) : Network ι M S :=
  (w.setPort n { w.port n with outbox := rest }).broadcast (w.port n).ring (.message n m)

/-- One step of the network. -/
def step (B : Behaviour ι M S O A X) (w : Network ι M S) : NetAction ι A X → Option (Network ι M S)
  | .act n a =>
    if (w.port n).up then
      match B.act n (w.port n).st a with
      | some (s, sig) => ((w.port n).signal s sig).map (w.setPort n)
      | none => none
    else none
  | .deliver n x =>
    match (w.port n).queue with
    | e :: rest =>
      if (w.port n).link.isMember then
        (B.deliver n (w.port n).st e x).map fun r =>
          w.setPort n ((w.port n).handled r.1 (B.mcast r.2) rest)
      else none
    | [] => none
  | .order n =>
    match (w.port n).outbox with
    | m :: rest => some (w.ordered n m rest)
    | [] => none
  | .reconfigure members => if w.CanForm members then some (w.reconfigured members) else none
  -- a crash leaves the outbox: what was multicast may still be ordered for the ring
  | .crash n => some (w.setPort n { w.port n with up := false, link := .out, queue := [] })
  | .boot n =>
    if (w.port n).up then none
    else some (w.setPort n { w.port n with up := true, st := B.boot n })

/-- The steps of the network, one constructor for each action. -/
inductive StepTo (B : Behaviour ι M S O A X) (w : Network ι M S) :
    NetAction ι A X → Network ι M S → Prop
  | act {n : ι} {a : A} {s : S} {sig : Signal M} {p : Port ι M S} :
      (w.port n).up = true → B.act n (w.port n).st a = some (s, sig) →
      (w.port n).signal s sig = some p → StepTo B w (.act n a) (w.setPort n p)
  | deliver {n : ι} {x : X} {e : Entry ι M} {rest : List (Entry ι M)} {s : S} {out : O} :
      (w.port n).link.isMember = true → (w.port n).queue = e :: rest →
      B.deliver n (w.port n).st e x = some (s, out) →
      StepTo B w (.deliver n x) (w.setPort n ((w.port n).handled s (B.mcast out) rest))
  | order {n : ι} {m : M} {rest : List M} :
      (w.port n).outbox = m :: rest → StepTo B w (.order n) (w.ordered n m rest)
  | reconfigure {members : List ι} :
      w.CanForm members → StepTo B w (.reconfigure members) (w.reconfigured members)
  | crash (n : ι) :
      StepTo B w (.crash n) (w.setPort n { w.port n with up := false, link := .out, queue := [] })
  | boot {n : ι} :
      ¬ (w.port n).up = true →
      StepTo B w (.boot n) (w.setPort n { w.port n with up := true, st := B.boot n })

/-- **What a step can do.** -/
theorem stepTo_of_step {B : Behaviour ι M S O A X} {w w' : Network ι M S} {a : NetAction ι A X}
    (hs : w.step B a = some w') : StepTo B w a w' := by
  cases a with
  | act n a =>
    simp only [Network.step] at hs
    split_ifs at hs with hup
    split at hs
    · rename_i s sig ha
      obtain ⟨p, hp, rfl⟩ := Option.map_eq_some_iff.mp hs
      exact .act hup ha hp
    · cases hs
  | deliver n x =>
    simp only [Network.step] at hs
    split at hs
    · rename_i e rest hq
      split_ifs at hs with hm
      obtain ⟨⟨s, out⟩, hd, rfl⟩ := Option.map_eq_some_iff.mp hs
      exact .deliver hm hq hd
    · cases hs
  | order n =>
    simp only [Network.step] at hs
    split at hs
    · rename_i m rest hout
      obtain rfl := Option.some.inj hs
      exact .order hout
    · cases hs
  | reconfigure members =>
    simp only [Network.step] at hs
    split_ifs at hs with hc
    obtain rfl := Option.some.inj hs
    exact .reconfigure hc
  | crash n =>
    obtain rfl := Option.some.inj hs
    exact .crash n
  | boot n =>
    simp only [Network.step] at hs
    split_ifs at hs with hup
    obtain rfl := Option.some.inj hs
    exact .boot hup

/-! ## Invariants of the processes and of the messages -/

/-- What each step keeps: `I` of the processes, `P` of what they multicast. -/
structure RuleFor (B : Behaviour ι M S O A X) (ok : Network ι M S → NetAction ι A X → Prop)
    (I : ι → Kind → S → Prop) (P : ι → M → Prop) : Prop where
  boot : ∀ n, I n .out (B.boot n)
  act : ∀ {w n a k s sig}, ok w (.act n a) → I n k (w.port n).st →
    B.act n (w.port n).st a = some (s, sig) → I n (sig.kind k) s ∧ ∀ m, sig = .send m → P n m
  deliver : ∀ {w n x k e rest s out}, ok w (.deliver n x) → I n k (w.port n).st →
    (w.port n).queue = e :: rest → (∀ y m, e = .message y m → P y m) →
    B.deliver n (w.port n).st e x = some (s, out) → I n .active s ∧ ∀ m ∈ B.mcast out, P n m
  enter : ∀ {n s}, I n .joining s → I n .admitted s

/-- The port of `n` keeps the invariants, in a network with so many rings. -/
structure PortSound (I : ι → Kind → S → Prop) (P : ι → M → Prop) (rings : ℕ) (n : ι)
    (p : Port ι M S) : Prop where
  site : p.up = true → I n p.link.kind p.st
  running : p.link ≠ .out → p.up = true
  placed : p.link.isMember = true → p.ring < rings
  waiting : ∀ m ∈ p.outbox, P n m
  queued : ∀ y m, .message y m ∈ p.queue → P y m

section Invariants

variable {B : Behaviour ι M S O A X} {ok : Network ι M S → NetAction ι A X → Prop}
  {I : ι → Kind → S → Prop} {P : ι → M → Prop} {w w' : Network ι M S} {rings : ℕ} {n : ι}
  {p p' : Port ι M S}

theorem setPort_self (w : Network ι M S) (n : ι) (p : Port ι M S) : (w.setPort n p).port n = p := by
  simp only [setPort, Function.update_self]

theorem setPort_of_ne (w : Network ι M S) {n k : ι} (hk : k ≠ n) (p : Port ι M S) :
    (w.setPort n p).port k = w.port k := by
  simp only [setPort, Function.update_of_ne hk]

omit [DecidableEq ι] in
theorem PortSound.receive (h : PortSound I P rings n p) {e : Entry ι M}
    (he : ∀ y m, e = .message y m → P y m) : PortSound I P rings n (p.receive e) where
  site := h.site
  running := h.running
  placed := h.placed
  waiting := h.waiting
  queued y m hm := by
    rcases List.mem_append.mp hm with hm | hm
    · exact h.queued y m hm
    · exact he y m (List.mem_singleton.mp hm).symm

omit [DecidableEq ι] in
/-- A process that a ring takes in. -/
theorem PortSound.enter (hI : ∀ {s}, I n .joining s → I n .admitted s)
    (h : PortSound I P rings n p) (hp : p.link ≠ .out) (members left joined : List ι) :
    PortSound I P (rings + 1) n (p.enter rings members (.confchg members left joined)) where
  site hup := by
    have hs := h.site hup
    show I n p.link.admit.kind p.st
    cases hl : p.link with
    | joining =>
      rw [hl] at hs
      exact hI hs
    | out | member =>
      rw [hl] at hs
      exact hs
  running _ := h.running hp
  placed _ := Nat.lt_succ_self rings
  waiting := h.waiting
  queued y m hm := by
    rcases List.mem_append.mp hm with hm | hm
    · exact h.queued y m hm
    · cases List.mem_singleton.mp hm

omit [DecidableEq ι] in
/-- A local step, and what it asks of the network. -/
theorem PortSound.signal (h : PortSound I P rings n p) {s : S} {sig : Signal M}
    (hs : I n (sig.kind p.link.kind) s) (hm : ∀ m, sig = .send m → P n m) (hup : p.up = true)
    (hp : p.signal s sig = some p') : PortSound I P rings n p' := by
  cases sig with
  | quiet =>
    obtain rfl := Option.some.inj hp
    exact ⟨fun _ => hs, fun _ => hup, h.placed, h.waiting, h.queued⟩
  | connect =>
    obtain ⟨-, hp⟩ := Option.ite_none_right_eq_some.mp hp
    obtain rfl := Option.some.inj hp
    exact ⟨fun _ => hs, fun _ => hup, fun hl => (by cases hl), by simp, by simp⟩
  | disconnect =>
    obtain rfl := Option.some.inj hp
    exact ⟨fun _ => hs, fun hl => absurd rfl hl, fun hl => (by cases hl), h.waiting, by simp⟩
  | send m =>
    simp only [Port.signal] at hp
    split at hp
    · obtain rfl := Option.some.inj hp
      refine ⟨fun _ => hs, fun _ => hup, h.placed, fun x hx => ?_, h.queued⟩
      rcases List.mem_append.mp hx with hx | hx
      · exact h.waiting x hx
      · exact List.mem_singleton.mp hx ▸ hm m rfl
    · cases hp

/-- One port is replaced. -/
theorem sound_setPort (h : ∀ k, PortSound I P w.rings k (w.port k)) (hp : PortSound I P w.rings n p)
    (k : ι) : PortSound I P w.rings k ((w.setPort n p).port k) := by
  by_cases hk : k = n
  · subst hk
    rwa [setPort_self]
  · rw [setPort_of_ne w hk]
    exact h k

/-- **The rule for invariants of the processes and of the messages.** -/
theorem sound (hI : RuleFor B ok I P) (h : ReachesWhen (Network.step B) ok (init B) w) :
    ∀ n, PortSound I P w.rings n (w.port n) := by
  refine h.invariant (I := fun w => ∀ n, PortSound I P w.rings n (w.port n)) ?_ ?_
  · exact fun n => ⟨fun _ => hI.boot n, fun hl => absurd rfl hl, fun hl => (by cases hl),
      by simp [init], by simp [init]⟩
  intro w a w' _ h hok hs
  cases stepTo_of_step hs with
  | @act n a s sig p hup ha hp =>
    obtain ⟨hs, hm⟩ := hI.act hok ((h n).site hup) ha
    exact sound_setPort h ((h n).signal hs hm hup hp)
  | @deliver n x e rest s out hl hq hd =>
    have hup : (w.port n).up = true := (h n).running fun ho => by simp [ho, Link.isMember] at hl
    obtain ⟨hs, hm⟩ := hI.deliver hok ((h n).site hup) hq
      (fun y m he => (h n).queued y m (by rw [hq, he]; exact List.mem_cons_self)) hd
    refine sound_setPort h ⟨fun _ => hs, fun _ => hup, fun _ => (h n).placed hl, ?_, ?_⟩
    · intro m hmem
      rcases List.mem_append.mp hmem with hmem | hmem
      exacts [(h n).waiting m hmem, hm m hmem]
    · exact fun y m hmem => (h n).queued y m (by rw [hq]; exact List.mem_cons_of_mem e hmem)
  | @order n m rest hout =>
    have hset := sound_setPort h (n := n) (p := { w.port n with outbox := rest })
      ⟨(h n).site, (h n).running, (h n).placed,
        fun x hx => (h n).waiting x (by rw [hout]; exact List.mem_cons_of_mem m hx), (h n).queued⟩
    intro k
    show PortSound I P w.rings k (if _ then _ else _)
    split_ifs
    · apply (hset k).receive
      rintro y x he
      cases he
      exact (h n).waiting m (by rw [hout]; exact List.mem_cons_self)
    · exact hset k
  | @reconfigure members hc =>
    intro k
    show PortSound I P (w.rings + 1) k (if _ then _ else _)
    split_ifs with hk
    · exact (h k).enter hI.enter (hc.2 k hk) members _ _
    · obtain ⟨hsite, hrun, hplaced, hwait, hqueue⟩ := h k
      exact ⟨hsite, hrun, fun hl => Nat.lt_succ_of_lt (hplaced hl), hwait, hqueue⟩
  | crash n =>
    exact sound_setPort h ⟨fun hup => (by cases hup), fun hl => absurd rfl hl,
      fun hl => (by cases hl), (h n).waiting, by simp⟩
  | @boot n hup =>
    have hout : (w.port n).link = .out := by
      by_contra hl
      exact hup ((h n).running hl)
    refine sound_setPort h ⟨fun _ => ?_, fun _ => rfl, (h n).placed, (h n).waiting, (h n).queued⟩
    show I n (w.port n).link.kind (B.boot n)
    rw [hout]
    exact hI.boot n

end Invariants

end Network

end Agreed
