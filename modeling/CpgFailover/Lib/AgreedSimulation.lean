import CpgFailover.Lib.Agreed
import CpgFailover.Lib.Transition
import Mathlib.Data.List.Forall2

/-!
# Groups that simulate groups

Two groups of the same processes under agreed delivery, whose messages, local states and outputs
are of different kinds. What is asked of a simulation speaks of single processes: each local step,
and each handling of an entry, has its match on the other side. Ordering, configuration changes,
crashes and boots have theirs whatever the processes are, so every run of the first group is, entry
by entry and process by process, a run of the second.

## Main definitions

* `Entry.Rel`, `Signal.Rel`, `Record.Rel`, `Group.Rel`: the same, up to relations between messages,
  states and outputs
* `Simulation`: each process of the first group is matched by one of the second

## Main results

* `Group.step_of_stepTo`: the converse of `Group.stepTo_of_step`
* `Simulation.step`: each step has its match
* `Simulation.reaches`: so has each run
-/

namespace Agreed

open Transition

variable {ι M S O A X M' S' O' A' X' : Type}

/-! ## The same up to relations -/

/-- The same entry, with a related message. -/
inductive Entry.Rel (msg : M → M' → Prop) : Entry ι M → Entry ι M' → Prop
  | confchg (members left joined : List ι) :
      Rel msg (.confchg members left joined) (.confchg members left joined)
  | message {y : ι} {m : M} {m' : M'} : msg m m' → Rel msg (.message y m) (.message y m')

theorem Entry.Rel.flip {msg : M → M' → Prop} {e : Entry ι M} {e' : Entry ι M'}
    (h : Entry.Rel msg e e') : Entry.Rel (fun m' m => msg m m') e' e := by
  cases h with
  | confchg members left joined => exact .confchg members left joined
  | message hm => exact .message hm

/-- The same request to the group, with a related message. -/
inductive Signal.Rel (msg : M → M' → Prop) : Signal M → Signal M' → Prop
  | quiet : Rel msg .quiet .quiet
  | connect : Rel msg .connect .connect
  | disconnect : Rel msg .disconnect .disconnect
  | send {m : M} {m' : M'} : msg m m' → Rel msg (.send m) (.send m')

theorem Signal.Rel.flip {msg : M → M' → Prop} {a : Signal M} {b : Signal M'}
    (h : Signal.Rel msg a b) : Signal.Rel (fun m' m => msg m m') b a := by
  cases h with
  | quiet => exact .quiet
  | connect => exact .connect
  | disconnect => exact .disconnect
  | send hm => exact .send hm

/-- The same handling, with related states and outputs. -/
structure Record.Rel (st : ι → S → S' → Prop) (out : O → O' → Prop) (r : Record ι S O)
    (r' : Record ι S' O') : Prop where
  node : r'.node = r.node
  pos : r'.pos = r.pos
  pre : st r.node r.pre r'.pre
  post : st r.node r.post r'.post
  out : out r.out r'.out

/-- The same process, with a related state and related messages that wait. -/
structure Site.Rel (msg : M → M' → Prop) (st : S → S' → Prop) (p : Site M S) (p' : Site M' S') :
    Prop where
  up : p'.up = p.up
  st : st p.st p'.st
  conn : p'.conn = p.conn
  outbox : List.Forall₂ msg p.outbox p'.outbox

/-- The same group, entry by entry, process by process and handling by handling. -/
structure Group.Rel (msg : M → M' → Prop) (st : ι → S → S' → Prop) (out : O → O' → Prop)
    (g : Group ι M S O) (g' : Group ι M' S' O') : Prop where
  log : List.Forall₂ (Entry.Rel msg) g.log g'.log
  site : ∀ n, Site.Rel msg (st n) (g.site n) (g'.site n)
  transcript : List.Forall₂ (Record.Rel st out) g.transcript g'.transcript

section Rel

variable {msg : M → M' → Prop} {st : ι → S → S' → Prop} {out : O → O' → Prop}
  {g : Group ι M S O} {g' : Group ι M' S' O'}

theorem forall₂_snoc {α β : Type} {R : α → β → Prop} {as : List α} {bs : List β} {a : α} {b : β}
    (h : List.Forall₂ R as bs) (hab : R a b) : List.Forall₂ R (as ++ [a]) (bs ++ [b]) :=
  List.rel_append h (.cons hab .nil)

/-- Views are made by configuration changes, which are the same. -/
theorem viewAfter_rel {log : List (Entry ι M)} {log' : List (Entry ι M')}
    (h : List.Forall₂ (Entry.Rel msg) log log') : viewAfter log' = viewAfter log := by
  -- the views before the two logs are the same, whatever they are
  have hfold (v : List ι) : log'.foldl (fun v e => e.view v) v =
      log.foldl (fun v e => e.view v) v := by
    induction h generalizing v with
    | nil => rfl
    | cons he _ ih =>
      cases he <;> exact ih _
  exact hfold []

theorem Group.Rel.view (h : Group.Rel msg st out g g') : g'.view = g.view := viewAfter_rel h.log

/-- The entries at one position. -/
theorem Group.Rel.entry (h : Group.Rel msg st out g g') {k : ℕ} {e : Entry ι M}
    (he : g.log[k]? = some e) : ∃ e', g'.log[k]? = some e' ∧ Entry.Rel msg e e' := by
  obtain ⟨hlt, rfl⟩ := List.getElem?_eq_some_iff.mp he
  have hlt' : k < g'.log.length := h.log.length_eq ▸ hlt
  exact ⟨_, List.getElem?_eq_getElem hlt', h.log.get hlt hlt'⟩

variable [DecidableEq ι]

/-- One site more is related. -/
theorem Group.Rel.setSite (h : Group.Rel msg st out g g') {n : ι} {p : Site M S} {p' : Site M' S'}
    (hp : Site.Rel msg (st n) p p') : Group.Rel msg st out (g.setSite n p) (g'.setSite n p') where
  log := h.log
  site m := by
    by_cases hm : m = n
    · subst hm
      simpa using hp
    · rw [Group.setSite_of_ne hm, Group.setSite_of_ne hm]
      exact h.site m
  transcript := h.transcript

omit [DecidableEq ι] in
/-- What one group may order as a configuration change, the other may. -/
theorem Group.Rel.canChange (h : Group.Rel msg st out g g') {left joined : List ι}
    (hc : g.CanChange left joined) : g'.CanChange left joined := by
  obtain ⟨hl, hj, hne, hleft, hjoined⟩ := hc
  refine ⟨hl, hj, hne, fun n hn => ?_, fun n hn => ?_⟩
  · rw [h.view, (h.site n).conn]
    exact hleft n hn
  · rw [h.view, (h.site n).conn]
    exact hjoined n hn

theorem Group.Rel.change (h : Group.Rel msg st out g g') (left joined : List ι) :
    Group.Rel msg st out (g.change left joined) (g'.change left joined) where
  log := by
    have hmembers : g'.members left joined = g.members left joined := by
      rw [Group.members, Group.members, h.view]
    rw [Group.change, Group.change, hmembers]
    exact forall₂_snoc h.log (.confchg _ _ _)
  site n := by
    have hp := h.site n
    simp only [Group.change]
    split_ifs
    · exact ⟨hp.up, hp.st, hp.conn, .nil⟩
    · refine ⟨hp.up, hp.st, ?_, hp.outbox⟩
      rw [Site.enter, Site.enter, h.log.length_eq]
    · exact hp
  transcript := h.transcript

end Rel

/-- **A step that is one of the cases can be taken.** -/
theorem Group.step_of_stepTo [DecidableEq ι] {B : Behaviour ι M S O A X} {g g' : Group ι M S O}
    {a : Action ι A X} (h : StepTo B g a g') : g.step B a = some g' := by
  cases h with
  | act hup ha hp => simp [Group.step, hup, ha, hp]
  | deliver hc he hd => simp [Group.step, hc, he, hd]
  | order hv hout => simp [Group.step, hv, hout]
  | confchg hc => simp [Group.step, hc]
  | crash n => rfl
  | boot hup => simp [Group.step, hup]

/-! ## Simulations -/

/-- Each local step of a process of `B` that is `ok`, and each handling of an entry, is matched by
one of the process of `B'`. -/
structure Simulation (B : Behaviour ι M S O A X) (B' : Behaviour ι M' S' O' A' X') where
  msg : M → M' → Prop
  st : ι → S → S' → Prop
  out : O → O' → Prop
  ok : Action ι A X → Prop
  boot : ∀ n, st n (B.boot n) (B'.boot n)
  act : ∀ {n s s' a t sig}, st n s s' → ok (.act n a) → B.act n s a = some (t, sig) →
    ∃ a' t' sig', B'.act n s' a' = some (t', sig') ∧ st n t t' ∧ Signal.Rel msg sig sig'
  deliver : ∀ {n s s' e e' x t o}, st n s s' → Entry.Rel msg e e' → ok (.deliver n x) →
    B.deliver n s e x = some (t, o) →
      ∃ x' t' o', B'.deliver n s' e' x' = some (t', o') ∧ st n t t' ∧ out o o' ∧
        List.Forall₂ msg (B.mcast o) (B'.mcast o')

namespace Simulation

variable {B : Behaviour ι M S O A X} {B' : Behaviour ι M' S' O' A' X'} (σ : Simulation B B')

/-- The groups of the two behaviours are related. -/
def Rel (g : Group ι M S O) (g' : Group ι M' S' O') : Prop := Group.Rel σ.msg σ.st σ.out g g'

theorem rel_init : σ.Rel (Group.init B) (Group.init B') where
  log := .nil
  site n := ⟨rfl, σ.boot n, rfl, .nil⟩
  transcript := .nil

/-- What a local step asks of the group, it asks of both. -/
theorem rel_signal {n : ι} {p q : Site M S} {p' : Site M' S'} {s : S} {s' : S'} {sig : Signal M}
    {sig' : Signal M'} (hp : Site.Rel σ.msg (σ.st n) p p') (hs : σ.st n s s')
    (hsig : Signal.Rel σ.msg sig sig') (h : p.signal s sig = some q) :
    ∃ q', p'.signal s' sig' = some q' ∧ Site.Rel σ.msg (σ.st n) q q' := by
  cases hsig with
  | quiet =>
    obtain rfl := Option.some.inj h
    exact ⟨_, rfl, hp.up, hs, hp.conn, hp.outbox⟩
  | connect =>
    obtain ⟨hc, heq⟩ := Option.ite_none_right_eq_some.mp h
    obtain rfl := Option.some.inj heq
    exact ⟨_, if_pos (hp.conn.trans hc), hp.up, hs, rfl, hp.outbox⟩
  | disconnect =>
    obtain rfl := Option.some.inj h
    exact ⟨_, rfl, hp.up, hs, rfl, hp.outbox⟩
  | @send m m' hm =>
    simp only [Site.signal] at h
    split at h
    · rename_i since next hc
      have hc' := hp.conn.trans hc
      obtain rfl := Option.some.inj h
      refine ⟨{ p' with st := s', outbox := p'.outbox ++ [m'] }, ?_, hp.up, hs, hp.conn,
        forall₂_snoc hp.outbox hm⟩
      simp [Site.signal, hc']
    · cases h

variable [DecidableEq ι] {g t : Group ι M S O} {g' : Group ι M' S' O'} {l : Action ι A X}

/-- **Each step has its match.** -/
theorem step (h : σ.Rel g g') (hok : σ.ok l) (hs : g.step B l = some t) :
    ∃ l' t', g'.step B' l' = some t' ∧ σ.Rel t t' := by
  cases Group.stepTo_of_step hs with
  | @act n a s sig p hup ha hp =>
    obtain ⟨a', s', sig', ha', hst, hsig⟩ := σ.act (h.site n).st hok ha
    obtain ⟨p', hp', hrel⟩ := σ.rel_signal (h.site n) hst hsig hp
    exact ⟨.act n a', _, Group.step_of_stepTo (.act ((h.site n).up.trans hup) ha' hp'),
      h.setSite hrel⟩
  | @deliver n x since next e s o hc he hd =>
    obtain ⟨e', he', hrel⟩ := h.entry he
    obtain ⟨x', s', o', hd', hst, hout, hmcast⟩ := σ.deliver (h.site n).st hrel hok hd
    refine ⟨.deliver n x', _, Group.step_of_stepTo (.deliver ((h.site n).conn.trans hc) he' hd'),
      h.log, fun m => ?_, forall₂_snoc h.transcript ⟨rfl, rfl, (h.site n).st, hst, hout⟩⟩
    by_cases hm : m = n
    · subst hm
      rw [Group.handled_self, Group.handled_self]
      exact ⟨(h.site m).up, hst, rfl, List.rel_append (h.site m).outbox hmcast⟩
    · rw [Group.handled_of_ne hm, Group.handled_of_ne hm]
      exact h.site m
  | @order n m rest hv hout =>
    have hp := h.site n
    have hbox := hp.outbox
    rw [hout] at hbox
    obtain ⟨m', rest', hm, hrest, hout'⟩ := List.forall₂_cons_left_iff.mp hbox
    have hsite : Site.Rel σ.msg (σ.st n) { g.site n with outbox := rest }
        { g'.site n with outbox := rest' } := ⟨hp.up, hp.st, hp.conn, hrest⟩
    have hset := Group.Rel.setSite h hsite
    exact ⟨.order n, _, Group.step_of_stepTo (.order (h.view ▸ hv) hout'),
      forall₂_snoc h.log (.message hm), hset.site, h.transcript⟩
  | confchg hc =>
    exact ⟨.confchg _ _, _, Group.step_of_stepTo (.confchg (h.canChange hc)), h.change _ _⟩
  | crash n =>
    have hp := h.site n
    exact ⟨.crash n, _, Group.step_of_stepTo (.crash n),
      h.setSite ⟨rfl, hp.st, rfl, hp.outbox⟩⟩
  | @boot n hup =>
    have hp := h.site n
    exact ⟨.boot n, _, Group.step_of_stepTo (.boot (hp.up ▸ hup)),
      h.setSite ⟨rfl, σ.boot n, hp.conn, hp.outbox⟩⟩

/-- **Each run has its match.** -/
theorem reaches (h : ReachesWhen (Group.step B) (fun _ l => σ.ok l) (Group.init B) g) :
    ∃ g', Reaches (Group.step B') (Group.init B') g' ∧ σ.Rel g g' := by
  induction h with
  | refl => exact ⟨_, .refl, σ.rel_init⟩
  | tail _ hok hs ih =>
    obtain ⟨g', hr, hrel⟩ := ih
    obtain ⟨l', t', hs', hrel'⟩ := σ.step hrel hok hs
    exact ⟨t', hr.tail trivial hs', hrel'⟩

end Simulation

end Agreed
