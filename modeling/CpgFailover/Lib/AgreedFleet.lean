import CpgFailover.Lib.AgreedSimulation

/-!
# Machines in several groups

Machines whose processes are in several groups at the same time. A local step of a machine asks at
most one of the groups for something; every group orders its own messages and changes on its own;
a crash takes a machine out of all of them. What a single group sees of such a fleet is a run of a
group, if each step of a machine is, for the process in it, either a step or nothing.

## Main definitions

* `FleetBehaviour`: the local side of a machine
* `Fleet`, `Fleet.step`: the state of the machines and their groups, and the steps
* `Projection`: each machine has one process in the group
* `Projection.view`, `Projection.seen`: what the group sees of a state, and of a step

## Main results

* `Fleet.stepTo_of_step`: what a step can do
* `Projection.step_view`: each step is a step of the group, or nothing
* `Projection.reaches`: each run is a run of the group
-/

namespace Agreed

open Transition

variable {ι κ M S O A X S' O' A' : Type}

/-! ## Machines -/

/-- The local side of a machine: its state at boot, its local steps with what they ask of a group,
its handling of an entry of a group with what the handling puts out, and the messages it multicasts
in that group by it. -/
structure FleetBehaviour (ι κ M S O A X : Type) where
  boot : ι → S
  act : ι → S → A → Option (S × Option (κ × Signal M))
  deliver : κ → ι → S → Entry ι M → X → Option (S × O)
  mcast : O → List M

/-- The seat of a machine in a group. -/
structure Seat (M : Type) where
  conn : Conn
  outbox : List M

/-- The machines, and the logs of the groups. -/
structure Fleet (ι κ M S : Type) where
  up : ι → Bool
  st : ι → S
  seat : κ → ι → Seat M
  log : κ → List (Entry ι M)

/-- The steps: those of `Action`, with the group of each; a machine crashes and boots as a whole. -/
inductive FleetAction (ι κ A X : Type) where
  | act (n : ι) (a : A)
  | deliver (c : κ) (n : ι) (x : X)
  | order (c : κ) (n : ι)
  | confchg (c : κ) (left joined : List ι)
  | crash (n : ι)
  | boot (n : ι)

/-- What a machine asks of this group. -/
def Signal.to [DecidableEq κ] (c : κ) : Option (κ × Signal M) → Signal M
  | some (c', sig) => if c' = c then sig else .quiet
  | none => .quiet

/-- The same process, with its state seen through a function. -/
def Site.map (f : S → S') (p : Site M S) : Site M S' := ⟨p.up, f p.st, p.conn, p.outbox⟩

/-- What a step asks of the group does not depend on the state. -/
theorem Site.signal_map (f : S → S') (p : Site M S) (s : S) (sig : Signal M) :
    (p.map f).signal (f s) sig = (p.signal s sig).map (Site.map f) := by
  cases sig with
  | quiet | disconnect => rfl
  | connect => by_cases hc : p.conn = .out <;> simp [Site.signal, Site.map, hc]
  | send m =>
    simp only [Site.signal, Site.map]
    cases p.conn <;> rfl

/-- A step that is taken brings the process on, and does not crash it. -/
theorem Site.signal_keeps {p q : Site M S} {s : S} {sig : Signal M}
    (h : p.signal s sig = some q) : q.up = p.up ∧ q.st = s := by
  cases sig with
  | quiet | disconnect =>
    obtain rfl := Option.some.inj h
    exact ⟨rfl, rfl⟩
  | connect =>
    obtain ⟨-, h⟩ := Option.ite_none_right_eq_some.mp h
    obtain rfl := Option.some.inj h
    exact ⟨rfl, rfl⟩
  | send m =>
    simp only [Site.signal] at h
    split at h
    · obtain rfl := Option.some.inj h
      exact ⟨rfl, rfl⟩
    · cases h

namespace Fleet

/-- Nobody has joined any group yet. -/
def init (B : FleetBehaviour ι κ M S O A X) : Fleet ι κ M S :=
  ⟨fun _ => true, B.boot, fun _ _ => ⟨.out, []⟩, fun _ => []⟩

/-- A machine as a process of the group. -/
def site (F : Fleet ι κ M S) (c : κ) (n : ι) : Site M S :=
  ⟨F.up n, F.st n, (F.seat c n).conn, (F.seat c n).outbox⟩

/-- One of the groups. -/
def group (F : Fleet ι κ M S) (c : κ) : Group ι M S Unit := ⟨F.log c, F.site c, []⟩

variable [DecidableEq ι] [DecidableEq κ]

/-- Replace the state of a machine, and its place in the group. -/
def setSite (F : Fleet ι κ M S) (c : κ) (n : ι) (p : Site M S) : Fleet ι κ M S :=
  { F with
    st := Function.update F.st n p.st
    seat := Function.update F.seat c (Function.update (F.seat c) n ⟨p.conn, p.outbox⟩) }

/-- Replace the log of the group, and the places of the machines in it. -/
def setGroup (F : Fleet ι κ M S) (c : κ) (g : Group ι M S Unit) : Fleet ι κ M S :=
  { F with
    seat := Function.update F.seat c fun n => ⟨(g.site n).conn, (g.site n).outbox⟩
    log := Function.update F.log c g.log }

/-- One step. -/
def step (B : FleetBehaviour ι κ M S O A X) (F : Fleet ι κ M S) :
    FleetAction ι κ A X → Option (Fleet ι κ M S)
  | .act n a =>
    if F.up n then
      match B.act n (F.st n) a with
      | some (s, some (c, sig)) => ((F.site c n).signal s sig).map (F.setSite c n)
      | some (s, none) => some { F with st := Function.update F.st n s }
      | none => none
    else none
  | .deliver c n x =>
    match (F.seat c n).conn with
    | .member since next =>
      match (F.log c)[next]? with
      | some e => (B.deliver c n (F.st n) e x).map fun r => F.setSite c n
          ⟨F.up n, r.1, .member since (next + 1), (F.seat c n).outbox ++ B.mcast r.2⟩
      | none => none
    | _ => none
  | .order c n =>
    match (F.seat c n).outbox with
    | m :: rest =>
      if n ∈ viewAfter (F.log c) then
        some { F.setSite c n { F.site c n with outbox := rest } with
          log := Function.update F.log c (F.log c ++ [.message n m]) }
      else none
    | [] => none
  | .confchg c left joined =>
    if (F.group c).CanChange left joined then some (F.setGroup c ((F.group c).change left joined))
    else none
  -- all connections of the machine are gone
  | .crash n =>
    some { F with
      up := Function.update F.up n false
      seat := fun c => Function.update (F.seat c) n { F.seat c n with conn := .out } }
  | .boot n =>
    if F.up n then none
    else some { F with up := Function.update F.up n true, st := Function.update F.st n (B.boot n) }

/-- The steps, by what they do. -/
inductive StepTo (B : FleetBehaviour ι κ M S O A X) (F : Fleet ι κ M S) :
    FleetAction ι κ A X → Fleet ι κ M S → Prop
  | asks {n : ι} {a : A} {s : S} {c : κ} {sig : Signal M} {p : Site M S} :
      F.up n = true → B.act n (F.st n) a = some (s, some (c, sig)) →
        (F.site c n).signal s sig = some p → StepTo B F (.act n a) (F.setSite c n p)
  | quiet {n : ι} {a : A} {s : S} :
      F.up n = true → B.act n (F.st n) a = some (s, none) →
        StepTo B F (.act n a) { F with st := Function.update F.st n s }
  | deliver {c : κ} {n : ι} {x : X} {since next : ℕ} {e : Entry ι M} {s : S} {out : O} :
      (F.seat c n).conn = .member since next → (F.log c)[next]? = some e →
        B.deliver c n (F.st n) e x = some (s, out) →
          StepTo B F (.deliver c n x) (F.setSite c n
            ⟨F.up n, s, .member since (next + 1), (F.seat c n).outbox ++ B.mcast out⟩)
  | order {c : κ} {n : ι} {m : M} {rest : List M} :
      n ∈ viewAfter (F.log c) → (F.seat c n).outbox = m :: rest →
        StepTo B F (.order c n) { F.setSite c n { F.site c n with outbox := rest } with
          log := Function.update F.log c (F.log c ++ [.message n m]) }
  | confchg {c : κ} {left joined : List ι} :
      (F.group c).CanChange left joined →
        StepTo B F (.confchg c left joined) (F.setGroup c ((F.group c).change left joined))
  | crash (n : ι) : StepTo B F (.crash n) { F with
      up := Function.update F.up n false
      seat := fun c => Function.update (F.seat c) n { F.seat c n with conn := .out } }
  | boot {n : ι} : ¬ F.up n = true → StepTo B F (.boot n)
      { F with up := Function.update F.up n true, st := Function.update F.st n (B.boot n) }

/-- **What a step can do.** -/
theorem stepTo_of_step {B : FleetBehaviour ι κ M S O A X} {F F' : Fleet ι κ M S}
    {l : FleetAction ι κ A X} (hs : F.step B l = some F') : StepTo B F l F' := by
  cases l with
  | act n a =>
    obtain ⟨hup, hs⟩ := Option.ite_none_right_eq_some.mp hs
    split at hs
    · rename_i s c sig ha
      obtain ⟨p, hp, rfl⟩ := Option.map_eq_some_iff.mp hs
      exact .asks hup ha hp
    · rename_i s ha
      obtain rfl := Option.some.inj hs
      exact .quiet hup ha
    · cases hs
  | deliver c n x =>
    simp only [step] at hs
    split at hs
    · rename_i since next hc
      split at hs
      · rename_i e he
        obtain ⟨⟨s, out⟩, hd, rfl⟩ := Option.map_eq_some_iff.mp hs
        exact .deliver hc he hd
      · cases hs
    · cases hs
  | order c n =>
    simp only [step] at hs
    split at hs
    · rename_i m rest hout
      obtain ⟨hv, hs⟩ := Option.ite_none_right_eq_some.mp hs
      obtain rfl := Option.some.inj hs
      exact .order hv hout
    · cases hs
  | confchg c left joined =>
    obtain ⟨hc, hs⟩ := Option.ite_none_right_eq_some.mp hs
    obtain rfl := Option.some.inj hs
    exact .confchg hc
  | crash n =>
    obtain rfl := Option.some.inj hs
    exact .crash n
  | boot n =>
    obtain ⟨hup, hs⟩ := Option.ite_none_left_eq_some.mp hs
    obtain rfl := Option.some.inj hs
    exact .boot hup

section Sites

variable {F : Fleet ι κ M S} {c c' : κ} {n m : ι} {p : Site M S}

theorem site_setSite_self (hup : p.up = F.up n) : (F.setSite c n p).site c n = p := by
  simp [setSite, site, ← hup]

/-- The other machines stay where they are, in every group. -/
theorem site_setSite_of_ne (hm : m ≠ n) : (F.setSite c' n p).site c m = F.site c m := by
  by_cases hc : c = c'
  · subst hc
    simp [setSite, site, hm]
  · simp [setSite, site, hm, hc]

/-- In the other groups the machine stays in its seat. -/
theorem site_setSite_other (hc : c' ≠ c) :
    (F.setSite c' n p).site c n = { F.site c n with st := p.st } := by
  simp [setSite, site, Function.update_of_ne (Ne.symm hc)]

end Sites

end Fleet

/-! ## What one group sees -/

/-- Each machine has one process in the group `c`: `state` is its state, and `label` the step that a
local step of the machine is for it, if it is one. -/
structure Projection [DecidableEq κ] (B : FleetBehaviour ι κ M S O A X) (c : κ)
    (B' : Behaviour ι M S' O' A' X) where
  state : ι → S → S'
  label : ι → S → A → Option A'
  inv : ι → S → Prop
  boot : ∀ n, inv n (B.boot n) ∧ state n (B.boot n) = B'.boot n
  act : ∀ {n s a t r}, inv n s → B.act n s a = some (t, r) → inv n t
  step : ∀ {n s a t r a'}, inv n s → B.act n s a = some (t, r) → label n s a = some a' →
    B'.act n (state n s) a' = some (state n t, Signal.to c r)
  idle : ∀ {n s a t r}, inv n s → B.act n s a = some (t, r) → label n s a = none →
    state n t = state n s ∧ Signal.to c r = .quiet
  deliver : ∀ {n s e x t o}, inv n s → B.deliver c n s e x = some (t, o) → inv n t ∧
    ∃ o', B'.deliver n (state n s) e x = some (state n t, o') ∧ B'.mcast o' = B.mcast o
  other : ∀ {c' n s e x t o}, c' ≠ c → inv n s → B.deliver c' n s e x = some (t, o) →
    inv n t ∧ state n t = state n s

namespace Projection

variable [DecidableEq κ] {B : FleetBehaviour ι κ M S O A X} {c : κ}
  {B' : Behaviour ι M S' O' A' X} (σ : Projection B c B')

/-- The group as it is seen, with this transcript. -/
def view (F : Fleet ι κ M S) (tr : List (Record ι S' O')) : Group ι M S' O' :=
  ⟨F.log c, fun n => (F.site c n).map (σ.state n), tr⟩

/-- The step that the group sees, if it sees one. -/
def seen (F : Fleet ι κ M S) : FleetAction ι κ A X → Option (Action ι A' X)
  | .act n a => (σ.label n (F.st n) a).map (.act n)
  | .deliver c' n x => if c' = c then some (.deliver n x) else none
  | .order c' n => if c' = c then some (.order n) else none
  | .confchg c' left joined => if c' = c then some (.confchg left joined) else none
  | .crash n => some (.crash n)
  | .boot n => some (.boot n)

/-- The invariant of each machine. -/
def Inv (F : Fleet ι κ M S) : Prop := ∀ n, σ.inv n (F.st n)

variable [DecidableEq ι] {F F' : Fleet ι κ M S} {l : FleetAction ι κ A X} {n : ι}
  {p : Site M S} {tr : List (Record ι S' O')}

omit [DecidableEq κ] in
theorem inv_update {P : ι → S → Prop} {st : ι → S} (h : ∀ m, P m (st m)) {s : S} (hs : P n s)
    (m : ι) : P m (Function.update st n s m) := by
  by_cases hm : m = n
  · subst hm
    rwa [Function.update_self]
  · rw [Function.update_of_ne hm]
    exact h m

/-- A fleet with one new site is a group with one new site. -/
theorem view_eq_setSite {q : Site M S'} (hlog : F'.log c = F.log c)
    (hself : (F'.site c n).map (σ.state n) = q)
    (hother : ∀ m, m ≠ n → F'.site c m = F.site c m) :
    σ.view F' tr = (σ.view F tr).setSite n q := by
  rw [view, Group.setSite, view, hlog]
  congr 1
  funext m
  by_cases hm : m = n
  · subst hm
    rw [Function.update_self, hself]
  · rw [Function.update_of_ne hm, hother m hm]

/-- It is the same group if the site is the same. -/
theorem view_congr (hlog : F'.log c = F.log c)
    (hself : (F'.site c n).map (σ.state n) = (F.site c n).map (σ.state n))
    (hother : ∀ m, m ≠ n → F'.site c m = F.site c m) : σ.view F' tr = σ.view F tr := by
  rw [σ.view_eq_setSite hlog hself hother, Group.setSite]
  congr 1
  exact Function.update_eq_self n _

/-- A new site in the group is one for the group. -/
theorem view_setSite (hup : p.up = F.up n) :
    σ.view (F.setSite c n p) tr = (σ.view F tr).setSite n (p.map (σ.state n)) := by
  refine σ.view_eq_setSite rfl ?_ fun m hm => Fleet.site_setSite_of_ne hm
  rw [Fleet.site_setSite_self hup]

/-- A step that asks another group, and brings the process on. -/
theorem view_setSite_other {c' : κ} (hc : c' ≠ c) :
    σ.view (F.setSite c' n p) tr =
      (σ.view F tr).setSite n { (F.site c n).map (σ.state n) with st := σ.state n p.st } := by
  refine σ.view_eq_setSite rfl ?_ fun m hm => Fleet.site_setSite_of_ne hm
  rw [Fleet.site_setSite_other hc]
  rfl

/-- A new state in the same seat. -/
theorem view_setSite_same {s : S} (hst : σ.state n s = σ.state n (F.st n)) :
    σ.view (F.setSite c n { F.site c n with st := s }) tr = σ.view F tr := by
  refine σ.view_congr rfl ?_ fun m hm => Fleet.site_setSite_of_ne hm
  rw [Fleet.site_setSite_self rfl, Site.map, hst]
  rfl

/-- A new site in another group is none. -/
theorem view_setSite_of_ne {c' : κ} (hc : c' ≠ c) (hst : σ.state n p.st = σ.state n (F.st n)) :
    σ.view (F.setSite c' n p) tr = σ.view F tr := by
  refine σ.view_congr rfl ?_ fun m hm => Fleet.site_setSite_of_ne hm
  rw [Fleet.site_setSite_other hc, Site.map, hst]
  rfl

/-- A step of a machine that asks for nothing. -/
theorem view_update {s : S} :
    σ.view { F with st := Function.update F.st n s } tr =
      (σ.view F tr).setSite n { (F.site c n).map (σ.state n) with st := σ.state n s } := by
  refine σ.view_eq_setSite rfl ?_ fun m hm => by simp [Fleet.site, hm]
  simp [Fleet.site, Site.map]

/-- It leaves the view alone if it leaves the process alone. -/
theorem view_update_same {s : S} (hst : σ.state n s = σ.state n (F.st n)) :
    σ.view { F with st := Function.update F.st n s } tr = σ.view F tr := by
  refine σ.view_congr rfl (n := n) ?_ fun m hm => by simp [Fleet.site, hm]
  simp [Fleet.site, Site.map, hst]

/-- An entry that is handled. -/
theorem view_handled {since k : ℕ} {s : S} {o : O} {o' : O'} (ho : B'.mcast o' = B.mcast o) :
    σ.view (F.setSite c n ⟨F.up n, s, .member since (k + 1), (F.seat c n).outbox ++ B.mcast o⟩)
      (tr ++ [⟨n, k, σ.state n (F.st n), σ.state n s, o'⟩]) =
        (σ.view F tr).handled B' n since k (σ.state n s) o' := by
  rw [σ.view_setSite rfl]
  simp [Group.setSite, Group.handled, view, Site.map, Fleet.site, ho]

/-- A message that is ordered. -/
theorem view_order {m : M} {rest : List M} :
    σ.view { F.setSite c n { F.site c n with outbox := rest } with
      log := Function.update F.log c (F.log c ++ [.message n m]) } tr =
        { (σ.view F tr).setSite n { (σ.view F tr).site n with outbox := rest } with
          log := F.log c ++ [.message n m] } := by
  have hset : σ.view (F.setSite c n { F.site c n with outbox := rest }) tr =
      (σ.view F tr).setSite n { (σ.view F tr).site n with outbox := rest } := by
    refine σ.view_eq_setSite rfl ?_ fun m hm => Fleet.site_setSite_of_ne hm
    rw [Fleet.site_setSite_self rfl]
    rfl
  rw [← hset]
  simp [view, Fleet.site]

/-- A message that another group orders. -/
theorem view_order_of_ne {c' : κ} (hc : c' ≠ c) {rest : List M} {log : List (Entry ι M)} :
    σ.view { F.setSite c' n { F.site c' n with outbox := rest } with
      log := Function.update F.log c' log } tr = σ.view F tr := by
  have hset : σ.view (F.setSite c' n { F.site c' n with outbox := rest }) tr = σ.view F tr :=
    σ.view_setSite_of_ne hc rfl
  rw [← hset]
  simp [view, Fleet.site, Fleet.setSite, Function.update_of_ne (Ne.symm hc)]

omit [DecidableEq ι] in
/-- Another group changes. -/
theorem view_setGroup_of_ne {c' : κ} (hc : c' ≠ c) (g : Group ι M S Unit) :
    σ.view (F.setGroup c' g) tr = σ.view F tr := by
  simp [view, Fleet.setGroup, Fleet.site, Function.update_of_ne (Ne.symm hc)]

/-- The view changes with the group. -/
theorem view_change {left joined : List ι} :
    σ.view (F.setGroup c ((F.group c).change left joined)) tr =
      (σ.view F tr).change left joined := by
  simp only [view, Fleet.setGroup, Group.change, Fleet.group, Function.update_self, Group.members,
    Group.view]
  congr 1
  funext m
  simp only [Fleet.site, Function.update_self]
  split_ifs <;> rfl

/-- A machine crashes. -/
theorem view_crash : σ.view { F with
      up := Function.update F.up n false
      seat := fun c => Function.update (F.seat c) n { F.seat c n with conn := .out } } tr =
    (σ.view F tr).setSite n { (σ.view F tr).site n with up := false, conn := .out } := by
  refine σ.view_eq_setSite rfl ?_ fun m hm => by simp [Fleet.site, hm]
  simp [view, Fleet.site, Site.map]

/-- A machine boots. -/
theorem view_boot {s : S} : σ.view { F with
      up := Function.update F.up n true, st := Function.update F.st n s } tr =
    (σ.view F tr).setSite n { (σ.view F tr).site n with up := true, st := σ.state n s } := by
  refine σ.view_eq_setSite rfl ?_ fun m hm => by simp [Fleet.site, hm]
  simp [view, Fleet.site, Site.map]

/-- **What the group sees of a step** is a step of the group, or nothing. -/
theorem step_view (h : σ.Inv F) (hs : F.step B l = some F') (tr : List (Record ι S' O')) :
    σ.Inv F' ∧ (∀ l' ∈ σ.seen F l, ∃ tr', (σ.view F tr).step B' l' = some (σ.view F' tr')) ∧
      (σ.seen F l = none → σ.view F' tr = σ.view F tr) := by
  cases Fleet.stepTo_of_step hs with
  | @asks n a s c' sig p hup ha hp =>
    obtain ⟨hpup, hst⟩ : p.up = F.up n ∧ p.st = s := Site.signal_keeps hp
    refine ⟨inv_update h (hst ▸ σ.act (h n) ha), ?_, fun hnone => ?_⟩
    · intro l' hl'
      obtain ⟨a', ha', rfl⟩ := Option.map_eq_some_iff.mp hl'
      have hstep := σ.step (h n) ha ha'
      refine ⟨tr, Group.step_of_stepTo ?_⟩
      by_cases hc : c' = c
      · subst hc
        rw [Signal.to, if_pos rfl] at hstep
        rw [σ.view_setSite hpup]
        have hp' : ((σ.view F tr).site n).signal (σ.state n s) sig = some (p.map (σ.state n)) := by
          show ((F.site c' n).map (σ.state n)).signal _ sig = _
          rw [Site.signal_map, hp, Option.map_some]
        exact .act hup hstep hp'
      · -- the step asks another group, and is a quiet one for this
        rw [Signal.to, if_neg hc] at hstep
        rw [σ.view_setSite_other hc, hst]
        exact .act hup hstep rfl
    · have hlabel : σ.label n (F.st n) a = none := Option.map_eq_none_iff.mp hnone
      obtain ⟨hsame, hquiet⟩ := σ.idle (h n) ha hlabel
      by_cases hc : c' = c
      · subst hc
        rw [Signal.to, if_pos rfl] at hquiet
        subst hquiet
        obtain rfl := Option.some.inj hp
        exact σ.view_setSite_same hsame
      · exact σ.view_setSite_of_ne hc (hst ▸ hsame)
  | @quiet n a s hup ha =>
    refine ⟨inv_update h (σ.act (h n) ha), ?_, fun hnone => ?_⟩
    · intro l' hl'
      obtain ⟨a', ha', rfl⟩ := Option.map_eq_some_iff.mp hl'
      have hstep := σ.step (h n) ha ha'
      refine ⟨tr, Group.step_of_stepTo ?_⟩
      rw [σ.view_update]
      exact .act hup hstep rfl
    · have hsame := (σ.idle (h n) ha (Option.map_eq_none_iff.mp hnone)).1
      exact σ.view_update_same hsame
  | @deliver c' n x since next e s out hconn he hd =>
    by_cases hc : c' = c
    · subst hc
      obtain ⟨hinv, o', hd', hmcast⟩ := σ.deliver (h n) hd
      refine ⟨inv_update h hinv, ?_, fun hnone => by simp [seen] at hnone⟩
      intro l' hl'
      obtain rfl : Action.deliver n x = l' := by simpa [seen] using hl'
      refine ⟨tr ++ [⟨n, next, σ.state n (F.st n), σ.state n s, o'⟩], ?_⟩
      rw [σ.view_handled hmcast]
      exact Group.step_of_stepTo (.deliver hconn he hd')
    · obtain ⟨hinv, hsame⟩ := σ.other hc (h n) hd
      exact ⟨inv_update h hinv, by simp [seen, hc], fun _ => σ.view_setSite_of_ne hc hsame⟩
  | @order c' n m rest hv hout =>
    have hinv : σ.Inv { F.setSite c' n { F.site c' n with outbox := rest } with
        log := Function.update F.log c' (F.log c' ++ [.message n m]) } :=
      inv_update h (h n)
    by_cases hc : c' = c
    · subst hc
      refine ⟨hinv, ?_, fun hnone => by simp [seen] at hnone⟩
      intro l' hl'
      obtain rfl : Action.order n = l' := by simpa [seen] using hl'
      refine ⟨tr, ?_⟩
      rw [σ.view_order]
      exact Group.step_of_stepTo (.order hv hout)
    · exact ⟨hinv, by simp [seen, hc], fun _ => σ.view_order_of_ne hc⟩
  | @confchg c' left joined hcan =>
    by_cases hc : c' = c
    · subst hc
      refine ⟨h, ?_, fun hnone => by simp [seen] at hnone⟩
      intro l' hl'
      obtain rfl : Action.confchg left joined = l' := by simpa [seen] using hl'
      have hcan' : (σ.view F tr).CanChange left joined := hcan
      refine ⟨tr, ?_⟩
      rw [σ.view_change]
      exact Group.step_of_stepTo (.confchg hcan')
    · exact ⟨h, by simp [seen, hc], fun _ => σ.view_setGroup_of_ne hc _⟩
  | crash n =>
    refine ⟨h, ?_, fun hnone => by simp [seen] at hnone⟩
    intro l' hl'
    obtain rfl : Action.crash n = l' := by simpa [seen] using hl'
    refine ⟨tr, ?_⟩
    rw [σ.view_crash]
    exact Group.step_of_stepTo (.crash n)
  | @boot n hup =>
    obtain ⟨hinv, hboot⟩ := σ.boot n
    refine ⟨inv_update h hinv, ?_, fun hnone => by simp [seen] at hnone⟩
    intro l' hl'
    obtain rfl : Action.boot n = l' := by simpa [seen] using hl'
    refine ⟨tr, ?_⟩
    rw [σ.view_boot, hboot]
    exact Group.step_of_stepTo (.boot hup)

/-- **What the group sees of a run** is a run of the group, in which every step meets a condition
that all steps meet as they are seen. -/
theorem reaches {ok : Fleet ι κ M S → FleetAction ι κ A X → Prop}
    {ok' : Group ι M S' O' → Action ι A' X → Prop}
    (hok : ∀ F l, ok F l → ∀ l' ∈ σ.seen F l, ∀ tr, ok' (σ.view F tr) l')
    (h : ReachesWhen (Fleet.step B) ok (Fleet.init B) F) : σ.Inv F ∧
      ∃ tr, ReachesWhen (Group.step B') ok' (Group.init B') (σ.view F tr) := by
  induction h with
  | refl =>
    refine ⟨fun n => (σ.boot n).1, [], ?_⟩
    have hview : σ.view (Fleet.init B) [] = Group.init B' := by
      rw [view, Group.init]
      congr 1
      funext n
      simp [Fleet.init, Fleet.site, Site.map, (σ.boot n).2]
    rw [hview]
    exact .refl
  | @tail F F' l _ hl hs ih =>
    obtain ⟨hinv, tr, hr⟩ := ih
    obtain ⟨hinv', hstep, hnone⟩ := σ.step_view hinv hs tr
    refine ⟨hinv', ?_⟩
    cases hseen : σ.seen F l with
    | none => exact ⟨tr, (hnone hseen) ▸ hr⟩
    | some l' =>
      obtain ⟨tr', hs'⟩ := hstep l' hseen
      exact ⟨tr', hr.tail (hok F l hl l' hseen tr) hs'⟩

end Projection

end Agreed
