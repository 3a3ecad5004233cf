import Mathlib.Data.List.Induction
import Mathlib.Logic.Basic
import Mathlib.Tactic.SplitIfs

/-!
# Labelled transition systems

A transition system is a partial step function on states: a label that is not enabled has no
successor. A run may be held to a condition on each step, read in the state before it.

## Main definitions

* `ReachesWhen step ok s t`: some run from `s` to `t` takes only steps that meet `ok`
* `Reaches step s t`: some run leads from `s` to `t`
* `runWhen`, `run`: the state after a given list of labels
* `Path step ok s tr t`: a run from `s` to `t` with its labels and the states it visits
* `lastState`: the state after a trace
* `Along step P s ls`: every step of the labels meets `P`

## Main results

* `ReachesWhen.invariant`: the induction over a run
* `reachesWhen_of_runWhen`, `reaches_of_run`: an executed list of labels is a run
* `run_induction`: the induction over an executed list, for what speaks of the labels as well
* `along_congr`: two conditions that agree on every step agree along every run
-/

namespace Transition

variable {σ ℓ : Type}

/-- Some run from `s` takes only steps that meet `ok`. -/
inductive ReachesWhen (step : σ → ℓ → Option σ) (ok : σ → ℓ → Prop) (s : σ) : σ → Prop
  | refl : ReachesWhen step ok s s
  | tail {t u : σ} {l : ℓ} :
      ReachesWhen step ok s t → ok t l → step t l = some u → ReachesWhen step ok s u

/-- Some run leads from `s` to the state. -/
def Reaches (step : σ → ℓ → Option σ) (s : σ) : σ → Prop :=
  ReachesWhen step (fun _ _ => True) s

variable {step : σ → ℓ → Option σ} {ok ok' : σ → ℓ → Prop} {s t u : σ}

/-- **The induction over a run**: what holds at the start and is kept by every step that meets
the condition holds in every state reached. -/
theorem ReachesWhen.invariant {I : σ → Prop} (h : ReachesWhen step ok s t) (h₀ : I s)
    (hstep : ∀ t l u, ReachesWhen step ok s t → I t → ok t l → step t l = some u → I u) : I t := by
  induction h with
  | refl => exact h₀
  | tail hr hok hs ih => exact hstep _ _ _ hr ih hok hs

theorem ReachesWhen.mono (h : ReachesWhen step ok s t) (hok : ∀ s l, ok s l → ok' s l) :
    ReachesWhen step ok' s t :=
  h.invariant .refl fun _ _ _ _ ih hk hs => ih.tail (hok _ _ hk) hs

theorem ReachesWhen.reaches (h : ReachesWhen step ok s t) : Reaches step s t :=
  h.mono fun _ _ _ => trivial

theorem ReachesWhen.trans (h : ReachesWhen step ok s t) (h' : ReachesWhen step ok t u) :
    ReachesWhen step ok s u :=
  h'.invariant h fun _ _ _ _ ih hk hs => ih.tail hk hs

/-! ## Executed runs -/

/-- The state after the labels, each of which must be enabled and meet `ok`. -/
def runWhen (step : σ → ℓ → Option σ) (ok : σ → ℓ → Prop) [∀ s l, Decidable (ok s l)] (s : σ) :
    List ℓ → Option σ
  | [] => some s
  | l :: ls => if ok s l then (step s l).bind fun t => runWhen step ok t ls else none

/-- The state after the labels, each of which must be enabled. -/
def run (step : σ → ℓ → Option σ) (s : σ) : List ℓ → Option σ
  | [] => some s
  | l :: ls => (step s l).bind fun t => run step t ls

theorem reachesWhen_of_runWhen [∀ s l, Decidable (ok s l)] {ls : List ℓ}
    (h : runWhen step ok s ls = some t) : ReachesWhen step ok s t := by
  induction ls generalizing s with
  | nil => obtain rfl := Option.some.inj h; exact .refl
  | cons l ls ih =>
    simp only [runWhen] at h
    split_ifs at h with hok
    obtain ⟨u, hu, hrun⟩ := Option.bind_eq_some_iff.mp h
    exact (ReachesWhen.refl.tail hok hu).trans (ih hrun)

/-- The state an executed list of labels leads to, or the start if it is not a run. -/
theorem reachesWhen_getD [∀ s l, Decidable (ok s l)] (ls : List ℓ) :
    ReachesWhen step ok s ((runWhen step ok s ls).getD s) := by
  cases h : runWhen step ok s ls with
  | none => exact .refl
  | some t => exact reachesWhen_of_runWhen h

theorem reaches_of_run {ls : List ℓ} (h : run step s ls = some t) : Reaches step s t := by
  induction ls generalizing s with
  | nil => obtain rfl := Option.some.inj h; exact .refl
  | cons l ls ih =>
    obtain ⟨u, hu, hrun⟩ := Option.bind_eq_some_iff.mp h
    exact (ReachesWhen.refl.tail trivial hu).trans (ih hrun)

/-- The state an executed list of labels leads to, or the start if it is not a run. -/
theorem reaches_getD (ls : List ℓ) : Reaches step s ((run step s ls).getD s) := by
  cases h : run step s ls with
  | none => exact .refl
  | some t => exact reaches_of_run h

theorem run_append (s : σ) (ls ls' : List ℓ) :
    run step s (ls ++ ls') = (run step s ls).bind fun t => run step t ls' := by
  induction ls generalizing s with
  | nil => rfl
  | cons l ls ih =>
    simp only [List.cons_append, run]
    rw [Option.bind_assoc]
    congr 1
    funext t
    exact ih t

/-- **The induction over an executed list of labels**: what holds at the start with no label, and is
kept by every step with its label, holds of the state reached and all labels. -/
theorem run_induction {I : List ℓ → σ → Prop} {ls : List ℓ} (h : run step s ls = some t)
    (h₀ : I [] s) (hstep : ∀ ls t l u, I ls t → step t l = some u → I (ls ++ [l]) u) : I ls t := by
  induction ls using List.reverseRecOn generalizing t with
  | nil =>
    obtain rfl := Option.some.inj h
    exact h₀
  | append_singleton ls l ih =>
    rw [run_append] at h
    obtain ⟨u, hu, hl⟩ := Option.bind_eq_some_iff.mp h
    obtain ⟨t', ht, hnil⟩ := Option.bind_eq_some_iff.mp hl
    obtain rfl := Option.some.inj hnil
    exact hstep ls u l t' (ih hu) ht

/-! ## Runs with the states they visit -/

/-- A run from `s` whose steps all meet `ok`, with each label and the state it leads to. -/
inductive Path (step : σ → ℓ → Option σ) (ok : σ → ℓ → Prop) (s : σ) : List (ℓ × σ) → σ → Prop
  | nil : Path step ok s [] s
  | snoc {tr : List (ℓ × σ)} {t u : σ} {l : ℓ} :
      Path step ok s tr t → ok t l → step t l = some u → Path step ok s (tr ++ [(l, u)]) u

/-- The state after a trace. -/
def lastState (s : σ) (tr : List (ℓ × σ)) : σ := (tr.getLast?.map Prod.snd).getD s

@[simp] theorem lastState_snoc (s : σ) (tr : List (ℓ × σ)) (x : ℓ × σ) :
    lastState s (tr ++ [x]) = x.2 := by
  simp [lastState]

theorem Path.lastState_eq {tr : List (ℓ × σ)} (h : Path step ok s tr t) : lastState s tr = t := by
  cases h with
  | nil => rfl
  | snoc => simp

theorem ReachesWhen.exists_path (h : ReachesWhen step ok s t) : ∃ tr, Path step ok s tr t := by
  induction h with
  | refl => exact ⟨[], .nil⟩
  | tail _ hok hs ih =>
    obtain ⟨tr, htr⟩ := ih
    exact ⟨_, htr.snoc hok hs⟩

/-! ## Conditions along a run -/

/-- Every step of the labels meets `P`, read in the state before it. -/
def Along (step : σ → ℓ → Option σ) (P : σ → ℓ → Prop) (s : σ) : List ℓ → Prop
  | [] => True
  | l :: ls => P s l ∧ ∀ t, step s l = some t → Along step P t ls

/-- **Two conditions that agree on every step agree along every run.** -/
theorem along_congr {P Q : σ → ℓ → Prop} (h : ∀ s l, P s l ↔ Q s l) (s : σ) (ls : List ℓ) :
    Along step P s ls ↔ Along step Q s ls := by
  -- Induction on the labels, from any state.
  induction ls generalizing s with
  | nil => exact Iff.rfl
  | cons l ls ih => exact and_congr (h s l) (forall₂_congr fun t _ => ih t)

end Transition
