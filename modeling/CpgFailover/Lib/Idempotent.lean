import Mathlib.Data.List.Basic

/-!
# Operations that may be repeated and reordered

A sequence of operations that commute and have no effect the second time is a set of them: its
result depends neither on the order nor on the number of repetitions.

## Main results

* `foldl_absorb`: an operation that has been applied has no effect any more
* `foldl_eq_of_mem_iff`: the result depends only on which operations are applied
-/

namespace Idempotent

variable {α β : Type} {f : β → α → β}

/-- An operation moves to the front of a sequence it commutes with. -/
theorem foldl_comm {l : List α} {x : α} (hcomm : ∀ y ∈ l, ∀ b, f (f b y) x = f (f b x) y) (b : β) :
    f (l.foldl f b) x = l.foldl f (f b x) := by
  induction l generalizing b with
  | nil => rfl
  | cons y l ih =>
    rw [List.foldl_cons, List.foldl_cons, ih fun z hz => hcomm z (List.mem_cons_of_mem y hz),
      hcomm y List.mem_cons_self]

section Fold

variable {l l' : List α} (hcomm : ∀ x ∈ l, ∀ y ∈ l, ∀ b, f (f b x) y = f (f b y) x)
  (hidem : ∀ x ∈ l, ∀ b, f (f b x) x = f b x)

include hcomm hidem

/-- **An operation that has been applied has no effect any more.** -/
theorem foldl_absorb {x : α} (hx : x ∈ l) (b : β) : f (l.foldl f b) x = l.foldl f b := by
  induction l generalizing b with
  | nil => cases hx
  | cons y l ih =>
    have hcomm' : ∀ z ∈ l, ∀ b, f (f b z) x = f (f b x) z := fun z hz b =>
      hcomm z (List.mem_cons_of_mem y hz) x hx b
    rcases List.mem_cons.mp hx with rfl | hx
    · rw [List.foldl_cons, foldl_comm hcomm', hidem x List.mem_cons_self]
    · exact ih (fun z hz w hw => hcomm z (List.mem_cons_of_mem y hz) w (List.mem_cons_of_mem y hw))
        (fun z hz => hidem z (List.mem_cons_of_mem y hz)) hx (f b y)

/-- Operations that have all been applied have no effect any more. -/
theorem foldl_absorb_all (hsub : l' ⊆ l) (b : β) : l'.foldl f (l.foldl f b) = l.foldl f b := by
  induction l' with
  | nil => rfl
  | cons x l' ih =>
    rw [List.cons_subset] at hsub
    rw [List.foldl_cons, foldl_absorb hcomm hidem hsub.1]
    exact ih hsub.2

/-- **The result depends only on which operations are applied.** -/
theorem foldl_eq_of_mem_iff (hmem : ∀ x, x ∈ l ↔ x ∈ l') (b : β) : l.foldl f b = l'.foldl f b := by
  -- one sequence after the other, in either order
  have hswap (m : List α) (hm : m ⊆ l) (c : β) :
      m.foldl f (l.foldl f c) = l.foldl f (m.foldl f c) := by
    induction m generalizing c with
    | nil => rfl
    | cons x m ih =>
      rw [List.cons_subset] at hm
      rw [List.foldl_cons, List.foldl_cons, ← ih hm.2,
        foldl_comm fun y hy => hcomm y hy x hm.1]
  have hsub : l' ⊆ l := fun x hx => (hmem x).mpr hx
  calc l.foldl f b = l'.foldl f (l.foldl f b) := (foldl_absorb_all hcomm hidem hsub b).symm
    _ = l.foldl f (l'.foldl f b) := hswap l' hsub b
    _ = l'.foldl f b := foldl_absorb_all
        (fun x hx y hy => hcomm x (hsub hx) y (hsub hy)) (fun x hx => hidem x (hsub hx))
        (fun x hx => (hmem x).mp hx) b

end Fold

end Idempotent
