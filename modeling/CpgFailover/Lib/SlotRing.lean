import Mathlib.Logic.Function.Basic
import Mathlib.Order.Nat

/-!
# Rings of slots

A ring hands out its slots in turn. Whoever gets a slot reads what was written into it until the
ring has gone round.

## Main definitions

* `SlotRing.push`: a value written into the next slot, which is handed out
* `SlotRing.Holds r p x k`: slot `p` reads `x`, now and after `k` more values

## Main results

* `SlotRing.holds_push`: a slot that is handed out outlives all but a full round
* `SlotRing.Holds.push`: each value costs it one
-/

/-- Slots that are handed out in turn. -/
structure SlotRing (α : Type) (n : ℕ) where
  next : Fin n
  slots : Fin n → α

namespace SlotRing

variable {α : Type} {n : ℕ} {r : SlotRing α n} {p : Fin n} {x y : α} {k : ℕ}

/-- A value is written into the next slot, which is handed out. -/
def push (r : SlotRing α n) (x : α) : SlotRing α n × Fin n :=
  (⟨⟨(r.next + 1) % n, Nat.mod_lt _ r.next.pos⟩, Function.update r.slots r.next x⟩, r.next)

/-- The slot reads `x`, and is not among the next `k` to be handed out. -/
structure Holds (r : SlotRing α n) (p : Fin n) (x : α) (k : ℕ) : Prop where
  slot : r.slots p = x
  spared : ∀ i < k, (r.next + i) % n ≠ p

theorem Holds.mono {k' : ℕ} (h : r.Holds p x k) (hk : k' ≤ k) : r.Holds p x k' :=
  ⟨h.slot, fun i hi => h.spared i (hi.trans_le hk)⟩

/-- The slot after the next is that of the ring with one more value. -/
theorem next_push (r : SlotRing α n) (x : α) (i : ℕ) :
    ((r.push x).1.next + i) % n = (r.next + (i + 1)) % n := by
  show ((r.next + 1) % n + i) % n = _
  rw [Nat.mod_add_mod, Nat.add_right_comm, Nat.add_assoc]

/-- **A slot that is handed out is spared until the ring has gone round.** -/
theorem holds_push (r : SlotRing α n) (x : α) : (r.push x).1.Holds (r.push x).2 x (n - 1) where
  slot := Function.update_self ..
  spared i hi := by
    rw [next_push]
    show (r.next + (i + 1)) % n ≠ r.next
    have hlt := r.next.isLt
    rcases lt_or_ge (r.next.val + (i + 1)) n with h | h
    · rw [Nat.mod_eq_of_lt h]
      omega
    · rw [Nat.mod_eq_sub_mod h, Nat.mod_eq_of_lt (by omega)]
      omega

/-- **Each value costs a slot one of those it outlives.** -/
theorem Holds.push (h : r.Holds p x (k + 1)) (y : α) : (r.push y).1.Holds p x k where
  slot := by
    have hne : p ≠ r.next := fun he => h.spared 0 (Nat.succ_pos k) (by
      rw [he, Nat.add_zero, Nat.mod_eq_of_lt r.next.isLt])
    exact (Function.update_of_ne hne ..).trans h.slot
  spared i hi := by
    rw [next_push]
    exact h.spared (i + 1) (Nat.succ_lt_succ hi)

end SlotRing
