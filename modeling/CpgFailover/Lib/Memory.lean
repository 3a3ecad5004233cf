import Mathlib.Algebra.Order.Ring.Nat
import Mathlib.Data.List.TakeWhile
import Mathlib.Tactic.Ring

/-!
# A memory of bytes

Bytes are written from an address on and read from an address on. A C string is what lies before
the first terminator; who reads it does not know how large the buffer is that it was written to.

## Main definitions

* `write`: the memory after some bytes have been written
* `bytes`: so many bytes from an address on
* `cstring`: the C string at an address

## Main results

* `bytes_write_self`, `bytes_write_of_disjoint`: what a write changes, and what it does not
* `cstring_of_bytes`: a terminated string in memory is read back
-/

namespace Memory

/-- The byte at each address. -/
abbrev Mem := ℕ → UInt8

/-- The memory after these bytes have been written from an address on. -/
def write (m : Mem) (a : ℕ) (bs : List UInt8) : Mem :=
  fun x => if a ≤ x then (bs[x - a]?).getD (m x) else m x

/-- The `n` bytes from an address on. -/
def bytes (m : Mem) (a n : ℕ) : List UInt8 := (List.range n).map fun i => m (a + i)

/-- The C string at an address, of which no more than `n` bytes are read. -/
def cstring (m : Mem) (a n : ℕ) : List UInt8 := (bytes m a n).takeWhile (· ≠ 0)

@[simp] theorem length_bytes (m : Mem) (a n : ℕ) : (bytes m a n).length = n := by
  simp [bytes]

theorem bytes_add (m : Mem) (a n k : ℕ) :
    bytes m a (n + k) = bytes m a n ++ bytes m (a + n) k := by
  simp only [bytes, List.range_add, List.map_append, List.map_map]
  congr 1
  apply List.map_congr_left
  intro i _
  rw [Function.comp, Nat.add_assoc]

/-- Bytes that agree one by one. -/
theorem bytes_congr {m m' : Mem} {a n : ℕ} (h : ∀ i < n, m (a + i) = m' (a + i)) :
    bytes m a n = bytes m' a n := by
  apply List.map_congr_left
  intro i hi
  exact h i (List.mem_range.mp hi)

theorem bytes_of_zero {m : Mem} {a n : ℕ} (h : ∀ i < n, m (a + i) = 0) :
    bytes m a n = List.replicate n 0 := by
  apply List.eq_replicate_iff.mpr ⟨length_bytes m a n, ?_⟩
  intro b hb
  obtain ⟨i, hi, rfl⟩ := List.mem_map.mp hb
  exact h i (List.mem_range.mp hi)

/-! ## Writes -/

/-- A write leaves the other addresses alone. -/
theorem write_of_disjoint (m : Mem) {a x : ℕ} {bs : List UInt8}
    (h : x < a ∨ a + bs.length ≤ x) : write m a bs x = m x := by
  rw [write]
  rcases h with h | h
  · rw [if_neg (Nat.not_le.mpr h)]
  · have hnone : bs[x - a]? = none := by
      apply List.getElem?_eq_none
      omega
    rw [hnone, Option.getD_none, ite_self]

theorem write_of_lt (m : Mem) {a i : ℕ} {bs : List UInt8} (h : i < bs.length) :
    write m a bs (a + i) = bs[i] := by
  rw [write, if_pos (Nat.le_add_right a i), Nat.add_sub_cancel_left, List.getElem?_eq_getElem h,
    Option.getD_some]

/-- **What has been written is read.** -/
theorem bytes_write_self (m : Mem) (a : ℕ) (bs : List UInt8) :
    bytes (write m a bs) a bs.length = bs := by
  apply List.ext_getElem (by simp)
  intro i hi hi'
  simp only [bytes, List.getElem_map, List.getElem_range]
  exact write_of_lt m hi'

/-- **Elsewhere a write changes nothing.** -/
theorem bytes_write_of_disjoint (m : Mem) {a b n : ℕ} {bs : List UInt8}
    (h : b + n ≤ a ∨ a + bs.length ≤ b) : bytes (write m a bs) b n = bytes m b n := by
  apply bytes_congr
  intro i hi
  apply write_of_disjoint
  omega

/-! ## Strings -/

/-- **A terminated string in memory is read back**, if so many bytes are read. -/
theorem cstring_of_bytes {m : Mem} {a n : ℕ} {s : List UInt8}
    (h : bytes m a (s.length + 1) = s ++ [0]) (hs : 0 ∉ s) (hn : s.length < n) :
    cstring m a n = s := by
  obtain ⟨k, rfl⟩ : ∃ k, n = s.length + 1 + k := ⟨n - (s.length + 1), by omega⟩
  have hne : ∀ b ∈ s, decide (b ≠ 0) = true := by
    intro b hb
    apply decide_eq_true
    rintro rfl
    exact hs hb
  rw [cstring, bytes_add, h, List.append_assoc, List.takeWhile_append_of_pos hne]
  simp

/-- A string that is read has no terminator in it. -/
theorem notMem_cstring (m : Mem) (a n : ℕ) : 0 ∉ cstring m a n := by
  intro h
  have hne := List.mem_takeWhile_imp h
  exact of_decide_eq_true hne rfl

/-- Where the first byte is a terminator, the string is empty. -/
theorem cstring_of_zero {m : Mem} {a : ℕ} (h : m a = 0) (n : ℕ) : cstring m a n = [] := by
  cases n with
  | zero => rfl
  | succ n =>
    rw [cstring, Nat.add_comm n 1, bytes_add]
    simp [bytes, h]

end Memory
