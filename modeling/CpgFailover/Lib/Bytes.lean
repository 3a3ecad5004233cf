import Mathlib.Algebra.Order.Ring.Nat
import Mathlib.Tactic.Ring

/-!
# Numbers in memory

The bytes a number occupies in memory, least or most significant first, and the conversion to the
byte order of the network.

## Main definitions

* `Endian`: the byte order of a machine
* `store`, `load`: a number of so many bytes, to memory and back
* `htons`: the number whose bytes are in network order
* `toInt`, `storeInt`, `loadInt`: the conversion to `int`, and an `int` to memory and back
* `cut`: consecutive fields of given sizes

## Main results

* `load_store`, `loadInt_storeInt`: what is loaded is what was stored
* `store_htons`: a converted number lies in memory most significant byte first
* `cut_flatten`: fields that were put together come apart again
-/

namespace Bytes

/-- The byte order of a machine. -/
inductive Endian
  | little
  | big
deriving DecidableEq, Repr

/-- The `n` low bytes of a number, least significant first. -/
def digits : ℕ → ℕ → List UInt8
  | 0, _ => []
  | n + 1, x => UInt8.ofNat x :: digits n (x / 256)

/-- The number with these bytes, least significant first. -/
def value : List UInt8 → ℕ
  | [] => 0
  | b :: bs => b.toNat + 256 * value bs

/-- The `n` bytes of a number as they lie in memory. -/
def store (e : Endian) (n x : ℕ) : List UInt8 :=
  match e with
  | .little => digits n x
  | .big => (digits n x).reverse

/-- The number that lies in memory as these bytes. -/
def load (e : Endian) (bs : List UInt8) : ℕ :=
  match e with
  | .little => value bs
  | .big => value bs.reverse

/-- `htons`: a number of two bytes in network order. -/
def htons (e : Endian) (x : ℕ) : ℕ :=
  match e with
  | .little => load .big (store .little 2 x)
  | .big => x

@[simp] theorem length_digits (n x : ℕ) : (digits n x).length = n := by
  induction n generalizing x with
  | zero => rfl
  | succ n ih => rw [digits, List.length_cons, ih]

@[simp] theorem length_store (e : Endian) (n x : ℕ) : (store e n x).length = n := by
  cases e <;> simp [store]

theorem value_digits (n x : ℕ) : value (digits n x) = x % 256 ^ n := by
  induction n generalizing x with
  | zero => simp [digits, value, Nat.mod_one]
  | succ n ih =>
    rw [digits, value, ih, pow_succ', Nat.mod_mul]
    simp

/-- **What is loaded is what was stored**, if it fits. -/
theorem load_store (e : Endian) {n x : ℕ} (h : x < 256 ^ n) : load e (store e n x) = x := by
  cases e <;> simp [load, store, value_digits, Nat.mod_eq_of_lt h]

theorem digits_value (bs : List UInt8) : digits bs.length (value bs) = bs := by
  induction bs with
  | nil => rfl
  | cons b bs ih =>
    have hlt := b.toNat_lt
    have hdiv : (b.toNat + 256 * value bs) / 256 = value bs := by omega
    have hlow : UInt8.ofNat (b.toNat + 256 * value bs) = b := by
      apply UInt8.toNat_inj.mp
      rw [UInt8.toNat_ofNat']
      omega
    rw [List.length_cons, value, digits, hdiv, ih, hlow]

/-- What is stored is what was loaded. -/
theorem store_load (e : Endian) (bs : List UInt8) : store e bs.length (load e bs) = bs := by
  cases e with
  | little => exact digits_value bs
  | big =>
    have h := digits_value bs.reverse
    rw [List.length_reverse] at h
    rw [store, load, h, List.reverse_reverse]

/-- **A converted number lies in memory most significant byte first**, on either machine. -/
theorem store_htons (e : Endian) (x : ℕ) : store e 2 (htons e x) = store .big 2 x := by
  cases e with
  | little =>
    have h := store_load .big (store .little 2 x)
    rw [length_store] at h
    have hrev := congrArg List.reverse h
    simpa [htons, store] using hrev
  | big => rfl

/-- What is read from a converted number in network byte order is the number. -/
theorem load_store_htons (e : Endian) {x : ℕ} (h : x < 256 ^ 2) :
    load .big (store e 2 (htons e x)) = x := by
  rw [store_htons, load_store .big h]

/-! ## Signed numbers -/

/-- The number converted to `int`: the one in its range that is the same modulo `2 ^ 32`. -/
def toInt (x : ℤ) : ℤ := (x + 2 ^ 31) % 2 ^ 32 - 2 ^ 31

/-- An `int` as it lies in memory, in two's complement. -/
def storeInt (e : Endian) (x : ℤ) : List UInt8 := store e 4 (x % 2 ^ 32).toNat

/-- The `int` that lies in memory as these bytes. -/
def loadInt (e : Endian) (bs : List UInt8) : ℤ := toInt (Int.ofNat (load e bs))

@[simp] theorem length_storeInt (e : Endian) (x : ℤ) : (storeInt e x).length = 4 :=
  length_store e 4 _

/-- **An `int` that is loaded is the one that was stored.** -/
theorem loadInt_storeInt (e : Endian) {x : ℤ} (hmin : -2 ^ 31 ≤ x) (hmax : x < 2 ^ 31) :
    loadInt e (storeInt e x) = x := by
  have hpos : 0 ≤ x % 2 ^ 32 := Int.emod_nonneg _ (by omega)
  have hlt : x % 2 ^ 32 < 2 ^ 32 := Int.emod_lt_of_pos _ (by omega)
  have hfit : (x % 2 ^ 32).toNat < 256 ^ 4 := by omega
  have hload : Int.ofNat (load e (storeInt e x)) = x % 2 ^ 32 := by
    rw [storeInt, load_store e hfit, Int.ofNat_eq_natCast, Int.toNat_of_nonneg hpos]
  rw [loadInt, hload, toInt]
  omega

/-- What has been converted is in the range of `int`. -/
theorem toInt_bounds (x : ℤ) : -2 ^ 31 ≤ toInt x ∧ toInt x < 2 ^ 31 := by
  rw [toInt]
  omega

/-! ## Fields -/

/-- Consecutive fields of these sizes. -/
def cut : List ℕ → List UInt8 → List (List UInt8)
  | [], _ => []
  | n :: ns, bs => bs.take n :: cut ns (bs.drop n)

/-- **Fields that were put together come apart again.** -/
theorem cut_flatten (fields : List (List UInt8)) :
    cut (fields.map List.length) fields.flatten = fields := by
  induction fields with
  | nil => rfl
  | cons f fields ih =>
    rw [List.map_cons, List.flatten_cons, cut, List.take_left, List.drop_left, ih]

end Bytes
