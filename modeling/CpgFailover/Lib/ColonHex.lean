import Mathlib.Data.List.Basic
import Mathlib.Tactic.SplitIfs

/-!
# Bytes with colons between them

Hardware addresses as texts: two hexadecimal digits for each byte, and colons between them. A reader
that takes one digit or two for a byte, in either case, reads what has been written, so addresses
are told apart by their texts.

## Main definitions

* `pair`, `colons`: the text of a byte, and of an address
* `readBytes`: the bytes that a text stands for, as many as are asked for

## Main results

* `readBytes_colons`: what has been written is read
* `length_colons`: how long the text is
-/

namespace ColonHex

/-! ## Digits -/

/-- The character of a hexadecimal digit. -/
def digit (d : ℕ) : UInt8 := if d < 10 then UInt8.ofNat (48 + d) else UInt8.ofNat (87 + d)

/-- What a character counts as a digit, in either case. -/
def digitValue (c : UInt8) : Option ℕ :=
  if 48 ≤ c ∧ c ≤ 57 then some (c.toNat - 48)
  else if 97 ≤ c ∧ c ≤ 102 then some (c.toNat - 87)
  else if 65 ≤ c ∧ c ≤ 70 then some (c.toNat - 55)
  else none

/-- A colon. -/
def colon : UInt8 := 58

/-- A blank, or one of the characters that count as such. -/
def isBlank (c : UInt8) : Bool := c == 32 || (9 ≤ c && c ≤ 13)

theorem digitValue_digit : ∀ d < 16, digitValue (digit d) = some d := by decide

theorem digit_ne_colon : ∀ d < 16, digit d ≠ colon := by decide

theorem isBlank_digit : ∀ d < 16, isBlank (digit d) = false := by decide

/-! ## Writing -/

/-- The two digits of a byte. -/
def pair (b : UInt8) : List UInt8 := [digit (b.toNat / 16), digit (b.toNat % 16)]

/-- The bytes with colons between them. -/
def colons : List UInt8 → List UInt8
  | [] => []
  | [b] => pair b
  | b :: bs => pair b ++ colon :: colons bs

theorem colons_cons (b c : UInt8) (bs : List UInt8) :
    colons (b :: c :: bs) = pair b ++ colon :: colons (c :: bs) := rfl

theorem length_colons (b : UInt8) (bs : List UInt8) :
    (colons (b :: bs)).length = 3 * bs.length + 2 := by
  induction bs generalizing b with
  | nil => rfl
  | cons c bs ih =>
    rw [colons_cons, List.length_append, List.length_cons, ih c]
    simp only [pair, List.length_cons, List.length_nil]
    omega

/-! ## Reading -/

/-- Whether a byte has no second digit: a colon follows its first one, or, after the last byte, the
end or a blank. -/
def single (last : Bool) : List UInt8 → Bool
  | [] => last
  | c :: _ => if last then isBlank c else c == colon

/-- The reader: so many bytes from the text; what follows the last one is not looked at. -/
def readBytes : ℕ → List UInt8 → Option (List UInt8)
  | 0, _ => some []
  | _ + 1, [] => none
  | n + 1, c :: src =>
    match digitValue c with
    | none => none
    | some high =>
      if single (n = 0) src then (readBytes n src.tail).map (UInt8.ofNat high :: ·)
      else
        match src with
        | [] => none
        | c :: src =>
          match digitValue c with
          | none => none
          | some low =>
            if 0 < n ∧ src.head? ≠ some colon then none
            else (readBytes n src.tail).map (UInt8.ofNat (16 * high + low) :: ·)

/-- The two halves of a byte. -/
theorem halves (b : UInt8) : b.toNat / 16 < 16 ∧ b.toNat % 16 < 16 ∧
    UInt8.ofNat (16 * (b.toNat / 16) + b.toNat % 16) = b := by
  have hlt : b.toNat < 256 := UInt8.toNat_lt b
  refine ⟨by omega, by omega, ?_⟩
  have hsum : 16 * (b.toNat / 16) + b.toNat % 16 = b.toNat := by omega
  rw [hsum, UInt8.ofNat_toNat]

/-- Two digits are read as their byte, if a colon follows or it is the last one. -/
theorem readBytes_pair {n : ℕ} (b : UInt8) {src : List UInt8}
    (h : 0 < n → src.head? = some colon) :
    readBytes (n + 1) (pair b ++ src) = (readBytes n src.tail).map (b :: ·) := by
  obtain ⟨hhigh, hlow, hbyte⟩ := halves b
  have hsingle : single (n = 0) (digit (b.toNat % 16) :: src) = false := by
    rw [single]
    split_ifs
    · exact isBlank_digit _ hlow
    · simpa using digit_ne_colon _ hlow
  have hnext : ¬ (0 < n ∧ src.head? ≠ some colon) := fun hc => hc.2 (h hc.1)
  simp only [pair, List.cons_append, List.nil_append, readBytes, digitValue_digit _ hhigh,
    digitValue_digit _ hlow, hsingle, Bool.false_eq_true, if_false, if_neg hnext, hbyte]

/-- **What has been written is read.** -/
theorem readBytes_colons (bs : List UInt8) : readBytes bs.length (colons bs) = some bs := by
  -- Induction on the bytes: a byte is read with the colon behind it.
  induction bs with
  | nil => rfl
  | cons b bs ih =>
    cases bs with
    | nil =>
      rw [colons, ← List.append_nil (pair b), List.length_singleton, readBytes_pair b (by simp)]
      rfl
    | cons c bs =>
      rw [colons_cons, List.length_cons, readBytes_pair b fun _ => rfl, List.tail_cons, ih,
        Option.map_some]

end ColonHex
