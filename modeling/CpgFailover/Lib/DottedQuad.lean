import Mathlib.Data.List.Basic
import Mathlib.Tactic.SplitIfs

/-!
# Dotted quads

Addresses of four bytes as texts: four decimal numbers with dots between them. A number has no zero
in front, so an address has one text only: reading undoes writing, and writing undoes reading.

## Main definitions

* `decimal`: the decimal text of a number
* `dotted`: the text of an address
* `parse`: the address that a text stands for

## Main results

* `parse_dotted`: what has been written is read
* `dotted_of_parse`: what is read has been written so
* `parse_inj`: texts of the same address are the same
-/

namespace DottedQuad

/-! ## Decimal numbers -/

/-- The character of a digit. -/
def digit (d : ℕ) : UInt8 := UInt8.ofNat (48 + d)

/-- The decimal text of a number, without zeros in front. -/
def decimal (n : ℕ) : List UInt8 :=
  if n < 10 then [digit n] else decimal (n / 10) ++ [digit (n % 10)]
termination_by n
decreasing_by omega

/-- A character that is a decimal digit. -/
def isDigit (c : UInt8) : Bool := 48 ≤ c && c ≤ 57

theorem decimal_of_lt {d : ℕ} (h : d < 10) : decimal d = [digit d] := by
  rw [decimal, if_pos h]

/-- One digit more. -/
theorem decimal_snoc {q d : ℕ} (hq : 0 < q) (hd : d < 10) :
    decimal (q * 10 + d) = decimal q ++ [digit d] := by
  have hdiv : (q * 10 + d) / 10 = q := by omega
  have hmod : (q * 10 + d) % 10 = d := by omega
  rw [decimal, if_neg (by omega), hdiv, hmod]

theorem digit_toNat {d : ℕ} (h : d < 10) : (digit d).toNat = 48 + d :=
  UInt8.toNat_ofNat_of_lt' (by show 48 + d < 256; omega)

theorem isDigit_iff {c : UInt8} : isDigit c = true ↔ 48 ≤ c.toNat ∧ c.toNat ≤ 57 := by
  simp [isDigit, UInt8.le_iff_toNat_le]

theorem isDigit_digit {d : ℕ} (h : d < 10) : isDigit (digit d) = true := by
  rw [isDigit_iff, digit_toNat h]
  omega

/-- A digit is the character of what it counts. -/
theorem digit_of_isDigit {c : UInt8} (h : isDigit c = true) :
    c.toNat - 48 < 10 ∧ digit (c.toNat - 48) = c := by
  obtain ⟨hmin, hmax⟩ := isDigit_iff.mp h
  have hlt : c.toNat - 48 < 10 := by omega
  refine ⟨hlt, UInt8.toNat_inj.mp ?_⟩
  rw [digit_toNat hlt]
  omega

/-- A number's text has no other characters than digits. -/
theorem isDigit_of_mem_decimal {n : ℕ} {c : UInt8} (h : c ∈ decimal n) : isDigit c = true := by
  -- Induction on the number: its last digit comes after the digits of its tenth.
  induction n using Nat.strongRecOn with
  | ind n ih =>
    by_cases hlt : n < 10
    · rw [decimal_of_lt hlt, List.mem_singleton] at h
      rw [h, isDigit_digit hlt]
    · obtain ⟨q, d, rfl, hq, hd⟩ : ∃ q d, n = q * 10 + d ∧ 0 < q ∧ d < 10 :=
        ⟨n / 10, n % 10, by omega, by omega, by omega⟩
      rw [decimal_snoc hq hd] at h
      rcases List.mem_append.mp h with h | h
      · exact ih q (by omega) h
      · rw [List.mem_singleton.mp h, isDigit_digit hd]

/-- The number that digits stand for. -/
def value (s : List UInt8) : ℕ := s.foldl (fun n c => n * 10 + (c.toNat - 48)) 0

theorem value_decimal (n : ℕ) : value (decimal n) = n := by
  induction n using Nat.strongRecOn with
  | ind n ih =>
    by_cases hlt : n < 10
    · rw [decimal_of_lt hlt, value, List.foldl_cons, List.foldl_nil, digit_toNat hlt]
      omega
    · obtain ⟨q, d, rfl, hq, hd⟩ : ∃ q d, n = q * 10 + d ∧ 0 < q ∧ d < 10 :=
        ⟨n / 10, n % 10, by omega, by omega, by omega⟩
      have hfront : (decimal q).foldl (fun n c => n * 10 + (c.toNat - 48)) 0 = q :=
        ih q (by omega)
      rw [decimal_snoc hq hd, value, List.foldl_append, hfront, List.foldl_cons, List.foldl_nil,
        digit_toNat hd]
      omega

/-- Numbers are told apart by their texts. -/
theorem decimal_inj {m n : ℕ} (h : decimal m = decimal n) : m = n := by
  rw [← value_decimal m, h, value_decimal]

/-! ## Texts of addresses -/

/-- A dot. -/
def dot : UInt8 := 46

/-- The numbers of an address, with dots between them. -/
def dotted : List UInt8 → List UInt8
  | [] => []
  | [b] => decimal b.toNat
  | b :: bs => decimal b.toNat ++ dot :: dotted bs

/-- The text of an address has no other characters than digits and dots. -/
theorem mem_dotted {bs : List UInt8} {c : UInt8} (h : c ∈ dotted bs) :
    isDigit c = true ∨ c = dot := by
  induction bs with
  | nil => cases h
  | cons b bs ih =>
    cases bs with
    | nil => exact Or.inl (isDigit_of_mem_decimal h)
    | cons b' bs =>
      rcases List.mem_append.mp h with h | h
      · exact Or.inl (isDigit_of_mem_decimal h)
      · rcases List.mem_cons.mp h with h | h
        · exact Or.inr h
        · exact ih h

/-- The numbers before the last, each with the dot after it. -/
def leading (bs : List UInt8) : List UInt8 := bs.flatMap fun b => decimal b.toNat ++ [dot]

theorem leading_snoc (bs : List UInt8) (b : UInt8) :
    leading (bs ++ [b]) = leading bs ++ decimal b.toNat ++ [dot] := by
  simp [leading, List.flatMap_append]

theorem dotted_snoc (bs : List UInt8) (b : UInt8) :
    dotted (bs ++ [b]) = leading bs ++ decimal b.toNat := by
  induction bs with
  | nil => rfl
  | cons c bs ih =>
    have hcons : dotted (c :: (bs ++ [b])) = decimal c.toNat ++ dot :: dotted (bs ++ [b]) := by
      cases bs <;> rfl
    rw [List.cons_append, hcons, ih]
    simp [leading]

/-- The reader: the numbers before the present one, the present one as far as it goes, and whether
it has got a digit. -/
def readFrom : List UInt8 → List UInt8 → ℕ → Bool → Option (List UInt8)
  | [], before, octet, sawDigit =>
    if before.length = 3 ∧ sawDigit then some (before ++ [UInt8.ofNat octet]) else none
  | ch :: src, before, octet, sawDigit =>
    if isDigit ch then
      -- no number has a zero in front, and none is greater than a byte
      if sawDigit ∧ octet = 0 then none
      else if 255 < octet * 10 + (ch.toNat - 48) then none
      else readFrom src before (octet * 10 + (ch.toNat - 48)) true
    else if ch = dot ∧ sawDigit then
      if before.length = 3 then none
      else readFrom src (before ++ [UInt8.ofNat octet]) 0 false
    else none

/-- The address that a text stands for. -/
def parse (s : List UInt8) : Option (List UInt8) := readFrom s [] 0 false

/-! ## Reading undoes writing -/

/-- The digits of a number are read as the number. -/
theorem readFrom_decimal {n : ℕ} (hn : n ≤ 255) (rest before : List UInt8) :
    readFrom (decimal n ++ rest) before 0 false = readFrom rest before n true := by
  -- Induction on the number: its last digit comes after the digits of its tenth.
  induction n using Nat.strongRecOn generalizing rest with
  | ind n ih =>
    by_cases hlt : n < 10
    · rw [decimal_of_lt hlt, List.singleton_append, readFrom, if_pos (isDigit_digit hlt),
        digit_toNat hlt]
      have hnew : 0 * 10 + (48 + n - 48) = n := by omega
      rw [hnew]
      simp [Nat.not_lt.mpr hn]
    · obtain ⟨q, d, rfl, hq, hd⟩ : ∃ q d, n = q * 10 + d ∧ 0 < q ∧ d < 10 :=
        ⟨n / 10, n % 10, by omega, by omega, by omega⟩
      rw [decimal_snoc hq hd, List.append_assoc, ih q (by omega) (by omega), List.singleton_append,
        readFrom, if_pos (isDigit_digit hd), digit_toNat hd]
      have hnew : q * 10 + (48 + d - 48) = q * 10 + d := by omega
      rw [hnew]
      simp [Nat.not_lt.mpr hn, Nat.ne_of_gt hq]

theorem isDigit_dot : isDigit dot = false := rfl

/-- The rest of an address is read behind its first numbers. -/
theorem readFrom_dotted {before bs : List UInt8} (hne : bs ≠ [])
    (hlen : before.length + bs.length = 4) :
    readFrom (dotted bs) before 0 false = some (before ++ bs) := by
  induction bs generalizing before with
  | nil => exact absurd rfl hne
  | cons b bs ih =>
    have hb : b.toNat ≤ 255 := Nat.le_of_lt_succ (UInt8.toNat_lt b)
    cases bs with
    | nil =>
      have hthree : before.length = 3 := by simpa using hlen
      rw [dotted, ← List.append_nil (decimal b.toNat), readFrom_decimal hb, readFrom,
        if_pos ⟨hthree, rfl⟩, UInt8.ofNat_toNat]
    | cons c bs =>
      have hnot : ¬ before.length = 3 := by
        simp only [List.length_cons] at hlen
        omega
      have hrest : readFrom (dotted (c :: bs)) (before ++ [b]) 0 false =
          some (before ++ [b] ++ c :: bs) := by
        apply ih (by simp)
        simp only [List.length_append, List.length_cons, List.length_nil] at hlen ⊢
        omega
      rw [dotted, readFrom_decimal hb, readFrom, if_neg (by simp [isDigit_dot]),
        if_pos ⟨rfl, rfl⟩, if_neg hnot, UInt8.ofNat_toNat, hrest]
      · simp
      · simp

/-- **What has been written is read.** -/
theorem parse_dotted {q : List UInt8} (h : q.length = 4) : parse (dotted q) = some q := by
  have hne : q ≠ [] := by
    rintro rfl
    cases h
  exact readFrom_dotted hne (by simpa using h)

/-! ## Writing undoes reading -/

/-- The text read so far. -/
def consumed (before : List UInt8) (octet : ℕ) (sawDigit : Bool) : List UInt8 :=
  leading before ++ if sawDigit then decimal octet else []

/-- What is read to its end has been written so. -/
theorem dotted_of_readFrom {src before q : List UInt8} {octet : ℕ} {sawDigit : Bool}
    (hoctet : octet ≤ 255) (hfresh : sawDigit = false → octet = 0) (hbefore : before.length ≤ 3)
    (h : readFrom src before octet sawDigit = some q) :
    dotted q = consumed before octet sawDigit ++ src ∧ q.length = 4 := by
  induction src generalizing before octet sawDigit with
  | nil =>
    obtain ⟨⟨hthree, hsaw⟩, heq⟩ := Option.ite_none_right_eq_some.mp h
    obtain rfl := Option.some.inj heq
    have hround : (UInt8.ofNat octet).toNat = octet :=
      UInt8.toNat_ofNat_of_lt' (by show octet < 256; omega)
    rw [dotted_snoc, hround, consumed, if_pos hsaw]
    simp [hthree]
  | cons ch src ih =>
    rw [readFrom] at h
    split_ifs at h with hdigit hzero hbig hdot
    · -- one digit more of the number
      obtain ⟨hd, hch⟩ := digit_of_isDigit hdigit
      obtain ⟨htext, hlen⟩ := ih (by omega) (fun hf => by cases hf) hbefore h
      refine ⟨?_, hlen⟩
      rw [htext, consumed, consumed, if_pos rfl]
      by_cases hsaw : sawDigit = true
      · have hpos : 0 < octet := Nat.pos_of_ne_zero fun h0 => hzero ⟨hsaw, h0⟩
        rw [decimal_snoc hpos hd, hch, if_pos hsaw]
        simp
      · rw [hfresh (by simpa using hsaw), Nat.zero_mul, Nat.zero_add, decimal_of_lt hd, hch,
          if_neg hsaw]
        simp
    · -- a dot ends the number
      rename_i hfull
      have hround : (UInt8.ofNat octet).toNat = octet :=
        UInt8.toNat_ofNat_of_lt' (by show octet < 256; omega)
      obtain ⟨htext, hlen⟩ := ih (by omega) (fun _ => rfl)
        (by simp only [List.length_append, List.length_singleton]; omega) h
      refine ⟨?_, hlen⟩
      rw [htext, consumed, consumed, leading_snoc, hround, hdot.1, if_pos hdot.2]
      simp

/-- **What is read has been written so.** -/
theorem dotted_of_parse {s q : List UInt8} (h : parse s = some q) :
    dotted q = s ∧ q.length = 4 := by
  have hnone : ([] : List UInt8).length ≤ 3 := Nat.zero_le 3
  obtain ⟨htext, hlen⟩ := dotted_of_readFrom (Nat.zero_le 255) (fun _ => rfl) hnone h
  exact ⟨htext, hlen⟩

/-- **Texts of the same address are the same.** -/
theorem parse_inj {s t q : List UInt8} (hs : parse s = some q) (ht : parse t = some q) : s = t :=
  (dotted_of_parse hs).1.symm.trans (dotted_of_parse ht).1

end DottedQuad
