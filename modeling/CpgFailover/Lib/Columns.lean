import CpgFailover.Lib.DottedQuad
import Mathlib.Data.Int.Init

/-!
# Texts in lines and columns

A table for a reader: lines, each closed by a newline, and columns in them, each closed by a tab and
filled up with blanks on the left; groups of lines may be closed by a rule. What stands in the table
is told apart by the text, as long as no part of it has its own mark in it, and no value has a blank
in front.

## Main definitions

* `closedBy`: parts, each with a mark after it
* `padLeft`: a value in a column
* `signed`: the decimal text of an integer

## Main results

* `closedBy_inj`: parts are told apart
* `padLeft_inj`, `signed_inj`: so are the values in a column, and integers
-/

namespace Columns

open DottedQuad (decimal isDigit)

def blank : UInt8 := 32

def tab : UInt8 := 9

def newline : UInt8 := 10

def minus : UInt8 := 45

/-! ## Marks -/

section Marks

variable {α β : Type}

/-- Parts, each with the mark `c` after it. -/
def closedBy (c : α) (parts : List (List α)) : List α := parts.flatMap (· ++ [c])

@[simp] theorem closedBy_nil (c : α) : closedBy c [] = [] := rfl

@[simp] theorem closedBy_cons (c : α) (part : List α) (parts : List (List α)) :
    closedBy c (part :: parts) = part ++ c :: closedBy c parts := by
  simp [closedBy]

@[simp] theorem closedBy_append (c : α) (parts rest : List (List α)) :
    closedBy c (parts ++ rest) = closedBy c parts ++ closedBy c rest := List.flatMap_append

/-- What is closed by a mark is told apart, if it has no such mark itself. -/
theorem append_cons_inj {xs ys r s : List α} {c : α} (hx : c ∉ xs) (hy : c ∉ ys)
    (h : xs ++ c :: r = ys ++ c :: s) : xs = ys ∧ r = s := by
  induction xs generalizing ys with
  | nil =>
    cases ys with
    | nil => exact ⟨rfl, List.tail_eq_of_cons_eq h⟩
    | cons y ys => exact absurd (List.head_eq_of_cons_eq h ▸ List.mem_cons_self) hy
  | cons x xs ih =>
    cases ys with
    | nil => exact absurd (List.head_eq_of_cons_eq h ▸ List.mem_cons_self) hx
    | cons y ys =>
      obtain ⟨hxy, hrest⟩ := List.cons.inj h
      obtain ⟨hxys, hrs⟩ := ih (fun hc => hx (List.mem_cons_of_mem x hc))
        (fun hc => hy (List.mem_cons_of_mem y hc)) hrest
      exact ⟨by rw [hxy, hxys], hrs⟩

/-- **Parts are told apart**, if none has the mark in it. -/
theorem closedBy_inj {c : α} {ps qs : List (List α)} (hp : ∀ p ∈ ps, c ∉ p) (hq : ∀ q ∈ qs, c ∉ q)
    (h : closedBy c ps = closedBy c qs) : ps = qs := by
  induction ps generalizing qs with
  | nil =>
    cases qs with
    | nil => rfl
    | cons q qs => simp at h
  | cons p ps ih =>
    cases qs with
    | nil => simp at h
    | cons q qs =>
      rw [closedBy_cons, closedBy_cons] at h
      obtain ⟨hpart, hrest⟩ :=
        append_cons_inj (hp p List.mem_cons_self) (hq q List.mem_cons_self) h
      rw [hpart, ih (fun r hr => hp r (List.mem_cons_of_mem p hr))
        (fun r hr => hq r (List.mem_cons_of_mem q hr)) hrest]

/-- Lists are told apart by what their elements are written as, if the elements are. -/
theorem map_inj_on {f : α → β} {P : α → Prop} (hf : ∀ a b, P a → P b → f a = f b → a = b)
    {l l' : List α} (hl : ∀ a ∈ l, P a) (hl' : ∀ a ∈ l', P a) (h : l.map f = l'.map f) :
    l = l' := by
  induction l generalizing l' with
  | nil => rw [List.map_eq_nil_iff.mp h.symm]
  | cons a l ih =>
    cases l' with
    | nil => cases h
    | cons b l' =>
      obtain ⟨hab, hrest⟩ := List.cons.inj h
      rw [hf a b (hl a List.mem_cons_self) (hl' b List.mem_cons_self) hab,
        ih (fun c hc => hl c (List.mem_cons_of_mem a hc))
          (fun c hc => hl' c (List.mem_cons_of_mem b hc)) hrest]

end Marks

/-! ## Columns -/

/-- A value in a column of width `n`; a longer one is not cut. -/
def padLeft (n : ℕ) (s : List UInt8) : List UInt8 := List.replicate (n - s.length) blank ++ s

theorem mem_padLeft {n : ℕ} {s : List UInt8} {c : UInt8} (h : c ∈ padLeft n s) :
    c = blank ∨ c ∈ s :=
  (List.mem_append.mp h).imp_left List.eq_of_mem_replicate

theorem not_mem_padLeft {n : ℕ} {s : List UInt8} {c : UInt8} (hc : c ≠ blank) (h : c ∉ s) :
    c ∉ padLeft n s :=
  fun hmem => (mem_padLeft hmem).elim hc h

/-- The value is what is left when the blanks in front are gone. -/
theorem dropWhile_padLeft {n : ℕ} {s : List UInt8} (h : s.head? ≠ some blank) :
    (padLeft n s).dropWhile (· = blank) = s := by
  have hs : s.dropWhile (· = blank) = s := by
    cases s with
    | nil => rfl
    | cons c s =>
      have hc : c ≠ blank := fun hc => h (by rw [hc]; rfl)
      rw [List.dropWhile_cons_of_neg (by simpa using hc)]
  rw [padLeft, List.dropWhile_append_of_pos (by simp +contextual [List.mem_replicate]), hs]

/-- **The values in a column** are told apart. -/
theorem padLeft_inj {n : ℕ} {s t : List UInt8} (hs : s.head? ≠ some blank)
    (ht : t.head? ≠ some blank) (h : padLeft n s = padLeft n t) : s = t := by
  rw [← dropWhile_padLeft hs, h, dropWhile_padLeft ht]

/-! ## Integers -/

/-- The decimal text of an integer. -/
def signed (z : ℤ) : List UInt8 := if z < 0 then minus :: decimal z.natAbs else decimal z.natAbs

/-- The text of an integer is made of digits and a minus. -/
theorem mem_signed {z : ℤ} {c : UInt8} (h : c ∈ signed z) : c = minus ∨ isDigit c = true := by
  rw [signed] at h
  split_ifs at h
  · exact (List.mem_cons.mp h).imp_right DottedQuad.isDigit_of_mem_decimal
  · exact Or.inr (DottedQuad.isDigit_of_mem_decimal h)

/-- **Integers** are told apart. -/
theorem signed_inj {y z : ℤ} (h : signed y = signed z) : y = z := by
  have hminus (n m : ℕ) : minus :: decimal n ≠ decimal m := by
    intro he
    have hd : isDigit minus = true :=
      DottedQuad.isDigit_of_mem_decimal (he ▸ List.mem_cons_self)
    cases hd
  rw [signed, signed] at h
  split_ifs at h with hy hz hz
  · have := DottedQuad.decimal_inj (List.tail_eq_of_cons_eq h)
    omega
  · exact absurd h (hminus _ _)
  · exact absurd h.symm (hminus _ _)
  · have := DottedQuad.decimal_inj h
    omega

end Columns
