import CpgFailover.Lib.Bytes

/-!
# Reading from a buffer that ends

A buffer is what has been received, and a reader of C strings does not look at where it ends. Here
reading past the end has no result.

## Main definitions

* `text`: the C string at the start of a buffer
* `strcmp`: the comparison of a C string with the one at the start of a buffer

## Main results

* `strcmp_eq_true_iff`, `strcmp_eq_none_iff`: when the two agree, and when the comparison runs past
  the end
* `strcmp_append`: the comparison with a string that ends inside the buffer
-/

namespace Buffer

/-- The C string at the start of a buffer, if it ends there. -/
def text (bs : List UInt8) : Option (List UInt8) :=
  if 0 ∈ bs then some (bs.takeWhile (· ≠ 0)) else none

/-- Whether the C string at the start of a buffer is this one: byte by byte, up to the first
difference or the terminator. -/
def strcmp : List UInt8 → List UInt8 → Option Bool
  | _, [] => none
  | [], b :: _ => some (b = 0)
  | c :: cs, b :: bs => if b = c then strcmp cs bs else some false

theorem text_append {s : List UInt8} (hs : 0 ∉ s) (rest : List UInt8) :
    text (s ++ 0 :: rest) = some s := by
  have hne : ∀ b ∈ s, decide (b ≠ 0) = true := by
    intro b hb
    apply decide_eq_true
    rintro rfl
    exact hs hb
  rw [text, if_pos (by simp), List.takeWhile_append_of_pos hne]
  simp

theorem text_isSome_iff {bs : List UInt8} : (text bs).isSome ↔ 0 ∈ bs := by
  rw [text]
  split <;> simp_all

/-! ## Comparison -/

theorem strcmp_eq_true_iff {s bs : List UInt8} :
    strcmp s bs = some true ↔ s ++ [0] <+: bs := by
  induction s generalizing bs with
  | nil =>
    cases bs with
    | nil => simp [strcmp]
    | cons b bs => simp [strcmp, eq_comm]
  | cons c cs ih =>
    cases bs with
    | nil => simp [strcmp]
    | cons b bs =>
      rw [strcmp, List.cons_append, List.cons_prefix_cons]
      by_cases hb : b = c
      · rw [if_pos hb, ih, and_iff_right hb.symm]
      · rw [if_neg hb]
        exact iff_of_false (by simp) fun h => hb h.1.symm

theorem strcmp_eq_none_iff {s bs : List UInt8} : strcmp s bs = none ↔ bs <+: s := by
  induction s generalizing bs with
  | nil => cases bs <;> simp [strcmp]
  | cons c cs ih =>
    cases bs with
    | nil => simp [strcmp]
    | cons b bs =>
      rw [strcmp, List.cons_prefix_cons]
      by_cases hb : b = c
      · rw [if_pos hb, ih, and_iff_right hb]
      · rw [if_neg hb]
        exact iff_of_false (by simp) fun h => hb h.1

/-- **The comparison with a string that ends inside the buffer** says whether they are the same. -/
theorem strcmp_append {s t : List UInt8} (hs : 0 ∉ s) (ht : 0 ∉ t) (rest : List UInt8) :
    strcmp s (t ++ 0 :: rest) = some (decide (s = t)) := by
  induction s generalizing t with
  | nil =>
    cases t with
    | nil => simp [strcmp]
    | cons b t =>
      have hb : b ≠ 0 := fun hb => ht (hb ▸ List.mem_cons_self)
      simp [strcmp, hb]
  | cons c cs ih =>
    have hc : c ≠ 0 := fun hc => hs (hc ▸ List.mem_cons_self)
    cases t with
    | nil => simp [strcmp, Ne.symm hc]
    | cons b t =>
      have hcs : 0 ∉ cs := fun h => hs (List.mem_cons_of_mem _ h)
      have htt : 0 ∉ t := fun h => ht (List.mem_cons_of_mem _ h)
      rw [List.cons_append, strcmp]
      by_cases hb : b = c
      · simp [hb, ih hcs htt]
      · simp [hb, Ne.symm hb]

end Buffer
