import Mathlib.Data.List.Induction
import Mathlib.Data.List.Nodup

/-!
# First occurrences

Of the elements of a list that have the same key, the first. This is what a loop keeps that passes
over an element whose key it has met.

## Main definitions

* `firsts`: the elements whose key no earlier element has

## Main results

* `firsts_concat`: what one more element adds
* `firsts_grows`: what has been kept stays, in its place
* `nodup_firsts`: no two have the same key
-/

namespace FirstOccurrences

variable {α β : Type} [DecidableEq β] {key : α → β}

/-- The elements whose key no earlier element has. -/
def firsts (key : α → β) : List α → List α
  | [] => []
  | a :: l => a :: (firsts key l).filter fun b => key b ≠ key a

@[simp] theorem firsts_nil : firsts key [] = [] := rfl

/-- No key is lost. -/
theorem mem_map_firsts {l : List α} {k : β} : k ∈ (firsts key l).map key ↔ k ∈ l.map key := by
  induction l with
  | nil => rfl
  | cons a l ih =>
    rw [firsts, List.map_cons, List.map_cons, List.mem_cons, List.mem_cons, ← ih]
    by_cases hk : k = key a
    · simp [hk]
    · have hiff : k ∈ ((firsts key l).filter fun b => key b ≠ key a).map key ↔
          k ∈ (firsts key l).map key := by
        simp only [List.mem_map, List.mem_filter, decide_eq_true_eq]
        constructor
        · rintro ⟨b, ⟨hb, -⟩, rfl⟩
          exact ⟨b, hb, rfl⟩
        · rintro ⟨b, hb, rfl⟩
          exact ⟨b, ⟨hb, hk⟩, rfl⟩
      rw [hiff]

theorem firsts_subset (l : List α) : firsts key l ⊆ l := by
  induction l with
  | nil => exact List.Subset.refl _
  | cons a l ih =>
    rw [firsts]
    apply List.cons_subset_cons
    intro b hb
    exact ih (List.mem_of_mem_filter hb)

/-- **One more element** is kept unless its key has been met. -/
theorem firsts_concat (l : List α) (a : α) :
    firsts key (l ++ [a]) = if key a ∈ l.map key then firsts key l else firsts key l ++ [a] := by
  induction l with
  | nil => simp [firsts]
  | cons b l ih =>
    rw [List.cons_append, firsts, firsts, ih, List.map_cons]
    by_cases hl : key a ∈ l.map key
    · rw [if_pos hl, if_pos (List.mem_cons_of_mem _ hl)]
    · rw [if_neg hl, List.filter_append]
      by_cases hb : key a = key b
      · rw [if_pos (hb ▸ List.mem_cons_self)]
        simp [hb]
      · rw [if_neg (by simp only [List.mem_cons, not_or]; exact ⟨hb, hl⟩)]
        simp [hb]

/-- **What has been kept stays.** -/
theorem firsts_grows (l l' : List α) : firsts key l <+: firsts key (l ++ l') := by
  induction l' using List.reverseRecOn with
  | nil => exact ⟨[], by simp⟩
  | append_singleton l' a ih =>
    rw [← List.append_assoc, firsts_concat]
    split
    · exact ih
    · exact ih.trans (List.prefix_append _ _)

/-- Where only some elements count, one that does and is new is kept. -/
theorem firsts_filter_concat_new {p : α → Bool} {l : List α} {a : α} (hp : p a = true)
    (hk : key a ∉ (firsts key (l.filter p)).map key) :
    firsts key ((l ++ [a]).filter p) = firsts key (l.filter p) ++ [a] := by
  rw [mem_map_firsts] at hk
  rw [List.filter_append, List.filter_cons_of_pos hp, List.filter_nil, firsts_concat, if_neg hk]

/-- Any other one is passed over. -/
theorem firsts_filter_concat_old {p : α → Bool} {l : List α} {a : α}
    (h : p a = true → key a ∈ (firsts key (l.filter p)).map key) :
    firsts key ((l ++ [a]).filter p) = firsts key (l.filter p) := by
  rw [List.filter_append]
  by_cases hp : p a = true
  · rw [List.filter_cons_of_pos hp, List.filter_nil, firsts_concat,
      if_pos (mem_map_firsts.mp (h hp))]
  · rw [List.filter_cons_of_neg hp, List.filter_nil, List.append_nil]

theorem firsts_filter_grows (p : α → Bool) (l l' : List α) :
    firsts key (l.filter p) <+: firsts key ((l ++ l').filter p) := by
  rw [List.filter_append]
  exact firsts_grows _ _

/-- **No two have the same key.** -/
theorem nodup_firsts (l : List α) : ((firsts key l).map key).Nodup := by
  induction l with
  | nil => exact List.nodup_nil
  | cons a l ih =>
    rw [firsts, List.map_cons, List.nodup_cons]
    constructor
    · intro h
      obtain ⟨b, hb, hk⟩ := List.mem_map.mp h
      exact of_decide_eq_true (List.mem_filter.mp hb).2 hk
    · exact ih.sublist (List.filter_sublist.map key)

end FirstOccurrences
