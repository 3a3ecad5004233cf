import Mathlib.Data.List.Induction
import Mathlib.Tactic.Basic

/-!
# Histories of a keyed store

A store takes additions of a value under a key and removals of a key. Adding a key that is there
already has no effect, so what a store holds is said by the history alone: the first addition of a
key since its last removal counts, and the time at which it was made.

## Main definitions

* `Op`: an operation of the history
* `Absent`: every addition of the key has been followed by a removal
* `Introduced`: the addition that put the key into the store, with its time and its value

## Main results

* `introduced_snoc_add`, `introduced_snoc_remove`: what one more operation does
* `Introduced.unique`: a key is introduced once
* `absent_iff`: a key is absent or has been introduced
-/

namespace KeyedHistory

variable {κ α : Type}

/-- An operation on a keyed store. -/
inductive Op (κ α : Type)
  | add (key : κ) (value : α)
  | remove (key : κ)
deriving DecidableEq, Repr

/-- Every addition of the key has been followed by a removal. -/
def Absent (ops : List (Op κ α)) (k : κ) : Prop :=
  ∀ before v after, ops = before ++ .add k v :: after → .remove k ∈ after

/-- The addition at time `t` is the first one of the key since its last removal, and the key has not
been removed since. -/
def Introduced (ops : List (Op κ α)) (k : κ) (t : ℕ) (v : α) : Prop :=
  ∃ before after, ops = before ++ .add k v :: after ∧ before.length = t ∧ Absent before k ∧
    .remove k ∉ after

theorem absent_nil (k : κ) : Absent ([] : List (Op κ α)) k := by
  intro before v after h
  simp at h

/-! ## One more operation -/

section Snoc

variable {ops : List (Op κ α)} {k k' : κ} {v v' : α} {t : ℕ}

/-- A split of a list with one more element at an element of it. -/
theorem snoc_eq_append_cons {β : Type} {l before after : List β} {x y : β} :
    l ++ [y] = before ++ x :: after ↔
      (∃ rest, after = rest ++ [y] ∧ l = before ++ x :: rest) ∨
        after = [] ∧ x = y ∧ l = before := by
  constructor
  · intro h
    rcases List.eq_nil_or_concat after with rfl | ⟨rest, z, rfl⟩
    · obtain ⟨rfl, hxy⟩ := List.append_inj' h rfl
      exact Or.inr ⟨rfl, (List.cons.inj hxy).1.symm, rfl⟩
    · rw [List.concat_eq_append, ← List.cons_append, ← List.append_assoc] at h
      obtain ⟨rfl, hyz⟩ := List.append_inj' h rfl
      exact Or.inl ⟨rest, by rw [List.concat_eq_append, (List.cons.inj hyz).1], rfl⟩
  · rintro (⟨rest, rfl, rfl⟩ | ⟨rfl, rfl, rfl⟩)
    · simp
    · rfl

theorem absent_snoc_add : Absent (ops ++ [.add k' v']) k ↔ Absent ops k ∧ k ≠ k' := by
  constructor
  · refine fun h => ⟨fun before v after hops => ?_, ?_⟩
    · have hmem := h before v (after ++ [.add k' v']) (by rw [hops]; simp)
      simpa using hmem
    · rintro rfl
      cases h ops v' [] rfl
  · rintro ⟨h, hk⟩ before v after hops
    rcases snoc_eq_append_cons.mp hops with ⟨rest, rfl, hl⟩ | ⟨-, hx, -⟩
    · exact List.mem_append_left _ (h before v rest hl)
    · cases hx
      exact absurd rfl hk

theorem absent_snoc_remove : Absent (ops ++ [.remove k']) k ↔ Absent ops k ∨ k = k' := by
  constructor
  · intro h
    by_cases hk : k = k'
    · exact Or.inr hk
    · refine Or.inl fun before v after hops => ?_
      have hmem := h before v (after ++ [.remove k']) (by rw [hops]; simp)
      simpa [hk] using hmem
  · rintro h before v after hops
    rcases snoc_eq_append_cons.mp hops with ⟨rest, rfl, hl⟩ | ⟨-, hx, -⟩
    · rcases h with h | rfl
      · exact List.mem_append_left _ (h before v rest hl)
      · simp
    · cases hx

theorem introduced_nil : ¬ Introduced ([] : List (Op κ α)) k t v := by
  rintro ⟨before, after, h, -⟩
  simp at h

/-- An addition introduces its key, unless the key is there. -/
theorem introduced_snoc_add : Introduced (ops ++ [.add k' v']) k t v ↔
    Introduced ops k t v ∨ k = k' ∧ v = v' ∧ t = ops.length ∧ Absent ops k := by
  constructor
  · rintro ⟨before, after, hops, rfl, habs, hrem⟩
    rcases snoc_eq_append_cons.mp hops with ⟨rest, rfl, hl⟩ | ⟨-, hx, rfl⟩
    · exact Or.inl ⟨before, rest, hl, rfl, habs, fun h => hrem (List.mem_append_left _ h)⟩
    · cases hx
      exact Or.inr ⟨rfl, rfl, rfl, habs⟩
  · rintro (⟨before, after, rfl, rfl, habs, hrem⟩ | ⟨rfl, rfl, rfl, habs⟩)
    · exact ⟨before, after ++ [.add k' v'], by simp, rfl, habs, by simpa using hrem⟩
    · exact ⟨ops, [], rfl, rfl, habs, List.not_mem_nil⟩

/-- A removal takes out its key. -/
theorem introduced_snoc_remove :
    Introduced (ops ++ [.remove k']) k t v ↔ Introduced ops k t v ∧ k ≠ k' := by
  constructor
  · rintro ⟨before, after, hops, rfl, habs, hrem⟩
    rcases snoc_eq_append_cons.mp hops with ⟨rest, rfl, hl⟩ | ⟨-, hx, -⟩
    · refine ⟨⟨before, rest, hl, rfl, habs, fun h => hrem (List.mem_append_left _ h)⟩, ?_⟩
      rintro rfl
      exact hrem (by simp)
    · cases hx
  · rintro ⟨⟨before, after, rfl, rfl, habs, hrem⟩, hk⟩
    exact ⟨before, after ++ [.remove k'], by simp, rfl, habs, by simp [hrem, hk]⟩

end Snoc

/-! ## What a history says about its keys -/

section Keys

variable {ops : List (Op κ α)} {k k' : κ} {v v' : α} {s t : ℕ}

/-- A key is absent or has been introduced. -/
theorem absent_iff : Absent ops k ↔ ∀ t v, ¬ Introduced ops k t v := by
  -- Induction on the history, by its last operation.
  induction ops using List.reverseRecOn with
  | nil => exact ⟨fun _ _ _ => introduced_nil, fun _ => absent_nil k⟩
  | append_singleton ops op ih =>
    cases op with
    | add k' v' =>
      simp only [absent_snoc_add, introduced_snoc_add, not_or]
      constructor
      · rintro ⟨habs, hk⟩ t v
        exact ⟨ih.mp habs t v, fun h => hk h.1⟩
      · intro h
        have habs := ih.mpr fun t v => (h t v).1
        exact ⟨habs, fun hk => (h _ _).2 ⟨hk, rfl, rfl, habs⟩⟩
    | remove k' =>
      simp only [absent_snoc_remove, introduced_snoc_remove, ih]
      grind

theorem Introduced.not_absent (h : Introduced ops k t v) : ¬ Absent ops k :=
  fun habs => absent_iff.mp habs t v h

theorem Introduced.time_lt (h : Introduced ops k t v) : t < ops.length := by
  obtain ⟨before, after, rfl, rfl, -⟩ := h
  simp

/-- A key is introduced once, with one value. -/
theorem Introduced.unique (h : Introduced ops k s v) (h' : Introduced ops k t v') :
    s = t ∧ v = v' := by
  induction ops using List.reverseRecOn with
  | nil => exact absurd h introduced_nil
  | append_singleton ops op ih =>
    cases op with
    | add =>
      rcases introduced_snoc_add.mp h with h | ⟨-, hv, ht, habs⟩ <;>
        rcases introduced_snoc_add.mp h' with h' | ⟨-, hv', ht', habs'⟩
      · exact ih h h'
      · exact absurd habs' h.not_absent
      · exact absurd habs h'.not_absent
      · exact ⟨ht.trans ht'.symm, hv.trans hv'.symm⟩
    | remove => exact ih (introduced_snoc_remove.mp h).1 (introduced_snoc_remove.mp h').1

end Keys

end KeyedHistory
