import Mathlib.Data.List.Basic
import Mathlib.Tactic.SplitIfs

/-!
# Texts with quoted values

A format has places for values between single quotes, and a value is written into it with each of
its quotes doubled. If the text after a place begins with the closing quote, and no second one, the
values can be read from what has been written, whatever bytes they have.

## Main definitions

* `ascii`: the bytes of a text constant
* `escape`: a value with its quotes doubled
* `Format`, `Format.fill`, `Format.read`: a format, written and read
* `Format.Closed`: every place is closed by a quote

## Main results

* `Format.read_fill`: what has been written is read
* `Format.fill_inj`: different values give different texts
-/

namespace Quoted

/-- The bytes of a text constant. -/
def ascii (s : String) : List UInt8 := s.toList.map fun c => UInt8.ofNat c.toNat

/-- A single quote. -/
def quote : UInt8 := 39

/-! ## Values -/

/-- A value with its quotes doubled. -/
def escape (v : List UInt8) : List UInt8 :=
  v.flatMap fun c => if c = quote then [quote, quote] else [c]

/-- The value up to its closing quote, and what follows from that quote on. -/
def value : List UInt8 → List UInt8 × List UInt8
  | [] => ([], [])
  | [c] => if c = quote then ([], [c]) else ([c], [])
  | c :: d :: s =>
    if c = quote then
      -- a doubled quote belongs to the value
      if d = quote then (quote :: (value s).1, (value s).2) else ([], c :: d :: s)
    else (c :: (value (d :: s)).1, (value (d :: s)).2)

@[simp] theorem escape_nil : escape [] = [] := rfl

theorem escape_cons (c : UInt8) (v : List UInt8) :
    escape (c :: v) = (if c = quote then [quote, quote] else [c]) ++ escape v := rfl

theorem value_of_closed {s : List UInt8} (h : s.head? ≠ some quote) :
    value (quote :: s) = ([], quote :: s) := by
  cases s with
  | nil => rfl
  | cons d s =>
    have hd : d ≠ quote := fun hd => h (by rw [hd]; rfl)
    rw [value, if_pos rfl, if_neg hd]

theorem value_cons {c : UInt8} (hc : c ≠ quote) (s : List UInt8) :
    value (c :: s) = (c :: (value s).1, (value s).2) := by
  cases s with
  | nil => simp only [value, if_neg hc]
  | cons d s => rw [value, if_neg hc]

/-- **A value that has been written is read.** -/
theorem value_escape {s : List UInt8} (h : s.head? ≠ some quote) (v : List UInt8) :
    value (escape v ++ quote :: s) = (v, quote :: s) := by
  induction v with
  | nil => exact value_of_closed h
  | cons c v ih =>
    rw [escape_cons]
    by_cases hc : c = quote
    · rw [if_pos hc, List.append_assoc, List.cons_append, List.cons_append, List.nil_append, value,
        if_pos rfl, if_pos rfl, ih, hc]
    · rw [if_neg hc, List.append_assoc, List.cons_append, List.nil_append, value_cons hc, ih]

/-! ## Formats -/

/-- A text, and for each value the text after it. -/
structure Format where
  start : List UInt8
  rest : List (List UInt8)

/-- The values, each with the text after it. -/
def fillRest : List (List UInt8) → List (List UInt8) → List UInt8
  | t :: ts, v :: vs => escape v ++ t ++ fillRest ts vs
  | _, _ => []

/-- Reading them. -/
def readRest : List (List UInt8) → List UInt8 → Option (List (List UInt8))
  | [], s => if s = [] then some [] else none
  | t :: ts, s =>
    if t <+: (value s).2 then
      (readRest ts ((value s).2.drop t.length)).map fun vs => (value s).1 :: vs
    else none

/-- The text after each value begins with one quote, and with more than that if another value
comes. -/
def ClosedRest : List (List UInt8) → Prop
  | [] => True
  | t :: ts => t.head? = some quote ∧ t.tail.head? ≠ some quote ∧ (ts ≠ [] → t.tail ≠ []) ∧
      ClosedRest ts

instance : DecidablePred ClosedRest := fun ts => by
  induction ts with
  | nil => exact isTrue trivial
  | cons t ts ih =>
    unfold ClosedRest
    infer_instance

namespace Format

/-- The text with these values. -/
def fill (f : Format) (vs : List (List UInt8)) : List UInt8 := f.start ++ fillRest f.rest vs

/-- The values of a text. -/
def read (f : Format) (s : List UInt8) : Option (List (List UInt8)) :=
  if f.start <+: s then readRest f.rest (s.drop f.start.length) else none

/-- Every place is closed by a quote. -/
def Closed (f : Format) : Prop := ClosedRest f.rest

instance : DecidablePred Closed := fun f => inferInstanceAs (Decidable (ClosedRest f.rest))

end Format

/-- The text behind a closing quote does not begin with another. -/
theorem closed_append {t : List UInt8} {ts vs : List (List UInt8)} (h : t.tail.head? ≠ some quote)
    (hne : ts ≠ [] → t.tail ≠ []) : (t.tail ++ fillRest ts vs).head? ≠ some quote := by
  cases htail : t.tail with
  | cons c s =>
    rw [htail] at h
    exact h
  | nil =>
    have hnil : ts = [] := by
      by_contra hts
      exact hne hts htail
    rw [hnil]
    simp [fillRest]

theorem readRest_fillRest {ts vs : List (List UInt8)} (h : ClosedRest ts)
    (hlen : vs.length = ts.length) : readRest ts (fillRest ts vs) = some vs := by
  induction ts generalizing vs with
  | nil =>
    obtain rfl := List.length_eq_zero_iff.mp hlen
    rfl
  | cons t ts ih =>
    obtain ⟨hquote, hone, hmore, hrest⟩ := h
    obtain ⟨v, vs, rfl⟩ : ∃ v vs', vs = v :: vs' := by
      cases vs with
      | nil => cases hlen
      | cons v vs => exact ⟨v, vs, rfl⟩
    obtain ⟨s, rfl⟩ : ∃ s, t = quote :: s := List.head?_eq_some_iff.mp hquote
    have hvalue : value (fillRest ((quote :: s) :: ts) (v :: vs)) =
        (v, (quote :: s) ++ fillRest ts vs) := by
      rw [fillRest, List.append_assoc, List.cons_append]
      exact value_escape (closed_append hone hmore) v
    rw [readRest, hvalue]
    simp only
    rw [if_pos (List.prefix_append _ _), List.drop_left, ih hrest (Nat.succ.inj hlen)]
    rfl

namespace Format

variable {f : Format} {vs ws : List (List UInt8)}

/-- **What has been written is read.** -/
theorem read_fill (h : f.Closed) (hlen : vs.length = f.rest.length) :
    f.read (f.fill vs) = some vs := by
  rw [read, fill, if_pos (List.prefix_append _ _), List.drop_left]
  exact readRest_fillRest h hlen

/-- Formats that begin differently have no text in common. -/
theorem read_apart {g : Format} (hfg : ¬ f.start <+: g.start) (hgf : ¬ g.start <+: f.start)
    {s : List UInt8} (h : f.read s = some vs) : g.read s = none := by
  obtain ⟨hf, -⟩ := Option.ite_none_right_eq_some.mp h
  rw [read, if_neg]
  intro hg
  rcases List.prefix_or_prefix_of_prefix hf hg with hpre | hpre
  exacts [hfg hpre, hgf hpre]

/-- **Different values give different texts.** -/
theorem fill_inj (h : f.Closed) (hv : vs.length = f.rest.length) (hw : ws.length = f.rest.length)
    (heq : f.fill vs = f.fill ws) : vs = ws := by
  have hread := read_fill h hv
  rw [heq, read_fill h hw] at hread
  exact (Option.some.inj hread).symm

end Format

end Quoted
