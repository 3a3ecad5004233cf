import Mathlib.Data.List.Induction

/-!
# Stores that catch up

A store executes statements, each of them about one key. Another store that gets the same statements
from some point on lags behind: under a key it has nothing, or what the first one has. It catches up
under a key with a statement that tells what the first one gets there, whatever else the two execute
before it and after it.

## Main definitions

* `Store`: stores, seen by their keys, and statements
* `Store.About`: a statement is about a key
* `Store.Agrees`, `Store.Lags`: two stores are the same, or one lags behind the other
* `Store.Tells`, `Store.Reports`: a statement tells what it makes of the store, or at least misleads
  nobody
* `Store.ReportsAll`, `Store.Told`: so do all statements, each when its turn comes; and one of them
  tells what there is under a key

## Main results

* `Store.Lags.run`: who lags behind goes on to do so
* `Store.Lags.get_of_told`: what has been told is the same on both
* `Store.catch_up`: when all has been told the two agree
-/

namespace CatchUp

/-- Stores that execute statements, what they have under a key, and one that has nothing. -/
structure Store (S K V A : Type) where
  get : S → K → V
  exec : S → A → S
  empty : S

namespace Store

variable {S K V A : Type} (D : Store S K V A)

/-- The store after some statements. -/
def run (s : S) (as : List A) : S := as.foldl D.exec s

/-- The statement changes what is under this key only, and what it makes of it depends on nothing
else. -/
structure About (a : A) (k : K) : Prop where
  others (s : S) (x : K) : x ≠ k → D.get (D.exec s a) x = D.get s x
  own (s t : S) : D.get s k = D.get t k → D.get (D.exec s a) k = D.get (D.exec t a) k

/-- Two stores have the same under every key. -/
def Agrees (s t : S) : Prop := ∀ k, D.get s k = D.get t k

/-- Under every key the store has nothing, or what the other has. -/
def Lags (s m : S) : Prop := ∀ k, D.get s k = D.get D.empty k ∨ D.get s k = D.get m k

/-- Who has nothing under the key gets what this store gets. -/
structure Tells (m : S) (a : A) (k : K) : Prop where
  about : D.About a k
  told : D.get (D.exec D.empty a) k = D.get (D.exec m a) k

/-- Who has nothing under the key of the statement is left with nothing, or gets what this store
gets. -/
def Reports (m : S) (a : A) : Prop :=
  ∃ k, D.About a k ∧ (D.get (D.exec D.empty a) k = D.get D.empty k ∨ D.Tells m a k)

/-- Every statement does so when its turn comes. -/
def ReportsAll : S → List A → Prop
  | _, [] => True
  | m, a :: as => D.Reports m a ∧ ReportsAll (D.exec m a) as

/-- One of the statements tells what there is under the key, when its turn comes. -/
def Told : S → List A → K → Prop
  | _, [], _ => False
  | m, a :: as, k => D.Tells m a k ∨ Told (D.exec m a) as k

variable {D} {s t m : S} {a : A} {as bs : List A} {k : K}

theorem run_append (s : S) (as bs : List A) : D.run s (as ++ bs) = D.run (D.run s as) bs :=
  List.foldl_append

/-! ## Statements -/

/-- A statement keeps stores the same where they are. -/
theorem About.congr (h : D.About a k) {x : K} (hx : D.get s x = D.get t x) :
    D.get (D.exec s a) x = D.get (D.exec t a) x := by
  by_cases hk : x = k
  · subst hk
    exact h.own s t hx
  · rw [h.others s x hk, h.others t x hk, hx]

/-- Statements keep stores the same where they are. -/
theorem get_run_congr (ha : ∀ a ∈ as, ∃ k, D.About a k) {x : K} (hx : D.get s x = D.get t x) :
    D.get (D.run s as) x = D.get (D.run t as) x := by
  induction as generalizing s t with
  | nil => exact hx
  | cons a as ih =>
    obtain ⟨k, hk⟩ := ha a List.mem_cons_self
    exact ih (fun b hb => ha b (List.mem_cons_of_mem a hb)) (hk.congr hx)

theorem Agrees.run (h : D.Agrees s t) (ha : ∀ a ∈ as, ∃ k, D.About a k) :
    D.Agrees (D.run s as) (D.run t as) := fun x => get_run_congr ha (h x)

theorem ReportsAll.about (h : D.ReportsAll m as) : ∀ a ∈ as, ∃ k, D.About a k := by
  induction as generalizing m with
  | nil => exact fun a ha => absurd ha List.not_mem_nil
  | cons b as ih =>
    intro a ha
    rcases List.mem_cons.mp ha with rfl | ha
    · obtain ⟨k, hk, -⟩ := h.1
      exact ⟨k, hk⟩
    · exact ih h.2 a ha

/-- Of stores that agree the statements say the same. -/
theorem Tells.congr (h : D.Tells m a k) (hm : D.Agrees m t) : D.Tells t a k :=
  ⟨h.about, h.told.trans (h.about.congr (hm k))⟩

/-! ## Lagging behind -/

/-- Who lags behind has what has been told. -/
theorem Lags.get_of_tells (h : D.Lags s m) (ha : D.Tells m a k) :
    D.get (D.exec s a) k = D.get (D.exec m a) k := by
  rcases h k with hs | hs
  · rw [ha.about.own s D.empty hs, ha.told]
  · exact ha.about.congr hs

/-- **One statement** leaves behind who lags behind. -/
theorem Lags.exec (h : D.Lags s m) (ha : D.Reports m a) : D.Lags (D.exec s a) (D.exec m a) := by
  obtain ⟨k, hk, hreports⟩ := ha
  intro x
  by_cases hx : x = k
  · subst hx
    rcases h x with hs | hs
    · rw [hk.own s D.empty hs]
      exact hreports.imp_right Tells.told
    · exact Or.inr (hk.congr hs)
  · rw [hk.others s x hx, hk.others m x hx]
    exact h x

/-- **Who lags behind goes on to do so.** -/
theorem Lags.run (h : D.Lags s m) (ha : D.ReportsAll m as) : D.Lags (D.run s as) (D.run m as) := by
  induction as generalizing s m with
  | nil => exact h
  | cons a as ih => exact ih (h.exec ha.1) ha.2

/-- **What has been told** is the same on both. -/
theorem Lags.get_of_told (h : D.Lags s m) (ha : D.ReportsAll m as) (hk : D.Told m as k) :
    D.get (D.run s as) k = D.get (D.run m as) k := by
  -- Induction on the statements: the first tells it, and the others keep it, or a later one does.
  induction as generalizing s m with
  | nil => exact absurd hk id
  | cons a as ih =>
    rcases hk with hk | hk
    · exact get_run_congr ha.2.about (h.get_of_tells hk)
    · exact ih (h.exec ha.1) ha.2 hk

/-- **Catching up.** Who lags behind a store and gets its statements agrees with it once it has been
told all that there is. -/
theorem catch_up (h : D.Lags s m) (ha : D.ReportsAll m as)
    (htold : ∀ k, D.get (D.run m as) k = D.get D.empty k ∨ D.Told m as k) :
    D.Agrees (D.run s as) (D.run m as) := by
  intro k
  rcases htold k with hk | hk
  · -- there is nothing to have
    rcases h.run ha k with hs | hs
    · rw [hs, hk]
    · exact hs
  · exact h.get_of_told ha hk

/-! ## Answers -/

/-- The statement tells what the store has, and leaves it as it is. -/
structure Restates (m : S) (a : A) (k : K) : Prop where
  about : D.About a k
  told : D.get (D.exec D.empty a) k = D.get m k
  kept : D.get (D.exec m a) k = D.get m k

theorem Restates.tells (h : D.Restates m a k) : D.Tells m a k := ⟨h.about, h.told.trans h.kept.symm⟩

/-- A store that restates what it has stays the same. -/
theorem Restates.agrees (h : D.Restates m a k) : D.Agrees (D.exec m a) m := by
  intro x
  by_cases hx : x = k
  · rw [hx, h.kept]
  · exact h.about.others m x hx

/-- What is restated is so of every store that agrees. -/
theorem Restates.congr (h : D.Restates m a k) (hm : D.Agrees m t) : D.Restates t a k :=
  ⟨h.about, h.told.trans (hm k), (h.about.congr (hm k).symm).trans (h.kept.trans (hm k))⟩

/-- **An answer** reports, tells all that it restates, and leaves the store the same. -/
theorem answer (ha : ∀ a ∈ as, ∃ k, D.Restates m a k) :
    D.ReportsAll m as ∧ D.Agrees (D.run m as) m ∧
      ∀ a ∈ as, ∀ k, D.Restates m a k → D.Told m as k := by
  -- Induction on the answer: what is left of it restates what a store has that agrees.
  suffices h : ∀ t, D.Agrees m t → D.ReportsAll t as ∧ D.Agrees (D.run t as) t ∧
      ∀ a ∈ as, ∀ k, D.Restates m a k → D.Told t as k from h m fun _ => rfl
  intro t ht
  induction as generalizing t with
  | nil => exact ⟨trivial, fun _ => rfl, fun a ha => absurd ha List.not_mem_nil⟩
  | cons a as ih =>
    obtain ⟨k, hk⟩ := ha a List.mem_cons_self
    have hkt := hk.congr ht
    have hnext : D.Agrees m (D.exec t a) := fun x => (ht x).trans (hkt.agrees x).symm
    obtain ⟨hreports, hsame, htold⟩ :=
      ih (fun b hb => ha b (List.mem_cons_of_mem a hb)) (D.exec t a) hnext
    refine ⟨⟨⟨k, hk.about, Or.inr hkt.tells⟩, hreports⟩, fun x => ?_, fun b hb x hx => ?_⟩
    · exact (hsame x).trans (hkt.agrees x)
    · rcases List.mem_cons.mp hb with rfl | hb
      · exact Or.inl (hx.congr ht).tells
      · exact Or.inr (htold b hb x hx)

end Store

end CatchUp
