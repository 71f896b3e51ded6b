import Mathlib.Data.List.Pairwise
import Mathlib.Data.Int.Order.Basic

/-!
# Accepting once

Calls reach a store one after the other. Some of them present one and the same thing, which the store accepts or refuses;
it notes when it accepts it. A store that refuses what it has noted for a window accepts at most one of several
presentations that are never more than a window apart. If it forgets behind the window, then only of those.
-/

/-- A store that watches for one thing, and how often a run of calls has it accepted. -/
structure Watch (σ κ : Type) where
  now : κ → Int
  Presents : κ → Prop
  Accepts : κ → σ → Prop
  next : κ → σ → σ
  since : σ → Option Int
  window : σ → Int
  count : σ → List κ → Nat
  presents : ∀ {a s}, Accepts a s → Presents a
  notes : ∀ {a s}, Accepts a s → since (next a s) = some (now a)
  window_next : ∀ a s, window (next a s) = window s
  count_nil : ∀ s, count s [] = 0
  count_accepted : ∀ {a s as}, Accepts a s → count s (a :: as) = count (next a s) as + 1
  count_refused : ∀ {a s as}, ¬Accepts a s → count s (a :: as) = count (next a s) as

namespace Watch

open List

variable {σ κ : Type} (w : Watch σ κ)

/-- In a safe run the store refuses what it remembers and goes on remembering it. -/
structure Remembers (Safe : σ → List κ → Prop) : Prop where
  safe_next : ∀ {a s as}, Safe s (a :: as) → Safe (w.next a s) as
  refuses : ∀ {a s t}, w.since s = some t → w.now a ≤ t + w.window s → ¬w.Accepts a s
  keeps : ∀ {a s as t}, Safe s (a :: as) → w.since s = some t → w.now a ≤ t + w.window s →
    w.since (w.next a s) = some t

/-- The store accepts what it has forgotten, and notes nothing else. -/
structure Forgets (calls : List κ) : Prop where
  accepts : ∀ {a s}, w.Presents a → (∀ t, w.since s = some t → t + w.window s < w.now a) → w.Accepts a s
  fresh : ∀ a ∈ calls, ∀ {s t}, ¬w.Accepts a s → w.since (w.next a s) = some t → w.since s = some t

/-- No two presentations are more than a window apart. -/
def Close (window : Int) (calls : List κ) : Prop :=
  calls.Pairwise fun a b => w.Presents a → w.Presents b → w.now b ≤ w.now a + window

variable {w} {a : κ} {calls : List κ} {s : σ} {t : Int} {Safe : σ → List κ → Prop}

theorem count_of_absent (h : ∀ a ∈ calls, ¬w.Presents a) : w.count s calls = 0 := by
  induction calls generalizing s with
  | nil => exact w.count_nil s
  | cons a calls ih =>
    obtain ⟨hhead, htail⟩ := forall_mem_cons.mp h
    rw [w.count_refused fun haccepts => hhead (w.presents haccepts)]
    exact ih htail

theorem Remembers.count_eq_zero (hw : w.Remembers Safe) (hsince : w.since s = some t)
    (hclose : ∀ a ∈ calls, w.Presents a → w.now a ≤ t + w.window s)
    (hsorted : calls.Pairwise fun a b => w.now a ≤ w.now b) (hsafe : Safe s calls) : w.count s calls = 0 := by
  induction calls generalizing s with
  | nil => exact w.count_nil s
  | cons a calls ih =>
    obtain ⟨hle, hsorted'⟩ := pairwise_cons.mp hsorted
    by_cases hnow : w.now a ≤ t + w.window s
    · rw [w.count_refused (hw.refuses hsince hnow)]
      refine ih (hw.keeps hsafe hsince hnow) ?_ hsorted' (hw.safe_next hsafe)
      rw [w.window_next]
      exact fun b hb => hclose b (.tail _ hb)
    · grind [count_of_absent]

theorem Remembers.count_le_one (hw : w.Remembers Safe) (hclose : w.Close (w.window s) calls)
    (hsorted : calls.Pairwise fun a b => w.now a ≤ w.now b) (hsafe : Safe s calls) : w.count s calls ≤ 1 := by
  induction calls generalizing s with
  | nil => simp [w.count_nil]
  | cons a calls ih =>
    rw [← w.window_next a s] at hclose
    obtain ⟨hnear, hclose'⟩ := pairwise_cons.mp hclose
    obtain ⟨-, hsorted'⟩ := pairwise_cons.mp hsorted
    have hsafe' := hw.safe_next hsafe
    by_cases haccepts : w.Accepts a s
    · have hnone := hw.count_eq_zero (w.notes haccepts) (fun b hb => hnear b hb (w.presents haccepts)) hsorted' hsafe'
      simp [w.count_accepted haccepts, hnone]
    · rw [w.count_refused haccepts]
      exact ih hclose' hsorted' hsafe'

theorem Forgets.tail (hw : w.Forgets (a :: calls)) : w.Forgets calls :=
  { hw with fresh := fun b hb => hw.fresh b (.tail _ hb) }

theorem Forgets.count_pos (hw : w.Forgets calls) (hmem : a ∈ calls) (hpresents : w.Presents a)
    (hold : ∀ t, w.since s = some t → t + w.window s < w.now a) : 0 < w.count s calls := by
  induction calls generalizing s with
  | nil => cases hmem
  | cons b calls ih =>
    by_cases haccepts : w.Accepts b s
    · simp [w.count_accepted haccepts]
    · rw [w.count_refused haccepts]
      rcases mem_cons.mp hmem with rfl | hlater
      · exact absurd (hw.accepts hpresents hold) haccepts
      · refine ih hw.tail hlater fun t ht => ?_
        rw [w.window_next]
        exact hold t (hw.fresh b (.head _) haccepts ht)

/-- One acceptance at most means that calls lie close together. -/
theorem Forgets.close (hw : w.Forgets calls) (hnone : w.since s = none)
    (hsorted : calls.Pairwise fun a b => w.now a ≤ w.now b) (honce : w.count s calls ≤ 1) :
    w.Close (w.window s) calls := by
  induction calls generalizing s with
  | nil => exact .nil
  | cons a calls ih =>
    obtain ⟨hle, hsorted'⟩ := pairwise_cons.mp hsorted
    rw [← w.window_next a s]
    by_cases haccepts : w.Accepts a s
    · rw [w.count_accepted haccepts] at honce
      -- everything behind the first acceptance is close to it, or it would be accepted
      have hnear : ∀ b ∈ calls, w.Presents b → w.now b ≤ w.now a + w.window (w.next a s) := by
        intro b hb hpresents
        by_contra hfar
        have hagain : 0 < w.count (w.next a s) calls := by
          refine hw.tail.count_pos hb hpresents fun t ht => ?_
          cases (w.notes haccepts).symm.trans ht
          omega
        omega
      refine pairwise_cons.mpr ⟨fun b hb _ => hnear b hb, hsorted'.imp_of_mem fun ha hb _ _ hpresents => ?_⟩
      have hlate := hnear _ hb hpresents
      have hearly := hle _ ha
      omega
    · have habsent : ¬w.Presents a := fun hpresents => haccepts (hw.accepts hpresents (by simp [hnone]))
      rw [w.count_refused haccepts] at honce
      have hnone' : w.since (w.next a s) = none := by
        refine Option.eq_none_iff_forall_ne_some.mpr fun t ht => ?_
        cases hnone.symm.trans (hw.fresh a (.head _) haccepts ht)
      exact pairwise_cons.mpr ⟨fun b _ h => absurd h habsent, ih hw.tail hnone' hsorted' honce⟩

end Watch
