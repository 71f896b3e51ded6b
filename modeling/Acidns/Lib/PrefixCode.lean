import Mathlib.Data.Set.Basic

/-!
# Prefix codes

A set of words is prefix-free when the front of a string determines which of its words stands there.
Such sets compose: words behind each other, where the first may select the set of the second, and a
fixed number of words of one set. So a format that is read from front to back, each part telling how
the next is to be read, is prefix-free.
-/

namespace PrefixCode

variable {α : Type*} {C : Set (List α)} {D : List α → Set (List α)}

/-- No word goes on where another one of the code has ended. -/
def PrefixFree (C : Set (List α)) : Prop := ∀ ⦃a b s t⦄, a ∈ C → b ∈ C → a ++ s = b ++ t → a = b

/-- The words of one length. -/
def block (n : Nat) : Set (List α) := {w | w.length = n}

/-- A word of `C`, then one of a code that depends on it. -/
def andThen (C : Set (List α)) (D : List α → Set (List α)) : Set (List α) :=
  {w | ∃ a ∈ C, ∃ b ∈ D a, w = a ++ b}

/-- A number of words of the code, one after the other. -/
def times (C : Set (List α)) : Nat → Set (List α)
  | 0 => {[]}
  | n + 1 => andThen C fun _ => times C n

theorem prefixFree_block (n : Nat) : PrefixFree (block n : Set (List α)) := by
  intro a b s t ha hb h
  exact (List.append_inj h (Eq.trans ha (Eq.symm hb))).1

theorem PrefixFree.andThen (hC : PrefixFree C) (hD : ∀ a, PrefixFree (D a)) : PrefixFree (andThen C D) := by
  grind [List.append_cancel_left, PrefixFree, andThen]

theorem PrefixFree.times (hC : PrefixFree C) (n : Nat) : PrefixFree (times C n) := by
  induction n with
  | zero =>
    rintro _ _ s t rfl rfl -
    rfl
  | succ n ih => exact hC.andThen fun _ => ih

theorem nil_mem_times : [] ∈ times C 0 := rfl

variable {a b : List α}

theorem append_mem_andThen (ha : a ∈ C) (hb : b ∈ D a) : a ++ b ∈ andThen C D :=
  ⟨a, ha, b, hb, rfl⟩

theorem PrefixFree.append_inj {s t : List α} (hC : PrefixFree C) (ha : a ∈ C) (hb : b ∈ C)
    (h : a ++ s = b ++ t) : a = b ∧ s = t := by
  obtain rfl := hC ha hb h
  exact ⟨rfl, List.append_cancel_left h⟩

theorem PrefixFree.unique {u : List α} (hC : PrefixFree C) (ha : a ∈ C) (hb : b ∈ C) (hau : a <+: u)
    (hbu : b <+: u) : a = b := by
  obtain ⟨s, rfl⟩ := hau
  obtain ⟨t, ht⟩ := hbu
  exact hC ha hb ht.symm

end PrefixCode
