import Mathlib.Data.List.Sort
import Mathlib.Data.Nat.Bitwise

/-!
# Bit sets in byte strings

A set of numbers as a byte string with one bit for each number, the most significant bit of the first byte for `0`. The members come out in increasing order, so two lists that are sorted are equal when the bit sets say the same of every number.
-/

namespace Bitmap

open List

variable {bm : List UInt8} {j k n : Nat}

/-- The mask of a bit; bit 0 is the highest. -/
def mask (bit : Nat) : UInt8 := 1 <<< UInt8.ofNat (7 - bit)

/-- Bit `k` of the map is set. -/
def has (bm : List UInt8) (k : Nat) : Bool := bm.getD (k / 8) 0 &&& mask (k % 8) ≠ 0

/-- The bits that are set, in ascending order. -/
def members (bm : List UInt8) : List Nat :=
  (List.range bm.length).flatMap fun i =>
    ((List.range 8).filter fun bit => bm.getD i 0 &&& mask bit ≠ 0).map fun bit => i * 8 + bit

/-- Sets a bit of a map that is long enough. -/
def insert (bm : List UInt8) (k : Nat) : List UInt8 := bm.modify (k / 8) (· ||| mask (k % 8))

/-- How many of the first `n` bytes are left without the zero bytes at their end. -/
def trimLength (bm : List UInt8) : (n : Nat) → Nat
  | n + 2 => if bm.getD (n + 1) 0 = 0 then trimLength bm (n + 1) else n + 2
  | n => n

theorem toNat_mask : ∀ bit < 8, (mask bit).toNat = 2 ^ (7 - bit) := by decide

theorem and_mask_ne_zero {b : UInt8} {bit : Nat} (hbit : bit < 8) :
    b &&& mask bit ≠ 0 ↔ b.toNat.testBit (7 - bit) := by
  rw [ne_eq, ← UInt8.toNat_inj, UInt8.toNat_and, toNat_mask bit hbit, Nat.and_two_pow]
  cases b.toNat.testBit (7 - bit) <;> simp

theorem has_iff : has bm k ↔ (bm.getD (k / 8) 0).toNat.testBit (7 - k % 8) := by
  rw [has, decide_eq_true_iff, and_mask_ne_zero (Nat.mod_lt _ (by decide))]

theorem has_of_length_le (hk : bm.length ≤ k / 8) : ¬has bm k := by
  rw [has_iff, getD_eq_default _ _ hk]
  simp

theorem mem_members : k ∈ members bm ↔ has bm k := by
  simp only [members, mem_flatMap, mem_range, mem_map, mem_filter]
  constructor
  · grind [has]
  · intro hk
    refine ⟨k / 8, ?_, k % 8, ⟨by omega, hk⟩, by omega⟩
    exact Nat.lt_of_not_le fun hle => has_of_length_le hle hk

theorem lt_of_mem_members (hk : k ∈ members bm) : k < 8 * bm.length := by
  grind [members]

theorem pairwise_members (bm : List UInt8) : (members bm).Pairwise (· < ·) := by
  refine pairwise_flatMap.mpr ⟨fun i _ => ?_, pairwise_lt_range.imp fun {i j} hij => ?_⟩
  · refine pairwise_map.mpr (List.Pairwise.imp ?_ (pairwise_lt_range.filter _))
    intro a b hab
    omega
  · simp only [mem_map, mem_filter, mem_range]
    rintro _ ⟨a, ⟨ha, -⟩, rfl⟩ _ ⟨b, ⟨hb, -⟩, rfl⟩
    omega

@[simp] theorem length_insert : (insert bm k).length = bm.length := length_modify _ _ _

theorem has_insert (hk : k / 8 < bm.length) : has (insert bm k) j ↔ j = k ∨ has bm j := by
  grind [has_iff, insert, UInt8.toNat_or, toNat_mask]

theorem trimLength_pos (hn : 0 < n) : 0 < trimLength bm n := by
  fun_induction trimLength bm n with
  | case1 n _ ih => exact ih (Nat.succ_pos n)
  | case2 => exact hn
  | case3 => exact hn

theorem getD_of_trimLength_le {i : Nat} (hi : trimLength bm n ≤ i) (hin : i < n) : bm.getD i 0 = 0 := by
  fun_induction trimLength bm n with
  | case1 n hzero ih =>
    by_cases hlast : i = n + 1
    · rw [hlast, hzero]
    · exact ih hi (by omega)
  | case2 => omega
  | case3 => omega

theorem has_take_trimLength : has (bm.take (trimLength bm bm.length)) k ↔ has bm k := by
  grind [has_iff, getD_of_trimLength_le]

end Bitmap
