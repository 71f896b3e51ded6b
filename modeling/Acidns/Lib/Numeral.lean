import Mathlib.Algebra.Group.Nat.Defs
import Mathlib.Data.List.Induction

/-!
# Numbers as text

Numbers in decimal and byte strings in hexadecimal, as ASCII bytes, and how they are read.
-/

/-- The bytes of an ASCII text. -/
def ascii (s : String) : List UInt8 := s.toList.map fun c => UInt8.ofNat c.toNat

namespace Numeral

open List

/-- A decimal digit. -/
def isDigit (c : UInt8) : Bool := 0x30 ≤ c ∧ c ≤ 0x39

/-- The number that decimal digits stand for. -/
def value (bs : List UInt8) : Nat := bs.foldl (fun n c => 10 * n + (c.toNat - 0x30)) 0

/-- Reads a number written in decimal digits only. -/
def readDecimal (bs : List UInt8) : Option Nat :=
  if bs ≠ [] ∧ bs.all isDigit then some (value bs) else none

/-! ### Hexadecimal -/

/-- The lower-case digit for a number below 16. -/
def hexDigit (n : Nat) : UInt8 := if n < 10 then UInt8.ofNat (0x30 + n) else UInt8.ofNat (0x57 + n)

/-- The value of a hexadecimal digit in either case. -/
def hexValue (c : UInt8) : Option Nat :=
  if 0x30 ≤ c ∧ c ≤ 0x39 then some (c.toNat - 0x30)
  else if 0x61 ≤ c ∧ c ≤ 0x66 then some (c.toNat - 0x57)
  else if 0x41 ≤ c ∧ c ≤ 0x46 then some (c.toNat - 0x37)
  else none

/-- The two digits of a byte. -/
def hexByte (b : UInt8) : List UInt8 := [hexDigit (b.toNat / 16), hexDigit (b.toNat % 16)]

/-- A byte string in lower-case hexadecimal. -/
def hexEncode (bs : List UInt8) : List UInt8 := bs.flatMap hexByte

/-- Reads hexadecimal; an odd number of digits is refused. -/
def hexDecode : List UInt8 → Option (List UInt8)
  | [] => some []
  | [_] => none
  | hi :: lo :: rest => do
    let hi ← hexValue hi
    let lo ← hexValue lo
    let bs ← hexDecode rest
    return UInt8.ofNat (16 * hi + lo) :: bs

theorem hexValue_hexDigit : ∀ n < 16, hexValue (hexDigit n) = some n := by decide

theorem hexDecode_hexEncode (bs : List UInt8) : hexDecode (hexEncode bs) = some bs := by
  induction bs with
  | nil => rfl
  | cons b bs ih =>
    have hlt := b.toNat_lt
    have hbyte : 16 * (b.toNat / 16) + b.toNat % 16 = b.toNat := Nat.div_add_mod _ _
    rw [hexEncode, flatMap_cons, hexByte, cons_append, cons_append, nil_append, hexDecode,
      hexValue_hexDigit _ (by omega), hexValue_hexDigit _ (by omega)]
    rw [hexEncode] at ih
    simp only [Option.bind_eq_bind, Option.bind_some, ih, hbyte, UInt8.ofNat_toNat]
    rfl

end Numeral
