import Acidns.Dnssec.Nsec3

/-!
# Labels of hashes

`validatorbb/base32.go` and `nsec.go`. The encoder keeps up to four bits of a byte for the next letter, the decoder up
to seven bits of letters for the next byte; what is further up in either buffer is shifted out and never looked at.
-/

namespace Acidns

open List

variable {f : UInt8 → UInt8} {b s out : Bytes} {buf enc dec : UInt64} {bits v : Nat} {x : UInt8}

/-! ### The buffer -/

theorem toNat_push {w : Nat} (hwidth : w < 64) (hv : v < 2 ^ w) :
    (buf <<< UInt64.ofNat w ||| UInt64.ofNat v).toNat = buf.toNat * 2 ^ w % 2 ^ 64 + v := by
  have hlow : v % 2 ^ 64 = v := Nat.mod_eq_of_lt (hv.trans (Nat.pow_lt_pow_right (by decide) hwidth))
  have hcount : w % 2 ^ 64 % 64 = w := by omega
  have hsplit : 2 ^ 64 = 2 ^ (64 - w) * 2 ^ w := by rw [← Nat.pow_add, Nat.sub_add_cancel hwidth.le]
  have hhigh : buf.toNat * 2 ^ w % 2 ^ 64 = (buf.toNat % 2 ^ (64 - w)) <<< w := by
    rw [hsplit, Nat.mul_mod_mul_right, Nat.shiftLeft_eq]
  rw [UInt64.toNat_or, UInt64.toNat_shiftLeft, UInt64.toNat_ofNat', UInt64.toNat_ofNat', hlow, hcount, Nat.shiftLeft_eq,
    hhigh, Nat.shiftLeft_add_eq_or_of_lt hv]

theorem toNat_field {w shift : Nat} (hwidth : w < 64) (hshift : shift < 64) :
    ((buf >>> UInt64.ofNat shift) &&& UInt64.ofNat (2 ^ w - 1)).toNat = buf.toNat / 2 ^ shift % 2 ^ w := by
  have hmask : (2 ^ w - 1) % 2 ^ 64 = 2 ^ w - 1 := by
    have := Nat.pow_lt_pow_right (a := 2) (by decide) hwidth
    exact Nat.mod_eq_of_lt (by omega)
  have hcount : shift % 2 ^ 64 % 64 = shift := by omega
  rw [UInt64.toNat_and, UInt64.toNat_shiftRight, UInt64.toNat_ofNat', UInt64.toNat_ofNat', hmask, hcount,
    Nat.shiftRight_eq_div_pow, Nat.and_two_pow_sub_one_eq_mod]

theorem toNat_pushByte : (buf <<< 8 ||| UInt64.ofNat x.toNat).toNat = buf.toNat * 256 % 2 ^ 64 + x.toNat :=
  toNat_push (w := 8) (by decide) x.toNat_lt

theorem toNat_pushLetter : (buf <<< 5 ||| UInt64.ofNat (v % 32)).toNat = buf.toNat * 32 % 2 ^ 64 + v % 32 :=
  toNat_push (w := 5) (by decide) (Nat.mod_lt _ (by decide))

theorem toNat_lastBits (hbits : bits < 64) :
    ((buf <<< UInt64.ofNat bits) &&& 0x1f).toNat = buf.toNat * 2 ^ bits % 2 ^ 64 % 32 := by
  have hcount : bits % 2 ^ 64 % 64 = bits := by omega
  rw [UInt64.toNat_and, UInt64.toNat_shiftLeft, UInt64.toNat_ofNat', hcount, Nat.shiftLeft_eq]
  exact Nat.and_two_pow_sub_one_eq_mod _ 5

/-! ### One letter and one byte -/

theorem base32HexValue_letter (hv : v < 32) : base32HexValue (base32HexLetter v) = some v := by
  have hall : ∀ v < 32, base32HexValue (base32HexLetter v) = some v := by decide
  exact hall v hv

theorem base32HexValue_foldByte (hv : v < 32) : base32HexValue (foldByte (base32HexLetter v)) = some v := by
  have hall : ∀ v < 32, base32HexValue (foldByte (base32HexLetter v)) = some v := by decide
  exact hall v hv

theorem encodeLoop_append (b : Bytes) (buf : UInt64) (bits : Nat) (out : Bytes) :
    base32HexEncodeLoop b buf bits out = out ++ base32HexEncodeLoop b buf bits [] := by
  induction b generalizing buf bits out with
  | nil =>
    unfold base32HexEncodeLoop
    split <;> simp
  | cons x b ih =>
    unfold base32HexEncodeLoop
    simp only [emitBase32]
    split
    · split
      · rw [ih, ih _ _ ([] ++ _ ++ _)]
        simp
      · rw [ih, ih _ _ ([] ++ _)]
        simp
    · exact ih _ _ out

theorem encodeLoop_cons (hbits : bits ≤ 4) (henc : enc = buf <<< 8 ||| UInt64.ofNat x.toNat) :
    base32HexEncodeLoop (x :: b) buf bits [] = base32HexLetter (enc.toNat / 2 ^ (bits + 3) % 32) ::
      if 2 ≤ bits then base32HexLetter (enc.toNat / 2 ^ (bits - 2) % 32) :: base32HexEncodeLoop b enc (bits - 2) []
      else base32HexEncodeLoop b enc (bits + 3) [] := by
  have hletter : ∀ shift < 64, ((enc >>> UInt64.ofNat shift) &&& 0x1f).toNat = enc.toNat / 2 ^ shift % 32 :=
    fun shift hshift => toNat_field (w := 5) (by decide) hshift
  have hfirst : bits + 8 - 5 = bits + 3 := rfl
  rw [base32HexEncodeLoop, ← henc]
  simp only [emitBase32, ge_iff_le, Nat.le_add_left_of_le (show 5 ≤ 8 by decide), if_true, hfirst,
    hletter _ (show bits + 3 < 64 by omega)]
  by_cases htwo : 2 ≤ bits
  · have hsecond : bits + 3 - 5 = bits - 2 := by omega
    rw [if_pos (show 5 ≤ bits + 3 by omega), if_pos htwo, hsecond, hletter _ (by omega)]
    exact encodeLoop_append _ _ _ _
  · rw [if_neg (show ¬5 ≤ bits + 3 by omega), if_neg htwo]
    exact encodeLoop_append _ _ _ _

theorem some_pending {given next n : Nat} (hgiven : given = n) (hnext : next = x.toNat) :
    some ((out ++ [UInt8.ofNat given]) ++ ([UInt8.ofNat next] ++ b)) = some (out ++ UInt8.ofNat n :: x :: b) := by
  rw [hgiven, hnext, UInt8.ofNat_toNat, append_assoc]
  rfl

section Decode

variable (hf : ∀ v < 32, base32HexValue (f (base32HexLetter v)) = some v)

include hf

theorem decodeLoop_cons (hbits : bits ≤ 7) (hdec : dec = buf <<< 5 ||| UInt64.ofNat (v % 32)) :
    base32HexDecodeLoop (f (base32HexLetter (v % 32)) :: s) buf bits out =
      if 3 ≤ bits then
        base32HexDecodeLoop s dec (bits - 3) (out ++ [UInt8.ofNat (dec.toNat / 2 ^ (bits - 3) % 256)])
      else base32HexDecodeLoop s dec (bits + 5) out := by
  rw [base32HexDecodeLoop, hf _ (Nat.mod_lt _ (by decide))]
  dsimp only
  rw [← hdec]
  by_cases hfull : 3 ≤ bits
  · have hrest : bits + 5 - 8 = bits - 3 := by omega
    have hbyte : ((dec >>> UInt64.ofNat (bits - 3)) &&& 0xff).toNat = dec.toNat / 2 ^ (bits - 3) % 256 :=
      toNat_field (w := 8) (by decide) (by omega)
    rw [if_pos (show bits + 5 ≥ 8 by omega), if_pos hfull, hrest, hbyte]
  · rw [if_neg (show ¬bits + 5 ≥ 8 by omega), if_neg hfull]

/-- The decoder behind the encoder: it has given out every byte but the one whose last bits the encoder still holds. -/
theorem decodeLoop_encodeLoop (b : Bytes) :
    (∀ buf dec out, base32HexDecodeLoop ((base32HexEncodeLoop b buf 0 []).map f) dec 0 out = some (out ++ b)) ∧
    ∀ bits buf dec out, 1 ≤ bits → bits ≤ 4 →
      base32HexDecodeLoop ((base32HexEncodeLoop b buf bits []).map f) dec (8 - bits) out =
        some (out ++ UInt8.ofNat (dec.toNat % 2 ^ (8 - bits) * 2 ^ bits + buf.toNat % 2 ^ bits) :: b) := by
  induction b with
  | nil =>
    refine ⟨fun buf dec out => by simp [base32HexEncodeLoop, base32HexDecodeLoop], fun bits buf dec out hlow hhigh => ?_⟩
    rw [base32HexEncodeLoop, if_pos (show bits > 0 from hlow), toNat_lastBits (by omega), nil_append, map_singleton,
      decodeLoop_cons hf (by omega) rfl, if_pos (by omega), base32HexDecodeLoop,
      toNat_pushLetter]
    congr 4
    rcases (by omega : bits = 1 ∨ bits = 2 ∨ bits = 3 ∨ bits = 4) with rfl | rfl | rfl | rfl <;> omega
  | cons x b ih =>
    obtain ⟨ihnone, ihsome⟩ := ih
    have hx := x.toNat_lt
    have hbyte : ∀ n, n = x.toNat → UInt8.ofNat n = x := fun n hn => by rw [hn, UInt8.ofNat_toNat]
    refine ⟨fun buf dec out => ?_, fun bits buf dec out hlow hhigh => ?_⟩
    · rw [encodeLoop_cons (by decide) rfl, if_neg (by decide), map_cons,
        decodeLoop_cons hf (by decide) rfl, if_neg (by decide),
        ihsome 3 _ _ out (by decide) (by decide), toNat_pushByte, toNat_pushLetter]
      rw [hbyte _ (by omega)]
    · rw [encodeLoop_cons hhigh rfl, map_cons, decodeLoop_cons hf (by omega) rfl,
        if_pos (by omega), toNat_pushLetter, toNat_pushByte]
      rcases (by omega : bits = 1 ∨ bits = 2 ∨ bits = 3 ∨ bits = 4) with rfl | rfl | rfl | rfl
      · rw [if_neg (by decide), ihsome 4 _ _ _ (by decide) (by decide), toNat_pushByte,
          toNat_pushLetter]
        exact some_pending (by omega) (by omega)
      · rw [if_pos (by decide), map_cons, decodeLoop_cons hf (by decide) rfl,
          if_pos (by decide), ihnone, toNat_pushLetter, toNat_pushLetter, append_assoc]
        exact some_pending (by omega) (by omega)
      · rw [if_pos (by decide), map_cons, decodeLoop_cons hf (by decide) rfl,
          if_neg (by decide), ihsome 1 _ _ _ (by decide) (by decide), toNat_pushLetter,
          toNat_pushLetter, toNat_pushByte]
        exact some_pending (by omega) (by omega)
      · rw [if_pos (by decide), map_cons, decodeLoop_cons hf (by decide) rfl,
          if_neg (by decide), ihsome 2 _ _ _ (by decide) (by decide), toNat_pushLetter,
          toNat_pushLetter, toNat_pushByte]
        exact some_pending (by omega) (by omega)

end Decode

/-! ### Intervals -/

theorem countP_hashIntervalContains {hashes : List Bytes} {x : Bytes} (hne : hashes ≠ [])
    (hsorted : hashes.Pairwise fun a b => bytesLess a b = true) (n : Nat) :
    ((hashes.rotate n).zip ((hashes.rotate n).rotate 1)).countP (fun link => hashIntervalContains link.1 link.2 x) =
      if x ∈ hashes then 0 else 1 := by
  have hlinks : (hashes.rotate n).zip ((hashes.rotate n).rotate 1) = (hashes.zip (hashes.rotate 1)).rotate n := by
    rw [rotate_rotate, Nat.add_comm, ← rotate_rotate]
    exact (zipWith_rotate_distrib Prod.mk hashes (hashes.rotate 1) n (length_rotate ..).symm).symm
  rw [hlinks, (rotate_perm _ n).countP_eq]
  have hcount := Chain.countP_covers (x := x) hne (hsorted.imp bytesLess_iff.mp)
  simp only [← hashIntervalContains_iff, Bool.decide_eq_true] at hcount
  by_cases hmem : x ∈ hashes <;> simpa [hmem] using hcount

/-- **Hashed owner names.** The label of a hash gives the hash back, in upper and in lower case. The hashes of a set,
closed to a circle, cover every other hash exactly once and none of themselves. -/
theorem base32Hex_hashInterval :
    (∀ b, base32HexDecode (base32HexEncode b) = some b ∧ base32HexDecode (foldLabel (base32HexEncode b)) = some b) ∧
    ∀ (hashes : List Bytes) (x : Bytes) (n : Nat), hashes ≠ [] → hashes.Pairwise (fun a b => bytesLess a b = true) →
      ((hashes.rotate n).zip ((hashes.rotate n).rotate 1)).countP (fun link => hashIntervalContains link.1 link.2 x) =
        if x ∈ hashes then 0 else 1 := by
  refine ⟨fun b => ⟨?_, ?_⟩, fun hashes x n hne hsorted => countP_hashIntervalContains hne hsorted n⟩
  · have hplain := (decodeLoop_encodeLoop (f := id) (fun v hv => base32HexValue_letter hv) b).1 0 0 []
    rwa [map_id] at hplain
  · exact (decodeLoop_encodeLoop (fun v hv => base32HexValue_foldByte hv) b).1 0 0 []

theorem base32Hex_hashInterval_sample :
    (([[0x10], [0x20], [0x30]] : List Bytes).zip [[0x20], [0x30], [0x10]]).countP
      (fun link => hashIntervalContains link.1 link.2 [0x05]) = 1 :=
  base32Hex_hashInterval.2 [[0x10], [0x20], [0x30]] [0x05] 0 (by decide) (by decide)

end Acidns
