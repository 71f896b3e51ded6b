import Mathlib.Algebra.Group.Int.Defs
import Mathlib.Algebra.GroupWithZero.Nat
import Mathlib.Data.List.Induction

/-!
# Byte strings

Byte strings, big-endian integers, and the placement of a byte string inside a longer one. `At msg off bs` says that `bs` stands in `msg` at offset `off`; it splits over concatenation, which is how the layout of a whole encoding is taken apart field by field.
-/

theorem map_eq_self {α : Type} {f : α → α} {xs : List α} (h : ∀ x ∈ xs, f x = x) : xs.map f = xs := by
  rw [List.map_congr_left h, List.map_id'']
  exact fun _ => rfl

theorem map_eq_self_iff {α : Type} {f : α → α} {xs : List α} : xs.map f = xs ↔ ∀ x ∈ xs, f x = x := by
  refine ⟨fun h => List.map_inj_left.mp ?_, map_eq_self⟩
  rw [h, List.map_id']

theorem forall_byte {P : UInt8 → Prop} (h : ∀ k : Fin 256, P (UInt8.ofNat k)) (b : UInt8) : P b := by
  have hb := h ⟨b.toNat, b.toNat_lt⟩
  rwa [UInt8.ofNat_toNat] at hb

/-- A test of all bytes of a byte string goes through the byte string, not through the 256 bytes. -/
instance (priority := 2000) decidableForallByte {P : UInt8 → Prop} [DecidablePred P] (bs : List UInt8) :
    Decidable (∀ b ∈ bs, P b) := List.decidableBAll P bs

instance decidableMemBytes (bs : List UInt8) (l : List (List UInt8)) : Decidable (bs ∈ l) := inferInstance

namespace Octets

open List

variable {msg' : List UInt8} {end_ width : Nat} {b : UInt8}

/-! ### Big-endian integers -/

/-- The `width` low-order bytes of `n`, most significant first. -/
def bigEndian : (width n : Nat) → List UInt8
  | 0, _ => []
  | width + 1, n => bigEndian width (n / 256) ++ [UInt8.ofNat n]

/-- The number that the bytes stand for, most significant first. -/
def ofBigEndian (bs : List UInt8) : Nat :=
  bs.foldl (fun acc b => acc * 256 + b.toNat) 0

@[simp] theorem length_bigEndian (width n : Nat) : (bigEndian width n).length = width := by
  induction width generalizing n with
  | zero => rfl
  | succ width ih => simp [bigEndian, ih]

theorem ofBigEndian_append_singleton (bs : List UInt8) (b : UInt8) :
    ofBigEndian (bs ++ [b]) = ofBigEndian bs * 256 + b.toNat := by
  simp [ofBigEndian]

theorem ofBigEndian_bigEndian (width n : Nat) : ofBigEndian (bigEndian width n) = n % 256 ^ width := by
  induction width generalizing n with
  | zero => simp [bigEndian, ofBigEndian, Nat.mod_one]
  | succ width ih => grind [UInt8.toNat_ofNat', bigEndian, ofBigEndian_append_singleton, Nat.mod_mul]

theorem toNat_mod_word (v : UInt16) : v.toNat % 256 ^ 2 = v.toNat := Nat.mod_eq_of_lt v.toNat_lt

theorem bigEndian_inj {n m : Nat} (hn : n < 256 ^ width) (hm : m < 256 ^ width)
    (h : bigEndian width n = bigEndian width m) : n = m := by
  grind [ofBigEndian_bigEndian, Nat.mod_eq_of_lt]

theorem ofBigEndian_lt (bs : List UInt8) : ofBigEndian bs < 256 ^ bs.length := by
  induction bs using List.reverseRecOn with
  | nil => simp [ofBigEndian]
  | append_singleton bs b ih =>
    rw [ofBigEndian_append_singleton, length_append, length_singleton, Nat.pow_succ]
    have hb := b.toNat_lt
    omega

theorem bigEndian_ofBigEndian (bs : List UInt8) : bigEndian bs.length (ofBigEndian bs) = bs := by
  induction bs using List.reverseRecOn with
  | nil => rfl
  | append_singleton bs b ih =>
    have hb := b.toNat_lt
    have hdiv : (ofBigEndian bs * 256 + b.toNat) / 256 = ofBigEndian bs := by omega
    have hlow : UInt8.ofNat (ofBigEndian bs * 256 + b.toNat) = b := by
      apply UInt8.toNat_inj.mp
      rw [UInt8.toNat_ofNat']
      omega
    rw [length_append, length_singleton, bigEndian, ofBigEndian_append_singleton,
      hdiv, ih, hlow]

/-! ### Placement -/

/-- The byte string `bs` stands in `msg` at offset `off`. -/
def At (msg : List UInt8) (off : Nat) (bs : List UInt8) : Prop :=
  bs <+: msg.drop off

variable {msg bs cs : List UInt8} {off n : Nat}

@[simp] theorem at_nil : At msg off [] := nil_prefix

theorem at_append : At msg off (bs ++ cs) ↔ At msg off bs ∧ At msg (off + bs.length) cs := by
  constructor
  · rintro ⟨rest, hrest⟩
    refine ⟨⟨cs ++ rest, by rw [← hrest, append_assoc]⟩, rest, ?_⟩
    rw [← drop_drop, ← hrest, append_assoc, drop_left]
  · rintro ⟨⟨rest, hrest⟩, tail, htail⟩
    refine ⟨tail, ?_⟩
    rw [← drop_drop, ← hrest, drop_left] at htail
    rw [← hrest, ← htail, append_assoc]

theorem at_cons : At msg off (b :: bs) ↔ At msg off [b] ∧ At msg (off + 1) bs := by
  rw [← singleton_append, at_append, length_singleton]

theorem At.length_le (h : At msg off bs) : bs.length ≤ msg.length - off := by
  have hlen := List.IsPrefix.length_le h
  rwa [length_drop] at hlen

theorem At.end_le (h : At msg off bs) (hne : bs ≠ []) : off + bs.length ≤ msg.length := by
  have hlen := h.length_le
  have hpos := length_pos_iff.mpr hne
  omega

theorem At.take_drop (h : At msg off bs) : (msg.drop off).take bs.length = bs := by
  obtain ⟨rest, hrest⟩ := h
  rw [← hrest, take_left]

theorem At.unique (h : At msg off bs) (h' : At msg off cs) (hlen : bs.length = cs.length) : bs = cs := by
  rw [← h.take_drop, hlen, h'.take_drop]

theorem At.head_unique {c : UInt8} (h : At msg off (b :: bs)) (h' : At msg off (c :: cs)) : b = c :=
  head_eq_of_cons_eq ((at_cons.mp h).1.unique (at_cons.mp h').1 rfl)

theorem At.getElem? (h : At msg off [b]) : msg[off]? = some b := by
  obtain ⟨rest, hrest⟩ := h
  have hget : (msg.drop off)[0]? = some b := by rw [← hrest]; rfl
  rwa [List.getElem?_drop, Nat.add_zero] at hget

theorem at_of_getElem? (h : msg[off]? = some b) : At msg off [b] := by
  grind [List.drop_eq_getElem_cons, At]

theorem At.mono (h : At msg off bs) (hmsg : msg <+: msg') : At msg' off bs := by
  obtain ⟨rest, hrest⟩ := h
  obtain ⟨tail, rfl⟩ := hmsg
  by_cases hoff : off ≤ msg.length
  · refine ⟨rest ++ tail, ?_⟩
    rw [drop_append_of_le_length hoff, ← hrest, append_assoc]
  · rw [drop_eq_nil_of_le (by omega)] at hrest
    rw [(append_eq_nil_iff.mp hrest).1]
    exact at_nil

theorem at_length_append (pre bs rest : List UInt8) : At (pre ++ (bs ++ rest)) pre.length bs :=
  ⟨rest, by rw [drop_left]⟩

theorem At.take (h : At msg off bs) (hn : off + bs.length ≤ n) : At (msg.take n) off bs := by
  grind [List.drop_take, At]

theorem at_take_drop (msg : List UInt8) (off n : Nat) : At msg off ((msg.drop off).take n) := take_prefix _ _

theorem length_take_drop (h : off + n ≤ msg.length) : ((msg.drop off).take n).length = n := by
  rw [length_take, length_drop]
  omega

/-! ### Integers inside a message -/

/-- The big-endian integer in the `width` bytes at `off`. -/
def readAt (width : Nat) (msg : List UInt8) (off : Nat) : Nat := ofBigEndian ((msg.drop off).take width)

/-- The message with a big-endian integer in the `width` bytes at `off`. -/
def writeAt (width : Nat) (msg : List UInt8) (off n : Nat) : List UInt8 :=
  msg.take off ++ bigEndian width n ++ msg.drop (off + width)

theorem At.readAt (h : At msg off (bigEndian width n)) : readAt width msg off = n % 256 ^ width := by
  have hbytes := h.take_drop
  rw [length_bigEndian] at hbytes
  rw [Octets.readAt, hbytes, ofBigEndian_bigEndian]

theorem At.readAt_add {i : Nat} (h : At msg off bs) (hfit : i + width ≤ bs.length) :
    Octets.readAt width msg (off + i) = Octets.readAt width bs i := by
  obtain ⟨rest, hrest⟩ := h
  rw [Octets.readAt, Octets.readAt, ← drop_drop, ← hrest, drop_append_of_le_length (by omega),
    take_append_of_le_length (by rw [length_drop]; omega)]

theorem readAt_lt (width : Nat) (msg : List UInt8) (off : Nat) : readAt width msg off < 256 ^ width := by
  grind [Nat.lt_of_lt_of_le, ofBigEndian_lt, Nat.pow_le_pow_right, List.length_take, readAt]

theorem writeAt_append {width : Nat} (front back : List UInt8) (old new : Nat) :
    writeAt width (front ++ bigEndian width old ++ back) front.length new =
      front ++ bigEndian width new ++ back := by
  simp [writeAt]

section

variable (hfit : off + width ≤ msg.length)

include hfit

theorem getElem?_writeAt {n : Nat} (i : Nat) :
    (writeAt width msg off n)[i]? = if off ≤ i ∧ i < off + width then (bigEndian width n)[i - off]? else msg[i]? := by
  have htake : (msg.take off).length = off := by
    rw [length_take]
    omega
  rw [writeAt, append_assoc]
  by_cases hlow : i < off
  · rw [List.getElem?_append_left (by omega), List.getElem?_take_of_lt hlow, if_neg (by omega)]
  · grind [length_bigEndian]

theorem readAt_writeAt {n : Nat} :
    readAt width (writeAt width msg off n) off = n % 256 ^ width := by
  grind [At.readAt, at_length_append, writeAt]

theorem bigEndian_readAt :
    bigEndian width (readAt width msg off) = (msg.drop off).take width := by
  have hbytes := bigEndian_ofBigEndian ((msg.drop off).take width)
  rwa [length_take_drop hfit] at hbytes

theorem length_writeAt {n : Nat} :
    (writeAt width msg off n).length = msg.length := by
  grind [writeAt, length_bigEndian]

theorem writeAt_writeAt_readAt {n : Nat} :
    writeAt width (writeAt width msg off n) off (readAt width msg off) = msg := by
  have hlen : (writeAt width msg off n).length = msg.length := length_writeAt hfit
  apply ext_getElem?
  intro i
  rw [getElem?_writeAt (by omega), bigEndian_readAt hfit]
  split
  · rw [List.getElem?_take_of_lt (by omega), List.getElem?_drop]
    congr 1
    omega
  · rename_i hout
    rw [getElem?_writeAt hfit, if_neg hout]

theorem writeAt_readAt :
    writeAt width msg off (readAt width msg off) = msg := by
  grind [writeAt, bigEndian_readAt, List.take_append_drop]

theorem writeAt_append_left {n : Nat} (rest : List UInt8) :
    writeAt width (msg ++ rest) off n = writeAt width msg off n ++ rest := by
  grind [writeAt]

end
/-- The two messages agree from `start` up to `end_`. -/
def Coincide (msg msg' : List UInt8) (start end_ : Nat) : Prop := ∀ i, start ≤ i → i < end_ → msg[i]? = msg'[i]?

theorem Coincide.mono {start end' : Nat} (h : Coincide msg msg' off end_) (hstart : off ≤ start)
    (hend : end' ≤ end_) : Coincide msg msg' start end' :=
  fun i hlow hhigh => h i (by omega) (by omega)

theorem at_iff_getElem? : At msg off bs ↔ ∀ i, i < bs.length → msg[off + i]? = bs[i]? := by
  rw [At, prefix_iff_getElem?]
  apply forall_congr'
  intro i
  apply forall_congr'
  intro hi
  rw [List.getElem?_drop, List.getElem?_eq_getElem hi]

theorem Coincide.at_iff (h : Coincide msg msg' off end_)
    (hend : off + bs.length ≤ end_) : At msg off bs ↔ At msg' off bs := by
  rw [at_iff_getElem?, at_iff_getElem?]
  apply forall_congr'
  intro i
  apply forall_congr'
  intro hi
  rw [h (off + i) (by omega) (by omega)]

theorem readAt_congr (h : Coincide msg msg' off (off + width)) :
    readAt width msg off = readAt width msg' off := by
  rw [readAt, readAt]
  congr 1
  apply ext_getElem?
  intro i
  rw [List.getElem?_take, List.getElem?_take, List.getElem?_drop, List.getElem?_drop]
  split
  · exact h (off + i) (by omega) (by omega)
  · rfl

theorem coincide_writeAt {n start : Nat} (hfit : off + width ≤ msg.length)
    (hout : end_ ≤ off ∨ off + width ≤ start) : Coincide (writeAt width msg off n) msg start end_ := by
  intro i hlow hhigh
  rw [getElem?_writeAt hfit, if_neg (by omega)]

theorem coincide_append (rest : List UInt8) (start : Nat) : Coincide (msg ++ rest) msg start msg.length := by
  intro i _ hhigh
  exact List.getElem?_append_left hhigh

end Octets
