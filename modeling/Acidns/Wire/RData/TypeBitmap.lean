import Acidns.Lib.Bitmap
import Acidns.Wire.RData.Basic

/-!
# Type bitmaps

The bitmaps of `NSEC`, `NSEC3` and `CSYNC`: `encodeTypeBitmap` and `decodeTypeBitmap` of `dnssec.go`. A set of types is written as one block for each window of 256 types. What the decoder returns is strictly increasing, and on strictly increasing lists the two are inverse.
-/

namespace Acidns

open Parser Decoder List

/-! ### Windows -/

/-- The window of a type: its high byte. -/
def RRType.window (t : RRType) : UInt8 := (t >>> 8).toUInt8

/-- The place of a type in its window. -/
def RRType.bit (t : RRType) : Nat := (t &&& 0xff).toUInt8.toNat

def typeInWindow (win : UInt8) (k : Nat) : RRType := UInt16.ofNat win.toNat <<< 8 ||| UInt16.ofNat k

/-- The types that a block of the window `win` holds. -/
def windowTypes (win : UInt8) (bm : Bytes) : List RRType := (Bitmap.members bm).map (typeInWindow win)

theorem RRType.toNat_window (t : RRType) : t.window.toNat = t.toNat / 256 := by
  have hlt := t.toNat_lt
  have hshift : (t >>> 8).toNat = t.toNat / 256 := by
    exact Nat.shiftRight_eq_div_pow _ 8
  rw [window, UInt16.toNat_toUInt8, hshift]
  omega

theorem RRType.bit_eq (t : RRType) : t.bit = t.toNat % 256 := by
  have hand : (t &&& 0xff).toNat = t.toNat % 256 := by
    exact Nat.and_two_pow_sub_one_eq_mod t.toNat 8
  rw [bit, UInt16.toNat_toUInt8, hand]
  omega

variable {win : UInt8} {bm : Bytes} {t u : RRType}

theorem toNat_typeInWindow {k : Nat} (hk : k < 256) :
    (typeInWindow win k).toNat = win.toNat * 256 + k := by
  have hwin := win.toNat_lt
  have hhigh : (UInt16.ofNat win.toNat <<< 8).toNat = win.toNat <<< 8 := by
    rw [UInt16.toNat_shiftLeft, toNat_ofNat16 (by omega)]
    refine Nat.mod_eq_of_lt ?_
    change win.toNat <<< 8 < 2 ^ 16
    omega
  rw [typeInWindow, UInt16.toNat_or, hhigh, toNat_ofNat16 (by omega),
    ← Nat.shiftLeft_add_eq_or_of_lt hk, Nat.shiftLeft_eq]

theorem typeInWindow_eq_iff {k : Nat} (hk : k < 256) (t : RRType) :
    typeInWindow win k = t ↔ win = t.window ∧ k = t.bit := by
  rw [← UInt16.toNat_inj, ← UInt8.toNat_inj, toNat_typeInWindow hk, RRType.toNat_window, RRType.bit_eq]
  omega

theorem mem_windowTypes (hbm : bm.length ≤ 32) :
    t ∈ windowTypes win bm ↔ win = t.window ∧ Bitmap.has bm t.bit := by
  have hk : ∀ k ∈ Bitmap.members bm, k < 256 := fun k hk => by
    have hlt := Bitmap.lt_of_mem_members hk
    omega
  rw [windowTypes, mem_map, ← Bitmap.mem_members]
  constructor
  · rintro ⟨k, hmem, ht⟩
    obtain ⟨hwin, rfl⟩ := (typeInWindow_eq_iff (hk k hmem) t).mp ht
    exact ⟨hwin, hmem⟩
  · rintro ⟨hwin, hmem⟩
    exact ⟨t.bit, hmem, (typeInWindow_eq_iff (hk _ hmem) t).mpr ⟨hwin, rfl⟩⟩

theorem pairwise_windowTypes (hbm : bm.length ≤ 32) :
    (windowTypes win bm).Pairwise (· < ·) := by
  refine pairwise_map.mpr ((Bitmap.pairwise_members bm).imp_of_mem fun {a b} ha hb hab => ?_)
  have hltb := Bitmap.lt_of_mem_members hb
  rw [UInt16.lt_iff_toNat_lt, toNat_typeInWindow (by omega), toNat_typeInWindow (by omega)]
  omega

theorem RRType.lt_of_window_lt (h : t.window < u.window) : t < u := by
  rw [UInt8.lt_iff_toNat_lt, toNat_window, toNat_window] at h
  rw [UInt16.lt_iff_toNat_lt]
  omega

theorem RRType.window_le_window (h : t ≤ u) : t.window ≤ u.window := by
  rw [UInt8.le_iff_toNat_le, toNat_window, toNat_window]
  exact Nat.div_le_div_right h

/-! ### Buckets -/

/-- One window of a type bitmap, 32 bytes while it is filled. -/
structure Bucket where
  win : UInt8
  bitmap : Bytes

namespace Bucket

/-- Trailing zero bytes are not sent. -/
def trimmed (b : Bucket) : Bytes := b.bitmap.take (Bitmap.trimLength b.bitmap b.bitmap.length)

def ops (b : Bucket) : List PackOp :=
  [.uint8 b.win, .uint8 (UInt8.ofNat b.trimmed.length), .raw b.trimmed]

/-- The type's bit is set in its window. -/
def Holds (b : Bucket) (t : RRType) : Prop := b.win = t.window ∧ Bitmap.has b.bitmap t.bit

end Bucket

def addType : List Bucket → RRType → List Bucket
  | [], t => [⟨t.window, Bitmap.insert (List.replicate 32 0) t.bit⟩]
  | b :: rest, t =>
    if b.win = t.window then { b with bitmap := Bitmap.insert b.bitmap t.bit } :: rest
    else b :: addType rest t

/-- The windows of a set of types, in ascending order. -/
def bucketsOf (types : List RRType) : List Bucket := (types.mergeSort fun a b => a ≤ b).foldl addType []

/-- The calls of `encodeTypeBitmap`. -/
def typeBitmapOps (types : List RRType) : List PackOp := (bucketsOf types).flatMap Bucket.ops

section Buckets

variable {buckets : List Bucket} {t u : RRType}

theorem RRType.bit_div_lt (t : RRType) : t.bit / 8 < 32 := by
  rw [bit_eq]
  omega

/-- Every window has its 32 bytes. -/
def Full (buckets : List Bucket) : Prop := ∀ b ∈ buckets, b.bitmap.length = 32

theorem full_addType (h : Full buckets) : Full (addType buckets t) := by
  fun_induction addType buckets t with
  | case1 t => simp [Full]
  | case2 b rest t hwin => simpa [Full] using h
  | case3 b rest t hwin ih =>
    obtain ⟨hb, hrest⟩ := forall_mem_cons.mp h
    exact forall_mem_cons.mpr ⟨hb, ih hrest⟩

theorem holds_addType (h : Full buckets) :
    (∃ b ∈ addType buckets t, b.Holds u) ↔ u = t ∨ ∃ b ∈ buckets, b.Holds u := by
  have hsame : t.window = u.window ∧ u.bit = t.bit ↔ u = t := by
    grind [UInt16.toNat_inj, RRType.toNat_window, RRType.bit_eq]
  fun_induction addType buckets t with
  | case1 t =>
    have hnone : ¬Bitmap.has (List.replicate 32 0) u.bit := by
      simp only [Bitmap.has_iff, getD_eq_getElem?_getD, List.getElem?_replicate, u.bit_div_lt, if_true,
        Option.getD_some]
      exact Bool.not_eq_true _ ▸ Nat.zero_testBit _
    simp only [Bucket.Holds, mem_singleton, exists_eq_left, not_mem_nil, false_and, exists_false,
      or_false, Bitmap.has_insert (show t.bit / 8 < (List.replicate 32 0).length from t.bit_div_lt), hnone,
      Bool.false_eq_true]
    exact hsame
  | case2 b rest t hwin =>
    obtain ⟨hb, -⟩ := forall_mem_cons.mp h
    simp only [Bucket.Holds, exists_mem_cons_iff, Bitmap.has_insert (hb ▸ t.bit_div_lt), and_or_left, hwin,
      hsame, or_assoc]
  | case3 b rest t hwin ih =>
    obtain ⟨-, hrest⟩ := forall_mem_cons.mp h
    rw [exists_mem_cons_iff, exists_mem_cons_iff, or_left_comm]
    exact or_congr_right (ih hrest hsame)

theorem win_of_mem_addType {b' : Bucket} (hb' : b' ∈ addType buckets t) :
    b'.win = t.window ∨ ∃ b ∈ buckets, b.win = b'.win := by
  fun_induction addType buckets t with
  | case1 t => exact .inl (by rw [mem_singleton.mp hb'])
  | case2 b rest t hwin =>
    rcases mem_cons.mp hb' with rfl | hmem
    · exact .inl hwin
    · exact .inr ⟨b', .tail _ hmem, rfl⟩
  | case3 b rest t hwin ih => grind

theorem pairwise_addType (hsorted : buckets.Pairwise (·.win < ·.win))
    (h : ∀ b ∈ buckets, b.win ≤ t.window) : (addType buckets t).Pairwise (·.win < ·.win) := by
  fun_induction addType buckets t with
  | case1 t => exact pairwise_singleton _ _
  | case2 b rest t hwin => simpa using hsorted
  | case3 b rest t hwin ih =>
    obtain ⟨hb, hrest⟩ := pairwise_cons.mp hsorted
    obtain ⟨hle, hles⟩ := forall_mem_cons.mp h
    refine pairwise_cons.mpr ⟨fun b' hb' => ?_, ih hrest hles⟩
    rcases win_of_mem_addType hb' with heq | ⟨b'', hb'', heq⟩
    · rw [heq]
      exact UInt8.lt_of_le_of_ne hle hwin
    · rw [← heq]
      exact hb b'' hb''

theorem foldl_addType {types : List RRType} (htypes : types.Pairwise (· ≤ ·)) (hfull : Full buckets)
    (hsorted : buckets.Pairwise (·.win < ·.win)) (hle : ∀ b ∈ buckets, ∀ t ∈ types, b.win ≤ t.window) :
    Full (types.foldl addType buckets) ∧ (types.foldl addType buckets).Pairwise (·.win < ·.win) ∧
      ∀ u, (∃ b ∈ types.foldl addType buckets, b.Holds u) ↔ u ∈ types ∨ ∃ b ∈ buckets, b.Holds u := by
  induction types generalizing buckets with
  | nil => exact ⟨hfull, hsorted, fun u => by simp⟩
  | cons t types ih =>
    obtain ⟨ht, htypes'⟩ := pairwise_cons.mp htypes
    have hle' : ∀ b ∈ addType buckets t, ∀ u ∈ types, b.win ≤ u.window := fun b hb u hu => by
      rcases win_of_mem_addType hb with heq | ⟨b', hb', heq⟩
      · rw [heq]
        exact RRType.window_le_window (ht u hu)
      · rw [← heq]
        exact hle b' hb' u (.tail _ hu)
    obtain ⟨hfull', hsorted', hholds⟩ := ih htypes' (full_addType hfull)
      (pairwise_addType hsorted fun b hb => hle b hb t (.head _)) hle'
    refine ⟨hfull', hsorted', fun u => ?_⟩
    rw [foldl_cons, hholds u, holds_addType hfull, mem_cons, or_assoc, or_left_comm]

theorem bucketsOf_spec (types : List RRType) :
    Full (bucketsOf types) ∧ (bucketsOf types).Pairwise (·.win < ·.win) ∧
      ∀ u, (∃ b ∈ bucketsOf types, b.Holds u) ↔ u ∈ types := by
  have hsorted : (types.mergeSort fun a b => a ≤ b).Pairwise (· ≤ ·) := by grind [pairwise_mergeSort]
  obtain ⟨hfull, hpairwise, hholds⟩ := @foldl_addType [] _ hsorted nofun .nil nofun
  refine ⟨hfull, hpairwise, fun u => ?_⟩
  rw [bucketsOf, hholds u]
  simp

theorem Bucket.length_trimmed {b : Bucket} (hb : b.bitmap.length = 32) :
    0 < b.trimmed.length ∧ b.trimmed.length ≤ 32 := by
  simp [Bitmap.trimLength_pos, trimmed, *]

def bucketTypes (types : List RRType) : List RRType :=
  (bucketsOf types).flatMap fun b => windowTypes b.win b.trimmed

theorem bucketTypes_spec (types : List RRType) :
    (bucketTypes types).Pairwise (· < ·) ∧ ∀ t, t ∈ bucketTypes types ↔ t ∈ types := by
  obtain ⟨hfull, hsorted, hholds⟩ := bucketsOf_spec types
  have hmem : ∀ b ∈ bucketsOf types, ∀ t, t ∈ windowTypes b.win b.trimmed ↔ b.Holds t := fun b hb t => by
    rw [mem_windowTypes (Bucket.length_trimmed (hfull b hb)).2, Bucket.trimmed, Bitmap.has_take_trimLength]
    rfl
  constructor
  · refine pairwise_flatMap.mpr ⟨fun b hb => ?_, hsorted.imp_of_mem fun {b b'} hb hb' hlt => ?_⟩
    · exact pairwise_windowTypes (Bucket.length_trimmed (hfull b hb)).2
    · intro t ht u hu
      apply RRType.lt_of_window_lt
      rw [← ((hmem b hb t).mp ht).1, ← ((hmem b' hb' u).mp hu).1]
      exact hlt
  · intro t
    rw [bucketTypes, mem_flatMap, ← hholds t]
    exact exists_congr fun b => and_congr_right fun hb => hmem b hb t

theorem bucketTypes_eq {types : List RRType} (htypes : types.Pairwise (· < ·)) : bucketTypes types = types := by
  obtain ⟨hpairwise, hmem⟩ := bucketTypes_spec types
  have hinj : Function.Injective UInt16.toNat := fun a b hab => UInt16.toNat_inj.mp hab
  refine map_injective_iff.mpr hinj (List.Pairwise.eq_of_mem_iff (r := (· < ·)) ?_ ?_ ?_)
  · exact pairwise_map.mpr (hpairwise.imp UInt16.lt_iff_toNat_lt.mp)
  · exact pairwise_map.mpr (htypes.imp UInt16.lt_iff_toNat_lt.mp)
  · simp [hmem]

end Buckets

/-! ### Decoding -/

/-- One block: the window of the block before it and the types so far give the new ones. -/
def decodeWindow (end_ : Nat) (s : Option UInt8 × List RRType) : Decoder (Option UInt8 × List RRType) := do
  let win ← uint8
  failIf (s.1.any fun last => win ≤ last)
    (invalidRData s!"NSEC bitmap windows out of order (saw {win.toNat} after {(s.1.getD 0).toNat})")
  let ln ← uint8
  failIf (ln = 0 ∨ ln > 32) (invalidRData s!"NSEC bitmap length {ln.toNat}")
  let off ← offset
  failIf (off + ln.toNat > end_) (invalidRData s!"NSEC bitmap length {ln.toNat} exceeds rdata window")
  let bm ← bytes ln.toNat
  pure (some win, s.2 ++ windowTypes win bm)

/-- The types of the windows within `n` bytes. -/
def decodeTypeBitmap (n : Int) : Decoder (List RRType) := do
  let off ← offset
  let s ← loopUntil ((off : Int) + n).toNat (decodeWindow ((off : Int) + n).toNat) n.toNat (none, [])
  pure s.2

section Decode

variable {maxHops off : Nat} {msg : Bytes} {hops : List Nat}

theorem Bucket.bytes_ops (b : Bucket) :
    b.ops.flatMap PackOp.bytes = b.win :: UInt8.ofNat b.trimmed.length :: b.trimmed := by
  simp [Bucket.ops, PackOp.bytes]

theorem reads_decodeWindow {end_ : Nat} {s : Option UInt8 × List RRType} {b : Bucket}
    (hb : b.bitmap.length = 32) (hlast : ∀ last, s.1 = some last → last < b.win)
    (hat : Octets.At msg off (b.ops.flatMap PackOp.bytes))
    (hend : off + (b.ops.flatMap PackOp.bytes).length ≤ end_) :
    (decodeWindow end_ s).Reads maxHops msg off (some b.win, s.2 ++ windowTypes b.win b.trimmed)
      (off + (b.ops.flatMap PackOp.bytes).length) := by
  obtain ⟨hpos, hmax⟩ := Bucket.length_trimmed hb
  have hfit := hat.end_le (by simp [b.bytes_ops])
  rw [b.bytes_ops] at *
  simp only [length_cons] at hend hfit ⊢
  obtain ⟨hwin, hrest⟩ := Octets.at_cons.mp hat
  obtain ⟨hln, hbm⟩ := Octets.at_cons.mp hrest
  have hbyte := @toNat_ofNat8 b.trimmed.length (by omega)
  have horder : ¬(s.1.any fun last => b.win ≤ last) := by
    cases hs : s.1 with
    | none => simp
    | some last =>
      simp only [Option.any_some, decide_eq_true_eq, UInt8.not_le]
      exact hlast last hs
  have hlength : ¬(UInt8.ofNat b.trimmed.length = 0 ∨ UInt8.ofNat b.trimmed.length > 32) := by
    rw [← UInt8.toNat_inj, gt_iff_lt, UInt8.lt_iff_toNat_lt, hbyte]
    change ¬(_ = 0 ∨ 32 < _)
    omega
  rw [show off + (b.trimmed.length + 1 + 1) = off + 1 + 1 + b.trimmed.length by omega]
  exact .bind (reads_uint8 hwin) <| .bind (reads_failIf horder) <|
    .bind (reads_uint8 hln) <| .bind (reads_failIf hlength) <| .bind reads_offset <|
    .bind (reads_failIf (by omega)) <| .bind (reads_bytes hbm (by omega) (by omega)) (reads_pure _)

theorem plain_typeBitmapOps (types : List RRType) : ∀ op ∈ typeBitmapOps types, op.compressed = none :=
  plain_flatMap fun _ => by simp [Bucket.ops, PackOp.compressed]

instance (end_ : Nat) (s : Option UInt8 × List RRType) : Local (decodeWindow end_ s) := by
  dsimp only [decodeWindow]; infer_instance
instance (n : Int) : Local (decodeTypeBitmap n) := by dsimp only [decodeTypeBitmap]; infer_instance

variable {types : List RRType} {off' : Nat} {n : Int}

theorem reads_bucketTypes (hat : Octets.At msg off ((typeBitmapOps types).flatMap PackOp.bytes))
    (hlen : off' = off + ((typeBitmapOps types).flatMap PackOp.bytes).length) (hn : n = (off' : Int) - off) :
    (decodeTypeBitmap n).Reads maxHops msg off (bucketTypes types) off' := by
  obtain ⟨hfull, hsorted, -⟩ := bucketsOf_spec types
  rw [typeBitmapOps, flatMap_assoc] at hat hlen
  have hend : ((off : Int) + n).toNat = off' := by omega
  refine .bind reads_offset ?_
  rw [hend]
  obtain ⟨last, hloop⟩ := @reads_loopUntil_ascending _ _ _ maxHops _ _ _ _ _ off' n.toNat (decodeWindow off')
    Bucket.win (fun b => windowTypes b.win b.trimmed) (fun b => b.ops.flatMap PackOp.bytes) (bucketsOf types)
    hsorted hat hlen (by omega) (fun b _ => by simp [b.bytes_ops])
    fun b hb s o => reads_decodeWindow (hfull b hb)
  exact .bind hloop (reads_pure _)

theorem reads_decodeTypeBitmap (htypes : types.Pairwise (· < ·)) (h : Laid msg off (typeBitmapOps types) hops off')
    (hn : n = (off' : Int) - off) : (decodeTypeBitmap n).Reads maxHops msg off types off' := by
  obtain ⟨-, hat, hlen⟩ := h.plain_inv (plain_typeBitmapOps types)
  simpa only [bucketTypes_eq htypes] using reads_bucketTypes hat hlen hn

theorem pairwise_of_decodeTypeBitmap (h : (decodeTypeBitmap n).Reads maxHops msg off types off') :
    types.Pairwise (· < ·) := by
  have hstep : ∀ end_ s c, (decodeWindow end_ s).Ensures maxHops c fun s' _ => ∃ k xs, s' = (some k, s.2 ++ xs) ∧
      (∀ last, s.1 = some last → last < k) ∧ (∀ t ∈ xs, t.window = k ∧ True) ∧ xs.Pairwise (· < ·) :=
    fun end_ s c => ensures_of_reads fun s' off' h => by
      simp [decodeWindow] at h
      obtain ⟨win, -, horder, ln, -, ⟨-, hln⟩, -, bm, ⟨-, hbm, -⟩, rfl, -⟩ := h
      have hlength : bm.length ≤ 32 := by
        have hle : ln.toNat ≤ 32 := UInt8.le_iff_toNat_le.mp hln
        omega
      refine ⟨win, windowTypes win bm, rfl, fun last hlast => by simpa [hlast] using horder,
        fun t ht => ⟨?_, trivial⟩, pairwise_windowTypes hlength⟩
      exact ((mem_windowTypes hlength).mp ht).1.symm
  simp [decodeTypeBitmap] at h
  obtain ⟨last, hloop⟩ := h
  exact (ensures_loopUntil_ascending (fun _ _ _ => UInt8.lt_trans) RRType.window (· < ·)
    (fun _ _ => RRType.lt_of_window_lt) (fun _ => True) (fun s c _ => hstep _ s c) _ _ hloop).1

/-- **Type bitmaps.** Behind whatever `p` holds and before whatever follows, the types of the bitmap are read
back in order and once each; and no window, well formed or not, gives types in another order. -/
theorem decodeTypeBitmap_distinct (maxHops : Nat) :
    (∀ (types : List RRType) (p : Packer) (rest : Bytes),
      ∃ distinct : List RRType, distinct.Pairwise (· < ·) ∧ (∀ t, t ∈ distinct ↔ t ∈ types) ∧
        decodeTypeBitmap ((p.run (typeBitmapOps types)).buf.length - p.buf.length) maxHops
            ⟨(p.run (typeBitmapOps types)).buf ++ rest, p.buf.length⟩ =
          (.ok distinct, ⟨(p.run (typeBitmapOps types)).buf ++ rest, (p.run (typeBitmapOps types)).buf.length⟩)) ∧
      ∀ (n : Int) (c c' : Cursor) (types : List RRType),
        decodeTypeBitmap n maxHops c = (.ok types, c') → types.Pairwise (· < ·) := by
  refine ⟨fun types p rest => ?_, fun n c c' types h => ?_⟩
  · obtain ⟨hpairwise, hmem⟩ := bucketTypes_spec types
    refine ⟨bucketTypes types, hpairwise, hmem, ?_⟩
    rw [Packer.run_plain (plain_typeBitmapOps types), Packer.raw, append_assoc]
    exact reads_bucketTypes (Octets.at_length_append _ _ _) length_append rfl
  · have hordered : (decodeTypeBitmap n).Ensures maxHops c fun types _ => types.Pairwise (· < ·) :=
      ensures_of_reads fun _ _ => pairwise_of_decodeTypeBitmap
    exact hordered types c' h

end Decode

/-! ### Payloads with a type bitmap -/

section Payloads

/-- The next owner name and the types at this one. -/
structure NSEC where
  next : Name
  types : List RRType
  deriving DecidableEq

def NSEC.ops (r : NSEC) : List PackOp := .nameUncompressed r.next :: typeBitmapOps r.types

def NSEC.Normal (r : NSEC) : Prop := r.next.isValid ∧ r.types.Pairwise (· < ·)

def unpackNSEC (rdlen : Nat) : Decoder NSEC := do
  let off ← offset
  let end_ := off + rdlen
  let next ← uncompressedName ((end_ : Int) - off)
  let off ← offset
  let types ← decodeTypeBitmap ((end_ : Int) - off)
  pure ⟨next, types⟩

theorem codec_unpackNSEC : Codec NSEC.ops unpackNSEC NSEC.Normal where
  reads {_ _ _ _ _ r} hr h _ _ := by
    obtain ⟨hnext, -, hrest⟩ := (laid_nameUncompressed hr.1).mp h
    have hle := hrest.le
    exact .bind reads_offset <| .bind (reads_uncompressedName hr.1 hnext (by omega)) <|
      .bind reads_offset <| .bind (reads_decodeTypeBitmap hr.2 hrest rfl) (reads_pure r)
  normal _ h := by
    simp [unpackNSEC] at h
    grind [NSEC.Normal, decodeWireUncompressed_isValid, pairwise_of_decodeTypeBitmap]

/-- The hashed form of NSEC (RFC 5155). -/
structure NSEC3 where
  hashAlg : UInt8
  flags : UInt8
  iterations : UInt16
  salt : Bytes
  nextOwner : Bytes
  types : List RRType
  deriving DecidableEq

def NSEC3.ops (r : NSEC3) : List PackOp :=
  .uint8 r.hashAlg :: .uint8 r.flags :: .uint16 r.iterations :: .uint8 (UInt8.ofNat r.salt.length) ::
    .raw r.salt :: .uint8 (UInt8.ofNat r.nextOwner.length) :: .raw r.nextOwner :: typeBitmapOps r.types

def NSEC3.Normal (r : NSEC3) : Prop :=
  r.salt.length ≤ 255 ∧ (r.nextOwner.length ≠ 0 ∧ r.nextOwner.length ≤ 255) ∧ r.types.Pairwise (· < ·)

def unpackNSEC3 (rdlen : Nat) : Decoder NSEC3 := do
  let off ← offset
  let end_ := off + rdlen
  let alg ← uint8
  let flags ← uint8
  let iters ← uint16
  let saltLen ← uint8
  let off ← offset
  failIf (off + saltLen.toNat > end_) (invalidRData s!"NSEC3 salt length {saltLen.toNat} exceeds rdata window")
  let salt ← bytes saltLen.toNat
  let hashLen ← uint8
  failIf (hashLen.toNat = 0) (invalidRData "NSEC3 next-hashed-owner length 0")
  let off ← offset
  failIf (off + hashLen.toNat > end_) (invalidRData s!"NSEC3 hash length {hashLen.toNat} exceeds rdata window")
  let hash ← bytes hashLen.toNat
  let off ← offset
  failIf (off > end_) (invalidRData "NSEC3 over-read")
  let types ← decodeTypeBitmap ((end_ : Int) - off)
  pure ⟨alg, flags, iters, salt, hash, types⟩

theorem codec_unpackNSEC3 : Codec NSEC3.ops unpackNSEC3 NSEC3.Normal where
  reads {_ _ _ _ _ r} hr h _ hend := by
    simp only [NSEC3.ops, laid_uint8, laid_uint16, laid_raw] at h
    obtain ⟨halg, hflags, hiters, hsaltLen, hsalt, hhashLen, hhash, hrest⟩ := h
    obtain ⟨hsaltMax, ⟨hzero, hmax⟩, htypes⟩ := hr
    have hsaltByte := toNat_ofNat8 hsaltMax
    have hhashByte := toNat_ofNat8 hmax
    have hle := hrest.le
    exact .bind reads_offset <| .bind (reads_uint8 halg) <| .bind (reads_uint8 hflags) <|
      .bind (reads_uint16 hiters) <| .bind (reads_uint8 hsaltLen) <| .bind reads_offset <|
      .bind (reads_failIf (by omega)) <| .bind (reads_bytes hsalt (by omega) (by omega)) <|
      .bind (reads_uint8 hhashLen) <| .bind (reads_failIf (by omega)) <| .bind reads_offset <|
      .bind (reads_failIf (by omega)) <| .bind (reads_bytes hhash (by omega) (by omega)) <|
      .bind reads_offset <| .bind (reads_failIf (by omega)) <|
      .bind (reads_decodeTypeBitmap htypes hrest rfl) (reads_pure r)
  normal _ h := by
    simp [unpackNSEC3] at h
    grind [NSEC3.Normal, UInt8.toNat_lt, pairwise_of_decodeTypeBitmap]

/-- The types a parent may copy from its child (RFC 7477). -/
structure CSYNC where
  soaSerial : UInt32
  flags : UInt16
  types : List RRType
  deriving DecidableEq

def CSYNC.ops (r : CSYNC) : List PackOp := .uint32 r.soaSerial :: .uint16 r.flags :: typeBitmapOps r.types

def unpackCSYNC (rdlen : Nat) : Decoder CSYNC := do
  failIf (rdlen < 6) (invalidRData s!"CSYNC rdlen {rdlen} below minimum 6")
  let off ← offset
  let end_ := off + rdlen
  let serial ← uint32
  let flags ← uint16
  let off ← offset
  let types ← decodeTypeBitmap ((end_ : Int) - off)
  pure ⟨serial, flags, types⟩

theorem codec_unpackCSYNC : Codec CSYNC.ops unpackCSYNC (·.types.Pairwise (· < ·)) where
  reads {_ _ _ _ _ r} hr h _ _ := by
    obtain ⟨hserial, hrest⟩ := laid_uint32.mp h
    obtain ⟨hflags, hrest⟩ := laid_uint16.mp hrest
    have hle := hrest.le
    exact .bind (reads_failIf (by omega)) <| .bind reads_offset <| .bind (reads_uint32 hserial) <|
      .bind (reads_uint16 hflags) <| .bind reads_offset <|
      .bind (reads_decodeTypeBitmap hr hrest rfl) (reads_pure r)
  normal _ h := by
    simp [unpackCSYNC] at h
    grind [pairwise_of_decodeTypeBitmap]

end Payloads

end Acidns
