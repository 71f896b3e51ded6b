import Mathlib.Data.List.DropRight
import Acidns.Wire.RData.Basic

/-!
# Service parameters and address prefixes

The rdata of `svcb.go` and `apl.go`: lists of items up to the end of the window. The parameters of a service binding stand in strictly increasing order of their keys and some have a value of a given form; an address prefix drops the zero bytes at the end of its address.
-/

namespace Acidns

open Parser Decoder List
open Octets (At bigEndian ofBigEndian)

/-! ### Service bindings -/

/-- One parameter of a service binding. -/
structure SVCBParam where
  key : UInt16
  data : Bytes
  deriving DecidableEq

namespace SvcParamKey

def mandatory : UInt16 := 0
def alpn : UInt16 := 1

end SvcParamKey

/-- A service binding (RFC 9460), for SVCB and HTTPS. -/
structure SvcbBody where
  priority : UInt16
  target : Name
  params : List SVCBParam
  deriving DecidableEq

def SVCBParam.ops (sp : SVCBParam) : List PackOp :=
  [.uint16 sp.key, .uint16 (UInt16.ofNat sp.data.length), .raw sp.data]

def SvcbBody.ops (r : SvcbBody) : List PackOp :=
  .uint16 r.priority :: .nameUncompressed r.target :: r.params.flatMap SVCBParam.ops

def decodeALPNLoop : (fuel : Nat) → Bytes → Except WireError (List Bytes)
  | 0, _ => .ok []
  | _ + 1, [] => .ok []
  | fuel + 1, l :: rest =>
    if l = 0 then .error (invalidRData "SVCB ALPN entry has zero length")
    else if l.toNat > rest.length then
      .error (invalidRData s!"SVCB ALPN entry length {l.toNat} exceeds remaining {rest.length}")
    else (decodeALPNLoop fuel (rest.drop l.toNat)).map (rest.take l.toNat :: ·)

/-- The protocol ids, each with its length before it. -/
def decodeALPN (buf : Bytes) : Except WireError (List Bytes) := decodeALPNLoop buf.length buf

/-- The checks the source makes on the parameters it knows. -/
def validateSvcParam (sp : SVCBParam) : Except WireError Unit :=
  if sp.key = SvcParamKey.alpn then (decodeALPN sp.data).map fun _ => () else .ok ()

/-- The keys of a mandatory list after `last`: increasing, all present, and none the key of the list itself. -/
def validateMandatoryKeys (present : List UInt16) : (last : Option UInt16) → Bytes → Except WireError Unit
  | last, hi :: lo :: rest =>
    let k := UInt16.ofNat (ofBigEndian [hi, lo])
    if k = SvcParamKey.mandatory then
      .error (invalidRData "SVCB mandatory list includes key 0 (itself)")
    else if last.any fun last => k ≤ last then
      .error (invalidRData s!"SVCB mandatory keys out of order or duplicate (key {k.toNat} after {(last.getD 0).toNat})")
    else if k ∉ present then
      .error (invalidRData s!"SVCB mandatory key {k.toNat} not present in record")
    else validateMandatoryKeys present (some k) rest
  | _, _ => .ok ()

/-- Every key that is called mandatory is present. -/
def validateMandatoryParam (params : List SVCBParam) : Except WireError Unit :=
  match (params.filter fun sp => sp.key = SvcParamKey.mandatory).getLast? with
  | none => .ok ()
  | some sp =>
    if sp.data.length = 0 then .error (invalidRData "SVCB mandatory list is empty")
    else if sp.data.length % 2 ≠ 0 then
      .error (invalidRData s!"SVCB mandatory length {sp.data.length} not multiple of 2")
    else validateMandatoryKeys (params.map SVCBParam.key) none sp.data

/-- Keys must ascend. -/
def unpackSvcParam (end_ : Nat) (s : Option UInt16 × List SVCBParam) :
    Decoder (Option UInt16 × List SVCBParam) := do
  let key ← uint16
  failIf (s.1.any fun last => key ≤ last)
    (invalidRData s!"SVCB params out of order or duplicate (key {key.toNat} after {(s.1.getD 0).toNat})")
  let l ← uint16
  let off ← offset
  failIf (off + l.toNat > end_) (invalidRData "SVCB param length out of range")
  let v ← bytes l.toNat
  ofExcept (validateSvcParam ⟨key, v⟩)
  pure (some key, s.2 ++ [⟨key, v⟩])

def unpackSvcbBody (rdlen : Nat) : Decoder SvcbBody := do
  let off ← offset
  let end_ := off + rdlen
  let prio ← uint16
  let off ← offset
  let target ← uncompressedName ((end_ : Int) - off)
  let s ← loopUntil end_ (unpackSvcParam end_) rdlen (none, [])
  ofExcept (validateMandatoryParam s.2)
  pure ⟨prio, target, s.2⟩

def unpackSVCB := unpackSvcbBody
def unpackHTTPS := unpackSvcbBody

def SVCBParam.Normal (sp : SVCBParam) : Prop := sp.data.length ≤ 65535 ∧ validateSvcParam sp = .ok ()

/-- What the decoder returns. -/
structure SvcbBody.Normal (r : SvcbBody) : Prop where
  target : r.target.isValid
  sorted : r.params.Pairwise (·.key < ·.key)
  param : ∀ sp ∈ r.params, sp.Normal
  mandatory : validateMandatoryParam r.params = .ok ()

section Svcb

variable {maxHops off : Nat} {msg : Bytes}

theorem SVCBParam.bytes_ops (sp : SVCBParam) : sp.ops.flatMap PackOp.bytes =
    bigEndian 2 sp.key.toNat ++ (bigEndian 2 (UInt16.ofNat sp.data.length).toNat ++ sp.data) := by
  simp [SVCBParam.ops, PackOp.bytes]

theorem SVCBParam.length_bytes_ops (sp : SVCBParam) :
    (sp.ops.flatMap PackOp.bytes).length = 4 + sp.data.length := by
  simp only [sp.bytes_ops, length_append, Octets.length_bigEndian]
  omega

theorem reads_unpackSvcParam {end_ : Nat} {s : Option UInt16 × List SVCBParam} {sp : SVCBParam}
    (hsp : sp.Normal) (hlast : ∀ last, s.1 = some last → last < sp.key)
    (hat : At msg off (sp.ops.flatMap PackOp.bytes)) (hend : off + (sp.ops.flatMap PackOp.bytes).length ≤ end_) :
    (unpackSvcParam end_ s).Reads maxHops msg off (some sp.key, s.2 ++ [sp])
      (off + (sp.ops.flatMap PackOp.bytes).length) := by
  have hfit := hat.end_le (ne_nil_of_length_pos (by rw [sp.length_bytes_ops]; omega))
  rw [sp.length_bytes_ops] at *
  rw [sp.bytes_ops, Octets.at_append, Octets.at_append, Octets.length_bigEndian, Octets.length_bigEndian] at hat
  obtain ⟨hkey, hl, hv⟩ := hat
  have hword := toNat_ofNat16 hsp.1
  have horder : ¬(s.1.any fun last => sp.key ≤ last) := by
    cases hs : s.1 with
    | none => simp
    | some last =>
      simp only [Option.any_some, decide_eq_true_eq, UInt16.not_le]
      exact hlast last hs
  rw [show off + (4 + sp.data.length) = off + 2 + 2 + sp.data.length by omega]
  exact .bind (reads_uint16 hkey) <| .bind (reads_failIf horder) <| .bind (reads_uint16 hl) <|
    .bind reads_offset <| .bind (reads_failIf (by omega)) <|
    .bind (reads_bytes hv (by omega) (by omega)) <| .bind (reads_ofExcept hsp.2) (reads_pure _)

theorem plain_params (params : List SVCBParam) :
    ∀ op ∈ params.flatMap SVCBParam.ops, op.compressed = none :=
  plain_flatMap fun _ => by simp [SVCBParam.ops, PackOp.compressed]

instance (end_ : Nat) (s : Option UInt16 × List SVCBParam) : Local (unpackSvcParam end_ s) := by
  dsimp only [unpackSvcParam]; infer_instance

theorem codec_unpackSvcbBody : Codec SvcbBody.ops unpackSvcbBody SvcbBody.Normal where
  reads {maxHops off rdlen msg _ r} hr h _ hend := by
    obtain ⟨hprio, hrest⟩ := laid_uint16.mp h
    obtain ⟨htarget, -, hrest⟩ := (laid_nameUncompressed hr.target).mp hrest
    have hle := hrest.le
    obtain ⟨-, hat, hlen⟩ := hrest.plain_inv (plain_params r.params)
    rw [flatMap_assoc] at hat hlen
    obtain ⟨last, hloop⟩ : ∃ last, (loopUntil (off + rdlen) (unpackSvcParam (off + rdlen)) rdlen (none, [])).Reads
        maxHops msg (off + 2 + r.target.wire.length) (last, r.params.flatMap fun sp => [sp]) (off + rdlen) :=
      reads_loopUntil_ascending SVCBParam.key (fun sp => [sp]) (fun sp => sp.ops.flatMap PackOp.bytes) r.params
        hr.sorted hat hlen (by omega) (fun sp _ => ne_nil_of_length_pos (by rw [sp.length_bytes_ops]; omega))
        fun sp hsp s o => reads_unpackSvcParam (hr.param sp hsp)
    rw [flatMap_singleton'] at hloop
    exact .bind reads_offset <| .bind (reads_uint16 hprio) <| .bind reads_offset <|
      .bind (reads_uncompressedName hr.target htarget (by omega)) <| .bind hloop <|
      .bind (reads_ofExcept hr.mandatory) (reads_pure r)
  normal {maxHops _ _ _ _ _} _ h := by
    have hstep : ∀ end_ s c, (unpackSvcParam end_ s).Ensures maxHops c fun s' _ => ∃ k xs, s' = (some k, s.2 ++ xs) ∧
        (∀ last, s.1 = some last → last < k) ∧ (∀ sp ∈ xs, sp.key = k ∧ sp.Normal) ∧
          xs.Pairwise (·.key < ·.key) := fun end_ s c => ensures_of_reads fun s' off' h => by
      simp [unpackSvcParam] at h
      obtain ⟨key, -, horder, l, -, -, v, ⟨-, hv, -⟩, ⟨⟨⟩, hvalid⟩, rfl, -⟩ := h
      have hl := l.toNat_lt
      refine ⟨key, [⟨key, v⟩], rfl, fun last hlast => by simpa [hlast] using horder, ?_, pairwise_singleton _ _⟩
      rintro sp (_ | ⟨_, ⟨⟩⟩)
      exact ⟨rfl, show v.length ≤ 65535 by omega, hvalid⟩
    simp [unpackSvcbBody] at h
    obtain ⟨prio, -, target, next, ⟨htarget, -⟩, last, params, hloop, ⟨⟨⟩, hmandatory⟩, rfl⟩ := h
    obtain ⟨hsorted, hparams⟩ := ensures_loopUntil_ascending (fun _ _ _ => UInt16.lt_trans) SVCBParam.key
      (·.key < ·.key) (fun _ _ h => h) SVCBParam.Normal (fun s c _ => hstep _ s c) _ _ hloop
    exact ⟨decodeWireUncompressed_isValid htarget, hsorted, hparams, hmandatory⟩

end Svcb

/-! ### Address prefixes -/

/-- An address and the number of its leading bits, with the address family of `family`. -/
inductive AplAddr where
  | v4 (addr : FixedBytes 4)
  | v6 (addr : FixedBytes 16)
  deriving DecidableEq

namespace AplAddr

def family : AplAddr → UInt16
  | v4 _ => 1
  | v6 _ => 2

def raw : AplAddr → Bytes
  | v4 addr => addr.val
  | v6 addr => addr.val

def width : AplAddr → Nat
  | v4 _ => 32
  | v6 _ => 128

end AplAddr

/-- One address prefix, possibly negated (RFC 3123). -/
structure APLItem where
  addr : AplAddr
  bits : UInt8
  neg : Bool
  deriving DecidableEq

/-- Trailing zero bytes of an address are not sent. -/
def encodeAPLAFD (addr : AplAddr) : Bytes := addr.raw.rdropWhile (· = 0)

/-- The negation bit above the length. -/
def aplLengthByte (alen : Nat) (neg : Bool) : UInt8 :=
  if neg then UInt8.ofNat alen &&& 0x7f ||| 0x80 else UInt8.ofNat alen &&& 0x7f

def APLItem.ops (it : APLItem) : List PackOp :=
  [.uint16 it.addr.family, .uint8 it.bits, .uint8 (aplLengthByte (encodeAPLAFD it.addr).length it.neg),
    .raw (encodeAPLAFD it.addr)]

def aplOps (items : List APLItem) : List PackOp := items.flatMap APLItem.ops

/-- The zero bytes that were not sent, put back. -/
def padAddr (n : Nat) (afd : Bytes) (h : afd.length ≤ n) : FixedBytes n :=
  ⟨afd ++ List.replicate (n - afd.length) 0, by rw [length_append, length_replicate]; omega⟩

/-- The address of a family from the bytes that were sent. -/
def decodeAPLAFD (family : UInt16) (bits : UInt8) (afd : Bytes) : Except WireError AplAddr :=
  if family = 1 then
    if h : bits > 32 ∨ afd.length > 4 then
      .error (invalidRData s!"APL IPv4 prefix={bits.toNat} afdlen={afd.length}")
    else .ok (.v4 (padAddr 4 afd (by omega)))
  else if family = 2 then
    if h : bits > 128 ∨ afd.length > 16 then
      .error (invalidRData s!"APL IPv6 prefix={bits.toNat} afdlen={afd.length}")
    else .ok (.v6 (padAddr 16 afd (by omega)))
  else .error (invalidRData s!"APL unknown family {family.toNat}")

def unpackAPLItem (end_ : Nat) : Decoder APLItem := do
  let fam ← uint16
  let bits ← uint8
  let nlen ← uint8
  let alen := (nlen &&& 0x7f).toNat
  let off ← offset
  failIf (off + alen > end_) (invalidRData s!"APL afdlength {alen} walks past rdata window")
  let afd ← bytes alen
  let addr ← ofExcept (decodeAPLAFD fam bits afd)
  pure ⟨addr, bits, nlen &&& 0x80 ≠ 0⟩

def unpackAPL (rdlen : Nat) : Decoder (List APLItem) := do
  let off ← offset
  let end_ := off + rdlen
  loopUntil end_ (collect (unpackAPLItem end_)) rdlen []

def APLItem.Normal (it : APLItem) : Prop := it.bits.toNat ≤ it.addr.width

section Apl

variable {maxHops off : Nat} {msg : Bytes}

theorem padAddr_rdropWhile {n : Nat} (addr : FixedBytes n)
    (h : (addr.val.rdropWhile (· = 0)).length ≤ n) : padAddr n (addr.val.rdropWhile (· = 0)) h = addr := by
  apply Subtype.ext
  have hsplit := @rdropWhile_append_rtakeWhile _ (fun b : UInt8 => decide (b = 0)) addr.val
  have hlen := congrArg List.length hsplit
  rw [length_append, addr.property] at hlen
  have hzeros : addr.val.rtakeWhile (· = 0) =
      List.replicate (n - (addr.val.rdropWhile (· = 0)).length) 0 := by
    refine eq_replicate_iff.mpr ⟨by omega, fun b hb => ?_⟩
    have hzero := mem_rtakeWhile_imp hb
    exact of_decide_eq_true hzero
  rw [hzeros] at hsplit
  exact hsplit

theorem length_encodeAPLAFD (addr : AplAddr) : (encodeAPLAFD addr).length ≤ addr.width / 8 := by
  have hle : (encodeAPLAFD addr).length ≤ addr.raw.length := by
    have hlen := congrArg List.length (@rdropWhile_append_rtakeWhile _ (fun b : UInt8 => decide (b = 0)) addr.raw)
    rw [length_append] at hlen
    exact Nat.le_of_add_right_le (Nat.le_of_eq hlen)
  cases addr with
  | v4 a => simpa [AplAddr.raw, AplAddr.width, a.property] using hle
  | v6 a => simpa [AplAddr.raw, AplAddr.width, a.property] using hle

theorem decodeAPLAFD_encodeAPLAFD {addr : AplAddr} {bits : UInt8} (hbits : bits.toNat ≤ addr.width) :
    decodeAPLAFD addr.family bits (encodeAPLAFD addr) = .ok addr := by
  have hlen := length_encodeAPLAFD addr
  cases addr with
  | v4 a =>
    have hok : ¬(bits > 32 ∨ (encodeAPLAFD (.v4 a)).length > 4) := by grind [UInt8.lt_iff_toNat_lt, AplAddr.width]
    simp only [decodeAPLAFD, AplAddr.family, if_true, dif_neg hok]
    exact congrArg (Except.ok ∘ AplAddr.v4) (padAddr_rdropWhile a _)
  | v6 a =>
    have hok : ¬(bits > 128 ∨ (encodeAPLAFD (.v6 a)).length > 16) := by grind [UInt8.lt_iff_toNat_lt, AplAddr.width]
    have hfamily : ¬(2 : UInt16) = 1 := by decide
    simp only [decodeAPLAFD, AplAddr.family, if_neg hfamily, if_true, dif_neg hok]
    exact congrArg (Except.ok ∘ AplAddr.v6) (padAddr_rdropWhile a _)

theorem bits_le_of_decodeAPLAFD {family : UInt16} {bits : UInt8} {afd : Bytes} {addr : AplAddr}
    (h : decodeAPLAFD family bits afd = .ok addr) : bits.toNat ≤ addr.width := by
  have hle : ∀ {k : UInt8} {P : Prop}, ¬(bits > k ∨ P) → bits.toNat ≤ k.toNat := fun hno =>
    UInt8.le_iff_toNat_le.mp (UInt8.not_lt.mp fun hgt => hno (.inl hgt))
  rw [decodeAPLAFD] at h
  split at h
  · split at h
    · cases h
    · cases h
      exact hle ‹_›
  · split at h
    · split at h
      · cases h
      · cases h
        exact hle ‹_›
    · cases h

theorem aplLengthByte_spec : ∀ alen ≤ 16, ∀ neg, (aplLengthByte alen neg &&& 0x7f).toNat = alen ∧
    decide (aplLengthByte alen neg &&& 0x80 ≠ 0) = neg := by
  decide

theorem APLItem.bytes_ops (it : APLItem) : it.ops.flatMap PackOp.bytes =
    bigEndian 2 it.addr.family.toNat ++ (it.bits ::
      aplLengthByte (encodeAPLAFD it.addr).length it.neg :: encodeAPLAFD it.addr) := by
  simp [APLItem.ops, PackOp.bytes]

theorem APLItem.bytes_ops_ne_nil (it : APLItem) : it.ops.flatMap PackOp.bytes ≠ [] := by
  exact append_ne_nil_of_right_ne_nil _ (cons_ne_nil _ _)

theorem reads_unpackAPLItem {end_ : Nat} {it : APLItem} (hit : it.Normal)
    (hat : At msg off (it.ops.flatMap PackOp.bytes)) (hend : off + (it.ops.flatMap PackOp.bytes).length ≤ end_) :
    (unpackAPLItem end_).Reads maxHops msg off it (off + (it.ops.flatMap PackOp.bytes).length) := by
  have hfit := hat.end_le it.bytes_ops_ne_nil
  rw [it.bytes_ops] at *
  simp only [length_append, length_cons, Octets.length_bigEndian] at hend hfit ⊢
  obtain ⟨hfam, hrest⟩ := Octets.at_append.mp hat
  obtain ⟨hbits, hrest⟩ := Octets.at_cons.mp hrest
  obtain ⟨hnlen, hafd⟩ := Octets.at_cons.mp hrest
  have hmax : (encodeAPLAFD it.addr).length ≤ 16 := by
    refine Nat.le_trans (length_encodeAPLAFD it.addr) ?_
    cases it.addr <;> simp [AplAddr.width]
  obtain ⟨halen, hneg⟩ := aplLengthByte_spec _ hmax it.neg
  rw [show off + (2 + ((encodeAPLAFD it.addr).length + 1 + 1)) =
    off + 2 + 1 + 1 + (encodeAPLAFD it.addr).length by omega]
  refine .bind (reads_uint16 hfam) <| .bind (reads_uint8 hbits) <| .bind (reads_uint8 hnlen) <|
    .bind reads_offset ?_
  rw [halen, hneg]
  exact .bind (reads_failIf (by omega)) <| .bind (reads_bytes hafd (by omega) (by omega)) <|
    .bind (reads_ofExcept (decodeAPLAFD_encodeAPLAFD hit)) (reads_pure it)

theorem plain_aplOps (items : List APLItem) : ∀ op ∈ aplOps items, op.compressed = none :=
  plain_flatMap fun _ => by simp [APLItem.ops, PackOp.compressed]

instance (end_ : Nat) : Local (unpackAPLItem end_) := by dsimp only [unpackAPLItem]; infer_instance

theorem codec_unpackAPL : Codec aplOps unpackAPL fun items => (∀ it ∈ items, it.Normal) ∧ items ≠ [] where
  reads {_ _ _ _ _ items} hitems h _ _ := by
    obtain ⟨-, hat, hlen⟩ := h.plain_inv (plain_aplOps items)
    rw [aplOps, flatMap_assoc] at hat hlen
    refine .bind reads_offset (reads_loopUntil_collect _ items hat hlen (Nat.le_refl _) ?_ ?_)
    · intro it _
      exact it.bytes_ops_ne_nil
    · intro it hit o hat hle
      exact reads_unpackAPLItem (hitems.1 it hit) hat hle
  normal {maxHops _ _ _ _ _} hpos h := by
    have hitem : ∀ end_ c, (unpackAPLItem end_).Ensures maxHops c fun it _ => it.Normal := fun end_ c =>
      ensures_of_reads fun it off' h => by
        simp [unpackAPLItem] at h
        grind [APLItem.Normal, bits_le_of_decodeAPLAFD]
    exact Ensures.bind (.offset (.and (ensures_loopUntil_collect fun c _ => hitem _ c)
      (ensures_loopUntil_collect_ne_nil (by omega) hpos))) _ _ h

end Apl

end Acidns
