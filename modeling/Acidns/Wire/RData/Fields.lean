import Acidns.Wire.RData.Basic

/-!
# Keys, digests and locators

The rdata of `dnssec.go` without the type bitmaps, `cds.go`, `cert.go`, `sshfp.go`, `tlsa.go`, `uri.go`, `zonemd.go`, `ilnp.go`, `loc.go`, `nsec3param.go`, `caa.go`, `hip.go`, `ipseckey.go`, `amtrelay.go` and `tkey.go`: fixed fields in front of a byte string that takes the rest of the window, or of byte strings with their lengths.
-/

namespace Acidns

open Parser Decoder
open Octets (At)

section Fields

variable {maxHops off rdlen : Nat} {msg : Bytes} {hops : List Nat}

/-! ### Fixed fields in front of the rest of the window -/

/-- The fields of `DS` and of `CDS`. -/
structure DS where
  keyTag : UInt16
  algorithm : UInt8
  digestT : UInt8
  digest : Bytes
  deriving DecidableEq

def DS.ops (r : DS) : List PackOp :=
  [.uint16 r.keyTag, .uint8 r.algorithm, .uint8 r.digestT, .raw r.digest]

/-- DS and CDS share one layout. -/
def unpackDelegation (label : String) (rdlen : Nat) : Decoder DS := do
  failIf (rdlen < 4) (invalidRData s!"{label} rdlen {rdlen} below minimum 4")
  let off ← offset
  let end_ := off + rdlen
  let tag ← uint16
  let alg ← uint8
  let dt ← uint8
  let off ← offset
  let dig ← bytes ((end_ : Int) - off)
  pure ⟨tag, alg, dt, dig⟩

def unpackDS := unpackDelegation "DS"
def unpackCDS := unpackDelegation "CDS"

variable {label noun : String} {end_ off' : Nat} {g : Gateway}

theorem codec_unpackDelegation : Codec DS.ops (unpackDelegation label) fun _ => True where
  reads {_ _ _ _ _ r} _ h _ _ := by
    obtain ⟨keyTag, algorithm, digestT, digest⟩ := r
    simp [DS.ops] at h
    simp [unpackDelegation, h]
    omega
  normal _ _ := trivial

/-- The fields of `DNSKEY` and of `CDNSKEY`. -/
structure DNSKEY where
  flags : UInt16
  protocol : UInt8
  algorithm : UInt8
  pubkey : Bytes
  deriving DecidableEq

def DNSKEY.ops (r : DNSKEY) : List PackOp :=
  [.uint16 r.flags, .uint8 r.protocol, .uint8 r.algorithm, .raw r.pubkey]

def unpackDNSKEY (rdlen : Nat) : Decoder DNSKEY := do
  failIf (rdlen < 4) (invalidRData s!"DNSKEY rdlen {rdlen} below minimum 4")
  let off ← offset
  let end_ := off + rdlen
  let flags ← uint16
  let proto ← uint8
  failIf (proto ≠ 3) (invalidRData s!"DNSKEY protocol {proto.toNat}, RFC 4034 §2.1.2 mandates 3")
  let alg ← uint8
  let off ← offset
  let pk ← bytes ((end_ : Int) - off)
  pure ⟨flags, proto, alg, pk⟩

/-- Unlike a `DNSKEY`, a `CDNSKEY` is decoded with any protocol number. -/
def unpackCDNSKEY (rdlen : Nat) : Decoder DNSKEY := do
  failIf (rdlen < 4) (invalidRData s!"CDNSKEY rdlen {rdlen} below minimum 4")
  let off ← offset
  let end_ := off + rdlen
  let flags ← uint16
  let proto ← uint8
  let alg ← uint8
  let off ← offset
  let pk ← bytes ((end_ : Int) - off)
  pure ⟨flags, proto, alg, pk⟩

theorem codec_unpackDNSKEY : Codec DNSKEY.ops unpackDNSKEY (·.protocol = 3) where
  reads {_ _ _ _ _ r} hr h _ _ := by
    obtain ⟨flags, protocol, algorithm, pubkey⟩ := r
    obtain rfl : protocol = 3 := hr
    simp [DNSKEY.ops] at h
    simp [unpackDNSKEY, h]
    omega
  normal _ h := by
    simp [unpackDNSKEY] at h
    grind

theorem codec_unpackCDNSKEY : Codec DNSKEY.ops unpackCDNSKEY fun _ => True where
  reads {_ _ _ _ _ r} _ h _ _ := by
    obtain ⟨flags, protocol, algorithm, pubkey⟩ := r
    simp [DNSKEY.ops] at h
    simp [unpackCDNSKEY, h]
    omega
  normal _ _ := trivial

/-- A certificate (RFC 4398). -/
structure CERT where
  certType : UInt16
  keyTag : UInt16
  algorithm : UInt8
  cert : Bytes
  deriving DecidableEq

def CERT.ops (r : CERT) : List PackOp :=
  [.uint16 r.certType, .uint16 r.keyTag, .uint8 r.algorithm, .raw r.cert]

def unpackCERT (rdlen : Nat) : Decoder CERT := do
  failIf (rdlen < 5) (invalidRData s!"CERT rdlen {rdlen} < 5")
  let off ← offset
  let end_ := off + rdlen
  let ct ← uint16
  let tag ← uint16
  let alg ← uint8
  let off ← offset
  let cert ← bytes ((end_ : Int) - off)
  pure ⟨ct, tag, alg, cert⟩

theorem codec_unpackCERT : Codec CERT.ops unpackCERT fun _ => True where
  reads {_ _ _ _ _ r} _ h _ _ := by
    obtain ⟨certType, keyTag, algorithm, cert⟩ := r
    simp [CERT.ops] at h
    simp [unpackCERT, h]
    omega
  normal _ _ := trivial

/-- The fingerprint of a host key (RFC 4255). -/
structure SSHFP where
  alg : UInt8
  fpt : UInt8
  value : Bytes
  deriving DecidableEq

def SSHFP.ops (r : SSHFP) : List PackOp := [.uint8 r.alg, .uint8 r.fpt, .raw r.value]

def unpackSSHFP (rdlen : Nat) : Decoder SSHFP := do
  failIf (rdlen < 2) (invalidRData s!"SSHFP rdlen {rdlen} below minimum 2")
  let alg ← uint8
  let fpt ← uint8
  let fp ← bytes ((rdlen : Int) - 2)
  pure ⟨alg, fpt, fp⟩

theorem codec_unpackSSHFP : Codec SSHFP.ops unpackSSHFP fun _ => True where
  reads {_ _ _ _ _ r} _ h _ _ := by
    obtain ⟨alg, fpt, value⟩ := r
    simp [SSHFP.ops] at h
    simp [unpackSSHFP, h]
    omega
  normal _ _ := trivial

/-- The fields of `TLSA` and of `SMIMEA`. -/
structure TLSA where
  usage : UInt8
  selector : UInt8
  matching : UInt8
  data : Bytes
  deriving DecidableEq

def TLSA.ops (r : TLSA) : List PackOp :=
  [.uint8 r.usage, .uint8 r.selector, .uint8 r.matching, .raw r.data]

/-- TLSA and SMIMEA share one layout. -/
def unpackAssociation (label : String) (rdlen : Nat) : Decoder TLSA := do
  failIf (rdlen < 3) (invalidRData s!"{label} rdlen {rdlen} below minimum 3")
  let usage ← uint8
  let selector ← uint8
  let matching ← uint8
  let data ← bytes ((rdlen : Int) - 3)
  pure ⟨usage, selector, matching, data⟩

def unpackTLSA := unpackAssociation "TLSA"
def unpackSMIMEA := unpackAssociation "SMIMEA"

theorem codec_unpackAssociation : Codec TLSA.ops (unpackAssociation label) fun _ => True where
  reads {_ _ _ _ _ r} _ h _ _ := by
    obtain ⟨usage, selector, matching, data⟩ := r
    simp [TLSA.ops] at h
    simp [unpackAssociation, h]
    omega
  normal _ _ := trivial

/-- A weighted URI (RFC 7553). -/
structure URI where
  priority : UInt16
  weight : UInt16
  target : Bytes
  deriving DecidableEq

def URI.ops (r : URI) : List PackOp := [.uint16 r.priority, .uint16 r.weight, .raw r.target]

def unpackURI (rdlen : Nat) : Decoder URI := do
  failIf (rdlen < 5) (invalidRData s!"URI rdlen={rdlen}, want >=5")
  let pr ← uint16
  let w ← uint16
  let t ← bytes ((rdlen : Int) - 4)
  pure ⟨pr, w, t⟩

theorem codec_unpackURI : Codec URI.ops unpackURI (·.target ≠ []) where
  reads {_ _ _ _ _ r} hr h _ _ := by
    obtain ⟨priority, weight, target⟩ := r
    have hpos : 0 < target.length := List.length_pos_iff.mpr hr
    simp [URI.ops] at h
    simp [unpackURI, h]
    omega
  normal _ h := by
    simp [unpackURI] at h
    obtain ⟨hmin, pr, -, w, -, t, ⟨-, ht, -⟩, rfl, -⟩ := h
    exact List.ne_nil_of_length_pos (show 0 < t.length by omega)

/-- A digest over a zone (RFC 8976). -/
structure ZONEMD where
  serial : UInt32
  scheme : UInt8
  hash : UInt8
  digest : Bytes
  deriving DecidableEq

def ZONEMD.ops (r : ZONEMD) : List PackOp :=
  [.uint32 r.serial, .uint8 r.scheme, .uint8 r.hash, .raw r.digest]

/-- The digest length of a registered hash. -/
def zonemdDigestLen (hash : UInt8) : Option Nat :=
  if hash = 1 then some 48 else if hash = 2 then some 64 else none

def validateZONEMDDigestLength (hash : UInt8) (n : Nat) : Except WireError Unit :=
  match zonemdDigestLen hash with
  | none => .ok ()
  | some want =>
    if n ≠ want then
      .error (invalidRData s!"ZONEMD hash {hash.toNat} digest len={n}, RFC 8976 §4 mandates {want}")
    else .ok ()

def unpackZONEMD (rdlen : Nat) : Decoder ZONEMD := do
  failIf (rdlen < 6) (invalidRData s!"ZONEMD rdlen={rdlen}, want >=6")
  let serial ← uint32
  let scheme ← uint8
  let hash ← uint8
  let digest ← bytes ((rdlen : Int) - 6)
  ofExcept (validateZONEMDDigestLength hash digest.length)
  pure ⟨serial, scheme, hash, digest⟩

def ZONEMD.Normal (r : ZONEMD) : Prop := validateZONEMDDigestLength r.hash r.digest.length = .ok ()

theorem codec_unpackZONEMD : Codec ZONEMD.ops unpackZONEMD ZONEMD.Normal where
  reads {_ _ _ _ _ r} hr h _ _ := by
    obtain ⟨serial, scheme, hash, digest⟩ := r
    have hok : validateZONEMDDigestLength hash digest.length = .ok () := hr
    simp [ZONEMD.ops] at h
    simp [unpackZONEMD, hok, h]
    omega
  normal _ h := by
    simp [unpackZONEMD] at h
    grind [ZONEMD.Normal]

/-! ### Numbers only -/

/-- The fields of `NID` and of `L64`: a preference and a 64-bit number. -/
structure Locator64 where
  pref : UInt16
  value : UInt64
  deriving DecidableEq

def Locator64.ops (r : Locator64) : List PackOp :=
  [.uint16 r.pref, .uint32 (UInt32.ofNat (r.value.toNat / 2 ^ 32)), .uint32 (UInt32.ofNat r.value.toNat)]

def unpackLocator64 (label : String) (rdlen : Nat) : Decoder Locator64 := do
  failIf (rdlen ≠ 10) (invalidRData s!"{label} rdlen={rdlen}, want 10")
  let pref ← uint16
  let hi ← uint32
  let lo ← uint32
  pure ⟨pref, UInt64.ofNat (hi.toNat * 2 ^ 32 + lo.toNat)⟩

def unpackNID := unpackLocator64 "NID"
def unpackL64 := unpackLocator64 "L64"

theorem uint64_halves (v : UInt64) :
    UInt64.ofNat ((UInt32.ofNat (v.toNat / 2 ^ 32)).toNat * 2 ^ 32 + (UInt32.ofNat v.toNat).toNat) = v := by
  have hv := v.toNat_lt
  have hhi : (UInt32.ofNat (v.toNat / 2 ^ 32)).toNat = v.toNat / 2 ^ 32 := by
    rw [UInt32.toNat_ofNat']
    omega
  have hlo : (UInt32.ofNat v.toNat).toNat = v.toNat % 2 ^ 32 := UInt32.toNat_ofNat'
  rw [hhi, hlo, Nat.div_add_mod', UInt64.ofNat_toNat]

theorem codec_unpackLocator64 : Codec Locator64.ops (unpackLocator64 label) fun _ => True where
  reads {_ _ _ _ _ r} _ h _ _ := by
    simp only [Locator64.ops, laid_uint16, laid_uint32, laid_nil] at h
    obtain ⟨hpref, hhi, hlo, -, hlen⟩ := h
    rw [hlen]
    refine .bind (reads_failIf (by omega)) <| .bind (reads_uint16 hpref) <|
      .bind (reads_uint32 hhi) <| .bind (reads_uint32 hlo) ?_
    rw [uint64_halves]
    exact reads_pure r
  normal _ _ := trivial

/-- A 32-bit locator. -/
structure L32 where
  pref : UInt16
  loc : UInt32
  deriving DecidableEq

def L32.ops (r : L32) : List PackOp := [.uint16 r.pref, .uint32 r.loc]

def unpackL32 (rdlen : Nat) : Decoder L32 := do
  failIf (rdlen ≠ 6) (invalidRData s!"L32 rdlen={rdlen}, want 6")
  let pref ← uint16
  let loc ← uint32
  pure ⟨pref, loc⟩

theorem codec_unpackL32 : Codec L32.ops unpackL32 fun _ => True where
  reads {_ _ _ _ _ r} _ h _ _ := by
    obtain ⟨pref, loc⟩ := r
    simp [L32.ops] at h
    simp [unpackL32, h]
    omega
  normal _ _ := trivial

/-- A place on earth (RFC 1876). -/
structure LOC where
  version : UInt8
  size : UInt8
  horizPre : UInt8
  vertPre : UInt8
  lat : UInt32
  lon : UInt32
  alt : UInt32
  deriving DecidableEq

def LOC.ops (r : LOC) : List PackOp :=
  [.uint8 r.version, .uint8 r.size, .uint8 r.horizPre, .uint8 r.vertPre, .uint32 r.lat, .uint32 r.lon,
    .uint32 r.alt]

/-- Mantissa and exponent are decimal digits. -/
def validateLOCSizeByte (name : String) (b : UInt8) : Except WireError Unit :=
  let mantissa := b >>> 4
  let exponent := b &&& 0x0f
  if mantissa > 9 then
    .error (invalidRData s!"LOC {name} mantissa nibble {mantissa.toNat} > 9, RFC 1876 §3")
  else if exponent > 9 then
    .error (invalidRData s!"LOC {name} exponent nibble {exponent.toNat} > 9, RFC 1876 §3")
  else .ok ()

def LOC.Normal (r : LOC) : Prop :=
  validateLOCSizeByte "size" r.size = .ok () ∧ validateLOCSizeByte "horizPre" r.horizPre = .ok () ∧
    validateLOCSizeByte "vertPre" r.vertPre = .ok ()

def unpackLOC (rdlen : Nat) : Decoder LOC := do
  failIf (rdlen ≠ 16) (invalidRData s!"LOC rdlen={rdlen}, want 16")
  let v ← uint8
  let sz ← uint8
  ofExcept (validateLOCSizeByte "size" sz)
  let hp ← uint8
  ofExcept (validateLOCSizeByte "horizPre" hp)
  let vp ← uint8
  ofExcept (validateLOCSizeByte "vertPre" vp)
  let lat ← uint32
  let lon ← uint32
  let alt ← uint32
  pure ⟨v, sz, hp, vp, lat, lon, alt⟩

theorem codec_unpackLOC : Codec LOC.ops unpackLOC LOC.Normal where
  reads {_ _ _ _ _ r} hr h _ _ := by
    obtain ⟨version, size, horizPre, vertPre, lat, lon, alt⟩ := r
    simp [LOC.ops] at h
    simp [LOC.Normal] at hr
    simp [unpackLOC, hr, h]
    omega
  normal _ h := by
    simp [unpackLOC] at h
    grind [LOC.Normal]

/-! ### Signatures -/

/-- A signature over a record set. -/
structure RRSIG where
  typeCovered : RRType
  algorithm : UInt8
  labels : UInt8
  origTTL : UInt32
  sigExp : UInt32
  sigInc : UInt32
  keyTag : UInt16
  signerName : Name
  signature : Bytes
  deriving DecidableEq

def RRSIG.ops (r : RRSIG) : List PackOp :=
  [.uint16 r.typeCovered, .uint8 r.algorithm, .uint8 r.labels, .uint32 r.origTTL, .uint32 r.sigExp,
    .uint32 r.sigInc, .uint16 r.keyTag, .nameUncompressed r.signerName, .raw r.signature]

def unpackRRSIG (rdlen : Nat) : Decoder RRSIG := do
  failIf (rdlen < 19) (invalidRData s!"RRSIG rdlen {rdlen} below minimum 19")
  let off ← offset
  let end_ := off + rdlen
  let tc ← uint16
  let alg ← uint8
  let labels ← uint8
  let origTTL ← uint32
  let sigExp ← uint32
  let sigInc ← uint32
  let keyTag ← uint16
  let off ← offset
  let signer ← uncompressedName ((end_ : Int) - off)
  let off ← offset
  let sig ← bytes ((end_ : Int) - off)
  pure ⟨tc, alg, labels, origTTL, sigExp, sigInc, keyTag, signer, sig⟩

theorem codec_unpackRRSIG : Codec RRSIG.ops unpackRRSIG (·.signerName.isValid) where
  reads {_ _ _ _ _ r} hr h _ _ := by
    obtain ⟨typeCovered, algorithm, labels, origTTL, sigExp, sigInc, keyTag, signerName, signature⟩ := r
    have hpos : 0 < signerName.wire.length := Name.length_wire_pos hr
    simp [RRSIG.ops, laid_nameUncompressed hr] at h
    simp [unpackRRSIG, h]
    omega
  normal _ h := by
    simp [unpackRRSIG] at h
    grind [decodeWireUncompressed_isValid]

/-! ### Byte strings with their lengths -/

/-- The hash parameters of a zone (RFC 5155). -/
structure NSEC3PARAM where
  alg : UInt8
  flags : UInt8
  iter : UInt16
  salt : CharString
  deriving DecidableEq

def NSEC3PARAM.ops (r : NSEC3PARAM) : List PackOp :=
  [.uint8 r.alg, .uint8 r.flags, .uint16 r.iter, .uint8 (UInt8.ofNat r.salt.val.length), .raw r.salt.val]

def unpackNSEC3PARAM (rdlen : Nat) : Decoder NSEC3PARAM := do
  let off ← offset
  let end_ := off + rdlen
  let alg ← uint8
  let flags ← uint8
  let iter ← uint16
  let saltLen ← uint8
  let off ← offset
  failIf (off + saltLen.toNat > end_)
    (invalidRData s!"NSEC3PARAM salt length {saltLen.toNat} exceeds rdata window")
  let salt ← charStringBody saltLen
  pure ⟨alg, flags, iter, salt⟩

theorem codec_unpackNSEC3PARAM : Codec NSEC3PARAM.ops unpackNSEC3PARAM fun _ => True where
  reads {_ _ _ _ _ r} _ h _ hend := by
    simp only [NSEC3PARAM.ops, laid_uint8, laid_uint16, laid_raw, laid_nil] at h
    obtain ⟨halg, hflags, hiter, hsaltLen, hsalt, -, hlen⟩ := h
    have hbyte := toNat_ofNat8 r.salt.property
    rw [hlen]
    exact .bind reads_offset <| .bind (reads_uint8 halg) <| .bind (reads_uint8 hflags) <|
      .bind (reads_uint16 hiter) <| .bind (reads_uint8 hsaltLen) <| .bind reads_offset <|
      .bind (reads_failIf (by omega)) <| .bind (reads_charStringBody_iff.mpr ⟨hsalt, hbyte, by omega, rfl⟩) (reads_pure r)
  normal _ _ := trivial

/-- The authorities that may issue certificates (RFC 8659). -/
structure CAA where
  flags : UInt8
  tag : Bytes
  value : Bytes
  deriving DecidableEq

def CAA.ops (r : CAA) : List PackOp :=
  [.uint8 r.flags, .uint8 (UInt8.ofNat r.tag.length), .raw r.tag, .raw r.value]

def isAlnum (c : UInt8) : Bool :=
  (0x61 ≤ c ∧ c ≤ 0x7a) ∨ (0x41 ≤ c ∧ c ≤ 0x5a) ∨ (0x30 ≤ c ∧ c ≤ 0x39)

/-- What the decoder returns: a tag of one to fifteen letters and digits. -/
def CAA.Normal (r : CAA) : Prop := (r.tag.length ≠ 0 ∧ r.tag.length ≤ 15) ∧ ∀ c ∈ r.tag, isAlnum c

def unpackCAA (rdlen : Nat) : Decoder CAA := do
  let off ← offset
  let end_ := off + rdlen
  let flags ← uint8
  let tlen ← uint8
  failIf (tlen.toNat = 0 ∨ tlen.toNat > 15) (invalidRData "CAA tag length must be 1-15")
  let off ← offset
  failIf (off + tlen.toNat > end_) (invalidRData s!"CAA tag length {tlen.toNat} exceeds rdata window")
  let tag ← bytes tlen.toNat
  failIf (¬∀ c ∈ tag, isAlnum c) (invalidRData "CAA tag must be alnum")
  let off ← offset
  failIf (off > end_) (invalidRData "CAA over-read")
  let val ← bytes ((end_ : Int) - off)
  pure ⟨flags, tag, val⟩

theorem codec_unpackCAA : Codec CAA.ops unpackCAA CAA.Normal where
  reads {_ _ _ _ _ r} hr h _ hend := by
    simp only [CAA.ops, laid_uint8, laid_raw, laid_nil] at h
    obtain ⟨hflags, htlen, htag, hvalue, -, hlen⟩ := h
    obtain ⟨⟨hzero, hmax⟩, halnum⟩ := hr
    have hbyte := @toNat_ofNat8 r.tag.length (by omega)
    rw [hlen]
    exact .bind reads_offset <| .bind (reads_uint8 hflags) <| .bind (reads_uint8 htlen) <|
      .bind (reads_failIf (by omega)) <| .bind reads_offset <|
      .bind (reads_failIf (by omega)) <| .bind (reads_bytes htag (by omega) (by omega)) <|
      .bind (reads_failIf (not_not_intro halnum)) <| .bind reads_offset <|
      .bind (reads_failIf (by omega)) <|
      .bind (reads_bytes hvalue (by omega) (by omega)) (reads_pure r)
  normal _ h := by
    simp [unpackCAA] at h
    obtain ⟨flags, -, tlen, -, htlen, -, tag, ⟨-, htag, -⟩, halnum, -, value, -, rfl, -⟩ := h
    refine ⟨?_, halnum⟩
    change tag.length ≠ 0 ∧ tag.length ≤ 15
    omega

/-- A host identity (RFC 5205). -/
structure HIP where
  alg : UInt8
  hit : Bytes
  pubkey : Bytes
  rvs : List Name
  deriving DecidableEq

def HIP.ops (r : HIP) : List PackOp :=
  .uint8 (UInt8.ofNat r.hit.length) :: .uint8 r.alg :: .uint16 (UInt16.ofNat r.pubkey.length) ::
    .raw r.hit :: .raw r.pubkey :: r.rvs.map .nameUncompressed

def HIP.Normal (r : HIP) : Prop :=
  r.hit.length ≤ 255 ∧ r.pubkey.length ≤ 65535 ∧ ∀ n ∈ r.rvs, n.isValid

def unpackHIP (rdlen : Nat) : Decoder HIP := do
  let off ← offset
  let end_ := off + rdlen
  let hitLen ← uint8
  let alg ← uint8
  let pkLen ← uint16
  let off ← offset
  failIf (off + hitLen.toNat > end_) (invalidRData s!"HIP hit length {hitLen.toNat} exceeds rdata window")
  let hit ← bytes hitLen.toNat
  let off ← offset
  failIf (off + pkLen.toNat > end_) (invalidRData s!"HIP pubkey length {pkLen.toNat} exceeds rdata window")
  let pk ← bytes pkLen.toNat
  let rvs ← loopUntil end_ (collect do
    let off ← offset
    uncompressedName ((end_ : Int) - off)) rdlen []
  pure ⟨alg, hit, pk, rvs⟩

theorem codec_unpackHIP : Codec HIP.ops unpackHIP HIP.Normal where
  reads {_ _ _ _ _ r} hr h _ hend := by
    simp only [HIP.ops, laid_uint8, laid_uint16, laid_raw] at h
    obtain ⟨hhitLen, halg, hpkLen, hhit, hpk, hrest⟩ := h
    obtain ⟨hhitMax, hpkMax, hrvs⟩ := hr
    have hbyte := toNat_ofNat8 hhitMax
    have hword := toNat_ofNat16 hpkMax
    obtain ⟨-, hat, hlen⟩ := hrest.plain_inv fun op hop => by
      obtain ⟨n, -, rfl⟩ := List.mem_map.mp hop
      rfl
    rw [List.flatMap_map] at hat hlen
    have hbytes : ∀ n ∈ r.rvs, (PackOp.nameUncompressed n).bytes = n.wire := fun n hn => by
      rw [PackOp.bytes, Name.appendWire, if_pos (hrvs n hn), List.nil_append]
    refine .bind reads_offset <| .bind (reads_uint8 hhitLen) <| .bind (reads_uint8 halg) <|
      .bind (reads_uint16 hpkLen) <| .bind reads_offset <| .bind (reads_failIf (by omega)) <|
      .bind (reads_bytes hhit (by omega) (by omega)) <| .bind reads_offset <|
      .bind (reads_failIf (by omega)) <| .bind (reads_bytes hpk (by omega) (by omega)) <|
      .bind (reads_loopUntil_collect _ r.rvs hat hlen (by omega) ?_ ?_) (reads_pure r)
    · intro n hn
      rw [hbytes n hn]
      exact List.ne_nil_of_length_pos (Name.length_wire_pos (hrvs n hn))
    · intro n hn o hname hfit
      rw [hbytes n hn] at hname hfit ⊢
      exact .bind reads_offset (reads_uncompressedName (hrvs n hn) hname (by omega))
  normal _ h := by
    simp [unpackHIP] at h
    obtain ⟨hitLen, -, alg, -, pkLen, -, -, hit, ⟨-, hhit, -⟩, -, pk, ⟨-, hpk, -⟩, rvs, hloop, rfl⟩ := h
    have hhitLen := hitLen.toNat_lt
    have hpkLen := pkLen.toNat_lt
    refine ⟨show hit.length ≤ 255 by omega, show pk.length ≤ 65535 by omega, ?_⟩
    exact ensures_loopUntil_collect (fun c _ => .bind (.offset ensures_uncompressedName)) _ _ hloop

/-! ### Gateways and relays -/

/-- The gateway of an `IPSECKEY`, the relay of an `AMTRELAY`: the type code and the address or name are one value. -/
inductive Gateway where
  | none
  | v4 (addr : FixedBytes 4)
  | v6 (addr : FixedBytes 16)
  | name (n : Name)
  deriving DecidableEq

namespace Gateway

/-- The gateway type byte. -/
def kind : Gateway → UInt8
  | none => 0
  | v4 _ => 1
  | v6 _ => 2
  | name _ => 3

def ops : Gateway → List PackOp
  | none => []
  | v4 addr => [.raw addr.val]
  | v6 addr => [.raw addr.val]
  | name n => [.nameUncompressed n]

def Normal : Gateway → Prop
  | name n => n.isValid
  | _ => True

end Gateway

/-- The gateway of the given type code; `label` and `noun` only fill in the errors. -/
def unpackGateway (label noun : String) (end_ : Nat) (kind : UInt8) : Decoder Gateway := do
  let off ← offset
  if kind = 0 then pure .none
  else if kind = 1 then do
    failIf (off + 4 > end_) (invalidRData s!"{label} IPv4 {noun} exceeds rdlen")
    let b ← fixedBytes 4
    pure (.v4 b)
  else if kind = 2 then do
    failIf (off + 16 > end_) (invalidRData s!"{label} IPv6 {noun} exceeds rdlen")
    let b ← fixedBytes 16
    pure (.v6 b)
  else if kind = 3 then do
    let n ← uncompressedName ((end_ : Int) - off)
    pure (.name n)
  else fail (invalidRData s!"{label} unknown {noun} type {kind.toNat}")

theorem reads_unpackGateway {ops : List PackOp}
    (hg : g.Normal) (h : Laid msg off (g.ops ++ ops) hops off') (hle : off' ≤ end_)
    (hend : end_ ≤ msg.length) :
    ∃ next, (unpackGateway label noun end_ g.kind).Reads maxHops msg off g next ∧
      Laid msg next ops hops off' := by
  cases g with
  | none => exact ⟨off, by simp [unpackGateway, Gateway.kind], h⟩
  | v4 addr | v6 addr =>
    obtain ⟨haddr, hrest⟩ := laid_raw.mp h
    rw [addr.property] at hrest
    have hfit := hrest.le
    refine ⟨_, ?_, hrest⟩
    simp [unpackGateway, Gateway.kind, haddr, -Subtype.exists]
    omega
  | name n =>
    obtain ⟨-, hname, hrest⟩ := (laid_nameUncompressed hg).mp h
    have hfit := hrest.le
    refine ⟨_, ?_, hrest⟩
    simp [unpackGateway, Gateway.kind, hname]
    omega

theorem normal_of_unpackGateway {kind : UInt8}
    (h : (unpackGateway label noun end_ kind).Reads maxHops msg off g off') : g.Normal := by
  simp [unpackGateway] at h
  grind [Gateway.Normal, decodeWireUncompressed_isValid]

instance (label noun : String) (end_ : Nat) (kind : UInt8) : Local (unpackGateway label noun end_ kind) := by
  dsimp only [unpackGateway]; infer_instance

/-- A key for IPsec (RFC 4025). -/
structure IPSECKEY where
  prec : UInt8
  alg : UInt8
  gateway : Gateway
  pubkey : Bytes
  deriving DecidableEq

def IPSECKEY.ops (r : IPSECKEY) : List PackOp :=
  .uint8 r.prec :: .uint8 r.gateway.kind :: .uint8 r.alg :: (r.gateway.ops ++ [.raw r.pubkey])

def unpackIPSECKEY (rdlen : Nat) : Decoder IPSECKEY := do
  let off ← offset
  let end_ := off + rdlen
  let prec ← uint8
  let gt ← uint8
  let alg ← uint8
  let gateway ← unpackGateway "IPSECKEY" "gateway" end_ gt
  let off ← offset
  failIf ((end_ : Int) - off < 0) (invalidRData "IPSECKEY gateway exceeds rdlen")
  let pk ← bytes ((end_ : Int) - off)
  pure ⟨prec, alg, gateway, pk⟩

theorem codec_unpackIPSECKEY : Codec IPSECKEY.ops unpackIPSECKEY (·.gateway.Normal) where
  reads {_ _ _ _ _ r} hr h _ hend := by
    simp only [IPSECKEY.ops, laid_uint8] at h
    obtain ⟨hprec, hgt, halg, hrest⟩ := h
    obtain ⟨next, hgateway, hrest⟩ := reads_unpackGateway hr hrest (Nat.le_refl _) hend
    obtain ⟨hpk, hnil⟩ := laid_raw.mp hrest
    obtain ⟨-, hlen⟩ := laid_nil.mp hnil
    refine .bind reads_offset <| .bind (reads_uint8 hprec) <| .bind (reads_uint8 hgt) <|
      .bind (reads_uint8 halg) <| .bind hgateway <| .bind reads_offset <|
      .bind (reads_failIf (by omega)) ?_
    rw [hlen]
    exact .bind (reads_bytes hpk (by omega) (by omega)) (reads_pure r)
  normal _ h := by
    simp [unpackIPSECKEY] at h
    grind [normal_of_unpackGateway]

/-- A multicast relay (RFC 8777). -/
structure AMTRELAY where
  prec : UInt8
  discovery : Bool
  relay : Gateway
  deriving DecidableEq

/-- The discovery bit above the relay type. -/
def AMTRELAY.typeByte (r : AMTRELAY) : UInt8 :=
  if r.discovery then r.relay.kind &&& 0x7f ||| 0x80 else r.relay.kind &&& 0x7f

def AMTRELAY.ops (r : AMTRELAY) : List PackOp := .uint8 r.prec :: .uint8 r.typeByte :: r.relay.ops

def unpackAMTRELAY (rdlen : Nat) : Decoder AMTRELAY := do
  failIf (rdlen < 2) (invalidRData s!"AMTRELAY rdlen {rdlen} < 2")
  let off ← offset
  let end_ := off + rdlen
  let prec ← uint8
  let b ← uint8
  let relay ← unpackGateway "AMTRELAY" "relay" end_ (b &&& 0x7f)
  let off ← offset
  failIf (off ≠ end_) (invalidRData s!"AMTRELAY trailing {(end_ : Int) - off} bytes")
  pure ⟨prec, b &&& 0x80 ≠ 0, relay⟩

theorem AMTRELAY.typeByte_kind (r : AMTRELAY) : r.typeByte &&& 0x7f = r.relay.kind := by
  obtain ⟨_, discovery, relay⟩ := r
  cases discovery <;> cases relay <;> simp [AMTRELAY.typeByte, Gateway.kind] <;> decide

theorem AMTRELAY.typeByte_discovery (r : AMTRELAY) : decide (r.typeByte &&& 0x80 ≠ 0) = r.discovery := by
  obtain ⟨_, discovery, relay⟩ := r
  cases discovery <;> cases relay <;> simp [AMTRELAY.typeByte, Gateway.kind] <;> decide

theorem codec_unpackAMTRELAY : Codec AMTRELAY.ops unpackAMTRELAY (·.relay.Normal) where
  reads {_ _ _ _ _ r} hr h _ hend := by
    obtain ⟨hprec, hrest⟩ := laid_uint8.mp h
    obtain ⟨htype, hrest⟩ := laid_uint8.mp hrest
    have hmin := hrest.le
    rw [← List.append_nil r.relay.ops] at hrest
    obtain ⟨next, hrelay, hnil⟩ := reads_unpackGateway hr hrest (Nat.le_refl _) hend
    obtain ⟨-, hlen⟩ := laid_nil.mp hnil
    subst hlen
    refine .bind (reads_failIf (by omega)) <| .bind reads_offset <| .bind (reads_uint8 hprec) <|
      .bind (reads_uint8 htype) ?_
    rw [r.typeByte_kind, r.typeByte_discovery]
    exact .bind hrelay <| .bind reads_offset <| .bind (reads_failIf (by omega)) (reads_pure r)
  normal _ h := by
    simp [unpackAMTRELAY] at h
    grind [normal_of_unpackGateway]

/-- An exchange of keys (RFC 2930). -/
structure TKEY where
  algorithm : Name
  inception : UInt32
  expire : UInt32
  mode : UInt16
  errCode : UInt16
  keyData : Bytes
  otherData : Bytes
  deriving DecidableEq

def TKEY.ops (r : TKEY) : List PackOp :=
  [.nameUncompressed r.algorithm, .uint32 r.inception, .uint32 r.expire, .uint16 r.mode, .uint16 r.errCode,
    .uint16 (UInt16.ofNat r.keyData.length), .raw r.keyData, .uint16 (UInt16.ofNat r.otherData.length),
    .raw r.otherData]

def TKEY.Normal (r : TKEY) : Prop :=
  r.algorithm.isValid ∧ r.keyData.length ≤ 65535 ∧ r.otherData.length ≤ 65535

def unpackTKEY (rdlen : Nat) : Decoder TKEY := do
  let off ← offset
  let end_ := off + rdlen
  let alg ← uncompressedName ((end_ : Int) - off)
  let inc ← uint32
  let exp ← uint32
  let mode ← uint16
  let ec ← uint16
  let klen ← uint16
  let off ← offset
  failIf (off + klen.toNat > end_) (invalidRData s!"TKEY key-data length {klen.toNat} exceeds rdlen")
  let kd ← bytes klen.toNat
  let olen ← uint16
  let off ← offset
  failIf (off + olen.toNat > end_) (invalidRData s!"TKEY other-data length {olen.toNat} exceeds rdlen")
  let od ← bytes olen.toNat
  pure ⟨alg, inc, exp, mode, ec, kd, od⟩

theorem codec_unpackTKEY : Codec TKEY.ops unpackTKEY TKEY.Normal where
  reads {_ _ _ _ _ r} hr h _ hend := by
    simp only [TKEY.ops, laid_nameUncompressed hr.1, laid_uint32, laid_uint16, laid_raw, laid_nil] at h
    obtain ⟨halg, -, hinc, hexp, hmode, hec, hklen, hkd, holen, hod, -, hlen⟩ := h
    have hkword := toNat_ofNat16 hr.2.1
    have howord := toNat_ofNat16 hr.2.2
    rw [hlen]
    exact .bind reads_offset <| .bind (reads_uncompressedName hr.1 halg (by omega)) <|
      .bind (reads_uint32 hinc) <| .bind (reads_uint32 hexp) <| .bind (reads_uint16 hmode) <|
      .bind (reads_uint16 hec) <| .bind (reads_uint16 hklen) <| .bind reads_offset <|
      .bind (reads_failIf (by omega)) <| .bind (reads_bytes hkd (by omega) (by omega)) <|
      .bind (reads_uint16 holen) <| .bind reads_offset <| .bind (reads_failIf (by omega)) <|
      .bind (reads_bytes hod (by omega) (by omega)) (reads_pure r)
  normal _ h := by
    simp [unpackTKEY] at h
    grind [TKEY.Normal, decodeWireUncompressed_isValid, UInt16.toNat_lt]

end Fields

end Acidns
