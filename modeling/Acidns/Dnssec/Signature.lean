import Acidns.Dnssec.Walker

/-!
# Signatures over record sets

`dnssec/verify.go` and `dnssec/canonical.go`: the bytes that a signature covers, and the checks on the key and
the signature around the cryptographic ones, which are parameters. The name of the signer is among the bytes
that are signed; nothing compares it with the owner of the key.
-/

namespace Acidns.Dnssec

open Octets (bigEndian)

/-- The signature schemes, taken from the standard library. -/
structure Crypto where
  /-- `ParseRSAPublic` and `VerifyRSA`. -/
  verifyRSA : (alg : UInt8) → (pub data sig : Bytes) → Except String Unit
  verifyECDSAP256 : (data pub sig : Bytes) → Except String Unit
  verifyECDSAP384 : (data pub sig : Bytes) → Except String Unit
  verifyEd25519 : (pub data sig : Bytes) → Except String Unit
  /-- `Digest`; `none` for a type that is not known. -/
  digest : (digestType : UInt8) → (data : Bytes) → Option Bytes

def algRSASHA256 : UInt8 := 8
def algRSASHA512 : UInt8 := 10
def algECDSAP256SHA256 : UInt8 := 13
def algECDSAP384SHA384 : UInt8 := 14
def algED25519 : UInt8 := 15

def digestSHA1 : UInt8 := 1

/-- Algorithms refused whatever the key. -/
def rejectedAlgorithms : List UInt8 := [1, 3, 5, 6, 7]

def dnskeyFlagZone : UInt16 := 0x0100
def dnskeyFlagRevoke : UInt16 := 0x0080

def validateDNSKEY (key : DNSKEY) : Except String Unit := do
  refuseIf (key.protocol ≠ 3) s!"dnssec: invalid DNSKEY: protocol={key.protocol} (RFC 4034 §2.1.2 requires 3)"
  refuseIf (key.flags &&& dnskeyFlagRevoke ≠ 0) "dnssec: invalid DNSKEY: REVOKE flag set (RFC 5011 §2.1)"
  refuseIf (key.flags &&& dnskeyFlagZone = 0) "dnssec: invalid DNSKEY: Zone-Key flag clear (RFC 4034 §2.1.1)"

/-! ### The canonical form -/

def stripLeadingLabels : (count : Nat) → (cur : Name) → Name
  | 0, cur => cur
  | count + 1, cur =>
    match cur.parent with
    | none => cur
    | some parent => stripLeadingLabels count parent

/-- A wildcard expansion is signed under its wildcard. -/
def canonicalOwner (owner : Name) (rrsig : RRSIG) : Bytes :=
  if rrsig.labels.toNat > 0 ∧ rrsig.labels.toNat < owner.numLabels then
    match wildcardOf (stripLeadingLabels (owner.numLabels - rrsig.labels.toNat) owner) with
    | .ok star => star.appendWire []
    | .error _ => owner.appendWire []
  else owner.appendWire []

/-- Names in rdata are written in full (RFC 4034). -/
def canonicalRData : RData → Bytes
  | .ns target => target.appendWire []
  | .cname target => target.appendWire []
  | .ptr target => target.appendWire []
  | .soa v =>
    v.mname.appendWire [] ++ v.rname.appendWire [] ++ bigEndian 4 v.serial.toNat ++ bigEndian 4 v.refresh.seconds32.toNat ++
      bigEndian 4 v.retry.seconds32.toNat ++ bigEndian 4 v.expire.seconds32.toNat ++
      bigEndian 4 v.minimum.seconds32.toNat
  | .mx v => bigEndian 2 v.pref.toNat ++ v.exchange.appendWire []
  | rd => (Packer.new.run rd.ops).buf

/-- The records in canonical order; equal ones are not merged. -/
def canonicalRRSet (set : List Record) (rrsig : RRSIG) : Except String Bytes :=
  match set with
  | [] => .error "dnssec: empty rrset"
  | first :: _ =>
    let rdatas := (set.map fun r => canonicalRData r.rd).insertionSort fun a b => compareBytes a b ≠ .gt
    .ok <| rdatas.flatMap fun rd =>
      canonicalOwner first.name rrsig ++ bigEndian 2 first.type.toNat ++ bigEndian 2 first.class_.toNat ++
        bigEndian 4 rrsig.origTTL.toNat ++ bigEndian 2 rd.length ++ rd

def rrsigSignedHeader (r : RRSIG) : Bytes :=
  bigEndian 2 r.typeCovered.toNat ++ [r.algorithm, r.labels] ++ bigEndian 4 r.origTTL.toNat ++
    bigEndian 4 r.sigExp.toNat ++ bigEndian 4 r.sigInc.toNat ++ bigEndian 2 r.keyTag.toNat ++
    r.signerName.appendWire []

/-- What a signature is over. -/
def signedData (set : List Record) (r : RRSIG) : Except String Bytes := do
  let body ← canonicalRRSet set r
  pure (rrsigSignedHeader r ++ body)

/-! ### Verification -/

/-- One signature by one key. -/
def verify (crypto : Crypto) (set : List Record) (rrsig : RRSIG) (key : DNSKEY) : Except String Unit := do
  validateDNSKEY key
  refuseIf (rrsig.algorithm ∈ rejectedAlgorithms)
    s!"dnssecbb: unsupported algorithm: deprecated algorithm {rrsig.algorithm}"
  refuseIf (rrsig.algorithm ≠ key.algorithm)
    s!"dnssecbb: signature mismatch: rrsig alg {rrsig.algorithm} vs dnskey alg {key.algorithm}"
  refuseIf (rrsig.keyTag ≠ keyTag key) "dnssecbb: signature mismatch: key tag mismatch"
  let data ← signedData set rrsig
  if rrsig.algorithm = algRSASHA256 ∨ rrsig.algorithm = algRSASHA512 then
    crypto.verifyRSA rrsig.algorithm key.pubkey data rrsig.signature
  else if rrsig.algorithm = algECDSAP256SHA256 then crypto.verifyECDSAP256 data key.pubkey rrsig.signature
  else if rrsig.algorithm = algECDSAP384SHA384 then crypto.verifyECDSAP384 data key.pubkey rrsig.signature
  else if rrsig.algorithm = algED25519 then crypto.verifyEd25519 key.pubkey data rrsig.signature
  else .error s!"dnssecbb: unsupported algorithm: algorithm {rrsig.algorithm}"

/-- `VerifyDS`, which refuses SHA-1. -/
def verifyDS (crypto : Crypto) (owner : Name) (ds : DS) (key : DNSKEY) : Except String Unit := do
  validateDNSKEY key
  refuseIf (ds.digestT = digestSHA1)
    "dnssecbb: unsupported algorithm: SHA-1 DS digest refused by default (RFC 8624 §3.3) — use VerifyDSWithSHA1 to opt in"
  refuseIf (ds.keyTag ≠ keyTag key) "dnssecbb: signature mismatch: DS key tag mismatch"
  refuseIf (ds.algorithm ≠ key.algorithm) "dnssecbb: signature mismatch: DS algorithm mismatch"
  match crypto.digest ds.digestT (owner.appendWire [] ++ dnskeyWire key) with
  | none => .error s!"dnssecbb: unsupported algorithm: DS digest type {ds.digestT}"
  | some sum => refuseIf (sum ≠ ds.digest) "dnssecbb: signature mismatch"

end Acidns.Dnssec
