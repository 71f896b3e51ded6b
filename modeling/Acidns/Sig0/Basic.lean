import Acidns.Dnssec.Signature

/-!
# Public-key transaction signatures

`sig0/sig0.go`: a SIG record behind the other records of a message carries a signature over the message without that
record and the fields of the record. Those fields are rebuilt when the signature is verified, so whatever the record
says about the type covered, the number of labels and the TTL is passed over.

Of the cryptography, what comes from the standard library is a parameter. Times are nanoseconds; the validity
period of a signature is given in seconds of 32 bits.
-/

namespace Acidns.Sig0

open Octets (bigEndian readAt writeAt ofBigEndian)

inductive ErrorKind where
  | plain
  | wire
  | missing
  | badTime
  | badSignature
  | unsupportedAlg
  | keyTagMismatch
  | replay
  deriving DecidableEq

structure Sig0Error where
  kind : ErrorKind
  text : String
  deriving DecidableEq

def plainError (text : String) : Sig0Error := ⟨.plain, text⟩

def errSIGMissing : Sig0Error := ⟨.missing, "sig0: no SIG(0) record in message"⟩

def sigType : UInt16 := 24

def classANY : UInt16 := 255

/-! ### Signatures -/

inductive Hash where
  | sha256
  | sha384
  | sha512
  deriving DecidableEq

/-- What `crypto/rsa`, `crypto/ecdsa` and `crypto/ed25519` check, the hash of the data included. -/
structure Crypto where
  verifyPKCS1v15 : (hash : Hash) → (modulus exponent : Nat) → (data sig : Bytes) → Bool
  verifyECDSA : (hash : Hash) → (x y : Nat) → (data : Bytes) → (r s : Nat) → Bool
  verifyEd25519 : (pub data sig : Bytes) → Bool

/-- `ParseRSAPublic`: the modulus and the exponent. -/
def parseRSAPublic (b : Bytes) : Except Sig0Error (Nat × Nat) := do
  refuseIf (b.length < 1) (plainError "sig0: dnssecbb: rsa pubkey too short")
  refuseIf (b.headD 0 = 0 ∧ b.length < 3) (plainError "sig0: dnssecbb: rsa pubkey truncated")
  let explen := if b.headD 0 = 0 then readAt 2 b 1 else readAt 1 b 0
  let off := if b.headD 0 = 0 then 3 else 1
  refuseIf (explen = 0) (plainError "sig0: dnssecbb: rsa exponent length zero")
  refuseIf (explen > 8) (plainError s!"sig0: dnssecbb: rsa exponent length {explen} exceeds cap 8")
  refuseIf (b.length < off + explen) (plainError "sig0: dnssecbb: rsa pubkey truncated exponent")
  let modulus := b.drop (off + explen)
  refuseIf (modulus.length = 0) (plainError "sig0: dnssecbb: rsa modulus empty")
  refuseIf (modulus.length > 520)
    (plainError s!"sig0: dnssecbb: rsa modulus length {modulus.length} exceeds cap 520 (RFC 8624)")
  refuseIf (modulus.length < 128)
    (plainError s!"sig0: dnssecbb: rsa modulus length {modulus.length} below floor 128 (RFC 8624 §3.1)")
  let e := readAt explen b off
  refuseIf (e ≥ 2 ^ 63) (plainError "sig0: dnssecbb: rsa exponent too large")
  refuseIf (e < 3) (plainError s!"sig0: dnssecbb: rsa exponent {e} below minimum 3")
  refuseIf (e % 2 = 0) (plainError s!"sig0: dnssecbb: rsa exponent {e} is even")
  pure (ofBigEndian modulus, e)

section Crypto

variable (crypto : Crypto)

def verifyRSA (hash : Hash) (pubkeyWire data sig : Bytes) : Except Sig0Error Unit := do
  let (modulus, exponent) ← parseRSAPublic pubkeyWire
  refuseIf (crypto.verifyPKCS1v15 hash modulus exponent data sig = false)
    ⟨.badSignature, "sig0: signature did not verify: crypto/rsa: verification error"⟩

def verifyECDSA (hash : Hash) (sz : Nat) (data pub sig : Bytes) : Except Sig0Error Unit := do
  refuseIf (pub.length ≠ 2 * sz) ⟨.badSignature, "sig0: signature did not verify: ecdsa pubkey wrong size"⟩
  refuseIf (sig.length ≠ 2 * sz) ⟨.badSignature, "sig0: signature did not verify: ecdsa signature wrong size"⟩
  refuseIf
    (crypto.verifyECDSA hash (readAt sz pub 0) (readAt sz pub sz) data (readAt sz sig 0) (readAt sz sig sz) = false)
    ⟨.badSignature, "sig0: signature did not verify"⟩

def verifySignature (alg : UInt8) (pubkeyWire data sig : Bytes) : Except Sig0Error Unit :=
  if alg = Dnssec.algRSASHA256 then verifyRSA crypto .sha256 pubkeyWire data sig
  else if alg = Dnssec.algRSASHA512 then verifyRSA crypto .sha512 pubkeyWire data sig
  else if alg = Dnssec.algECDSAP256SHA256 then verifyECDSA crypto .sha256 32 data pubkeyWire sig
  else if alg = Dnssec.algECDSAP384SHA384 then verifyECDSA crypto .sha384 48 data pubkeyWire sig
  else if alg = Dnssec.algED25519 then do
    refuseIf (pubkeyWire.length ≠ 32) ⟨.badSignature, "sig0: signature did not verify: ed25519 pubkey wrong size"⟩
    refuseIf (crypto.verifyEd25519 pubkeyWire data sig = false) ⟨.badSignature, "sig0: signature did not verify"⟩
  else .error ⟨.unsupportedAlg, s!"sig0: unsupported algorithm: {alg}"⟩

end Crypto

/-! ### The record -/

def buildSIGRDataPrefix (alg : UInt8) (expiration inception : UInt32) (keyTag : UInt16) (signer : Name) : Bytes :=
  bigEndian 2 0 ++ [alg, 0] ++ bigEndian 4 0 ++ bigEndian 4 expiration.toNat ++ bigEndian 4 inception.toNat ++
    bigEndian 2 keyTag.toNat ++ signer.appendWire []

def appendSIGRR (buf rd : Bytes) : Bytes :=
  buf ++ [0] ++ bigEndian 2 sigType.toNat ++ bigEndian 2 classANY.toNat ++ bigEndian 4 0 ++ bigEndian 2 rd.length ++ rd

/-- `Sign`. The period runs from now; its ends have to fit into 32 bits. -/
def sign (msg : Bytes) (signer : Name) (alg : UInt8) (keyTag : UInt16) (signFn : Bytes → Except String Bytes)
    (now : Int) (validity : Duration) : Except Sig0Error Bytes := do
  refuseIf (msg.length < 12) (plainError "sig0: msg too short")
  let inc := now / second
  let exp := (now + validity) / second
  refuseIf (inc < 0 ∨ exp < 0 ∨ inc > 0xffffffff ∨ exp > 0xffffffff)
    (plainError "sig0: timestamp out of 32-bit unsigned range (RFC 2535 §4.1 wrap-around)")
  let rdataNoSig := buildSIGRDataPrefix alg (UInt32.ofNat exp.toNat) (UInt32.ofNat inc.toNat) keyTag signer
  let sig ← (signFn (rdataNoSig ++ msg)).mapError fun e => plainError ("sig0: sign callback: " ++ e)
  let out := appendSIGRR msg (rdataNoSig ++ sig)
  pure (writeAt 2 out 10 (readAt 2 out 10 + 1))

/-- The fields of a SIG record. -/
structure ParsedSIG where
  algorithm : UInt8
  expiration : UInt32
  inception : UInt32
  keyTag : UInt16
  signer : Name
  signature : Bytes
  deriving DecidableEq

/-! ### Finding the record -/

def decodeName (context : String) (msg : Bytes) (off : Nat) : Except Sig0Error (Name × Nat) :=
  (decodeWire maxPtrHops msg off).mapError fun e => ⟨.wire, context ++ e.message⟩

def skipQuestions (msg : Bytes) : (n off : Nat) → Except Sig0Error Nat
  | 0, off => .ok off
  | n + 1, off => do
    let (_, next) ← decodeName "" msg off
    refuseIf (next + 4 > msg.length) (plainError "sig0: truncated question")
    skipQuestions msg n (next + 4)

def skipRR (msg : Bytes) (off : Nat) : Except Sig0Error Nat := do
  let (_, next) ← decodeName "" msg off
  refuseIf (next + 10 > msg.length) (plainError "sig0: truncated rr header")
  let behind := next + 10 + readAt 2 msg (next + 8)
  refuseIf (behind > msg.length) (plainError "sig0: truncated rr body")
  pure behind

/-- The start of the last of `n` records at `off`, `last` being the start of the one before. -/
def walkRRs (msg : Bytes) : (n off last : Nat) → Except Sig0Error Nat
  | 0, _, last => .ok last
  | n + 1, off, _ => do
    let behind ← skipRR msg off
    walkRRs msg n behind off

def findLastRROffset (msg : Bytes) : Except Sig0Error Nat := do
  let qdcount := readAt 2 msg 4
  let ancount := readAt 2 msg 6
  let nscount := readAt 2 msg 8
  let arcount := readAt 2 msg 10
  let off ← skipQuestions msg qdcount 12
  walkRRs msg (ancount + nscount + arcount) off off

def parseSIGRData (msg : Bytes) (start end_ : Nat) : Except Sig0Error ParsedSIG := do
  refuseIf (start + 18 > end_) (plainError "sig0: truncated SIG header")
  -- the type covered, the labels and the original TTL are skipped
  let (signer, sigStart) ← decodeName "sig0: parse signer: " msg (start + 18)
  refuseIf (sigStart > end_) (plainError "sig0: signer overruns rdata")
  pure { algorithm := UInt8.ofNat (readAt 1 msg (start + 2))
         expiration := UInt32.ofNat (readAt 4 msg (start + 8))
         inception := UInt32.ofNat (readAt 4 msg (start + 12))
         keyTag := UInt16.ofNat (readAt 2 msg (start + 16))
         signer, signature := (msg.drop sigStart).take (end_ - sigStart) }

/-- The message without its last record, which must be a SIG. -/
def stripSIG (msg : Bytes) : Except Sig0Error (Bytes × ParsedSIG) := do
  refuseIf (msg.length < 12) (plainError "sig0: msg too short")
  let arcount := readAt 2 msg 10
  refuseIf (arcount = 0) errSIGMissing
  let last ← findLastRROffset msg
  let (owner, off) ← decodeName "sig0: parse owner: " msg last
  refuseIf (owner.isRoot = false) errSIGMissing
  refuseIf (off + 10 > msg.length) (plainError "sig0: truncated header")
  refuseIf (readAt 2 msg off ≠ sigType.toNat) errSIGMissing
  refuseIf (readAt 2 msg (off + 2) ≠ classANY.toNat) errSIGMissing
  let rdataStart := off + 10
  let rdataEnd := rdataStart + readAt 2 msg (off + 8)
  refuseIf (rdataEnd > msg.length) (plainError "sig0: truncated rdata")
  let sig ← parseSIGRData msg rdataStart rdataEnd
  pure (writeAt 2 (msg.take last) 10 (arcount - 1), sig)

/-! ### Verifying -/

def sig0SerialLT (a b : UInt32) : Bool := (a - b).toNat ≥ 2 ^ 31

namespace ParsedSIG

def signedData (sig : ParsedSIG) (alg : UInt8) (body : Bytes) : Bytes :=
  buildSIGRDataPrefix alg sig.expiration sig.inception sig.keyTag sig.signer ++ body

def InPeriod (sig : ParsedSIG) (now : Int) : Prop :=
  sig0SerialLT sig.expiration (UInt32.ofInt (now / second)) = false ∧
    sig0SerialLT (UInt32.ofInt (now / second)) sig.inception = false

end ParsedSIG

section Verify

variable (crypto : Crypto)

/-- Signer, algorithm, key tag, signature and period, in that order. -/
def verifyExtractSIG (msg : Bytes) (key : DNSKEY) (expectedSigner : Name) (now : Int) :
    Except Sig0Error (Bytes × ParsedSIG) := do
  let (body, sig) ← stripSIG msg
  refuseIf (sig.signer.equal expectedSigner = false) (plainError "sig0: signer mismatch")
  refuseIf (key.algorithm ≠ sig.algorithm) ⟨.unsupportedAlg, "sig0: unsupported algorithm: alg mismatch"⟩
  refuseIf (sig.algorithm ∈ Dnssec.rejectedAlgorithms) ⟨.unsupportedAlg,
    s!"sig0: unsupported algorithm: deprecated algorithm {sig.algorithm}"⟩
  let tag := keyTag key
  refuseIf (tag ≠ sig.keyTag) ⟨.keyTagMismatch,
    s!"sig0: keytag mismatch between supplied DNSKEY and SIG(0) RR: SIG keytag {sig.keyTag}, supplied DNSKEY {tag}"⟩
  verifySignature crypto key.algorithm key.pubkey (sig.signedData key.algorithm body) sig.signature
  let nowU := UInt32.ofInt (now / second)
  refuseIf (sig0SerialLT sig.expiration nowU ∨ sig0SerialLT nowU sig.inception)
    ⟨.badTime, "sig0: time outside validity window"⟩
  pure (body, sig)

def verify (msg : Bytes) (key : DNSKEY) (expectedSigner : Name) (now : Int) : Except Sig0Error Bytes := do
  let (body, _) ← verifyExtractSIG crypto msg key expectedSigner now
  pure body

structure Authentic (msg : Bytes) (key : DNSKEY) (expectedSigner : Name) (body : Bytes) (sig : ParsedSIG) : Prop where
  strip : stripSIG msg = .ok (body, sig)
  signer : sig.signer = expectedSigner
  algorithm : key.algorithm = sig.algorithm
  allowed : sig.algorithm ∉ Dnssec.rejectedAlgorithms
  keyTag : keyTag key = sig.keyTag
  signature : verifySignature crypto key.algorithm key.pubkey (sig.signedData key.algorithm body) sig.signature = .ok ()

variable {crypto : Crypto} {msg body : Bytes} {key : DNSKEY} {expectedSigner : Name} {now : Int} {sig : ParsedSIG}

theorem verifyExtractSIG_eq_ok : verifyExtractSIG crypto msg key expectedSigner now = .ok (body, sig) ↔
    Authentic crypto msg key expectedSigner body sig ∧ sig.InPeriod now := by
  constructor
  · intro h
    obtain ⟨⟨stripped, found⟩, hstrip, h⟩ := bind_ok h
    obtain ⟨_, hsigner, h⟩ := bind_ok h
    obtain ⟨_, halg, h⟩ := bind_ok h
    obtain ⟨_, hallowed, h⟩ := bind_ok h
    obtain ⟨_, htag, h⟩ := bind_ok h
    obtain ⟨_, hsignature, h⟩ := bind_ok h
    obtain ⟨_, htime, h⟩ := bind_ok h
    cases h
    simp only [refuseIf_ok, Bool.not_eq_false, Name.equal_iff, not_not] at hsigner halg hallowed htag
    simp only [refuseIf_ok, not_or, Bool.not_eq_true] at htime
    exact ⟨⟨hstrip, hsigner, halg, hallowed, htag, hsignature⟩, htime⟩
  · rintro ⟨⟨hstrip, hsigner, halg, hallowed, htag, hsignature⟩, hexpired, hearly⟩
    rw [halg] at hsignature
    simp only [verifyExtractSIG, hstrip, bind, Except.bind, refuseIf, hsigner, Name.equal, hallowed, htag, hsignature,
      hexpired, hearly, halg]
    simp [pure, Except.pure]

end Verify

end Acidns.Sig0
