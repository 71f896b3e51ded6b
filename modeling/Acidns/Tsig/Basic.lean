import Acidns.Wire.Message

/-!
# Transaction signatures

`tsig/tsig.go`: a TSIG record behind the other records of a message carries a MAC over the message
without that record. Signing and verifying work on the bytes of the message; a small walker of its
own finds the last record. The MAC of a response also covers the MAC of the request, and in a
transfer of several envelopes the MAC of each covers the one before.

HMAC is a parameter: `hmac alg secret payload` is what `crypto/hmac` computes with the hash of `alg`.
Times and durations are nanoseconds.
-/

namespace Acidns.Tsig

open Octets (bigEndian readAt writeAt)

/-! ### Keys and errors -/

/-- The algorithms that the source knows. -/
inductive Algorithm where
  | hmacSHA1
  | hmacSHA256
  | hmacSHA384
  | hmacSHA512
  deriving DecidableEq

namespace Algorithm

/-- The name as it is written in the source. -/
def text : Algorithm → String
  | hmacSHA1 => "hmac-sha1."
  | hmacSHA256 => "hmac-sha256."
  | hmacSHA384 => "hmac-sha384."
  | hmacSHA512 => "hmac-sha512."

/-- The one label of the name. -/
def label : Algorithm → Bytes
  | hmacSHA1 => [0x68, 0x6d, 0x61, 0x63, 0x2d, 0x73, 0x68, 0x61, 0x31]
  | hmacSHA256 => [0x68, 0x6d, 0x61, 0x63, 0x2d, 0x73, 0x68, 0x61, 0x32, 0x35, 0x36]
  | hmacSHA384 => [0x68, 0x6d, 0x61, 0x63, 0x2d, 0x73, 0x68, 0x61, 0x33, 0x38, 0x34]
  | hmacSHA512 => [0x68, 0x6d, 0x61, 0x63, 0x2d, 0x73, 0x68, 0x61, 0x35, 0x31, 0x32]

theorem wellFormed_label (a : Algorithm) : WellFormed (Labels.encode [a.label]) := by
  cases a <;> decide

/-- `MustParseName` of the algorithm. -/
def name (a : Algorithm) : Name := ⟨Labels.encode [a.label], .inr a.wellFormed_label⟩

end Algorithm

/-- The sentinels of the package; `plain` has none. -/
inductive ErrorKind where
  | plain
  | wire
  | missing
  | badTime
  | badSignature
  | badTruncation
  | sha1Disabled
  | replayed
  deriving DecidableEq

/-- An error with its whole text. -/
structure TsigError where
  kind : ErrorKind
  text : String
  deriving DecidableEq

/-- An error without a sentinel. -/
def plainError (text : String) : TsigError := ⟨.plain, text⟩

/-- A shared secret. `NewKey` refuses an invalid name and an empty secret. -/
structure Key where
  name : Name
  algorithm : Algorithm
  secret : Bytes
  allowSHA1 : Bool
  valid : name.isValid
  nonempty : secret ≠ []
  deriving DecidableEq

/-- A key of the name `k.`. -/
def keyK : Key := ⟨Name.Short.k, .hmacSHA256, [0x73], false, by decide, by decide⟩

/-- The type TSIG. -/
def tsigType : UInt16 := 250

/-- The class ANY. -/
def tsigClass : UInt16 := 255

/-! ### The signed bytes -/

/-- The fields of the record that are signed with the message. -/
def buildTSIGVars (keyName algName : Name) (timeSigned : Nat) (fudge errCode : UInt16) (other : Bytes) : Bytes :=
  keyName.appendWire [] ++ bigEndian 2 tsigClass.toNat ++ bigEndian 4 0 ++ algName.appendWire [] ++
    bigEndian 6 timeSigned ++ bigEndian 2 fudge.toNat ++ bigEndian 2 errCode.toNat ++
    bigEndian 2 other.length ++ other

/-- A MAC behind its length. -/
def macPrefix (mac : Bytes) : Bytes := bigEndian 2 mac.length ++ mac

/-- What the MAC is taken of: the prior MAC, the message and the fields, or the times only. -/
def buildSigningInput (msg : Bytes) (keyName algName : Name) (priorMAC : Option Bytes) (timeSigned : Nat)
    (fudge errCode : UInt16) (other : Bytes) (timersOnly : Bool) : Bytes :=
  let input := (priorMAC.map macPrefix).getD [] ++ msg
  if timersOnly then input ++ bigEndian 6 timeSigned ++ bigEndian 2 fudge.toNat
  else input ++ buildTSIGVars keyName algName timeSigned fudge errCode other

section HMAC

variable (hmac : Algorithm → Bytes → Bytes → Bytes)

/-- The MAC, unless the key is for a disabled SHA-1. -/
def computeHMAC (key : Key) (payload : Bytes) : Except TsigError Bytes :=
  if key.algorithm = .hmacSHA1 ∧ key.allowSHA1 = false then
    .error ⟨.sha1Disabled, "tsig: HMAC-SHA1 disabled (construct the Key with WithAllowSHA1(true))"⟩
  else .ok (hmac key.algorithm key.secret payload)

/-! ### Signing -/

/-- The payload of the record. -/
def buildTSIGRData (algName : Name) (timeSigned : Nat) (fudge : UInt16) (mac : Bytes) (origID errCode : UInt16)
    (other : Bytes) : Bytes :=
  algName.appendWire [] ++ bigEndian 6 timeSigned ++ bigEndian 2 fudge.toNat ++ bigEndian 2 mac.length ++ mac ++
    bigEndian 2 origID.toNat ++ bigEndian 2 errCode.toNat ++ bigEndian 2 other.length ++ other

/-- The message with the record behind it; the count in the header is left alone. -/
def appendTSIGRR (msg : Bytes) (owner : Name) (rd : Bytes) : Bytes :=
  msg ++ owner.appendWire [] ++ bigEndian 2 tsigType.toNat ++ bigEndian 2 tsigClass.toNat ++ bigEndian 4 0 ++
    bigEndian 2 rd.length ++ rd

/-- Signs a message and returns the MAC with it. -/
def signWithPrefix (msg : Bytes) (key : Key) (priorMAC : Option Bytes) (timersOnly : Bool) (now fudge : Int) :
    Except TsigError (Bytes × Bytes) := do
  refuseIf (msg.length < 12) (plainError "tsig: msg too short")
  refuseIf (fudge < 0) (plainError s!"tsig: fudge must be non-negative, got {Duration.string fudge}")
  refuseIf (fudge > 0xffff * second) (plainError
    s!"tsig: fudge {Duration.string fudge} exceeds the 16-bit on-the-wire field cap (~18h12m)")
  let algName := key.algorithm.name
  let timeSigned := (now / second % 2 ^ 64).toNat
  let fudgeSecs := UInt16.ofNat (fudge / second).toNat
  let mac ← computeHMAC hmac key
    (buildSigningInput msg key.name algName priorMAC timeSigned fudgeSecs 0 [] timersOnly)
  let origID := UInt16.ofNat (readAt 2 msg 0)
  let out := appendTSIGRR msg key.name (buildTSIGRData algName timeSigned fudgeSecs mac origID 0 [])
  pure (writeAt 2 out 10 (readAt 2 out 10 + 1), mac)

/-- Signs a request. -/
def sign (msg : Bytes) (key : Key) (now fudge : Int) : Except TsigError Bytes := do
  let (out, _) ← signWithPrefix hmac msg key none false now fudge
  pure out

/-- Packs and signs a request. -/
def signMessage (m : Message) (key : Key) (now fudge : Int) : Except TsigError Bytes := do
  let msg ← m.pack.mapError fun e => ⟨.wire, e.message⟩
  sign hmac msg key now fudge

/-- Signs a response; the MAC of the request is signed with it. -/
def signResponse (msg : Bytes) (key : Key) (requestMAC : Bytes) (now fudge : Int) : Except TsigError Bytes := do
  refuseIf (requestMAC = []) (plainError "tsig: SignResponse requires requestMAC")
  let (out, _) ← signWithPrefix hmac msg key (some requestMAC) false now fudge
  pure out

/-- Signs a further message of a transfer, by its times only. -/
def signAXFRChunk (msg : Bytes) (key : Key) (priorMAC : Bytes) (now fudge : Int) :
    Except TsigError (Bytes × Bytes) := do
  refuseIf (priorMAC = []) (plainError "tsig: SignAXFRChunk requires priorMAC")
  signWithPrefix hmac msg key (some priorMAC) true now fudge

end HMAC

/-! ### Finding the signature -/

/-- A name of the message; the error gets a context. -/
def decodeName (context : String) (msg : Bytes) (off : Nat) : Except TsigError (Name × Nat) :=
  (decodeWire maxPtrHops msg off).mapError fun e => ⟨.wire, context ++ e.message⟩

/-- The end of the questions. -/
def skipQuestions (msg : Bytes) : (n off : Nat) → Except TsigError Nat
  | 0, off => .ok off
  | n + 1, off => do
    let (_, next) ← decodeName "" msg off
    refuseIf (next + 4 > msg.length) (plainError "tsig: truncated question")
    skipQuestions msg n (next + 4)

/-- The end of a record. -/
def skipRR (msg : Bytes) (off : Nat) : Except TsigError Nat := do
  let (_, next) ← decodeName "" msg off
  refuseIf (next + 10 > msg.length) (plainError "tsig: truncated rr header")
  let behind := next + 10 + readAt 2 msg (next + 8)
  refuseIf (behind > msg.length) (plainError "tsig: truncated rr body")
  pure behind

/-- The start of the last of `n` records at `off`, `last` being the start of the one before. -/
def walkRRs (msg : Bytes) : (n off last : Nat) → Except TsigError Nat
  | 0, _, last => .ok last
  | n + 1, off, _ => do
    let behind ← skipRR msg off
    walkRRs msg n behind off

/-- Where the last record begins. -/
def findLastRROffset (msg : Bytes) : Except TsigError Nat := do
  let qdcount := readAt 2 msg 4
  let ancount := readAt 2 msg 6
  let nscount := readAt 2 msg 8
  let arcount := readAt 2 msg 10
  let totalRR := ancount + nscount + arcount
  let off ← skipQuestions msg qdcount 12
  let last ← walkRRs msg totalRR off off
  -- the index of the last record walked over is `totalRR - 1`
  refuseIf (totalRR ≤ ancount + nscount) (plainError "tsig: last RR not in additional section")
  pure last

/-- A TSIG record as it is read. -/
structure ParsedTSIG where
  keyName : Name
  algorithm : Name
  timeSigned : Nat
  fudge : UInt16
  mac : Bytes
  origID : UInt16
  errCode : UInt16
  other : Bytes
  deriving DecidableEq

/-- Reads the payload of the record. -/
def parseTSIGRData (keyName : Name) (msg : Bytes) (start end_ : Nat) : Except TsigError ParsedTSIG := do
  let (algName, off) ← decodeName "tsig: parse alg: " msg start
  refuseIf (off + 6 + 2 + 2 > end_) (plainError "tsig: truncated time/fudge/mac-size")
  let macSize := readAt 2 msg (off + 8)
  let macAt := off + 10
  refuseIf (macAt + macSize + 2 + 2 + 2 > end_) (plainError "tsig: truncated mac/origID/err/otherLen")
  let idAt := macAt + macSize
  let otherLen := readAt 2 msg (idAt + 4)
  refuseIf (idAt + 6 + otherLen > end_) (plainError "tsig: truncated other-data")
  pure { keyName, algorithm := algName, timeSigned := readAt 6 msg off
         fudge := UInt16.ofNat (readAt 2 msg (off + 6)), mac := (msg.drop macAt).take macSize
         origID := UInt16.ofNat (readAt 2 msg idAt), errCode := UInt16.ofNat (readAt 2 msg (idAt + 2))
         other := (msg.drop (idAt + 6)).take otherLen }

/-- The message without its TSIG record, which must be the last one, and the record. -/
def stripTSIG (msg : Bytes) : Except TsigError (Bytes × ParsedTSIG) := do
  refuseIf (msg.length < 12) (plainError "tsig: msg too short")
  let arcount := readAt 2 msg 10
  refuseIf (arcount = 0) ⟨.missing, "tsig: no TSIG record in message"⟩
  let start ← findLastRROffset msg
  let (keyName, off) ← decodeName "tsig: parse owner: " msg start
  refuseIf (off + 10 > msg.length) (plainError "tsig: truncated header")
  refuseIf (readAt 2 msg off ≠ tsigType.toNat) ⟨.missing, "tsig: no TSIG record in message"⟩
  let rdataStart := off + 10
  let rdataEnd := rdataStart + readAt 2 msg (off + 8)
  refuseIf (rdataEnd > msg.length) (plainError "tsig: truncated rdata")
  let tsig ← parseTSIGRData keyName msg rdataStart rdataEnd
  pure (writeAt 2 (msg.take start) 10 (arcount - 1), tsig)

/-! ### Verifying -/

/-- The shortest MAC that is taken. -/
def minMACSize : Algorithm → Nat
  | .hmacSHA1 => 10
  | .hmacSHA256 => 16
  | .hmacSHA384 => 24
  | .hmacSHA512 => 32

/-- The size of the whole MAC. -/
def macSize : Algorithm → Nat
  | .hmacSHA1 => 20
  | .hmacSHA256 => 32
  | .hmacSHA384 => 48
  | .hmacSHA512 => 64

/-- `time.Time.Sub`, which saturates at the ends of a 64-bit duration. -/
def timeSub (t u : Int) : Duration := max (-2 ^ 63) (min (2 ^ 63 - 1) (t - u))

namespace ParsedTSIG

/-- The time of signing in nanoseconds. -/
def signed (tsig : ParsedTSIG) : Int := tsig.timeSigned * second

/-- What the MAC of the record must be taken of. -/
def signingInput (tsig : ParsedTSIG) (body : Bytes) (priorMAC : Option Bytes) (timersOnly : Bool) : Bytes :=
  buildSigningInput body tsig.keyName tsig.algorithm priorMAC tsig.timeSigned tsig.fudge tsig.errCode tsig.other
    timersOnly

end ParsedTSIG

section HMAC

variable (hmac : Algorithm → Bytes → Bytes → Bytes)

/-- The checks of all verifiers: key, algorithm, length and value of the MAC, then the time. -/
def verifyWithPrefix (msg : Bytes) (key : Key) (priorMAC : Option Bytes) (timersOnly : Bool) (now fudge : Int) :
    Except TsigError (Bytes × Bytes × Int) := do
  let (body, tsig) ← stripTSIG msg
  refuseIf (tsig.keyName.equal key.name = false) (plainError "tsig: key name mismatch")
  refuseIf (tsig.algorithm.equal key.algorithm.name = false) (plainError "tsig: algorithm mismatch")
  let floor := minMACSize key.algorithm
  refuseIf (tsig.mac.length < floor) ⟨.badTruncation,
    s!"tsig: MAC shorter than allowed: got {tsig.mac.length} bytes, need at least {floor} for {key.algorithm.text}"⟩
  let bodyForMAC := writeAt 2 body 0 tsig.origID.toNat
  let mac ← computeHMAC hmac key (tsig.signingInput bodyForMAC priorMAC timersOnly)
  refuseIf (tsig.mac.length > mac.length)
    (plainError s!"tsig: received MAC longer than {key.algorithm.text} output")
  refuseIf (mac.take tsig.mac.length ≠ tsig.mac) ⟨.badSignature, "tsig: bad signature"⟩
  let delta := timeSub now tsig.signed
  refuseIf (delta > fudge ∨ delta < -fudge) ⟨.badTime,
    s!"tsig: time outside fudge window: delta {Duration.string delta} outside fudge {Duration.string fudge}"⟩
  pure (bodyForMAC, tsig.mac, tsig.signed)

/-- Verifies a request and returns its MAC. -/
def verifyMAC (msg : Bytes) (key : Key) (now fudge : Int) : Except TsigError (Bytes × Bytes × Int) :=
  verifyWithPrefix hmac msg key none false now fudge

/-- Verifies a request. -/
def verify (msg : Bytes) (key : Key) (now fudge : Int) : Except TsigError (Bytes × Int) := do
  let (body, _, signed) ← verifyWithPrefix hmac msg key none false now fudge
  pure (body, signed)

/-- Verifies a response to the request with that MAC. -/
def verifyResponse (msg : Bytes) (key : Key) (requestMAC : Bytes) (now fudge : Int) :
    Except TsigError (Bytes × Bytes × Int) := do
  refuseIf (requestMAC = []) (plainError "tsig: VerifyResponse requires requestMAC")
  verifyWithPrefix hmac msg key (some requestMAC) false now fudge

/-- Verifies a further message of a transfer. -/
def verifyAXFRChunk (msg : Bytes) (key : Key) (priorMAC : Bytes) (now fudge : Int) :
    Except TsigError (Bytes × Bytes × Int) := do
  refuseIf (priorMAC = []) (plainError "tsig: VerifyAXFRChunk requires priorMAC")
  verifyWithPrefix hmac msg key (some priorMAC) true now fudge

/-! ### What verification establishes -/

/-- The message carries a TSIG record of the key whose MAC, possibly shortened, is the MAC of `body`. -/
structure Authentic (msg : Bytes) (key : Key) (priorMAC : Option Bytes) (timersOnly : Bool) (body : Bytes)
    (tsig : ParsedTSIG) : Prop where
  strip : ∃ stripped, stripTSIG msg = .ok (stripped, tsig) ∧ body = writeAt 2 stripped 0 tsig.origID.toNat
  keyName : tsig.keyName = key.name
  algorithm : tsig.algorithm = key.algorithm.name
  enabled : ¬(key.algorithm = .hmacSHA1 ∧ key.allowSHA1 = false)
  floor : minMACSize key.algorithm ≤ tsig.mac.length
  mac : tsig.mac <+: hmac key.algorithm key.secret (tsig.signingInput body priorMAC timersOnly)

end HMAC

/-- The two times differ by at most the fudge. -/
def InWindow (now signed fudge : Int) : Prop := -fudge ≤ timeSub now signed ∧ timeSub now signed ≤ fudge

section Verify

variable {hmac : Algorithm → Bytes → Bytes → Bytes} {msg body mac : Bytes} {key : Key} {priorMAC : Option Bytes}
  {timersOnly : Bool} {now fudge signed : Int}

theorem computeHMAC_eq_ok {payload : Bytes} : computeHMAC hmac key payload = .ok mac ↔
    ¬(key.algorithm = .hmacSHA1 ∧ key.allowSHA1 = false) ∧ hmac key.algorithm key.secret payload = mac := by
  rw [computeHMAC]
  split <;> simp_all

/-- Verification succeeds on authentic messages within the window, and on no others. -/
theorem verifyWithPrefix_eq_ok :
    verifyWithPrefix hmac msg key priorMAC timersOnly now fudge = .ok (body, mac, signed) ↔
      ∃ tsig, Authentic hmac msg key priorMAC timersOnly body tsig ∧ tsig.mac = mac ∧ tsig.signed = signed ∧
        InWindow now signed fudge := by
  constructor
  · intro h
    obtain ⟨⟨stripped, tsig⟩, hstrip, h⟩ := bind_ok h
    obtain ⟨_, hname, h⟩ := bind_ok h
    obtain ⟨_, halg, h⟩ := bind_ok h
    obtain ⟨_, hfloor, h⟩ := bind_ok h
    obtain ⟨full, hmac, h⟩ := bind_ok h
    obtain ⟨_, hlong, h⟩ := bind_ok h
    obtain ⟨_, htag, h⟩ := bind_ok h
    obtain ⟨_, htime, h⟩ := bind_ok h
    obtain ⟨rfl, rfl, rfl⟩ : writeAt 2 stripped 0 tsig.origID.toNat = body ∧ tsig.mac = mac ∧
        tsig.signed = signed := by simpa [pure, Except.pure] using h
    obtain ⟨henabled, rfl⟩ := computeHMAC_eq_ok.mp hmac
    simp only [refuseIf_ok, Bool.not_eq_false, Name.equal_iff, not_not, Nat.not_lt] at hname halg hfloor htag
    simp only [refuseIf_ok, not_or, Int.not_lt, gt_iff_lt] at htime
    exact ⟨tsig, ⟨⟨stripped, hstrip, rfl⟩, hname, halg, henabled, hfloor, List.prefix_iff_eq_take.mpr htag.symm⟩,
      rfl, rfl, htime.2, htime.1⟩
  · rintro ⟨tsig, ⟨⟨stripped, hstrip, rfl⟩, hname, halg, henabled, hfloor, htag⟩, rfl, rfl, hlow, hhigh⟩
    have htime : ¬(timeSub now tsig.signed > fudge ∨ timeSub now tsig.signed < -fudge) := by
      rintro (h | h)
      · exact absurd hhigh (Int.not_le.mpr h)
      · exact absurd hlow (Int.not_le.mpr h)
    have hlong : ¬tsig.mac.length > (hmac key.algorithm key.secret
        (tsig.signingInput (writeAt 2 stripped 0 tsig.origID.toNat) priorMAC timersOnly)).length :=
      Nat.not_lt.mpr htag.length_le
    have hcompute : ∀ payload, computeHMAC hmac key payload = .ok (hmac key.algorithm key.secret payload) :=
      fun _ => if_neg henabled
    have htake := (List.prefix_iff_eq_take.mp htag).symm
    simp only [verifyWithPrefix, hstrip, bind, Except.bind, hname, halg, refuseIf, Name.equal, hcompute]
    simp [Nat.not_lt.mpr hfloor, hlong, htime, htake, pure, Except.pure]

end Verify

end Acidns.Tsig
