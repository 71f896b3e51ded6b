import Acidns.Dnssec.Canonical
import Acidns.Wire.Record

/-!
# Hashed names

`validatorbb/base32.go`, `bytes.go` and `nsec.go`, and the parts of `validator/nsec3.go` by which a hashed
interval is found that covers a name. SHA-1 is a parameter.
-/

namespace Acidns

/-! ### Base32 with the extended hex alphabet -/

def base32HexLetter (v : Nat) : UInt8 := if v < 10 then 0x30 + UInt8.ofNat v else 0x41 + UInt8.ofNat (v - 10)

/-- The inner loop of `Base32HexEncode`: there are never more than twelve bits, so two rounds at most. -/
def emitBase32 (buf : UInt64) : (fuel bits : Nat) → (out : Bytes) → Nat × Bytes
  | 0, bits, out => (bits, out)
  | fuel + 1, bits, out =>
    if bits ≥ 5 then
      emitBase32 buf fuel (bits - 5) (out ++ [base32HexLetter ((buf >>> UInt64.ofNat (bits - 5)) &&& 0x1f).toNat])
    else (bits, out)

def base32HexEncodeLoop : Bytes → (buf : UInt64) → (bits : Nat) → (out : Bytes) → Bytes
  | [], buf, bits, out =>
    if bits > 0 then out ++ [base32HexLetter ((buf <<< UInt64.ofNat (5 - bits)) &&& 0x1f).toNat] else out
  | x :: b, buf, bits, out =>
    let buf := buf <<< 8 ||| UInt64.ofNat x.toNat
    let (bits, out) := emitBase32 buf 2 (bits + 8) out
    base32HexEncodeLoop b buf bits out

/-- Base 32 with the extended hex alphabet, without padding. -/
def base32HexEncode (b : Bytes) : Bytes := base32HexEncodeLoop b 0 0 []

def base32HexValue (c : UInt8) : Option Nat :=
  if 0x30 ≤ c ∧ c ≤ 0x39 then some (c - 0x30).toNat
  else if 0x41 ≤ c ∧ c ≤ 0x56 then some ((c - 0x41).toNat + 10)
  else if 0x61 ≤ c ∧ c ≤ 0x76 then some ((c - 0x61).toNat + 10)
  else none

/-- The loop of `Base32HexDecode`; `none` is its error, for a letter outside the alphabet. -/
def base32HexDecodeLoop : Bytes → (buf : UInt64) → (bits : Nat) → (out : Bytes) → Option Bytes
  | [], _, _, out => some out
  | c :: s, buf, bits, out =>
    match base32HexValue c with
    | none => none
    | some v =>
      let buf := buf <<< 5 ||| UInt64.ofNat v
      if bits + 5 ≥ 8 then
        base32HexDecodeLoop s buf (bits + 5 - 8) (out ++ [UInt8.ofNat ((buf >>> UInt64.ofNat (bits + 5 - 8)) &&& 0xff).toNat])
      else base32HexDecodeLoop s buf (bits + 5) out

def base32HexDecode (s : Bytes) : Option Bytes := base32HexDecodeLoop s 0 0 []

/-! ### Intervals of hashes -/

def bytesLess (a b : Bytes) : Bool := compareBytes a b = .lt

/-- The hash lies strictly between the two, round the end of the ring. -/
def hashIntervalContains (owner next x : Bytes) : Bool :=
  if bytesLess owner next then bytesLess owner x && bytesLess x next else bytesLess owner x || bytesLess x next

theorem bytesLess_iff {a b : Bytes} : bytesLess a b = true ↔ a < b := by
  rw [bytesLess, decide_eq_true_eq]
  exact (compares_compareBytes a b).eq_lt

theorem hashIntervalContains_iff {owner next x : Bytes} :
    hashIntervalContains owner next x = true ↔ Chain.Covers owner next x := by
  simp [hashIntervalContains, Chain.Covers, bytesLess_iff]

/-! ### The validator's hashes -/

/-- What a hash depends on besides the name. -/
structure NSEC3Params where
  alg : UInt8
  iterations : UInt16
  salt : Bytes
  deriving DecidableEq

def nsec3HashSHA1 : UInt8 := 1

def nsec3FlagOptOut : UInt8 := 0x01

/-- The salted hash, applied once and then `iterations` times more. -/
def iteratedHash (sha1 : Bytes → Bytes) (name : Name) (salt : Bytes) (iterations : Nat) : Bytes :=
  Nat.repeat (fun h => sha1 (h ++ salt)) iterations (sha1 (name.appendWire [] ++ salt))

namespace Walker

def maxNSEC3Iterations : UInt16 := 50

def nsec3Hash (sha1 : Bytes → Bytes) (name : Name) (salt : Bytes) (iterations : UInt16) : Option Bytes :=
  if iterations > maxNSEC3Iterations then none else some (iteratedHash sha1 name salt iterations.toNat)

/-- The hash that the first label spells; the decoder takes both cases, so the change to upper case has no effect. -/
def nsec3OwnerHash (owner : Name) : Option Bytes :=
  match owner.labels with
  | [] => none
  | l :: _ => base32HexDecode l

def asNSEC3 (r : Record) : Option NSEC3 :=
  match r.rd with
  | .nsec3 n3 => some n3
  | _ => none

/-- The record's interval holds the hash. -/
def coversHash (target : Bytes) (r : Record) : Option NSEC3 :=
  match nsec3OwnerHash r.name, asNSEC3 r with
  | some ownerHash, some n3 => if hashIntervalContains ownerHash n3.nextOwner target then some n3 else none
  | _, _ => none

/-- A record that covers the hash of the name. -/
def nsec3Cover (sha1 : Bytes → Bytes) (name : Name) (params : NSEC3Params) (records : List Record) : Option NSEC3 :=
  match nsec3Hash sha1 name params.salt params.iterations with
  | none => none
  | some target => records.findSome? (coversHash target)

/-- The parameters of the records, if all have rdata of their type, the known algorithm and the same parameters. -/
def extractNSEC3ParamsLoop : List Record → (params : Option NSEC3Params) → Option NSEC3Params
  | [], params => params
  | r :: records, params =>
    if r.type ≠ .nsec3 then extractNSEC3ParamsLoop records params
    else
      match asNSEC3 r with
      | none => none
      | some n3 =>
        let cur : NSEC3Params := ⟨n3.hashAlg, n3.iterations, n3.salt⟩
        if n3.hashAlg ≠ nsec3HashSHA1 then none
        else
          match params with
          | none => extractNSEC3ParamsLoop records (some cur)
          | some params => if cur ≠ params then none else extractNSEC3ParamsLoop records (some params)

/-- The parameters of a section, if its records agree. -/
def extractNSEC3Params (records : List Record) : Option NSEC3Params := extractNSEC3ParamsLoop records none

end Walker

end Acidns
