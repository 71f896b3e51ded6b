import Acidns.Dnssec.Nsec3
import Acidns.Recursive.AggressiveNsec

/-!
# Aggressive use of NSEC3 records

`recursive/aggressive_nsec3.go`: the index of validated NSEC3 records, with the records of each zone in a
bucket of their own, and the negative entries that are synthesised from it while aggressive use is on. SHA-1
is a parameter.
-/

namespace Acidns.Recursive

/-- One hashed interval, with the types at its owner. -/
structure Nsec3Entry where
  ownerHash : Bytes
  nextHash : Bytes
  types : List RRType
  optOut : Bool
  expiresAt : Int
  deriving DecidableEq

/-- The intervals of a zone under one set of parameters. -/
structure Nsec3ZoneIndex where
  params : NSEC3Params
  entries : List Nsec3Entry
  deriving DecidableEq

/-- The intervals of every zone. -/
structure Nsec3Index where
  zones : Table Bytes Nsec3ZoneIndex
  /-- The bound on the entries of all zones; zero for none. -/
  maxLen : Nat

def newNSEC3Index : Nsec3Index := ⟨∅, defaultAggressiveNSECCap⟩

def maxNSEC3Iterations : UInt16 := 100

/-- The parameters the source accepts. -/
def NSEC3Params.Admissible (p : NSEC3Params) : Prop := p.alg = nsec3HashSHA1 ∧ p.iterations ≤ maxNSEC3Iterations

instance (p : NSEC3Params) : Decidable (NSEC3Params.Admissible p) := inferInstanceAs (Decidable (_ ∧ _))

/-! ### Insertion -/

namespace Nsec3ZoneIndex

def find (z : Nsec3ZoneIndex) (hash : Bytes) : Nat × Bool :=
  Slice.binarySearch (fun e => compareBytes e.ownerHash hash) z.entries

def sweep (now : Int) (z : Nsec3ZoneIndex) : Nsec3ZoneIndex :=
  { z with entries := z.entries.filter fun e => e.expiresAt > now }

def insertAt (z : Nsec3ZoneIndex) (idx : Nat) (e : Nsec3Entry) : Option Nsec3ZoneIndex :=
  (Slice.insertAt z.entries idx e).map ({ z with entries := · })

end Nsec3ZoneIndex

namespace Nsec3Index

def total (i : Nsec3Index) : Nat := (i.zones.entries.map fun b => b.2.entries.length).sum

def isFull (i : Nsec3Index) : Bool := i.maxLen > 0 ∧ i.total ≥ i.maxLen

def store (i : Nsec3Index) (key : Bytes) (z : Nsec3ZoneIndex) : Nsec3Index := { i with zones := i.zones.insert key z }

def sweepExpired (i : Nsec3Index) (now : Int) : Nsec3Index :=
  { i with zones := Table.filter (fun _ z => z.entries ≠ []) (Table.mapValues (·.sweep now) i.zones) }

/-- The entry that expires first, over all zones. -/
def soonest (i : Nsec3Index) : Option (Bytes × Nat) :=
  let places := i.zones.entries.flatMap fun b => b.2.entries.zipIdx.map fun (e, j) => (b.1, j, e.expiresAt)
  (places.foldl (fun best p =>
    match best with
    | none => some p
    | some b => if p.2.2 < b.2.2 then some p else some b) none).map fun p => (p.1, p.2.1)

def evictSoonest (i : Nsec3Index) : Nsec3Index :=
  match i.soonest with
  | none => i
  | some (key, idx) =>
    match i.zones.lookup key with
    | none => i
    | some z =>
      let z := { z with entries := z.entries.eraseIdx idx }
      if z.entries.length = 0 then { i with zones := i.zones.erase key } else i.store key z

/-- A bucket with other parameters is dropped. -/
def bucket (i : Nsec3Index) (key : Bytes) (params : NSEC3Params) : Nsec3ZoneIndex :=
  match i.zones.lookup key with
  | some z => if z.params = params then z else ⟨params, []⟩
  | none => ⟨params, []⟩

/-- `Insert`, where `now` is what the clock shows if it is read. The place is found before the sweep, which may take the
bucket out of the map; the entry is then added to a bucket that is lost. -/
def insert (i : Nsec3Index) (zoneApex : Name) (params : NSEC3Params) (e : Nsec3Entry) (now : Int) : Option Nsec3Index :=
  if ¬NSEC3Params.Admissible params then some i
  else
    let key := nameKey zoneApex
    let z := i.bucket key params
    let i := i.store key z
    let (idx, found) := z.find e.ownerHash
    if found then some (i.store key { z with entries := z.entries.set idx e })
    else if i.isFull then
      let i := i.sweepExpired now
      if i.isFull then
        let i := i.evictSoonest
        let z := (i.zones.lookup key).getD ⟨params, []⟩
        (z.insertAt (z.find e.ownerHash).1 e).map (i.store key)
      else
        ((z.sweep now).insertAt idx e).map fun z => if (i.zones.lookup key).isSome then i.store key z else i
    else (z.insertAt idx e).map (i.store key)

end Nsec3Index

/-! ### Lookup -/

def nsec3HashOf (sha1 : Bytes → Bytes) (name : Name) (p : NSEC3Params) : Option Bytes :=
  if NSEC3Params.Admissible p then some (iteratedHash sha1 name p.salt p.iterations.toNat) else none

def oneLabelLongerLoop (encLabels : Nat) : (fuel : Nat) → (n : Name) → Option Name
  | 0, n => if n.numLabels ≠ encLabels + 1 then none else some n
  | fuel + 1, n =>
    if n.numLabels > encLabels + 1 then
      match n.parent with
      | none => none
      | some p => if n.equal p then none else oneLabelLongerLoop encLabels fuel p
    else if n.numLabels ≠ encLabels + 1 then none
    else some n

/-- The name one label below the encloser on the way to `q`; the source returns the zero name for none. -/
def oneLabelLonger (q encloser : Name) : Option Name := oneLabelLongerLoop encloser.numLabels q.numLabels q

def wildcardAt (encloser : Name) : Option Name := (parseName (0x2a :: 0x2e :: encloser.text)).toOption

namespace Nsec3ZoneIndex

/-- A live entry owned by the hash of the name. -/
def matchHash (sha1 : Bytes → Bytes) (z : Nsec3ZoneIndex) (name : Name) (now : Int) : Option Nsec3Entry :=
  match nsec3HashOf sha1 name z.params with
  | none => none
  | some want =>
    let (idx, found) := z.find want
    if !found then none
    else
      match z.entries[idx]? with
      | none => none
      | some e => if e.expiresAt > now then some e else none

/-- A live entry whose interval holds the hash of the name. -/
def coverHash (sha1 : Bytes → Bytes) (z : Nsec3ZoneIndex) (name : Name) (now : Int) (denyOptOut : Bool) : Option Nsec3Entry :=
  match nsec3HashOf sha1 name z.params with
  | none => none
  | some target => z.entries.find? fun e =>
    e.expiresAt > now && !(denyOptOut && e.optOut) && hashIntervalContains e.ownerHash e.nextHash target

/-- The three entries of a name error: encloser, next closer name, wildcard. -/
def encloserProof (sha1 : Bytes → Bytes) (z : Nsec3ZoneIndex) (q cur : Name) (now : Int) (matchEntry : Nsec3Entry) :
    Option (List Nsec3Entry) := do
  let nextCloser ← oneLabelLonger q cur
  let ncEntry ← z.coverHash sha1 nextCloser now true
  let wildcard ← wildcardAt cur
  let wcEntry ← z.coverHash sha1 wildcard now true
  return [matchEntry, ncEntry, wcEntry]

def closestEncloserProofLoop (sha1 : Bytes → Bytes) (z : Nsec3ZoneIndex) (q : Name) (now : Int) :
    (fuel : Nat) → (cur : Name) → Option (List Nsec3Entry)
  | 0, _ => none
  | fuel + 1, cur =>
    match z.matchHash sha1 cur now with
    | some matchEntry => z.encloserProof sha1 q cur now matchEntry
    | none =>
      match cur.parent with
      | none => none
      | some p => if cur.equal p then none else closestEncloserProofLoop sha1 z q now fuel p

/-- The ancestors are tried from the name upwards. -/
def closestEncloserProof (sha1 : Bytes → Bytes) (z : Nsec3ZoneIndex) (q : Name) (now : Int) : Option (List Nsec3Entry) :=
  z.closestEncloserProofLoop sha1 q now (q.numLabels + 1) q

def noDataProof (sha1 : Bytes → Bytes) (z : Nsec3ZoneIndex) (q : Name) (qtype : RRType) (now : Int) : Option Nsec3Entry :=
  (z.matchHash sha1 q now).filter fun entry => !typeInBitmap entry.types .cname && !typeInBitmap entry.types qtype

end Nsec3ZoneIndex

namespace Nsec3Index

def lookup (sha1 : Bytes → Bytes) (i : Nsec3Index) (zoneApex q : Name) (qtype : RRType) (now : Int) :
    Option (List Nsec3Entry × NSEC3Params × LookupKind) :=
  match i.zones.lookup (nameKey zoneApex) with
  | none => none
  | some z =>
    match z.noDataProof sha1 q qtype now with
    | some entry => some ([entry], z.params, .noData)
    | none => (z.closestEncloserProof sha1 q now).map fun proofs => (proofs, z.params, .nxdomain)

/-- The deepest ancestor of a name that has a bucket; a name has no more ancestors than labels. -/
def deepestZone (i : Nsec3Index) : (fuel : Nat) → (cur : Name) → Option Name
  | 0, _ => none
  | fuel + 1, cur =>
    if (i.zones.lookup (nameKey cur)).isSome then some cur
    else
      match cur.parent with
      | none => none
      | some p => if cur.equal p then none else deepestZone i fuel p

end Nsec3Index

/-! ### Synthesis -/

def nsec3OwnerName (ownerHash : Bytes) (zone : Name) : Name :=
  match parseName (base32HexEncode ownerHash ++ 0x2e :: zone.text) with
  | .ok n => n
  | .error _ => .zero

/-- `rdata.NewNSEC3`, with `none` for its errors. -/
def newNSEC3 (params : NSEC3Params) (flags : UInt8) (nextOwner : Bytes) (types : List RRType) : Option NSEC3 :=
  if params.salt.length > 255 then none
  else if nextOwner.length = 0 then none
  else if nextOwner.length > 255 then none
  else some ⟨params.alg, flags, params.iterations, params.salt, nextOwner, types⟩

def Nsec3Entry.record (e : Nsec3Entry) (zone : Name) (params : NSEC3Params) (later : Int) : Option Record :=
  if e.expiresAt - later ≤ 0 then none
  else (newNSEC3 params (if e.optOut then 0x01 else 0) e.nextHash e.types).map fun n3 =>
    newRecord (nsec3OwnerName e.ownerHash zone) (e.expiresAt - later) (.nsec3 n3)

/-- `synthesiseFromNSEC3` of a resolver with aggressive use; the clock is read again for the TTLs. -/
def Nsec3Index.synthesise (sha1 : Bytes → Bytes) (i : Nsec3Index) (name : Name) (t : RRType) (now later : Int) : Option Entry := do
  let zone ← i.deepestZone (name.numLabels + 1) name
  let (entries, params, kind) ← i.lookup sha1 zone name t now
  let authority ← entries.mapM fun e => e.record zone params later
  let first ← entries.head?
  return {
    answer := []
    authority := authority
    additional := []
    rcode := match kind with
      | .nxdomain => .nxDomain
      | .noData => .noError
    aa := false
    ad := true
    expiresAt := entries.tail.foldl (fun earliest e => min earliest e.expiresAt) first.expiresAt }

end Acidns.Recursive
