import Acidns.Dnssec.SignedZone
import Acidns.Lib.Slice
import Acidns.Recursive.Response

/-!
# Aggressive use of NSEC records

`recursive/aggressive_nsec.go`: the index of validated NSEC records, in which the records of all zones stand
in the order of a sort key, and the negative entries that are synthesised from it while aggressive use is on.
-/

namespace Acidns.Recursive

/-- The key that entries are sorted by. -/
def canonicalKey (n : Name) : Bytes := (collectLabels n).flatMap (fun v => UInt8.ofNat v.length :: v) ++ [0]

/-- A validated NSEC record with the zone that issued it. The source also keeps the sort key of the owner. -/
structure NsecEntry where
  owner : Name
  next : Name
  types : List RRType
  issuingZone : Name
  expiresAt : Int
  deriving DecidableEq

structure NsecIndex where
  entries : List NsecEntry
  /-- The bound on the entries; zero for none. -/
  maxLen : Nat
  deriving DecidableEq

def defaultAggressiveNSECCap : Nat := 4096

def newNSECIndex : NsecIndex := ⟨[], defaultAggressiveNSECCap⟩

namespace NsecIndex

/-- The place of a key, and whether it is taken. -/
def findByOwner (entries : List NsecEntry) (key : Bytes) : Nat × Bool :=
  Slice.binarySearch (fun e => compareBytes (canonicalKey e.owner) key) entries

def sweepExpired (i : NsecIndex) (now : Int) : NsecIndex :=
  { i with entries := i.entries.filter fun e => e.expiresAt > now }

def isFull (i : NsecIndex) : Bool := i.maxLen > 0 ∧ i.entries.length ≥ i.maxLen

/-- `Insert`, where `now` is what the clock shows if it is read. The place is found before the sweep; behind the end of
what is left the insertion panics. -/
def insert (i : NsecIndex) (e : NsecEntry) (now : Int) : Option NsecIndex :=
  let (idx, found) := findByOwner i.entries (canonicalKey e.owner)
  if found then some { i with entries := i.entries.set idx e }
  else
    let i := if i.isFull then i.sweepExpired now else i
    if i.isFull then
      let entries := Slice.evictEarliest NsecEntry.expiresAt i.entries
      (Slice.insertAt entries (findByOwner entries (canonicalKey e.owner)).1 e).map ({ i with entries := · })
    else (Slice.insertAt i.entries idx e).map ({ i with entries := · })

end NsecIndex

/-- The name lies between owner and next, in the order of the keys. -/
def nsecCovers (owner next q : Name) : Bool :=
  let after := compareBytes (canonicalKey q) (canonicalKey owner) = .gt
  let before := compareBytes (canonicalKey q) (canonicalKey next) = .lt
  if compareBytes (canonicalKey owner) (canonicalKey next) = .lt then after ∧ before else after ∨ before

def inBailiwickName (ancestor descendant : Name) : Bool := inBailiwick ancestor descendant

def typeInBitmap (bitmap : List RRType) (t : RRType) : Bool := t ∈ bitmap

/-- What the index proves about a name; nothing is `none` of it. -/
inductive LookupKind where
  | nxdomain
  | noData
  deriving DecidableEq

namespace NsecIndex

/-- The last entry not above the name. -/
def candidate (i : NsecIndex) (q : Name) : Option NsecEntry :=
  let idx := (i.entries.findIdx? fun e => compareBytes (canonicalKey e.owner) (canonicalKey q) = .gt).getD i.entries.length
  if idx = 0 then none else i.entries[idx - 1]?

/-- A live entry that denies the type or the name. -/
def lookup (i : NsecIndex) (q : Name) (qtype : RRType) (now : Int) : Option (NsecEntry × LookupKind) :=
  match i.candidate q with
  | none => none
  | some cand =>
    if ¬cand.expiresAt > now then none
    else if !inBailiwickName cand.issuingZone q then none
    else if cand.owner.equal q then
      if typeInBitmap cand.types .cname then none
      else if typeInBitmap cand.types qtype then none
      else some (cand, .noData)
    else if !nsecCovers cand.owner cand.next q then none
    else some (cand, .nxdomain)

def hasWildcardDenialLoop (i : NsecIndex) (now : Int) : (fuel : Nat) → (cur : Name) → Bool
  | 0, _ => false
  | fuel + 1, cur =>
    match cur.parent with
    | none => false
    | some p =>
      if cur.equal p then false
      else
        match parseName (0x2a :: 0x2e :: p.text) with
        | .ok wc =>
          match i.lookup wc .any now with
          | some (_, .nxdomain) => true
          | _ => hasWildcardDenialLoop i now fuel p
        | .error _ => hasWildcardDenialLoop i now fuel p

/-- The wildcard of some ancestor is known not to exist. -/
def hasWildcardDenial (i : NsecIndex) (q : Name) (now : Int) : Bool := i.hasWildcardDenialLoop now q.numLabels q

/-- `synthesiseFromNSEC` of a resolver with aggressive use; the clock is read a second time for the TTL. -/
def synthesise (i : NsecIndex) (name : Name) (t : RRType) (now later : Int) : Option Entry :=
  match i.lookup name t now with
  | none => none
  | some (cand, kind) =>
    if !i.hasWildcardDenial name now then none
    else
      let ttl := cand.expiresAt - later
      if ttl ≤ 0 then none
      else some {
        answer := []
        authority := [newRecord cand.owner ttl (.nsec ⟨cand.next, cand.types⟩)]
        additional := []
        rcode := match kind with
          | .nxdomain => .nxDomain
          | .noData => .noError
        aa := false
        ad := true
        expiresAt := cand.expiresAt }

end NsecIndex

end Acidns.Recursive
