import Acidns.Cookies.Server
import Acidns.Dnssec.Canonical
import Acidns.Lib.Program
import Acidns.Zonefile.Parser
import Mathlib.Data.List.Permutation
import Mathlib.Data.Multiset.Basic

/-!
# Simultaneous probes

`mdns/publish.go`: an announcer that hears the probe of another one compares the records in it that have one of its
own names with all of its own records. The TXT pairs are in a map, so each enumeration may have an order of its own.
-/

namespace Acidns.Mdns

open Octets (bigEndian length_bigEndian bigEndian_inj)
open Decoder (FixedBytes CharString)
open List

/-- A service to be announced. -/
structure Publication where
  instanceName : Name
  typ : Name
  host : Name
  port : UInt16
  addrs : List Addr
  text : Multiset (Bytes × Bytes)
  ttl : Duration
  deriving DecidableEq

def cacheFlushBit : RRClass := 0x8000

def addressRecord (p : Publication) (class_ : RRClass) : Addr → List Record
  | .zero => []
  | .v4 ip => [newRecordClass p.host class_ p.ttl (.a ip)]
  | .v6 ip _ => [newRecordClass p.host class_ p.ttl (.aaaa ip)]

def textRecord (p : Publication) (class_ : RRClass) (order : List (Bytes × Bytes)) : List Record :=
  if order = [] then []
  else
    match newTXT (order.map fun kv => kv.1 ++ 0x3d :: kv.2) with
    | .ok txt => [newRecordClass p.instanceName class_ p.ttl txt]
    | .error _ => []

/-- The records that a publication claims. -/
def publicationRecords (p : Publication) (order : List (Bytes × Bytes)) (flushBit : Bool) : List Record :=
  let class_ := if flushBit then RRClass.classIN ||| cacheFlushBit else RRClass.classIN
  match newSRV 0 0 p.port p.host with
  | .error _ => []
  | .ok srv =>
    newRecordClass p.instanceName class_ p.ttl srv :: (textRecord p class_ order ++
      newRecord p.typ p.ttl (.ptr p.instanceName) :: p.addrs.flatMap (addressRecord p class_))

/-- The records at the publication's own names. -/
def pertinentRecords (records : List Record) (p : Publication) : List Record :=
  records.filter fun r => r.name.equal p.instanceName || r.name.equal p.host

def canonicalPart (r : Record) : Bytes :=
  bigEndian 2 (r.class_ &&& 0x7fff).toNat ++ bigEndian 2 r.type.toNat ++ r.rd.packed

/-- The sorted records, for comparison byte by byte. -/
def canonicalSetBytes (records : List Record) : Bytes :=
  ((records.map canonicalPart).insertionSort fun a b => compareBytes a b ≠ .gt).flatten

variable {host : Name} {rd rd' : RData} {u v : Bytes}

/-- `canonicalPart` of a record of class IN. -/
def part (rd : RData) : Bytes := bigEndian 2 1 ++ bigEndian 2 rd.type.toNat ++ rd.packed

/-- The records of an announcer sorted by their parts. -/
def sorted (rs : List Record) : List RData :=
  (rs.map Record.rd).insertionSort fun rd rd' => compareBytes (part rd) (part rd') ≠ .gt

variable {p q : Publication} {order order' : List (Bytes × Bytes)} {r : Record}

/-- Which of its names an announcer has the data under. -/
def owner (p : Publication) : RData → Name
  | .srv _ | .txt _ => p.instanceName
  | _ => p.host

/-- The service type is neither of the two names. -/
def Publication.Apart (p : Publication) : Prop := p.typ ≠ p.instanceName ∧ p.typ ≠ p.host

/-- What an announcer compares of the records of `q`, in an order. -/
def view (p q : Publication) (order : List (Bytes × Bytes)) : Bytes :=
  canonicalSetBytes (pertinentRecords (publicationRecords q order false) p)

namespace Encounter

variable {e : Encounter}

end Encounter

/-! ### Samples -/

end Acidns.Mdns
