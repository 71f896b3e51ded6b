import Mathlib.Data.Finset.Card
import Acidns.Authoritative.Zone

/-!
# Dynamic update

`serveUpdate` of `authoritative/update.go`. The request is screened without a lock, checked against the
zone under the read lock, and checked again and applied under the write lock; other requests and loads
of zones may come between the two.
-/

namespace Acidns.Authoritative

/-! ### Prerequisites -/

/-- The rdata that a zone must have under an owner and a type. -/
abbrev Wanted := Table (Bytes × RRType) (Finset Bytes)

/-- The first failed prerequisite decides; sets are gathered for later. -/
def scanPrereqs (z : ZoneIndex) : List Record → Wanted → Except RCODE Wanted
  | [], want => .ok want
  | p :: prereqs, want =>
    if p.ttl ≠ 0 then .error .formErr
    else if p.class_ = RRClass.classANY then
      if hasRData p then .error .formErr
      else if p.type = .any then if z.hasName p.name then scanPrereqs z prereqs want else .error .nxDomain
      else if z.hasType p.name p.type then scanPrereqs z prereqs want
      else .error .nxRRSet
    else if p.class_ = RRClass.classNONE then
      if hasRData p then .error .formErr
      else if p.type = .any then if z.hasName p.name then .error .yxDomain else scanPrereqs z prereqs want
      else if z.hasType p.name p.type then .error .yxRRSet
      else scanPrereqs z prereqs want
    else if p.class_ = RRClass.classIN then
      let k := (nameKey p.name, p.type)
      scanPrereqs z prereqs (want.insert k (insert p.rd.packed ((want.lookup k).getD ∅)))
    else .error .formErr

def hasWanted (z : ZoneIndex) (k : Bytes × RRType) (set : Finset Bytes) : Bool :=
  match z.byName.lookup k.1 with
  | none => false
  | some recs =>
    let got := ((recs.filter fun r => r.type = k.2).map fun r => r.rd.packed).toFinset
    got.card = set.card ∧ ∀ v ∈ set, v ∈ got

/-- RFC 2136, section 3.2. -/
def evaluatePrereqs (z : ZoneIndex) (prereqs : List Record) : RCODE :=
  match scanPrereqs z prereqs ∅ with
  | .error rcode => rcode
  | .ok want => if want.entries.all fun e => hasWanted z e.1 e.2 then .noError else .nxRRSet

/-! ### The update section -/

def validUpdate (z : ZoneIndex) (u : Record) : Bool :=
  if u.class_ = RRClass.classANY then u.ttl = 0 && !hasRData u
  else if u.class_ = RRClass.classNONE then u.ttl = 0 && hasRData u
  else if u.class_ = RRClass.classIN then !(u.name.equal z.origin && isCNAMEOrDNAME u.type)
  else false

/-- Every record is checked before any is applied. -/
def validateUpdates (z : ZoneIndex) (updates : List Record) : RCODE :=
  if updates.all (validUpdate z) then .noError else .formErr

/-! ### Requests -/

structure Config where
  maxUpdateRecords : Int
  /-- An `OnUpdate` callback is installed. -/
  onUpdate : Bool

def defaultConfig : Config := ⟨1000, false⟩

/-- The verdict of the installed policy on a request; it is asked anew for each of them. -/
abbrev UpdatePolicy := Option (Message → Bool)

abbrev Zones := Table Bytes ZoneIndex

def updateReply (q : Message) (code : RCODE) : Message :=
  let flags := ((0 : Flags).withResponse true).withOpcode .update |>.withRCODE code
  ⟨q.id, flags, q.questions, [], [], [], q.edns.map fun e => ⟨1232, 0, 0, e.do_, []⟩⟩

/-- What is checked without a lock; the name of the zone if all is well. -/
def screenUpdate (cfg : Config) (policy : UpdatePolicy) (q : Message) : Except RCODE Name :=
  match q.questions with
  | [zoneQ] =>
    if zoneQ.typ ≠ .soa then .error .formErr
    else if cfg.maxUpdateRecords > 0 ∧ cfg.maxUpdateRecords < q.answers.length + q.authorities.length then .error .formErr
    else if !(policy.map fun permits => permits q).getD false then .error .refused
    else if !(q.answers.all fun p => inBailiwick zoneQ.name p.name) then .error .notZone
    else if !(q.authorities.all fun u => inBailiwick zoneQ.name u.name) then .error .notZone
    else .ok zoneQ.name
  | _ => .error .formErr

/-- What is checked under a lock; the zone if all is well. -/
def checkUpdate (zones : Zones) (zoneName : Name) (q : Message) : Except RCODE ZoneIndex :=
  match zones.lookup (nameKey zoneName) with
  | none => .error .notAuth
  | some zone =>
    let rcode := evaluatePrereqs zone q.answers
    if rcode ≠ .noError then .error rcode
    else
      let rcode := validateUpdates zone q.authorities
      if rcode ≠ .noError then .error rcode else .ok zone

structure Notice where
  zone : Name
  oldSerial : UInt32
  newSerial : UInt32
  deriving DecidableEq

structure Served where
  rcode : RCODE
  reply : Message
  changed : Bool
  notice : Option Notice
  deriving DecidableEq

def Served.refused (q : Message) (rcode : RCODE) : Served := ⟨rcode, updateReply q rcode, false, none⟩

def ZoneIndex.serial (z : ZoneIndex) : Option UInt32 := z.soaRec.asSOA.map SOA.serial

def ZoneIndex.update (z : ZoneIndex) (updates : List Record) : ZoneIndex × Bool :=
  let (applied, changed) := z.applyUpdates updates
  (if changed then applied.bumpSOA.rebuildNamesExist else applied, changed)

/-- What happens under the write lock. The old serial is read when the update section is applied. -/
def commitUpdate (cfg : Config) (zones : Zones) (zoneName : Name) (q : Message) : Zones × Served :=
  match checkUpdate zones zoneName q with
  | .error rcode => (zones, .refused q rcode)
  | .ok zone =>
    let (newZone, changed) := zone.update q.authorities
    let oldSerial := (zone.applyUpdates q.authorities).1.serial.getD 0
    let newSerial := if changed then newZone.serial.getD oldSerial else oldSerial
    let notice := if changed && cfg.onUpdate then some ⟨zoneName, oldSerial, newSerial⟩ else none
    (zones.insert (nameKey zoneName) newZone, ⟨.noError, updateReply q .noError, changed, notice⟩)

def admitUpdate (cfg : Config) (policy : UpdatePolicy) (zones : Zones) (q : Message) : Except RCODE Name := do
  let zoneName ← screenUpdate cfg policy q
  let _ ← checkUpdate zones zoneName q
  return zoneName

/-- One UPDATE message, from admission to the new zone. -/
def serveUpdate (cfg : Config) (policy : UpdatePolicy) (zones : Zones) (q : Message) : Zones × Served :=
  match admitUpdate cfg policy zones q with
  | .error rcode => (zones, .refused q rcode)
  | .ok zoneName => commitUpdate cfg zones zoneName q

/-! ### The server at work -/

/-- The server, with the requests between receipt and commit. -/
structure State where
  zones : Zones
  /-- The requests between the two locks, with the names of their zones. -/
  waiting : List (Name × Message)
  /-- How the requests so far have ended; history only. -/
  served : List Served

def State.initial : State := ⟨∅, [], []⟩

inductive Action where
  /-- `AddZone` or `ReloadZone`. -/
  | load (z : Zone)
  | receive (policy : UpdatePolicy) (q : Message)
  | commit (i : Nat)

/-- One action; a commit works on the zone it finds. -/
def State.step (cfg : Config) (s : State) : Action → Option State
  | .load z =>
    match indexZone z with
    | .error _ => some s
    | .ok idx => some { s with zones := s.zones.insert (nameKey z.origin) idx }
  | .receive policy q =>
    match admitUpdate cfg policy s.zones q with
    | .error rcode => some { s with served := .refused q rcode :: s.served }
    | .ok zoneName => some { s with waiting := (zoneName, q) :: s.waiting }
  | .commit i => do
    let (zoneName, q) ← s.waiting[i]?
    let (zones, served) := commitUpdate cfg s.zones zoneName q
    some ⟨zones, s.waiting.eraseIdx i, served :: s.served⟩

/-- The states that the server reaches by actions that satisfy `good`. -/
inductive Reachable (cfg : Config) (good : Action → Prop) : State → Prop
  | initial : Reachable cfg good .initial
  | step {s s' : State} {a : Action} (hs : Reachable cfg good s) (ha : good a) (h : s.step cfg a = some s') :
      Reachable cfg good s'

def State.run (cfg : Config) : State → List Action → Option State
  | s, [] => some s
  | s, a :: actions => (s.step cfg a).bind fun s' => s'.run cfg actions

theorem Reachable.run {cfg : Config} {good : Action → Prop} {s s' : State} {actions : List Action}
    (hs : Reachable cfg good s) (hactions : ∀ a ∈ actions, good a) (h : s.run cfg actions = some s') :
    Reachable cfg good s' := by
  induction actions generalizing s with
  | nil => exact Option.some.inj h ▸ hs
  | cons a actions ih =>
    obtain ⟨s'', hstep, hrun⟩ := Option.bind_eq_some_iff.mp h
    exact ih (hs.step (hactions a (.head _)) hstep) (fun b hb => hactions b (.tail _ hb)) hrun

end Acidns.Authoritative
