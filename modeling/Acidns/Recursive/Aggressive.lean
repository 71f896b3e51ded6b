import Acidns.Dnssec.Walker
import Acidns.Recursive.AggressiveNsec3
import Acidns.Recursive.Resolver

/-!
# The indexes of a resolver with aggressive use

What `ResolveEntry` takes from a validated negative answer into its NSEC and NSEC3 indexes, and the
denials it synthesises from them: `extractValidatedNSECs` of `recursive/aggressive_nsec.go`,
`extractValidatedNSEC3s` of `recursive/aggressive_nsec3.go`, and the loops around them in
`recursive/recursive.go`. The clock is read once for a lookup.
-/

namespace Acidns.Recursive

/-- The owner of the first SOA record. -/
def soaOwner (authority : List Record) : Name :=
  ((authority.find? fun r => r.type = .soa).map Record.name).getD .zero

/-- The NSEC records of a section, under the owner of its SOA. -/
def extractValidatedNSECs (authority : List Record) (now : Int) : List NsecEntry :=
  if !(soaOwner authority).isValid then []
  else authority.filterMap fun r =>
    (asNSEC r).map fun nsec => ⟨r.name, nsec.next, nsec.types, soaOwner authority, now + r.ttl⟩

/-- The hash that the first label spells, and none for the root. -/
def nsec3OwnerHashFromName (owner : Name) : Option Bytes :=
  match owner.labels with
  | [] => some []
  | l :: _ => base32HexDecode l

/-- The loop over the records, with the parameters of the first entry; `none` if others disagree. -/
def extractNSEC3Loop (now : Int) : (authority : List Record) → (params : NSEC3Params) → (entries : List Nsec3Entry) →
    Option (NSEC3Params × List Nsec3Entry)
  | [], params, entries => some (params, entries)
  | r :: authority, params, entries =>
    match Walker.asNSEC3 r with
    | none => extractNSEC3Loop now authority params entries
    | some n3 =>
      let p : NSEC3Params := ⟨n3.hashAlg, n3.iterations, n3.salt⟩
      if entries ≠ [] ∧ params ≠ p then none
      else
        match nsec3OwnerHashFromName r.name with
        | none => extractNSEC3Loop now authority p entries
        | some ownerHash => extractNSEC3Loop now authority p
            (entries ++ [⟨ownerHash, n3.nextOwner, n3.types, n3.flags &&& 0x01 ≠ 0, now + r.ttl⟩])

def extractValidatedNSEC3s (authority : List Record) (now : Int) : Name × NSEC3Params × List Nsec3Entry :=
  if !(soaOwner authority).isValid then (.zero, ⟨0, 0, []⟩, [])
  else
    match extractNSEC3Loop now authority ⟨0, 0, []⟩ [] with
    | none => (.zero, ⟨0, 0, []⟩, [])
    | some (params, entries) => (soaOwner authority, params, entries)

/-- The two indexes of RFC 8198. -/
structure Aggressive where
  nsec : NsecIndex
  nsec3 : Nsec3Index

namespace Aggressive

/-- The indexes of a resolver that `New` returns. -/
def empty : Aggressive := ⟨newNSECIndex, newNSEC3Index⟩

/-- Insert one after the other, up to an insertion that panics. -/
def insertAll {σ α : Type} (insert : σ → α → Option σ) : σ → List α → σ
  | i, [] => i
  | i, e :: es =>
    match insert i e with
    | none => i
    | some i => insertAll insert i es

/-- What a validated denial adds to the indexes. -/
def harvest (a : Aggressive) (authority : List Record) (now : Int) : Aggressive :=
  let (zoneApex, params, n3) := extractValidatedNSEC3s authority now
  { nsec := insertAll (fun i e => i.insert e now) a.nsec (extractValidatedNSECs authority now)
    nsec3 := if zoneApex.isValid then insertAll (fun i e => i.insert zoneApex params e now) a.nsec3 n3 else a.nsec3 }

def index (sha1 : Bytes → Bytes) : DenialIndex Aggressive where
  synthesiseFromNSEC a name t now := a.nsec.synthesise name t now now
  synthesiseFromNSEC3 a name t now := a.nsec3.synthesise sha1 name t now now
  harvest := harvest

theorem synthesise_empty (sha1 : Bytes → Bytes) (name : Name) (t : RRType) (now : Int) :
    (index sha1).synthesiseFromNSEC empty name t now = none ∧
      (index sha1).synthesiseFromNSEC3 empty name t now = none := by
  have hzone : ∀ fuel cur, empty.nsec3.deepestZone fuel cur = none := by
    intro fuel
    induction fuel with
    | zero => exact fun _ => rfl
    | succ fuel ih =>
      intro cur
      rw [Nsec3Index.deepestZone, if_neg (by exact Bool.false_ne_true)]
      cases cur.parent with
      | none => rfl
      | some p => exact ite_eq_left_iff.mpr fun _ => ih p
  refine ⟨rfl, ?_⟩
  show empty.nsec3.synthesise sha1 name t now now = none
  rw [Nsec3Index.synthesise, hzone]
  rfl

end Aggressive

end Acidns.Recursive
