import Acidns.Dnssec.HashedZone

/-!
# Denial by hashed names

The rest of `validator/nsec3.go`: how the NSEC3 records of a section, once they are verified, are read as a
denial. What they prove is compared with an honest zone that has all its names in the chain. A name error is
right exactly if the record of the closest encloser does not delegate or redirect the names below it, which
the code does not look at.
-/

namespace Acidns

def NSEC3Params.hash (sha1 : Bytes → Bytes) (p : NSEC3Params) (n : Name) : Bytes :=
  iteratedHash sha1 n p.salt p.iterations.toNat

/-- One label more than the encloser. -/
def nextCloserName (qname encloser : Name) : Name := truncateNameTo qname (encloser.numLabels + 1)

namespace Walker

def bitmapHas (types : List RRType) (t : RRType) : Bool := types.contains t

/-- The record is owned by the hash. -/
def matchesHash (want : Bytes) (r : Record) : Option NSEC3 :=
  if nsec3OwnerHash r.name = some want then asNSEC3 r else none

section Prove

variable (sha1 : Bytes → Bytes)

/-- A record owned by the hash of the name. -/
def nsec3Match (name : Name) (params : NSEC3Params) (records : List Record) : Option NSEC3 :=
  match nsec3Hash sha1 name params.salt params.iterations with
  | none => none
  | some want => records.findSome? (matchesHash want)

/-- The loop of `findNSEC3ClosestEncloser`; a name has no more ancestors than labels. -/
def findEncloserLoop (zone : Name) (params : NSEC3Params) (records : List Record) : (fuel : Nat) → (cur : Name) → Option Name
  | 0, _ => none
  | fuel + 1, cur =>
    match cur.parent with
    | none => none
    | some parent =>
      if (nsec3Match sha1 parent params records).isSome then some parent
      else if parent.equal zone then
        if (nsec3Match sha1 zone params records).isSome then some zone else none
      else findEncloserLoop zone params records fuel parent

/-- The deepest ancestor that a record matches. -/
def findNSEC3ClosestEncloser (qname zone : Name) (params : NSEC3Params) (records : List Record) : Option Name :=
  findEncloserLoop sha1 zone params records (qname.numLabels + 1) qname

/-- What a set of NSEC3 records proves. -/
inductive NSEC3DenialKind where
  | none
  | noData
  | nxdomain
  | insecureDelegation
  | optOut
  | iterationsExceeded
  deriving DecidableEq

structure NSEC3DenialResult where
  kind : NSEC3DenialKind
  closestEncloser : Name := .zero
  deriving DecidableEq

def hasOptOut (n3 : NSEC3) : Bool := n3.flags &&& nsec3FlagOptOut ≠ 0

/-- Neither the type nor a CNAME is there. -/
def lacksType (n3 : NSEC3) (qtype : RRType) : Bool := !bitmapHas n3.types qtype && !bitmapHas n3.types .cname

/-- The denials that only a DS question has. -/
def nsec3ProveDS (qname : Name) (params : NSEC3Params) (records : List Record) : Option NSEC3DenialKind :=
  let atName := (nsec3Match sha1 qname params records).bind fun n3 =>
    if bitmapHas n3.types .ns && !bitmapHas n3.types .ds && !bitmapHas n3.types .soa then some .insecureDelegation
    else if !bitmapHas n3.types .ds then some .noData
    else .none
  atName.or ((nsec3Cover sha1 qname params records).bind fun n3 => if hasOptOut n3 then some .optOut else .none)

/-- A denial by the closest encloser. -/
def nsec3ProveEncloser (qname : Name) (qtype : RRType) (zone : Name) (params : NSEC3Params) (records : List Record) :
    NSEC3DenialResult :=
  match findNSEC3ClosestEncloser sha1 qname zone params records with
  | .none => ⟨.none, .zero⟩
  | some encloser =>
    match nsec3Cover sha1 (nextCloserName qname encloser) params records with
    | .none => ⟨.none, .zero⟩
    | some nc =>
      if hasOptOut nc then ⟨.optOut, encloser⟩
      else
        match wildcardOf encloser with
        | .error _ => ⟨.none, .zero⟩
        | .ok wildcard =>
          match nsec3Cover sha1 wildcard params records with
          | some n3 => if hasOptOut n3 then ⟨.optOut, encloser⟩ else ⟨.nxdomain, encloser⟩
          | .none =>
            match nsec3Match sha1 wildcard params records with
            | some n3 => if lacksType n3 qtype then ⟨.noData, encloser⟩ else ⟨.none, .zero⟩
            | .none => ⟨.none, .zero⟩

/-- The records are taken as authentic here. -/
def nsec3ProveDenial (qname : Name) (qtype : RRType) (zone : Name) (records : List Record) : NSEC3DenialResult :=
  match extractNSEC3Params records with
  | .none => ⟨.none, .zero⟩
  | some params =>
    if params.iterations > maxNSEC3Iterations then ⟨.iterationsExceeded, .zero⟩
    else
      match if qtype = .ds then nsec3ProveDS sha1 qname params records else .none with
      | some kind => ⟨kind, .zero⟩
      | .none =>
        if (nsec3Match sha1 qname params records).any (lacksType · qtype) then ⟨.noData, .zero⟩
        else nsec3ProveEncloser sha1 qname qtype zone params records

end Prove

/-! ### What has been found -/

section Found

variable {sha1 : Bytes → Bytes} {p params : NSEC3Params} {records : List Record} {n q e zone : Name} {n3 : NSEC3}
  {t : RRType}

theorem eq_of_nsec3Hash {hash : Bytes} (h : nsec3Hash sha1 n p.salt p.iterations = some hash) : hash = p.hash sha1 n := by
  unfold nsec3Hash at h
  split at h
  · cases h
  · exact (Option.some.inj h).symm

theorem nsec3Match_spec (h : nsec3Match sha1 n p records = some n3) :
    ∃ r ∈ records, nsec3OwnerHash r.name = some (p.hash sha1 n) ∧ asNSEC3 r = some n3 := by
  unfold nsec3Match at h
  split at h
  · cases h
  · next want hwant =>
    obtain ⟨r, hr, hmatch⟩ := List.exists_of_findSome?_eq_some h
    unfold matchesHash at hmatch
    split at hmatch
    · next howner => exact ⟨r, hr, eq_of_nsec3Hash hwant ▸ howner, hmatch⟩
    · cases hmatch

theorem nsec3Cover_spec (h : nsec3Cover sha1 n p records = some n3) : ∃ r ∈ records, asNSEC3 r = some n3 ∧
    ∃ ownerHash, nsec3OwnerHash r.name = some ownerHash ∧ Chain.Covers ownerHash n3.nextOwner (p.hash sha1 n) := by
  unfold nsec3Cover at h
  split at h
  · cases h
  · next target htarget =>
    obtain ⟨r, hr, hcover⟩ := List.exists_of_findSome?_eq_some h
    unfold coversHash at hcover
    split at hcover
    · next ownerHash n3' howner hasNSEC3 =>
      split at hcover
      · next hcontains =>
        cases hcover
        refine ⟨r, hr, hasNSEC3, ownerHash, howner, ?_⟩
        rw [← eq_of_nsec3Hash htarget]
        exact hashIntervalContains_iff.mp hcontains
      · cases hcover
    · cases hcover

theorem findEncloserLoop_spec {fuel : Nat} (hq : q.isValid) (h : findEncloserLoop sha1 zone p records fuel q = some e) :
    e.Encloses q ∧ e.numLabels < q.numLabels ∧ ∃ n3, nsec3Match sha1 e p records = some n3 := by
  induction fuel generalizing q with
  | zero => cases h
  | succ fuel ih =>
    rw [findEncloserLoop] at h
    split at h
    · cases h
    next parent hparent =>
    have habove := Name.encloses_of_parent hq hparent
    obtain ⟨-, l, hlabels⟩ := Name.labels_of_parent hq hparent
    have hlt : parent.numLabels < q.numLabels := by
      rw [Name.numLabels, Name.numLabels, hlabels]
      exact Nat.lt_succ_self _
    split at h
    · next hmatch =>
      cases h
      exact ⟨habove, hlt, Option.isSome_iff_exists.mp hmatch⟩
    · split at h
      · next hzone =>
        split at h
        · next hmatch =>
          cases h
          obtain rfl := Name.equal_iff.mp hzone
          exact ⟨habove, hlt, Option.isSome_iff_exists.mp hmatch⟩
        · cases h
      · obtain ⟨hep, hlabels', hfound⟩ := ih habove.1 h
        exact ⟨hep.trans habove, by omega, hfound⟩

theorem nsec3ProveEncloser_nxdomain (hq : q.isValid) (h : nsec3ProveEncloser sha1 q t zone p records = ⟨.nxdomain, e⟩) :
    e.Encloses q ∧ e.numLabels < q.numLabels ∧ (∃ n3, nsec3Match sha1 e p records = some n3) ∧
      (∃ nc, nsec3Cover sha1 (nextCloserName q e) p records = some nc ∧ hasOptOut nc = false) ∧
      ∃ w, wildcardOf e = .ok w ∧ ∃ wc, nsec3Cover sha1 w p records = some wc ∧ hasOptOut wc = false := by
  unfold nsec3ProveEncloser at h
  split at h
  · cases h
  next encloser hfind =>
  split at h
  · cases h
  next nc hnc =>
  split at h
  · cases h
  next hncOut =>
  split at h
  · cases h
  next w hw =>
  split at h
  · next wc hwc =>
    split at h
    · cases h
    · next hwcOut =>
      obtain rfl : encloser = e := congrArg NSEC3DenialResult.closestEncloser h
      obtain ⟨habove, hlt, hmatch⟩ := findEncloserLoop_spec hq hfind
      exact ⟨habove, hlt, hmatch, ⟨nc, hnc, Bool.eq_false_iff.mpr hncOut⟩, w, hw, wc, hwc,
        Bool.eq_false_iff.mpr hwcOut⟩
  · split at h
    · split at h <;> cases h
    · cases h

theorem nsec3ProveDS_ne_nxdomain : nsec3ProveDS sha1 q p records ≠ some .nxdomain := by
  intro h
  rcases Option.or_eq_some_iff.mp h with h | ⟨-, h⟩
  · obtain ⟨n3, -, h⟩ := Option.bind_eq_some_iff.mp h
    split_ifs at h <;> cases h
  · obtain ⟨n3, -, h⟩ := Option.bind_eq_some_iff.mp h
    split_ifs at h
    cases h

theorem nsec3ProveDenial_nxdomain (h : nsec3ProveDenial sha1 q t zone records = ⟨.nxdomain, e⟩) :
    ∃ params, extractNSEC3Params records = some params ∧
      nsec3ProveEncloser sha1 q t zone params records = ⟨.nxdomain, e⟩ := by
  grind [nsec3ProveDenial, nsec3ProveDS_ne_nxdomain]

end Found

/-! ### Honest zones -/

section Honest

variable {sha1 : Bytes → Bytes} {p : NSEC3Params} {z : SignedZone} {records : List Record} {n q e : Name} {n3 : NSEC3}
  {t : RRType} {r : Record}

/-- The record is one of the zone, whose chain has the hashes of all its names: its first label spells the hash of one.
-/
def IsNSEC3Record (sha1 : Bytes → Bytes) (p : NSEC3Params) (z : SignedZone) (r : Record) : Prop :=
  ∃ n3 owner, asNSEC3 r = some n3 ∧ ⟨n3.hashAlg, n3.iterations, n3.salt⟩ = p ∧
    nsec3OwnerHash r.name = some (p.hash sha1 owner) ∧
    (Hashing.full (p.hash sha1) z).IsNSEC3 owner n3.nextOwner n3.types (hasOptOut n3)

theorem extractNSEC3Params_eq {params : NSEC3Params} (hrecords : ∀ r ∈ records, IsNSEC3Record sha1 p z r)
    (h : extractNSEC3Params records = some params) : params = p := by
  have hloop : ∀ found : Option NSEC3Params, (∀ x ∈ found, x = p) → extractNSEC3ParamsLoop records found = some params →
      params = p := by
    clear h
    induction records with
    | nil => exact fun found hfound h => hfound params h
    | cons r records ih =>
      intro found hfound h
      obtain ⟨⟨n3, owner, hasNSEC3, hparams, -⟩, hrest⟩ := List.forall_mem_cons.mp hrecords
      rw [extractNSEC3ParamsLoop] at h
      split at h
      · exact ih hrest found hfound h
      · grind
  exact hloop none (by simp) h

theorem IsNSEC3Record.isNSEC3 (hfree : CollisionFree (p.hash sha1)) (hr : IsNSEC3Record sha1 p z r) (hn : n.isValid)
    (howner : nsec3OwnerHash r.name = some (p.hash sha1 n)) (hn3 : asNSEC3 r = some n3) :
    (Hashing.full (p.hash sha1) z).IsNSEC3 n n3.nextOwner n3.types (hasOptOut n3) := by
  obtain ⟨n3', owner, hasNSEC3, -, hhash, hrecord⟩ := hr
  cases hasNSEC3.symm.trans hn3
  have hvalid := ((Hashing.full (p.hash sha1) z).node owner hrecord.mem).1.2.1
  obtain rfl := hfree owner n hvalid hn (Option.some.inj (hhash.symm.trans howner))
  exact hrecord

theorem not_node_of_nsec3Cover (hrecords : ∀ r ∈ records, IsNSEC3Record sha1 p z r)
    (h : nsec3Cover sha1 n p records = some n3) : ¬z.Node n := by
  obtain ⟨r, hr, hn3, ownerHash, howner, hcov⟩ := nsec3Cover_spec h
  obtain ⟨n3', owner, hasNSEC3, -, hhash, hrecord⟩ := hrecords r hr
  obtain rfl := Option.some.inj (hasNSEC3.symm.trans hn3)
  obtain rfl := Option.some.inj (hhash.symm.trans howner)
  -- no record of the zone has opt-out
  have hout : hasOptOut n3' = false := Bool.eq_false_iff.mpr fun hout => hrecord.optOut.mp hout
  rw [hout] at hrecord
  exact hrecord.not_node hcov

end Honest

/-! ### A zone with a delegation -/

namespace HashedSample

def nameA : Name := Name.Short.a
def nameDA : Name := Name.Short.da
def nameXA : Name := Name.Short.xa
def nameXDA : Name := ⟨[1, 0x78, 1, 0x64, 1, 0x61, 0], .inr (by decide)⟩

def typesOf (n : Name) : List RRType := if n = nameA then [.ns, .soa] else [.ns]

def zone : SignedZone where
  apex := nameA
  owners := {nameA, nameDA}
  types n := (typesOf n).toFinset
  apex_mem := by decide
  below := by decide
  soa := by decide

def digests : List (Bytes × Bytes) :=
  [([1, 0x61, 0], Octets.bigEndian 20 0xd4c542c17cab0c3ac01ac7b669a4ac4704b379d1),
   ([1, 0x64, 1, 0x61, 0], Octets.bigEndian 20 0x392cd066859b34922b7a78f7146b9a5e576fde0c),
   ([1, 0x78, 1, 0x61, 0], Octets.bigEndian 20 0x1c962ea156fd161b4f81bddb498270486181cfc0),
   ([1, 0x2a, 1, 0x61, 0], Octets.bigEndian 20 0xec4a253e1a245b6428b50f5e75768ee9c90388fc),
   ([1, 0x78, 1, 0x64, 1, 0x61, 0], Octets.bigEndian 20 0xdc3e5ba4f3be376de2c19aee4191d8e53f5c0a23),
   ([1, 0x2a, 1, 0x64, 1, 0x61, 0], Octets.bigEndian 20 0xdc30a7d434e4b29ab3f9a0d17a67b8c74b1de4c0)]

def sha1 (b : Bytes) : Bytes :=
  match digests.find? fun d => d.1 = b with
  | some d => d.2
  | none => List.replicate 21 0 ++ b

def params : NSEC3Params := ⟨nsec3HashSHA1, 0, []⟩

def nsec3At (owner next : Name) : Record :=
  newRecord ((nameFromLabels [base32HexEncode (params.hash sha1 owner), [0x61]]).toOption.getD .zero) 0
    (.nsec3 ⟨nsec3HashSHA1, 0, 0, [], params.hash sha1 next, typesOf owner⟩)

def chain : List Record := [nsec3At nameA nameDA, nsec3At nameDA nameA]

theorem sha1_cases (b : Bytes) : (b, sha1 b) ∈ digests ∨ sha1 b = List.replicate 21 0 ++ b := by
  grind [sha1]

theorem sha1_injective : Function.Injective sha1 := by
  have hdistinct : ∀ x ∈ digests, ∀ y ∈ digests, x.2 = y.2 → x.1 = y.1 := by decide +kernel
  have hlength : ∀ x ∈ digests, x.2.length = 20 := by decide +kernel
  -- what is not in the table is longer than any digest
  have hlong : ∀ {a b : Bytes}, (a, sha1 a) ∈ digests → sha1 b = List.replicate 21 0 ++ b → sha1 a ≠ sha1 b := by grind
  intro a b h
  rcases sha1_cases a with ha | ha <;> rcases sha1_cases b with hb | hb
  · exact hdistinct _ ha _ hb h
  · exact absurd h (hlong ha hb)
  · exact absurd h.symm (hlong hb ha)
  · exact List.append_cancel_left (ha.symm.trans (h.trans hb))

theorem collisionFree : CollisionFree (params.hash sha1) := by
  intro a b ha hb h
  exact Name.appendWire_injective ha hb (List.append_cancel_right (sha1_injective h))

theorem authoritative {n : Name} (hn : n ∈ zone.owners) : zone.Authoritative n := by
  have hleaf : ∀ d ∈ zone.owners, ((d ≠ zone.apex ∧ .ns ∈ zone.types d) ∨ .dname ∈ zone.types d) →
      ∀ n ∈ zone.owners, d.Encloses n → d = n := by
    decide
  exact ⟨hn, fun d hd => hleaf d hd.1 hd.2 n hn⟩

theorem isNSEC3Record_chain : ∀ r ∈ chain, IsNSEC3Record sha1 params zone r := by
  have hclosed : ∀ m ∈ zone.owners, m ≠ zone.apex → ∃ p ∈ zone.owners, m.parent = some p := by decide
  have hlink : ∀ owner ∈ zone.owners, ∀ next ∈ zone.owners, owner ≠ next →
      IsNSEC3Record sha1 params zone (nsec3At owner next) := by
    intro owner howner next hnext hne
    have hhash : ∀ owner ∈ zone.owners, ∀ next ∈ zone.owners,
        nsec3OwnerHash (nsec3At owner next).name = some (params.hash sha1 owner) := by
      decide +kernel
    have hgap : ∀ owner ∈ zone.owners, ∀ next ∈ zone.owners, owner ≠ next → ∀ n ∈ zone.owners,
        hashIntervalContains (params.hash sha1 owner) (params.hash sha1 next) (params.hash sha1 n) = false := by
      decide +kernel
    refine ⟨_, owner, rfl, rfl, hhash owner howner next hnext, ?_⟩
    rw [show hasOptOut _ = false by simp [hasOptOut]]
    exact Hashing.full_isNSEC3 hclosed (authoritative howner) (authoritative hnext) (hgap owner howner next hnext hne)
      fun t => List.mem_toFinset.symm
  intro r hr
  rcases List.mem_cons.mp hr with rfl | hr
  · exact hlink nameA (by decide) nameDA (by decide) (by decide)
  · obtain rfl := List.mem_singleton.mp hr
    exact hlink nameDA (by decide) nameA (by decide) (by decide)

end HashedSample

section Honest

variable {sha1 : Bytes → Bytes} {p : NSEC3Params} {z : SignedZone} {records : List Record} {q e : Name} {t : RRType}

/-- A name error is right exactly if the record of the closest encloser shows neither a delegation nor a redirection. -/
theorem nsec3ProveDenial_nxdomain_iff (hfree : CollisionFree (p.hash sha1))
    (hrecords : ∀ r ∈ records, IsNSEC3Record sha1 p z r) (hq : z.apex.Encloses q)
    (h : nsec3ProveDenial sha1 q t z.apex records = ⟨.nxdomain, e⟩) :
    z.NameError q ↔ ∀ r ∈ records, ∀ n3, asNSEC3 r = some n3 → nsec3OwnerHash r.name = some (p.hash sha1 e) →
      ¬(.ns ∈ n3.types ∧ .soa ∉ n3.types ∨ .dname ∈ n3.types) := by
  obtain ⟨params, hparams, hprove⟩ := nsec3ProveDenial_nxdomain h
  obtain rfl := extractNSEC3Params_eq hrecords hparams
  obtain ⟨habove, hlt, ⟨n3, hmatch⟩, ⟨nc, hnc, -⟩, w, hw, wc, hwc, -⟩ := nsec3ProveEncloser_nxdomain hq.2.1 hprove
  obtain ⟨r, hr, howner, hn3⟩ := nsec3Match_spec hmatch
  have hrecord := (hrecords r hr).isNSEC3 hfree habove.1 howner hn3
  obtain ⟨hnext, hlabels⟩ := truncateNameTo_spec hq.2.1 (Nat.succ_le_of_lt hlt)
  rw [SignedZone.nameError_iff_of_encloserProof habove (hrecord.mem) hnext hlabels
    (not_node_of_nsec3Cover hrecords hnc) (wildcardOf_spec hw) (not_node_of_nsec3Cover hrecords hwc)]
  constructor
  · intro hfree' r' hr' n3' hn3' howner' htypes
    exact hfree' (((hrecords r' hr').isNSEC3 hfree habove.1 howner' hn3').occludes_iff.mpr htypes)
  · intro hnone hocc
    exact hnone r hr n3 hn3 howner (hrecord.occludes_iff.mp hocc)

end Honest

open HashedSample in
theorem nsec3ProveDenial_nxdomain_sample :
    nsec3ProveDenial sha1 nameXA 0 nameA chain =
      ⟨.nxdomain, nameA⟩ ∧ zone.NameError nameXA := by
  have hprove : nsec3ProveDenial sha1 nameXA 0 nameA chain =
      ⟨.nxdomain, nameA⟩ := by decide +kernel
  refine ⟨hprove, (nsec3ProveDenial_nxdomain_iff collisionFree isNSEC3Record_chain (by decide)
    hprove).mpr ?_⟩
  decide +kernel

open HashedSample in
/-- The records of the parent are taken as proof that `x.d.a.`, which is the child's to deny, does not exist. -/
theorem nsec3ProveDenial_below_delegation :
    CollisionFree (params.hash sha1) ∧
      (∀ r ∈ chain, IsNSEC3Record sha1 params zone r) ∧
      zone.apex.Encloses nameXDA ∧
      nsec3ProveDenial sha1 nameXDA 0 zone.apex chain =
        ⟨.nxdomain, nameDA⟩ ∧
      zone.Delegation nameDA ∧ nameDA.Encloses nameXDA ∧
      ¬zone.NameError nameXDA := by
  have hdelegation : zone.Delegation nameDA :=
    ⟨authoritative (by decide), by decide, by decide⟩
  exact ⟨collisionFree, isNSEC3Record_chain, by decide, by decide +kernel, hdelegation, by decide,
    fun h => h.1.2 nameDA hdelegation.occludes (by decide)⟩

end Walker

end Acidns
