import Acidns.Dnssec.HashedZone
import Acidns.Recursive.AggressiveNsec3
import Acidns.Recursive.NsecSoundness

/-!
# When a denial synthesised from NSEC3 records is right

The zones of a tree are honest, and every record inserted is one of theirs, under its apex. Each bucket then
holds records of its zone under one set of parameters. A denial synthesised from them is right unless the
first record of its proof is the parent's at a delegation.
-/

namespace Acidns.Recursive

open List

open SignedZone (IsWildcard)

/-! ### Runs of the index -/

/-- A call on the index. -/
inductive Nsec3Action where
  | insert (zoneApex : Name) (params : NSEC3Params) (e : Nsec3Entry) (now : Int)
  | sweep (now : Int)

namespace Nsec3Index

def step (i : Nsec3Index) : Nsec3Action → Option Nsec3Index
  | .insert zoneApex params e now => i.insert zoneApex params e now
  | .sweep now => some (i.sweepExpired now)

def run (i : Nsec3Index) (actions : List Nsec3Action) : Option Nsec3Index := actions.foldlM step i

section Invariant

variable {i i' : Nsec3Index} {key : Bytes} {z z' : Nsec3ZoneIndex} {params : NSEC3Params} {e : Nsec3Entry} {idx : Nat}
  {now : Int} {Q : Bytes → Nsec3ZoneIndex → Prop} {P : Bytes → NSEC3Params → Nsec3Entry → Prop}

/-- Every bucket has the property. -/
def All (Q : Bytes → Nsec3ZoneIndex → Prop) (i : Nsec3Index) : Prop := ∀ key z, i.zones.lookup key = some z → Q key z

/-- The property survives the loss of entries. -/
def Shrinks (Q : Bytes → Nsec3ZoneIndex → Prop) : Prop :=
  ∀ key z entries, entries ⊆ z.entries → Q key z → Q key { z with entries := entries }

theorem all_store (hi : ∀ key' z', key' ≠ key → i.zones.lookup key' = some z' → Q key' z') (hz : Q key z) :
    (i.store key z).All Q := by
  grind [store, Table.lookup_insert_eq, All]

theorem All.store (hi : i.All Q) (hz : Q key z) : (i.store key z).All Q :=
  all_store (fun key' z' _ => hi key' z') hz

theorem All.sweepExpired (hi : i.All Q) (hQ : Shrinks Q) : (i.sweepExpired now).All Q := by
  intro key z hlookup
  obtain ⟨hlookup, -⟩ := Table.lookup_filter_eq_some.mp hlookup
  obtain ⟨z₀, hz₀, rfl⟩ := Table.mem_entries_mapValues.mp (AList.mem_lookup_iff.mp hlookup)
  exact hQ key z₀ _ (filter_subset_self _) (hi key z₀ (AList.mem_lookup_iff.mpr hz₀))

theorem All.evictSoonest (hi : i.All Q) (hQ : Shrinks Q) : i.evictSoonest.All Q := by
  grind [evictSoonest, Table.lookup_of_lookup_erase, store, List.eraseIdx_subset, All, Shrinks]

def Entries (P : Bytes → NSEC3Params → Nsec3Entry → Prop) (key : Bytes) (z : Nsec3ZoneIndex) : Prop :=
  ∀ e ∈ z.entries, P key z.params e

def EntriesUnder (P : Bytes → NSEC3Params → Nsec3Entry → Prop) (key : Bytes) (params : NSEC3Params) (key' : Bytes)
    (z : Nsec3ZoneIndex) : Prop := Entries P key' z ∧ (key' = key → z.params = params)

theorem shrinks_entries : Shrinks (Entries P) := fun _ _ _ hsub hz e he => hz e (hsub he)

theorem shrinks_entriesUnder : Shrinks (EntriesUnder P key params) :=
  fun key' z entries hsub hz => ⟨shrinks_entries key' z entries hsub hz.1, hz.2⟩

theorem entriesUnder_bucket (hi : i.All (Entries P)) : EntriesUnder P key params key (i.bucket key params) := by
  grind [EntriesUnder, bucket, All, Entries]

theorem EntriesUnder.insertAt (hz : EntriesUnder P key params key z) (he : P key params e)
    (h : z.insertAt idx e = some z') : EntriesUnder P key params key z' := by
  grind [EntriesUnder, Nsec3ZoneIndex.insertAt, Entries, Slice.insertAt]

/-- Insertion keeps what holds of every entry. -/
theorem insert_keeps {zoneApex : Name} (hi : i.All (Entries P)) (he : P (nameKey zoneApex) params e)
    (h : i.insert zoneApex params e now = some i') : i'.All (Entries P) := by
  unfold insert at h
  split at h
  · cases h
    exact hi
  · dsimp only at h
    have hz := @entriesUnder_bucket i (nameKey zoneApex) params P hi
    generalize i.bucket (nameKey zoneApex) params = z at h hz
    have hstore : (i.store (nameKey zoneApex) z).All (EntriesUnder P (nameKey zoneApex) params) :=
      all_store (fun key' z' hne hlookup => ⟨hi key' z' hlookup, fun heq => absurd heq hne⟩) hz
    generalize i.store (nameKey zoneApex) z = j at h hstore
    suffices hall : i'.All (EntriesUnder P (nameKey zoneApex) params) from
      fun key' z' hlookup => (hall key' z' hlookup).1
    split at h
    · cases h
      refine hstore.store ⟨fun x hx => ?_, hz.2⟩
      rcases mem_or_eq_of_mem_set hx with hx | rfl
      · exact hz.1 x hx
      · exact (hz.2 rfl).symm ▸ he
    · split at h
      · have hswept : (j.sweepExpired now).All (EntriesUnder P (nameKey zoneApex) params) :=
          hstore.sweepExpired shrinks_entriesUnder
        split at h
        · have hevicted := hswept.evictSoonest shrinks_entriesUnder
          generalize (j.sweepExpired now).evictSoonest = k at h hevicted
          obtain ⟨z', hinsert, rfl⟩ := Option.map_eq_some_iff.mp h
          refine hevicted.store (EntriesUnder.insertAt ?_ he hinsert)
          cases hlookup : k.zones.lookup (nameKey zoneApex) with
          | none => exact ⟨forall_mem_nil _, fun _ => rfl⟩
          | some z => exact hevicted _ z hlookup
        · obtain ⟨z', hinsert, rfl⟩ := Option.map_eq_some_iff.mp h
          split
          · refine hswept.store (EntriesUnder.insertAt ?_ he hinsert)
            exact shrinks_entriesUnder _ z _ (filter_subset_self _) hz
          · exact hswept
      · obtain ⟨z', hinsert, rfl⟩ := Option.map_eq_some_iff.mp h
        exact hstore.store (hz.insertAt he hinsert)

theorem run_keeps {actions : List Nsec3Action} (hi : i.All (Entries P))
    (hactions : ∀ zoneApex params e now, .insert zoneApex params e now ∈ actions → P (nameKey zoneApex) params e)
    (h : i.run actions = some i') : i'.All (Entries P) := by
  induction actions generalizing i with
  | nil =>
    cases h
    exact hi
  | cons action actions ih =>
    obtain ⟨i₁, hstep, hrest⟩ := Option.bind_eq_some_iff.mp h
    refine ih ?_ (fun zoneApex params e now hmem => hactions _ _ _ _ (.tail _ hmem)) hrest
    cases action with
    | insert zoneApex params e now => exact insert_keeps hi (hactions _ _ _ _ (.head _)) hstep
    | sweep now =>
      cases hstep
      exact hi.sweepExpired shrinks_entries

end Invariant

end Nsec3Index

/-! ### What a lookup finds -/

def hashUnder (sha1 : Bytes → Bytes) (p : NSEC3Params) (n : Name) : Bytes := iteratedHash sha1 n p.salt p.iterations.toNat

theorem eq_of_nsec3HashOf {sha1 : Bytes → Bytes} {n : Name} {p : NSEC3Params} {hash : Bytes}
    (h : nsec3HashOf sha1 n p = some hash) : hash = hashUnder sha1 p n := by
  unfold nsec3HashOf at h
  split at h
  · exact (Option.some.inj h).symm
  · cases h

theorem oneLabelLongerLoop_spec {encLabels fuel : Nat} {n m : Name} (hn : n.isValid)
    (h : oneLabelLongerLoop encLabels fuel n = some m) : m.Encloses n ∧ m.numLabels = encLabels + 1 := by
  have hdone : ∀ {n : Name}, n.isValid → (if n.numLabels ≠ encLabels + 1 then none else some n) = some m →
      m.Encloses n ∧ m.numLabels = encLabels + 1 := by
    intro n hn h
    split at h
    · cases h
    · next hlabels =>
      cases h
      exact ⟨.refl hn, not_not.mp hlabels⟩
  induction fuel generalizing n with
  | zero => exact hdone hn h
  | succ fuel ih =>
    rw [oneLabelLongerLoop] at h
    split at h
    · split at h; · cases h
      next p hp =>
      split at h; · cases h
      have hpn := Name.encloses_of_parent hn hp
      obtain ⟨hmp, hnum⟩ := ih hpn.1 h
      exact ⟨hmp.trans hpn, hnum⟩
    · exact hdone hn h

theorem wildcardAt_spec {e w : Name} (he : e.isValid) (h : wildcardAt e = some w) : IsWildcard e w := by
  unfold wildcardAt at h
  cases hparse : parseName (0x2a :: 0x2e :: e.text) with
  | error err => rw [hparse] at h; cases h
  | ok m =>
    rw [hparse] at h
    cases h
    exact labels_of_parseName_star he hparse

namespace Nsec3ZoneIndex

variable {sha1 : Bytes → Bytes} {z : Nsec3ZoneIndex} {n q : Name} {t : RRType} {now : Int} {e : Nsec3Entry}

theorem matchHash_spec (h : z.matchHash sha1 n now = some e) : e ∈ z.entries ∧ e.ownerHash = hashUnder sha1 z.params n := by
  grind [matchHash, find, hashUnder, nsec3HashOf, Slice.binarySearch, compareBytes]

theorem coverHash_spec (h : z.coverHash sha1 n now true = some e) : e ∈ z.entries ∧ e.optOut = false ∧
    Chain.Covers e.ownerHash e.nextHash (hashUnder sha1 z.params n) := by
  unfold coverHash at h
  split at h; · cases h
  next target htarget =>
  have hmem := mem_of_find?_eq_some h
  have htest := List.find?_some h
  simp only [Bool.true_and, Bool.and_eq_true, Bool.not_eq_true'] at htest
  rw [← eq_of_nsec3HashOf htarget]
  exact ⟨hmem, htest.1.2, hashIntervalContains_iff.mp htest.2⟩

/-- What the three entries of a name error say. -/
structure EncloserProof (sha1 : Bytes → Bytes) (z : Nsec3ZoneIndex) (q encloser : Name) (proofs : List Nsec3Entry) : Prop where
  encloses : encloser.Encloses q
  records : ∃ matching ∈ z.entries, ∃ next ∈ z.entries, ∃ wild ∈ z.entries, proofs = [matching, next, wild] ∧
    matching.ownerHash = hashUnder sha1 z.params encloser ∧
    (∃ nextCloser : Name, nextCloser.Encloses q ∧ nextCloser.numLabels = encloser.numLabels + 1 ∧ next.optOut = false ∧
      Chain.Covers next.ownerHash next.nextHash (hashUnder sha1 z.params nextCloser)) ∧
    ∃ w, IsWildcard encloser w ∧ wild.optOut = false ∧
      Chain.Covers wild.ownerHash wild.nextHash (hashUnder sha1 z.params w)

theorem encloserProof_spec {cur : Name} {proofs : List Nsec3Entry} (hcur : cur.Encloses q)
    (hmatch : z.matchHash sha1 cur now = some e) (h : z.encloserProof sha1 q cur now e = some proofs) :
    EncloserProof sha1 z q cur proofs := by
  obtain ⟨nextCloser, hnext, h⟩ := Option.bind_eq_some_iff.mp h
  obtain ⟨ncEntry, hnc, h⟩ := Option.bind_eq_some_iff.mp h
  obtain ⟨wildcard, hwild, h⟩ := Option.bind_eq_some_iff.mp h
  obtain ⟨wcEntry, hwc, h⟩ := Option.bind_eq_some_iff.mp h
  obtain ⟨hmem, hhash⟩ := matchHash_spec hmatch
  obtain ⟨hncmem, hncOut, hncCov⟩ := coverHash_spec hnc
  obtain ⟨hwcmem, hwcOut, hwcCov⟩ := coverHash_spec hwc
  obtain ⟨habove, hlabels⟩ := oneLabelLongerLoop_spec hcur.2.1 hnext
  exact ⟨hcur, e, hmem, ncEntry, hncmem, wcEntry, hwcmem, (Option.some.inj h).symm, hhash,
    ⟨nextCloser, habove, hlabels, hncOut, hncCov⟩, wildcard, wildcardAt_spec hcur.1 hwild, hwcOut, hwcCov⟩

theorem closestEncloserProofLoop_spec {fuel : Nat} {cur : Name} {proofs : List Nsec3Entry} (hcur : cur.Encloses q)
    (h : z.closestEncloserProofLoop sha1 q now fuel cur = some proofs) : ∃ encloser, EncloserProof sha1 z q encloser proofs := by
  induction fuel generalizing cur with
  | zero => cases h
  | succ fuel ih =>
    rw [closestEncloserProofLoop] at h
    split at h
    · next hmatch => exact ⟨cur, encloserProof_spec hcur hmatch h⟩
    · split at h; · cases h
      next p hp =>
      split at h; · cases h
      exact ih ((Name.encloses_of_parent hcur.1 hp).trans hcur) h

theorem noDataProof_spec (h : z.noDataProof sha1 q t now = some e) :
    e ∈ z.entries ∧ e.ownerHash = hashUnder sha1 z.params q ∧ .cname ∉ e.types ∧ t ∉ e.types := by
  grind [matchHash_spec, typeInBitmap, noDataProof, matchHash]

end Nsec3ZoneIndex

namespace Nsec3Index

variable {sha1 : Bytes → Bytes} {i : Nsec3Index} {q zone : Name} {t : RRType} {now later : Int}

theorem deepestZone_spec {fuel : Nat} {cur : Name} (hcur : cur.Encloses q) (h : i.deepestZone fuel cur = some zone) :
    zone.Encloses q := by
  induction fuel generalizing cur with
  | zero => cases h
  | succ fuel ih =>
    rw [deepestZone] at h
    split at h
    · cases h
      exact hcur
    · split at h; · cases h
      next p hp =>
      split at h; · cases h
      exact ih ((Name.encloses_of_parent hcur.1 hp).trans hcur) h

theorem lookup_spec {entries : List Nsec3Entry} {params : NSEC3Params} {kind : LookupKind}
    (hq : q.isValid) (h : i.lookup sha1 zone q t now = some (entries, params, kind)) :
    ∃ z, i.zones.lookup (nameKey zone) = some z ∧
      match kind with
      | .noData => ∃ e ∈ z.entries, entries = [e] ∧ e.ownerHash = hashUnder sha1 z.params q ∧ .cname ∉ e.types ∧ t ∉ e.types
      | .nxdomain => ∃ encloser, Nsec3ZoneIndex.EncloserProof sha1 z q encloser entries := by
  unfold lookup at h
  split at h; · cases h
  next z hz =>
  refine ⟨z, hz, ?_⟩
  split at h
  · grind [Nsec3ZoneIndex.noDataProof_spec]
  · obtain ⟨proofs, hproofs, heq⟩ := Option.map_eq_some_iff.mp h
    obtain ⟨rfl, -, rfl⟩ := (Prod.mk.inj heq).imp_right Prod.mk.inj
    exact Nsec3ZoneIndex.closestEncloserProofLoop_spec (.refl hq) hproofs

theorem synthesise_spec {entry : Entry} (h : i.synthesise sha1 q t now later = some entry) :
    ∃ zone entries params kind, i.deepestZone (q.numLabels + 1) q = some zone ∧
      i.lookup sha1 zone q t now = some (entries, params, kind) ∧
      (entry.rcode = .nxDomain ∧ kind = .nxdomain ∨ entry.rcode = .noError ∧ kind = .noData) := by
  obtain ⟨zone, hzone, h⟩ := Option.bind_eq_some_iff.mp h
  obtain ⟨⟨entries, params, kind⟩, hlookup, h⟩ := Option.bind_eq_some_iff.mp h
  obtain ⟨authority, -, h⟩ := Option.bind_eq_some_iff.mp h
  obtain ⟨first, -, h⟩ := Option.bind_eq_some_iff.mp h
  cases h
  refine ⟨zone, entries, params, kind, hzone, hlookup, ?_⟩
  cases kind with
  | nxdomain => exact .inl ⟨rfl, rfl⟩
  | noData => exact .inr ⟨rfl, rfl⟩

end Nsec3Index

/-! ### Honest zones -/

section Sound

variable {sha1 : Bytes → Bytes} {tree : ZoneTree}

/-- The entry is an NSEC3 record of a zone of the tree. -/
def Nsec3Entry.Genuine (tree : ZoneTree) (hashing : ∀ p z, Hashing (hashUnder sha1 p) z) (apexKey : Bytes)
    (p : NSEC3Params) (e : Nsec3Entry) : Prop :=
  ∃ z ∈ tree.zones, apexKey = nameKey z.apex ∧
    ∃ owner, e.ownerHash = hashUnder sha1 p owner ∧ (hashing p z).IsNSEC3 owner e.nextHash e.types e.optOut

/-- What the index does not look at: the first record of the proof is not the parent's at a delegation, unless DS
records are asked for. -/
def Nsec3Index.Reliable (sha1 : Bytes → Bytes) (i : Nsec3Index) (q : Name) (t : RRType) (now : Int) : Prop :=
  ∀ zone entries params kind, i.deepestZone (q.numLabels + 1) q = some zone →
    i.lookup sha1 zone q t now = some (entries, params, kind) →
    ∀ e ∈ entries.head?, .ns ∈ e.types ∧ .soa ∉ e.types → kind = .noData ∧ t = .ds

/-- The zone does not have the name, or has it without the type; DS records are for the parent to deny. -/
def Warranted3 (tree : ZoneTree) (q : Name) (t : RRType) (entry : Entry) : Prop :=
  ∃ z ∈ tree.zones,
    entry.rcode = .nxDomain ∧ tree.Authority z q ∧ z.Missing q ∨
    entry.rcode = .noError ∧ (tree.Authority z q ∨ t = .ds ∧ z.Delegation q) ∧ z.Node q ∧
      ¬(q ∈ z.owners ∧ t ∈ z.types q) ∧ ¬(q ∈ z.owners ∧ .cname ∈ z.types q)

end Sound

/-! ### The zones above with hashed names -/

namespace Nsec3Sample

open NsecSample

/-- With the identity for SHA-1 the hash of a name is its wire form. -/
def params : NSEC3Params := ⟨nsec3HashSHA1, 0, []⟩

def entryA : Nsec3Entry := ⟨nameA.wire, nameBA.wire, [.ns, .soa], false, 100⟩
def entryBA : Nsec3Entry := ⟨nameBA.wire, nameA.wire, [.ns], false, 100⟩

def actions : List Nsec3Action := [.insert nameA params entryA 0, .insert nameA params entryBA 0]

def index : Nsec3Index := newNSEC3Index.store nameA.wire ⟨params, [entryA, entryBA]⟩

def hashing (p : NSEC3Params) (z : SignedZone) : Hashing (hashUnder id p) z := .full _ z

theorem collisionFree (p : NSEC3Params) : CollisionFree (hashUnder id p) := by
  have hrounds : ∀ k, Function.Injective (Nat.repeat (fun h => id (h ++ p.salt)) k) := by
    intro k
    induction k with
    | zero => exact Function.injective_id
    | succ k ih => exact fun x y h => ih (append_cancel_right h)
  intro a b ha hb h
  exact Name.appendWire_injective ha hb (append_cancel_right (hrounds _ h))

theorem isNSEC3 (owner next : Name) (howner : owner ∈ parent.owners) (hnext : next ∈ parent.owners)
    (hgap : ∀ n ∈ parent.owners, hashIntervalContains owner.wire next.wire n.wire = false) :
    (hashing params parent).IsNSEC3 owner next.wire (parentTypes owner) false := by
  have hclosed : ∀ m ∈ parent.owners, m ≠ parent.apex → ∃ p ∈ parent.owners, m.parent = some p := by decide
  have hhash : ∀ n ∈ parent.owners, hashUnder id params n = n.wire := by decide
  rw [← hhash next hnext]
  refine Hashing.full_isNSEC3 hclosed (authoritative howner) (authoritative hnext) (fun n hn => ?_)
    fun t => mem_toFinset.symm
  rw [hhash owner howner, hhash next hnext, hhash n hn]
  exact hgap n hn

theorem genuine : ∀ zoneApex p e now, .insert zoneApex p e now ∈ actions → e.Genuine tree hashing (nameKey zoneApex) p := by
  intro zoneApex p e now hmem
  rcases mem_cons.mp hmem with heq | hmem
  · obtain ⟨rfl, rfl, rfl, -⟩ := Nsec3Action.insert.inj heq
    exact ⟨parent, .inl rfl, rfl, nameA, by decide, isNSEC3 _ nameBA (by decide) (by decide) (by decide)⟩
  · obtain ⟨rfl, rfl, rfl, -⟩ := Nsec3Action.insert.inj (mem_singleton.mp hmem)
    exact ⟨parent, .inl rfl, rfl, nameBA, by decide, isNSEC3 _ nameA (by decide) (by decide) (by decide)⟩

theorem run_actions : newNSEC3Index.run actions = some index := by rfl

theorem reliable : index.Reliable id nameCA .a 0 := by
  have hzone : index.deepestZone (nameCA.numLabels + 1) nameCA = some nameA := by decide +kernel
  have hlookup : index.lookup id nameA nameCA .a 0 = some ([entryA, entryBA, entryBA], params, .nxdomain) := by
    decide +kernel
  intro zone entries p kind hdeepest hfound e he hdelegated
  cases hzone.symm.trans hdeepest
  cases hlookup.symm.trans hfound
  cases he
  exact absurd hdelegated.2 (by decide)

end Nsec3Sample

section Sound

variable {sha1 : Bytes → Bytes} {tree : ZoneTree}

/-- A denial synthesised after any run over genuine records is right, where the index is reliable. -/
theorem synthesise3_warranted {hashing : ∀ p z, Hashing (hashUnder sha1 p) z} {actions : List Nsec3Action} {i : Nsec3Index}
    {maxLen : Nat} {q : Name} {t : RRType} {now later : Int} {entry : Entry}
    (hfree : ∀ p, CollisionFree (hashUnder sha1 p))
    (hactions : ∀ zoneApex p e now, .insert zoneApex p e now ∈ actions → e.Genuine tree hashing (nameKey zoneApex) p)
    (hrun : Nsec3Index.run ⟨∅, maxLen⟩ actions = some i) (hq : q.isValid)
    (h : i.synthesise sha1 q t now later = some entry) (hreliable : i.Reliable sha1 q t now) :
    Warranted3 tree q t entry := by
  have hempty : Nsec3Index.All (Nsec3Index.Entries fun key p e => e.Genuine tree hashing key p) ⟨∅, maxLen⟩ := by
    intro key z hlookup
    cases hlookup
  have hgenuine := Nsec3Index.run_keeps hempty hactions hrun
  obtain ⟨zone, entries, params, kind, hdeepest, hlookup, hkind⟩ := Nsec3Index.synthesise_spec h
  have hzone : zone.Encloses q := Nsec3Index.deepestZone_spec (.refl hq) hdeepest
  obtain ⟨b, hb, hproof⟩ := Nsec3Index.lookup_spec hq hlookup
  -- the records of the bucket are those of one zone
  have hone : ∀ e ∈ b.entries, ∃ z ∈ tree.zones, z.apex = zone ∧ ∃ owner, e.ownerHash = hashUnder sha1 b.params owner ∧
      (hashing b.params z).IsNSEC3 owner e.nextHash e.types e.optOut := by
    intro e he
    obtain ⟨z, hz, hkey, howner⟩ := hgenuine _ b hb e he
    refine ⟨z, hz, ?_, howner⟩
    exact (Name.appendWire_injective hzone.1 (SignedZone.isValid_of_mem z.apex_mem) hkey).symm
  have hmatched : ∀ e ∈ b.entries, ∀ n : Name, n.isValid → e.ownerHash = hashUnder sha1 b.params n →
      ∃ z ∈ tree.zones, z.apex = zone ∧ (hashing b.params z).IsNSEC3 n e.nextHash e.types e.optOut := by
    intro e he n hn hhash
    obtain ⟨z, hz, hapex, owner, howner, hrecord⟩ := hone e he
    have hvalid := ((hashing b.params z).node owner hrecord.mem).1.2.1
    obtain rfl := hfree b.params owner n hvalid hn (howner.symm.trans hhash)
    exact ⟨z, hz, hapex, hrecord⟩
  have hcovered : ∀ e ∈ b.entries, ∀ n : Name, e.optOut = false →
      Chain.Covers e.ownerHash e.nextHash (hashUnder sha1 b.params n) → ∀ z ∈ tree.zones, z.apex = zone → ¬z.Node n := by
    intro e he n hout hcov z hz hapex
    obtain ⟨z', hz', hapex', owner, howner, hrecord⟩ := hone e he
    obtain rfl := ZoneTree.eq_of_apex hz hz' (hapex.trans hapex'.symm)
    rw [hout] at hrecord
    exact hrecord.not_node (howner ▸ hcov)
  rcases hkind with ⟨hrcode, rfl⟩ | ⟨hrcode, rfl⟩
  · obtain ⟨encloser, henc, matching, hmatching, next, hnext, wild, hwild, rfl, hhash, ⟨nc, hncq, hlabels, hncOut, hncCov⟩, w,
      hw, hwOut, hwCov⟩ := hproof
    obtain ⟨z, hz, hapex, hrecord⟩ := hmatched matching hmatching encloser henc.1 hhash
    have hcut : ¬z.Delegation encloser := by
      intro hd
      have hds := hreliable zone _ params .nxdomain hdeepest hlookup matching rfl (hrecord.types_of_delegation hd)
      exact absurd hds.1 (by decide)
    have hmissing : z.Missing q := SignedZone.missing_of_encloserProof henc ((hashing b.params z).node encloser hrecord.mem)
      hncq hlabels (hcovered next hnext nc hncOut hncCov z hz hapex) hcut hw (hcovered wild hwild w hwOut hwCov z hz hapex)
    exact ⟨z, hz, .inl ⟨hrcode, ⟨hz, hapex ▸ hzone, hmissing.2.1⟩, hmissing⟩⟩
  · obtain ⟨e, he, rfl, hhash, hcname, htype⟩ := hproof
    obtain ⟨z, hz, hapex, hrecord⟩ := hmatched e he q hq hhash
    have hnode := (hashing b.params z).node q hrecord.mem
    rw [hrecord.types] at hcname htype
    refine ⟨z, hz, .inr ⟨hrcode, ?_, hnode, htype, hcname⟩⟩
    by_cases hd : z.Delegation q
    · have hds := hreliable zone _ params .noData hdeepest hlookup e rfl (hrecord.types_of_delegation hd)
      exact .inr ⟨hds.2, hd⟩
    · refine .inl ⟨hz, hapex ▸ hzone, fun d hd' hdq => hd ?_⟩
      rw [hnode.encloses_delegation hd' hdq]
      exact hd'

end Sound

theorem synthesise3_warranted_sample :
    ∃ entry, Nsec3Sample.index.synthesise id NsecSample.nameCA .a 0 0 = some entry ∧
      Warranted3 NsecSample.tree NsecSample.nameCA .a entry := by
  have hsynth : (Nsec3Sample.index.synthesise id NsecSample.nameCA .a 0 0).isSome := by decide +kernel
  obtain ⟨entry, hentry⟩ := Option.isSome_iff_exists.mp hsynth
  exact ⟨entry, hentry, synthesise3_warranted Nsec3Sample.collisionFree Nsec3Sample.genuine Nsec3Sample.run_actions
    (by decide) hentry Nsec3Sample.reliable⟩

/-- The parent's record at the delegation of `b.a.` is taken as proof that `b.a.` has no address. -/
theorem synthesise3_denies_delegated :
    (∀ zoneApex p e now, .insert zoneApex p e now ∈ Nsec3Sample.actions →
      e.Genuine NsecSample.tree Nsec3Sample.hashing (nameKey zoneApex) p) ∧
      newNSEC3Index.run Nsec3Sample.actions = some Nsec3Sample.index ∧
      ∃ entry, Nsec3Sample.index.synthesise id NsecSample.nameBA .a 0 0 = some entry ∧ entry.rcode = .noError ∧
        entry.ad = true ∧ ¬Warranted3 NsecSample.tree NsecSample.nameBA .a entry := by
  refine ⟨Nsec3Sample.genuine, Nsec3Sample.run_actions, ?_⟩
  have hsynth : (Nsec3Sample.index.synthesise id NsecSample.nameBA .a 0 0).map (fun e => (e.rcode, e.ad)) =
      some (.noError, true) := by
    decide +kernel
  obtain ⟨entry, hentry, hfields⟩ := Option.map_eq_some_iff.mp hsynth
  obtain ⟨hrcode, had⟩ := Prod.mk.inj hfields
  refine ⟨entry, hentry, hrcode, had, ?_⟩
  rintro ⟨z, hz, ⟨hnx, -⟩ | ⟨-, hauth, -, hmissing, -⟩⟩
  · exact absurd (hrcode.symm.trans hnx) (by decide)
  · rcases hz with rfl | rfl
    · rcases hauth with hauth | ⟨hds, -⟩
      · exact hauth.2.2 NsecSample.nameBA NsecSample.delegation_nameBA (by decide)
      · cases hds
    · exact hmissing (by decide)

end Acidns.Recursive
