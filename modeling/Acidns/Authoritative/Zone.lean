import Acidns.Recursive.Response

/-!
# The index of a zone

The `zoneIndex` of `authoritative/authoritative.go`: the records of a zone by owner, and the names that
exist in it, which are the owners and the names between them and the origin. `AddZone` builds it; the
operations of `authoritative/update.go` change it.
-/

namespace Acidns

/-- The value of the `rdata.NewSOA` check on one timer. -/
def checkSOATimer (name : String) (d : Duration) : Except WireError Unit :=
  if d < 0 then .error ⟨.invalidRData, s!"SOA {name} is negative ({d.string})"⟩
  else if d.tdiv second > 0x7fffffff then
    .error ⟨.invalidRData, s!"SOA {name} {d.string} exceeds RFC 2308 §8 ceiling (2^31-1 seconds)"⟩
  else .ok ()

def newSOA (mname rname : Name) (serial : UInt32) (refresh retry expire minimum : Duration) : Except WireError SOA := do
  refuseIf (!mname.isValid) ⟨.invalidRData, "SOA mname is invalid"⟩
  refuseIf (!rname.isValid) ⟨.invalidRData, "SOA rname is invalid"⟩
  checkSOATimer "refresh" refresh
  checkSOATimer "retry" retry
  checkSOATimer "expire" expire
  checkSOATimer "minimum" minimum
  return ⟨mname, rname, serial, refresh, retry, expire, minimum⟩

theorem newSOA_ok {mname rname : Name} {serial : UInt32} {refresh retry expire minimum : Duration} {soa : SOA}
    (h : newSOA mname rname serial refresh retry expire minimum = .ok soa) :
    soa = ⟨mname, rname, serial, refresh, retry, expire, minimum⟩ := by
  obtain ⟨_, -, h⟩ := bind_ok h
  obtain ⟨_, -, h⟩ := bind_ok h
  obtain ⟨_, -, h⟩ := bind_ok h
  obtain ⟨_, -, h⟩ := bind_ok h
  obtain ⟨_, -, h⟩ := bind_ok h
  obtain ⟨_, -, h⟩ := bind_ok h
  exact (Except.ok.inj h).symm

/-- A zone as loaded. -/
structure Zone where
  origin : Name
  records : List Record
  deriving DecidableEq

def Zone.soa (z : Zone) : Option Record := z.records.find? fun r => r.asSOA.isSome

structure Zone.Proper (z : Zone) : Prop where
  below : ∀ r ∈ z.records, z.origin.Encloses r.name
  single : ∃ r, z.records.filter (fun r => r.type = .soa) = [r] ∧ r.name = z.origin

namespace Authoritative

def nameKey (n : Name) : Bytes := n.appendWire []

def inBailiwick (origin name : Name) : Bool := Recursive.inBailiwick origin name

def rdataEqual (a b : RData) : Bool := a.type = b.type ∧ a.packed = b.packed

def hasRData (r : Record) : Bool := r.rd.packed ≠ []

/-- The keys of a name and of those above it, up to the origin; a name has fewer parents than bytes. -/
def keysUpToLoop (origin : Name) : Nat → Name → List Bytes
  | 0, _ => []
  | fuel + 1, cur =>
    nameKey cur ::
      if cur.equal origin then []
      else
        match cur.parent with
        | some p => keysUpToLoop origin fuel p
        | none => []

def keysUpTo (origin name : Name) : List Bytes := keysUpToLoop origin (name.wire.length + 1) name

/-- A zone by owner, with the names that exist. -/
structure ZoneIndex where
  origin : Name
  soaRec : Record
  byName : Table Bytes (List Record)
  namesExist : List Bytes

inductive AddZoneError where
  | noSOA (origin : Name)
  | apexCNAMEOrDNAME (origin : Name)
  deriving DecidableEq

namespace ZoneIndex

def recordsAt (z : ZoneIndex) (name : Name) : List Record := (z.byName.lookup (nameKey name)).getD []

def markExists (z : ZoneIndex) (name : Name) : ZoneIndex :=
  { z with namesExist := keysUpTo z.origin name ++ z.namesExist }

/-- The record joins those of its owner. -/
def append (z : ZoneIndex) (rec : Record) : ZoneIndex :=
  { z with byName := z.byName.insert (nameKey rec.name) (z.recordsAt rec.name ++ [rec]) }

end ZoneIndex

def isCNAMEOrDNAME (t : RRType) : Bool := t = .cname ∨ t = .dname

/-- A zone needs a SOA, and no alias at its apex. -/
def indexZone (z : Zone) : Except AddZoneError ZoneIndex :=
  match z.soa with
  | none => .error (.noSOA z.origin)
  | some soaRec =>
    if z.records.any fun r => r.name.equal z.origin && isCNAMEOrDNAME r.type then
      .error (.apexCNAMEOrDNAME z.origin)
    else .ok (z.records.foldl (fun idx rec => (idx.append rec).markExists rec.name) ⟨z.origin, soaRec, ∅, []⟩)

namespace ZoneIndex

def hasName (z : ZoneIndex) (name : Name) : Bool := (z.byName.lookup (nameKey name)).isSome

def hasType (z : ZoneIndex) (name : Name) (t : RRType) : Bool := (z.recordsAt name).any fun r => r.type = t

/-! ### One record of the update section -/

/-- What is left of the records at a name; a name without records leaves the map. -/
def keep (z : ZoneIndex) (name : Name) (kept : List Record) : ZoneIndex :=
  if kept = [] then { z with byName := z.byName.erase (nameKey name) }
  else { z with byName := z.byName.insert (nameKey name) kept }

def drop (z : ZoneIndex) (name : Name) (recs : List Record) (matches_ : Record → Bool) : ZoneIndex × Bool :=
  if recs.any matches_ then (z.keep name (recs.filter fun r => !matches_ r), true) else (z, false)

def isSOAOrNS (t : RRType) : Bool := t = .soa ∨ t = .ns

/-- The apex keeps its SOA and NS. -/
def deleteRRset (z : ZoneIndex) (name : Name) (t : RRType) : ZoneIndex × Bool :=
  match z.byName.lookup (nameKey name) with
  | none => (z, false)
  | some recs =>
    if name.equal z.origin ∧ (isSOAOrNS t ∨ t = .any) then
      if t = .any then z.drop name recs fun r => !isSOAOrNS r.type else (z, false)
    else if t = .any then ({ z with byName := z.byName.erase (nameKey name) }, true)
    else z.drop name recs fun r => r.type = t

def deleteRecord (z : ZoneIndex) (name : Name) (target : RData) : ZoneIndex × Bool :=
  match z.byName.lookup (nameKey name) with
  | none => (z, false)
  | some recs =>
    if name.equal z.origin ∧ isSOAOrNS target.type then (z, false)
    else z.drop name recs fun r => r.type = target.type && rdataEqual r.rd target

def addRecord (z : ZoneIndex) (u : Record) : ZoneIndex × Bool :=
  let stored := newRecord u.name u.ttl u.rd
  let recs := z.recordsAt u.name
  if recs.any fun r => r.type = u.type && r.ttl = u.ttl && rdataEqual r.rd u.rd then (z, false)
  else if u.name.equal z.origin ∧ u.type = .soa then
    let out := recs.filter (fun r => r.type ≠ .soa) ++ [stored]
    ({ z with byName := z.byName.insert (nameKey u.name) out, soaRec := stored }.markExists u.name, true)
  else ((z.append stored).markExists u.name, true)

/-- The zone after one record of the update section, and whether the record had an effect. -/
def applyUpdate (z : ZoneIndex) (u : Record) : ZoneIndex × Bool :=
  if u.class_ = RRClass.classANY then z.deleteRRset u.name u.type
  else if u.class_ = RRClass.classNONE then z.deleteRecord u.name u.rd
  else z.addRecord u

def applyUpdates (z : ZoneIndex) (updates : List Record) : ZoneIndex × Bool :=
  updates.foldl (fun (z, changed) u => let (z', c) := z.applyUpdate u; (z', changed || c)) (z, false)

/-! ### After the update section -/

/-- The first SOA gives way to `newRec`, which otherwise is added. -/
def replaceSOA (newRec : Record) : List Record → List Record
  | [] => [newRec]
  | r :: recs => if r.type = .soa then newRec :: recs else r :: replaceSOA newRec recs

def bumpedSOA (soa : SOA) : Except WireError SOA :=
  newSOA soa.mname soa.rname (soa.serial + 1) soa.refresh soa.retry soa.expire soa.minimum

/-- The serial goes up by one, in the SOA at the apex too. -/
def bumpSOA (z : ZoneIndex) : ZoneIndex :=
  match z.soaRec.asSOA with
  | none => z
  | some soa =>
    match bumpedSOA soa with
    | .error _ => z
    | .ok bumped =>
      let newRec := newRecord z.soaRec.name z.soaRec.ttl (.soa bumped)
      { z with soaRec := newRec, byName := z.byName.insert (nameKey z.origin) (replaceSOA newRec (z.recordsAt z.origin)) }

def rebuildNamesExist (z : ZoneIndex) : ZoneIndex :=
  let marked := z.byName.entries.flatMap fun e =>
    match e.2 with
    | [] => []
    | r :: _ => keysUpTo z.origin r.name
  { z with namesExist := nameKey z.origin :: marked }

end ZoneIndex

/-! ### Keys -/

section Keys

variable {origin n m : Name} {k : Bytes}

theorem nameKey_injective (hn : n.isValid) (hm : m.isValid) (h : nameKey n = nameKey m) : n = m :=
  Name.appendWire_injective hn hm h

theorem mem_keysUpToLoop {fuel : Nat} (h : origin.Encloses n) (hfuel : n.labels.length < fuel) :
    k ∈ keysUpToLoop origin fuel n ↔ ∃ m, origin.Encloses m ∧ m.Encloses n ∧ nameKey m = k := by
  induction fuel generalizing n with
  | zero => omega
  | succ fuel ih =>
    have hn := h.2.1
    rw [keysUpToLoop, List.mem_cons]
    by_cases heq : n = origin
    · -- the loop stops at the origin: nothing else lies between the two
      subst heq
      rw [if_pos (Name.equal_iff.mpr rfl)]
      constructor
      · rintro (rfl | hmem)
        · exact ⟨n, .refl hn, .refl hn, rfl⟩
        · cases hmem
      · rintro ⟨m, hbelow, habove, rfl⟩
        rw [hbelow.antisymm habove]
        exact .inl rfl
    · obtain ⟨p, hparent, hp⟩ := ((Name.encloses_iff_parent hn).mp h).resolve_left (Ne.symm heq)
      obtain ⟨-, l, hlabels⟩ := Name.labels_of_parent hn hparent
      rw [if_neg (by rwa [Name.equal_iff]), hparent]
      rw [ih hp (by rw [hlabels, List.length_cons] at hfuel; omega)]
      constructor
      · grind [Name.encloses_iff_parent]
      · grind [Name.encloses_iff_parent]

theorem mem_keysUpTo (h : origin.Encloses n) :
    k ∈ keysUpTo origin n ↔ ∃ m, origin.Encloses m ∧ m.Encloses n ∧ nameKey m = k := by
  apply mem_keysUpToLoop h
  have hlen := Name.length_labels_lt_wire h.2.1
  omega

end Keys

namespace ZoneIndex

/-! ### The map of a zone -/

def stored (z : ZoneIndex) (k : Bytes) : List Record := (z.byName.lookup k).getD []

def Dense (z : ZoneIndex) : Prop := ∀ k, z.byName.lookup k ≠ some []

section

variable {z : ZoneIndex} {name : Name} {kept : List Record} {k : Bytes} {u r rec : Record}

theorem recordsAt_eq (z : ZoneIndex) (name : Name) : z.recordsAt name = z.stored (nameKey name) := rfl

theorem stored_insert (z : ZoneIndex) (k' : Bytes) (recs : List Record) (k : Bytes) :
    { z with byName := z.byName.insert k' recs }.stored k = if k = k' then recs else z.stored k := by
  rw [stored, Table.lookup_insert_eq, apply_ite (Option.getD · [])]
  rfl

theorem Dense.insert (h : z.Dense) (hne : kept ≠ []) : { z with byName := z.byName.insert k kept }.Dense := by
  intro k'
  rw [Table.lookup_insert_eq]
  split
  · simpa using hne
  · exact h k'

@[simp] theorem stored_markExists (z : ZoneIndex) (name : Name) : (z.markExists name).stored = z.stored := rfl

@[simp] theorem stored_append (z : ZoneIndex) (rec : Record) (k : Bytes) :
    (z.append rec).stored k = if k = nameKey rec.name then z.stored k ++ [rec] else z.stored k := by
  rw [append, stored_insert]
  split
  · next h => rw [h, recordsAt_eq]
  · rfl

theorem Dense.append (h : z.Dense) (rec : Record) : (z.append rec).Dense := h.insert (by simp)

@[simp] theorem stored_keep (z : ZoneIndex) (name : Name) (kept : List Record) (k : Bytes) :
    (z.keep name kept).stored k = if k = nameKey name then kept else z.stored k := by
  grind [keep, stored, Table.lookup_erase_eq, stored_insert]

theorem Dense.keep (h : z.Dense) (name : Name) (kept : List Record) : (z.keep name kept).Dense := by
  grind [keep, Table.lookup_erase_eq, insert, Dense]

@[simp] theorem origin_keep (z : ZoneIndex) (name : Name) (kept : List Record) : (z.keep name kept).origin = z.origin := by
  unfold keep
  split <;> rfl

@[simp] theorem soaRec_keep (z : ZoneIndex) (name : Name) (kept : List Record) : (z.keep name kept).soaRec = z.soaRec := by
  unfold keep
  split <;> rfl

theorem Dense.lookup_cases (h : z.Dense) (name : Name) :
    z.byName.lookup (nameKey name) = none ∧ z.recordsAt name = [] ∨
      z.byName.lookup (nameKey name) = some (z.recordsAt name) ∧ z.recordsAt name ≠ [] := by
  have hk := h (nameKey name)
  unfold recordsAt
  cases hlookup : z.byName.lookup (nameKey name) with
  | none => exact .inl ⟨rfl, rfl⟩
  | some recs =>
    rw [hlookup] at hk
    exact .inr ⟨rfl, fun hempty => hk (congrArg some hempty)⟩

/-! ### What a record of the update section does -/

/-- The record of class ANY or NONE removes `r` from the records at its name. -/
def removes (origin : Name) (u r : Record) : Bool :=
  !(u.name.equal origin && isSOAOrNS r.type) &&
    if u.class_ = RRClass.classANY then u.type = .any || r.type = u.type
    else r.type = u.type && rdataEqual r.rd u.rd

/-- `z'` is `z` without the records that `u` removes, and `changed` tells whether there are any. -/
def Deletes (u : Record) (z z' : ZoneIndex) (changed : Bool) : Prop :=
  if (z.recordsAt u.name).any (removes z.origin u) then
    changed = true ∧ z' = z.keep u.name ((z.recordsAt u.name).filter fun r => !removes z.origin u r)
  else changed = false ∧ z' = z

theorem deletes_drop {matches_ : Record → Bool} (h : ∀ r ∈ z.recordsAt u.name, matches_ r = removes z.origin u r) :
    Deletes u z (z.drop u.name (z.recordsAt u.name) matches_).1 (z.drop u.name (z.recordsAt u.name) matches_).2 := by
  have hany : (z.recordsAt u.name).any matches_ = (z.recordsAt u.name).any (removes z.origin u) := by
    rw [Bool.eq_iff_iff, List.any_eq_true, List.any_eq_true]
    exact exists_congr fun r => and_congr_right fun hr => by rw [h r hr]
  have hkept : (z.recordsAt u.name).filter (fun r => !matches_ r) =
      (z.recordsAt u.name).filter fun r => !removes z.origin u r :=
    List.filter_congr fun r hr => by rw [h r hr]
  unfold Deletes drop
  rw [hany, hkept]
  split <;> exact ⟨rfl, rfl⟩

theorem deletes_nothing (h : ∀ r ∈ z.recordsAt u.name, removes z.origin u r = false) : Deletes u z z false := by
  grind [Deletes]

theorem deletes_deleteRRset (hz : z.Dense) (hclass : u.class_ = RRClass.classANY) :
    Deletes u z (z.deleteRRset u.name u.type).1 (z.deleteRRset u.name u.type).2 := by
  unfold deleteRRset
  rcases hz.lookup_cases u.name with ⟨hlookup, hempty⟩ | ⟨hlookup, hne⟩ <;> simp only [hlookup]
  · apply deletes_nothing
    rw [hempty]
    exact List.forall_mem_nil _
  split
  · grind [deletes_drop, removes, deletes_nothing]
  · next hapex =>
    split
    · next hany =>
      -- off the apex the whole entry goes
      have hname : u.name.equal z.origin = false := by
        rw [Bool.eq_false_iff]
        exact fun h => hapex ⟨h, .inr hany⟩
      have hall : ∀ r, removes z.origin u r = true := fun r => by simp [removes, hname, hclass, hany]
      obtain ⟨r, rs, hcons⟩ := List.exists_cons_of_ne_nil hne
      unfold Deletes
      rw [if_pos (by rw [hcons, List.any_cons, hall, Bool.true_or])]
      refine ⟨rfl, ?_⟩
      rw [keep, if_pos (by simp [hall])]
    · grind [deletes_drop, removes]

theorem deletes_deleteRecord (hz : z.Dense) (hclass : u.class_ ≠ RRClass.classANY) :
    Deletes u z (z.deleteRecord u.name u.rd).1 (z.deleteRecord u.name u.rd).2 := by
  grind [deleteRecord, removes, Deletes, drop, Record.type, recordsAt]

theorem deletes_applyUpdate (hz : z.Dense) (hclass : u.class_ = RRClass.classANY ∨ u.class_ = RRClass.classNONE) :
    Deletes u z (z.applyUpdate u).1 (z.applyUpdate u).2 := by
  grind [applyUpdate, deletes_deleteRRset, deletes_deleteRecord]

def replaceApexSOA (z : ZoneIndex) (rec : Record) : ZoneIndex :=
  let out := (z.recordsAt rec.name).filter (fun r => r.type ≠ .soa) ++ [rec]
  { z with byName := z.byName.insert (nameKey rec.name) out, soaRec := rec }

theorem stored_replaceApexSOA (z : ZoneIndex) (rec : Record) (k : Bytes) :
    (z.replaceApexSOA rec).stored k =
      if k = nameKey rec.name then (z.recordsAt rec.name).filter (fun r => r.type ≠ .soa) ++ [rec] else z.stored k :=
  stored_insert z _ _ k

/-- What one update record does. -/
inductive Applies (z : ZoneIndex) (u : Record) : ZoneIndex × Bool → Prop
  /-- It has no effect: there is nothing to delete, or the record is there already. -/
  | nothing (hwhy : (u.class_ = RRClass.classANY ∨ u.class_ = RRClass.classNONE) ∧
        (z.recordsAt u.name).any (removes z.origin u) = false ∨
      (u.class_ ≠ RRClass.classANY ∧ u.class_ ≠ RRClass.classNONE) ∧
        ∃ r ∈ z.recordsAt u.name, r.type = u.type ∧ rdataEqual r.rd u.rd = true) : Applies z u (z, false)
  | delete (hclass : u.class_ = RRClass.classANY ∨ u.class_ = RRClass.classNONE)
      (hany : (z.recordsAt u.name).any (removes z.origin u) = true) :
      Applies z u (z.keep u.name ((z.recordsAt u.name).filter fun r => !removes z.origin u r), true)
  | replace (hadd : u.class_ ≠ RRClass.classANY ∧ u.class_ ≠ RRClass.classNONE) (hname : u.name = z.origin)
      (htype : u.type = .soa) :
      Applies z u ((z.replaceApexSOA (newRecord u.name u.ttl u.rd)).markExists u.name, true)
  | add (hadd : u.class_ ≠ RRClass.classANY ∧ u.class_ ≠ RRClass.classNONE)
      (hsoa : u.type = .soa → u.name ≠ z.origin) :
      Applies z u ((z.append (newRecord u.name u.ttl u.rd)).markExists u.name, true)

theorem applies_applyUpdate (hz : z.Dense) (u : Record) : Applies z u (z.applyUpdate u) := by
  by_cases hdelete : u.class_ = RRClass.classANY ∨ u.class_ = RRClass.classNONE
  · have h := deletes_applyUpdate hz hdelete
    generalize z.applyUpdate u = out at h
    obtain ⟨z', changed⟩ := out
    unfold Deletes at h
    split at h
    · next hany =>
      obtain ⟨rfl, rfl⟩ := h
      exact .delete hdelete hany
    · next hany =>
      obtain ⟨rfl, rfl⟩ := h
      exact .nothing (.inl ⟨hdelete, by simpa using hany⟩)
  · have hadd := not_or.mp hdelete
    rw [applyUpdate, if_neg hadd.1, if_neg hadd.2, addRecord]
    split
    · next hdup =>
      obtain ⟨r, hr, hmatch⟩ := List.any_eq_true.mp hdup
      simp only [Bool.and_eq_true, decide_eq_true_eq] at hmatch
      exact .nothing (.inr ⟨hadd, r, hr, hmatch.1.1, hmatch.2⟩)
    · split
      · next hsoa => exact .replace hadd (Name.equal_iff.mp hsoa.1) hsoa.2
      · next hsoa => exact .add hadd fun htype hname => hsoa ⟨Name.equal_iff.mpr hname, htype⟩

variable {out : ZoneIndex × Bool}

theorem Applies.eq_of_unchanged (h : Applies z u out) (hfalse : out.2 = false) : out.1 = z := by
  cases h with
  | nothing => rfl
  | delete | replace | add => cases hfalse

theorem Applies.dense (h : Applies z u out) (hz : z.Dense) : out.1.Dense := by
  cases h with
  | nothing => exact hz
  | delete => exact hz.keep _ _
  | replace => exact hz.insert (by simp)
  | add => exact hz.append _

theorem Applies.origin (h : Applies z u out) : out.1.origin = z.origin := by
  cases h with
  | nothing => rfl
  | delete => exact origin_keep _ _ _
  | replace => rfl
  | add => rfl

end

end ZoneIndex

end Authoritative

end Acidns
