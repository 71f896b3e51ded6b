import Acidns.Authoritative.Update

/-!
# What dynamic update keeps of a zone

A zone has one SOA, at its apex, and the records of its names are at or below the origin. A record of
the update section keeps this if it does not add an SOA elsewhere or one without SOA rdata. The set of
existing names is exact again once it has been rebuilt.
-/

namespace Acidns.Authoritative

open List

namespace ZoneIndex

variable {z : ZoneIndex} {u : Record} {out : ZoneIndex × Bool}

/-- The SOA is where it belongs. -/
structure Apex (z : ZoneIndex) : Prop where
  valid : z.origin.isValid = true
  owner : z.soaRec.name = z.origin
  real : z.soaRec.asSOA.isSome = true
  single : (z.recordsAt z.origin).filter (fun r => r.type = .soa) = [z.soaRec]

structure Fits (origin : Name) (k : Bytes) (r : Record) : Prop where
  key : nameKey r.name = k
  below : origin.Encloses r.name
  noAlias : k = nameKey origin → isCNAMEOrDNAME r.type = false
  noSOA : k ≠ nameKey origin → r.type ≠ .soa

structure Data (z : ZoneIndex) : Prop extends Apex z where
  dense : z.Dense
  fits : ∀ k, ∀ r ∈ z.stored k, Fits z.origin k r

/-- The names that exist are the owners and the names between them and the origin. -/
def ExactNames (z : ZoneIndex) : Prop :=
  ∀ k, k ∈ z.namesExist ↔
    ∃ k', ∃ r ∈ z.stored k', ∃ m : Name, z.origin.Encloses m ∧ m.Encloses r.name ∧ nameKey m = k

/-! ### One record of the update section -/

theorem not_removes_soa {origin : Name} {r : Record} (hname : u.name = origin) (htype : r.type = .soa) :
    removes origin u r = false := by
  rw [removes, Name.equal_iff.mpr hname, htype]
  rfl

theorem filter_filter_soa {origin : Name} (hname : u.name = origin) (recs : List Record) :
    (recs.filter fun r => !removes origin u r).filter (fun r => r.type = .soa) = recs.filter fun r => r.type = .soa := by
  rw [filter_filter]
  apply filter_congr
  intro r _
  by_cases htype : r.type = .soa
  · simp [htype, not_removes_soa hname htype]
  · simp [htype]

theorem recordsAt_origin_of_ne {z' : ZoneIndex} (horigin : z'.origin = z.origin)
    (h : ∀ k, k ≠ nameKey u.name → z'.stored k = z.stored k) (hne : u.name ≠ z.origin) (hin : z.origin.Encloses u.name) :
    z'.recordsAt z'.origin = z.recordsAt z.origin := by
  grind [recordsAt_eq, nameKey_injective, Name.Encloses]

/-- No update record takes the SOA away. -/
theorem Apex.applies (hz : z.Apex) (h : Applies z u out) (hin : z.origin.Encloses u.name)
    (hsoa : u.class_ = RRClass.classANY ∨ u.class_ = RRClass.classNONE ∨
      (u.type = .soa → u.name = z.origin → u.asSOA.isSome = true)) : out.1.Apex := by
  cases h with
  | nothing => exact hz
  | delete hclass hany =>
    refine ⟨by simpa using hz.valid, by simpa using hz.owner, by simpa using hz.real, ?_⟩
    by_cases hname : u.name = z.origin
    · rw [recordsAt_eq, stored_keep, origin_keep, soaRec_keep, if_pos (by rw [hname]), filter_filter_soa hname, hname]
      exact hz.single
    · rw [recordsAt_origin_of_ne (origin_keep ..) (fun k hk => by rw [stored_keep, if_neg hk]) hname hin, soaRec_keep]
      exact hz.single
  | replace hadd hname htype =>
    refine ⟨hz.valid, hname, ?_, ?_⟩
    · exact (hsoa.resolve_left hadd.1).resolve_left hadd.2 htype hname
    · show (((z.replaceApexSOA _).markExists _).stored (nameKey z.origin)).filter _ = _
      have hkey : nameKey z.origin = nameKey (newRecord u.name u.ttl u.rd).name := congrArg nameKey hname.symm
      have hstored : (newRecord u.name u.ttl u.rd).type = .soa := htype
      rw [stored_markExists, stored_replaceApexSOA, if_pos hkey, filter_append, filter_filter]
      simp [hstored, markExists, replaceApexSOA]
  | add hadd hnot =>
    refine ⟨hz.valid, hz.owner, hz.real, ?_⟩
    show (((z.append _).markExists _).stored (nameKey z.origin)).filter _ = [z.soaRec]
    rw [stored_markExists, stored_append]
    split
    · next hkey =>
      have hname : u.name = z.origin := (nameKey_injective hin.1 hin.2.1 hkey).symm
      have hstored : (newRecord u.name u.ttl u.rd).type ≠ .soa := fun htype => hnot htype hname
      rw [filter_append, ← recordsAt_eq, hz.single]
      simp [hstored]
    · exact hz.single

/-- An update record that passed the checks. -/
structure Admissible (origin : Name) (u : Record) : Prop where
  below : origin.Encloses u.name
  noAlias : u.class_ = RRClass.classANY ∨ u.class_ = RRClass.classNONE ∨
    (u.name = origin → isCNAMEOrDNAME u.type = false)
  soa : u.class_ = RRClass.classANY ∨ u.class_ = RRClass.classNONE ∨
    (u.type = .soa → u.name = origin ∧ u.asSOA.isSome = true)

/-- An admissible update record keeps the data in order. -/
theorem Data.applies (hz : z.Data) (h : Applies z u out) (hu : Admissible z.origin u) : out.1.Data := by
  have hapex := hz.toApex.applies h hu.below (hu.soa.imp_right fun h => h.imp_right fun h htype _ => (h htype).2)
  have hdense := h.dense hz.dense
  refine ⟨hapex, hdense, ?_⟩
  intro k r hr
  rw [h.origin]
  cases h with
  | nothing => exact hz.fits k r hr
  | delete =>
    rw [stored_keep] at hr
    split at hr
    · next hk => exact hz.fits k r (hk ▸ (mem_filter.mp hr).1)
    · exact hz.fits k r hr
  | replace hadd hname htype =>
    rw [stored_markExists, stored_replaceApexSOA] at hr
    split at hr
    · next hk =>
      rcases mem_append.mp hr with hr | hr
      · exact hz.fits k r (hk ▸ (mem_filter.mp hr).1)
      · obtain rfl := mem_singleton.mp hr
        have htype' : (newRecord u.name u.ttl u.rd).type = .soa := htype
        exact ⟨hk.symm, hu.below, fun _ => by rw [htype']; rfl, fun hne => absurd (hk.trans (congrArg nameKey hname)) hne⟩
    · exact hz.fits k r hr
  | add hadd hnot =>
    rw [stored_markExists, stored_append] at hr
    split at hr
    · next hk =>
      rcases mem_append.mp hr with hr | hr
      · exact hz.fits k r hr
      · obtain rfl := mem_singleton.mp hr
        refine ⟨hk.symm, hu.below, fun hapex => ?_, fun hne htype => ?_⟩
        · have hname := nameKey_injective hu.below.2.1 hu.below.1 (hk.symm.trans hapex)
          exact (hu.noAlias.resolve_left hadd.1).resolve_left hadd.2 hname
        · have hname := ((hu.soa.resolve_left hadd.1).resolve_left hadd.2 htype).1
          exact hne (hk.trans (congrArg nameKey hname))
    · exact hz.fits k r hr

/-! ### The loop over the update section -/

/-- What every admissible record keeps, the whole section keeps; without an effect the zone is as
before. -/
theorem applyUpdates_induct {P : ZoneIndex → Prop} {updates : List Record}
    (hdense : ∀ z, P z → z.Dense) (hstep : ∀ z u, u ∈ updates → P z → P (z.applyUpdate u).1) (hz : P z) :
    P (z.applyUpdates updates).1 ∧ ((z.applyUpdates updates).2 = false → (z.applyUpdates updates).1 = z) := by
  -- the flag only grows, so it is generalised with the zone
  suffices h : ∀ (z' : ZoneIndex) (changed : Bool), P z' → (changed = false → z' = z) →
      let out := updates.foldl (fun p u => ((p.1.applyUpdate u).1, p.2 || (p.1.applyUpdate u).2)) (z', changed)
      P out.1 ∧ (out.2 = false → out.1 = z) from h z false hz fun _ => rfl
  induction updates with
  | nil => exact fun z' changed hz' hsame => ⟨hz', hsame⟩
  | cons u updates ih =>
    intro z' changed hz' hsame
    apply ih (fun z v hv => hstep z v (.tail _ hv)) _ _ (hstep z' u (.head _) hz')
    intro hfalse
    obtain ⟨hchanged, hnone⟩ := Bool.or_eq_false_iff.mp hfalse
    rw [(applies_applyUpdate (hdense z' hz') u).eq_of_unchanged hnone]
    exact hsame hchanged

variable {updates : List Record}

theorem applyUpdates_unchanged (hz : z.Dense) (h : (z.applyUpdates updates).2 = false) :
    (z.applyUpdates updates).1 = z :=
  (applyUpdates_induct (P := Dense) (fun _ h => h) (fun _ u _ hz => (applies_applyUpdate hz u).dense hz) hz).2 h

theorem origin_applyUpdates (hz : z.Dense) (updates : List Record) :
    (z.applyUpdates updates).1.Dense ∧ (z.applyUpdates updates).1.origin = z.origin := by
  have h := @applyUpdates_induct z (fun z' => z'.Dense ∧ z'.origin = z.origin) updates
    (fun _ h => h.1) (fun z' u _ h => ?_) ⟨hz, rfl⟩
  · exact h.1
  · have happlies := applies_applyUpdate h.1 u
    exact ⟨happlies.dense h.1, happlies.origin.trans h.2⟩

theorem Data.applyUpdates (hz : z.Data) (hupdates : ∀ u ∈ updates, Admissible z.origin u) :
    (z.applyUpdates updates).1.Data := by
  have h := @applyUpdates_induct z (fun z' => z'.Data ∧ z'.origin = z.origin) updates
    (fun _ h => h.1.dense) (fun z' u hu h => ?_) ⟨hz, rfl⟩
  · exact h.1.1
  · have happlies := applies_applyUpdate h.1.dense u
    exact ⟨h.1.applies happlies (h.2.symm ▸ hupdates u hu), happlies.origin.trans h.2⟩

/-! ### The bump of the serial -/

theorem mem_replaceSOA {newRec r : Record} {recs : List Record} (h : r ∈ replaceSOA newRec recs) : r = newRec ∨ r ∈ recs := by
  induction recs with
  | nil => exact .inl (mem_singleton.mp h)
  | cons r' recs ih => grind [replaceSOA]

theorem filter_replaceSOA {newRec old : Record} (hnew : newRec.type = .soa) {recs : List Record}
    (h : recs.filter (fun r => r.type = .soa) = [old]) :
    (replaceSOA newRec recs).filter (fun r => r.type = .soa) = [newRec] := by
  induction recs with
  | nil => cases h
  | cons r recs ih => grind [replaceSOA]

theorem replaceSOA_ne_nil (newRec : Record) (recs : List Record) : replaceSOA newRec recs ≠ [] := by
  cases recs with
  | nil => nofun
  | cons r recs =>
    rw [replaceSOA]
    split <;> nofun

theorem bumpSOA_cases (z : ZoneIndex) :
    (z.bumpSOA = z ∧ ∀ soa, z.soaRec.asSOA = some soa → (bumpedSOA soa).isOk = false) ∨ ∃ soa, z.soaRec.asSOA = some soa ∧
    let newRec := newRecord z.soaRec.name z.soaRec.ttl (.soa { soa with serial := soa.serial + 1 })
    z.bumpSOA = { z with soaRec := newRec,
                         byName := z.byName.insert (nameKey z.origin) (replaceSOA newRec (z.recordsAt z.origin)) } := by
  unfold bumpSOA
  split
  · next hsoa => exact .inl ⟨rfl, fun soa hsome => by rw [hsoa] at hsome; cases hsome⟩
  · next soa hsoa =>
    split
    · next e herror =>
      refine .inl ⟨rfl, fun soa' hsome => ?_⟩
      cases hsoa.symm.trans hsome
      rw [herror]
      rfl
    · next bumped hbumped =>
      obtain rfl := newSOA_ok hbumped
      exact .inr ⟨soa, hsoa, rfl⟩

theorem origin_bumpSOA (z : ZoneIndex) : z.bumpSOA.origin = z.origin := by
  rcases bumpSOA_cases z with ⟨h, -⟩ | ⟨soa, -, h⟩ <;> rw [h]

theorem Apex.bumpSOA (hz : z.Apex) : z.bumpSOA.Apex := by
  rcases bumpSOA_cases z with ⟨h, -⟩ | ⟨soa, hsoa, h⟩ <;> rw [h]
  · exact hz
  · refine ⟨hz.valid, hz.owner, rfl, ?_⟩
    refine (congrArg _ ((stored_insert _ _ _ _).trans (if_pos rfl))).trans ?_
    exact filter_replaceSOA rfl hz.single

theorem Data.bumpSOA (hz : z.Data) : z.bumpSOA.Data := by
  refine ⟨hz.toApex.bumpSOA, ?_, ?_⟩
  · rcases bumpSOA_cases z with ⟨h, -⟩ | ⟨soa, hsoa, h⟩ <;> rw [h]
    · exact hz.dense
    · exact hz.dense.insert (replaceSOA_ne_nil _ _)
  · intro k r hr
    rw [origin_bumpSOA]
    rcases bumpSOA_cases z with ⟨h, -⟩ | ⟨soa, hsoa, h⟩ <;> rw [h] at hr
    · exact hz.fits k r hr
    · replace hr := (stored_insert _ _ _ _) ▸ hr
      split at hr
      · next hk =>
        rcases mem_replaceSOA hr with rfl | hr
        · refine ⟨?_, ?_, fun _ => rfl, fun hne => absurd hk hne⟩
          · rw [hk]
            exact congrArg nameKey hz.owner
          · show z.origin.Encloses z.soaRec.name
            rw [hz.owner]
            exact .refl hz.valid
        · exact hz.fits k r (hk ▸ hr)
      · exact hz.fits k r hr

/-! ### The names that exist -/

theorem mem_stored {k : Bytes} {r : Record} : r ∈ z.stored k ↔ ∃ recs, ⟨k, recs⟩ ∈ z.byName.entries ∧ r ∈ recs := by
  unfold stored
  constructor
  · intro hr
    cases hlookup : z.byName.lookup k with
    | none => rw [hlookup] at hr; cases hr
    | some recs =>
      rw [hlookup] at hr
      exact ⟨recs, AList.mem_lookup_iff.mp hlookup, hr⟩
  · rintro ⟨recs, hentry, hr⟩
    rw [AList.mem_lookup_iff.mpr hentry]
    exact hr

theorem Data.soaRec_mem (hz : z.Data) : z.soaRec ∈ z.stored (nameKey z.origin) := by
  have hmem : z.soaRec ∈ (z.recordsAt z.origin).filter fun r => r.type = .soa := by
    rw [hz.single]
    exact mem_singleton_self _
  exact (mem_filter.mp hmem).1

theorem Data.name_eq (hz : z.Data) {k : Bytes} {r r' : Record} (hr : r ∈ z.stored k) (hr' : r' ∈ z.stored k) :
    r.name = r'.name :=
  nameKey_injective (hz.fits k r hr).below.2.1 (hz.fits k r' hr').below.2.1
    ((hz.fits k r hr).key.trans (hz.fits k r' hr').key.symm)

theorem Data.exactNames_rebuild (hz : z.Data) : z.rebuildNamesExist.ExactNames := by
  intro k
  show k ∈ nameKey z.origin :: z.byName.entries.flatMap _ ↔ ∃ k', ∃ r ∈ z.stored k', _
  rw [mem_cons, mem_flatMap]
  constructor
  · rintro (rfl | ⟨⟨k', recs⟩, hentry, hk⟩)
    · -- the apex has its SOA
      refine ⟨_, z.soaRec, hz.soaRec_mem, z.origin, .refl hz.valid, ?_, rfl⟩
      rw [hz.owner]
      exact .refl hz.valid
    · cases recs with
      | nil => cases hk
      | cons r recs =>
        have hr : r ∈ z.stored k' := mem_stored.mpr ⟨_, hentry, .head _⟩
        exact ⟨k', r, hr, (mem_keysUpTo (hz.fits k' r hr).below).mp hk⟩
  · rintro ⟨k', r, hr, hk⟩
    obtain ⟨recs, hentry, hmem⟩ := mem_stored.mp hr
    refine .inr ⟨⟨k', recs⟩, hentry, ?_⟩
    cases recs with
    | nil => cases hmem
    | cons r' recs =>
      have hr' : r' ∈ z.stored k' := mem_stored.mpr ⟨_, hentry, .head _⟩
      rw [hz.name_eq hr hr'] at hk
      exact (mem_keysUpTo (hz.fits k' r' hr').below).mpr hk

/-- One SOA, at the apex; no alias there; owners at or below the origin; no empty entry; the exact set of names. -/
structure Sound (z : ZoneIndex) : Prop where
  soaOwner : z.soaRec.name = z.origin
  soaReal : z.soaRec.asSOA.isSome = true
  soaAtApex : (z.stored (nameKey z.origin)).filter (fun r => r.type = .soa) = [z.soaRec]
  soaNowhereElse : ∀ k, k ≠ nameKey z.origin → ∀ r ∈ z.stored k, r.type ≠ .soa
  apexNoAlias : ∀ r ∈ z.stored (nameKey z.origin), r.type ≠ .cname ∧ r.type ≠ .dname
  owners : ∀ k, ∀ r ∈ z.stored k, nameKey r.name = k ∧ z.origin.Encloses r.name
  noEmpty : ∀ k, z.byName.lookup k ≠ some []
  names : ∀ k, k ∈ z.namesExist ↔
    ∃ k', ∃ r ∈ z.stored k', ∃ m : Name, z.origin.Encloses m ∧ m.Encloses r.name ∧ nameKey m = k

theorem Data.sound (hz : z.Data) (hnames : z.ExactNames) : z.Sound where
  soaOwner := hz.owner
  soaReal := hz.real
  soaAtApex := hz.single
  soaNowhereElse := fun k hk r hr => (hz.fits k r hr).noSOA hk
  apexNoAlias := fun r hr => by simpa [isCNAMEOrDNAME] using (hz.fits _ r hr).noAlias rfl
  owners := fun k r hr => ⟨(hz.fits k r hr).key, (hz.fits k r hr).below⟩
  noEmpty := hz.dense
  names := hnames

theorem Data.update (hz : z.Data) (hnames : z.ExactNames)
    (hupdates : ∀ u ∈ updates, Admissible z.origin u) :
    (z.update updates).1.Data ∧ (z.update updates).1.ExactNames := by
  have hdata := hz.applyUpdates hupdates
  unfold ZoneIndex.update
  simp only
  split
  · have hbumped := hdata.bumpSOA
    refine ⟨⟨⟨hbumped.valid, hbumped.owner, hbumped.real, hbumped.single⟩, hbumped.dense, hbumped.fits⟩, ?_⟩
    exact hbumped.exactNames_rebuild
  · next hchanged =>
    rw [applyUpdates_unchanged hz.dense (by simpa using hchanged)]
    exact ⟨hz, hnames⟩

theorem origin_update (hz : z.Dense) (updates : List Record) : (z.update updates).1.origin = z.origin := by
  grind [update, origin_applyUpdates, rebuildNamesExist, bumpSOA]

end ZoneIndex

/-! ### Loading a zone -/

def indexRecord (idx : ZoneIndex) (rec : Record) : ZoneIndex := (idx.append rec).markExists rec.name

open ZoneIndex in
theorem foldl_indexRecord (records : List Record) (idx : ZoneIndex) (hdense : idx.Dense) :
    let out := records.foldl indexRecord idx
    out.origin = idx.origin ∧ out.soaRec = idx.soaRec ∧ out.Dense ∧
      (∀ k, out.stored k = idx.stored k ++ records.filter fun r => nameKey r.name = k) ∧
      ∀ k, k ∈ out.namesExist ↔ k ∈ idx.namesExist ∨ ∃ r ∈ records, k ∈ keysUpTo idx.origin r.name := by
  induction records generalizing idx with
  | nil => simp [hdense]
  | cons rec records ih =>
    obtain ⟨horigin, hsoa, hdense', hstored, hnames⟩ := ih (indexRecord idx rec) (hdense.append rec)
    refine ⟨horigin, hsoa, hdense', fun k => ?_, fun k => ?_⟩
    · rw [foldl_cons, hstored, indexRecord, stored_markExists, stored_append]
      by_cases hk : nameKey rec.name = k
      · rw [if_pos hk.symm, filter_cons_of_pos (by simpa using hk), append_assoc, singleton_append]
      · rw [if_neg (Ne.symm hk), filter_cons_of_neg (by simpa using hk)]
    · rw [foldl_cons, hnames]
      have hmark : k ∈ (indexRecord idx rec).namesExist ↔ k ∈ keysUpTo idx.origin rec.name ∨ k ∈ idx.namesExist :=
        mem_append
      have horigin' : (indexRecord idx rec).origin = idx.origin := rfl
      rw [hmark, horigin', exists_mem_cons_iff]
      tauto

theorem indexZone_ok {z : Zone} {idx : ZoneIndex} (h : indexZone z = .ok idx) : ∃ soaRec, z.soa = some soaRec ∧
    (∀ r ∈ z.records, r.name = z.origin → isCNAMEOrDNAME r.type = false) ∧
    idx = z.records.foldl indexRecord ⟨z.origin, soaRec, ∅, []⟩ := by
  unfold indexZone at h
  split at h
  · cases h
  · next soaRec hsoa =>
    split at h
    · cases h
    · next hnone =>
      refine ⟨soaRec, hsoa, fun r hr hname => ?_, (Except.ok.inj h).symm⟩
      rw [Bool.eq_false_iff]
      exact fun halias => hnone (any_eq_true.mpr ⟨r, hr, by simp [Name.equal_iff.mpr hname, halias]⟩)

theorem origin_indexZone {z : Zone} {idx : ZoneIndex} (h : indexZone z = .ok idx) : idx.origin = z.origin := by
  obtain ⟨soaRec, -, -, rfl⟩ := indexZone_ok h
  exact (foldl_indexRecord z.records ⟨z.origin, soaRec, ∅, []⟩ nofun).1

section Load

open ZoneIndex

variable {z : Zone} {idx : ZoneIndex}

section

variable (h : indexZone z = .ok idx)

include h

theorem stored_indexZone (k : Bytes) :
    idx.stored k = z.records.filter fun r => nameKey r.name = k := by
  obtain ⟨soaRec, -, -, rfl⟩ := indexZone_ok h
  exact (foldl_indexRecord z.records ⟨z.origin, soaRec, ∅, []⟩ nofun).2.2.2.1 k

theorem dense_indexZone : idx.Dense := by
  obtain ⟨soaRec, -, -, rfl⟩ := indexZone_ok h
  exact (foldl_indexRecord z.records ⟨z.origin, soaRec, ∅, []⟩ nofun).2.2.1

theorem mem_namesExist_indexZone (k : Bytes) :
    k ∈ idx.namesExist ↔ ∃ r ∈ z.records, k ∈ keysUpTo z.origin r.name := by
  obtain ⟨soaRec, -, -, rfl⟩ := indexZone_ok h
  rw [(foldl_indexRecord z.records ⟨z.origin, soaRec, ∅, []⟩ nofun).2.2.2.2 k]
  exact or_iff_right not_mem_nil

theorem soaRec_indexZone {r : Record} (hr : z.records.filter (fun r => r.type = .soa) = [r]) :
    idx.soaRec = r ∧ r.asSOA.isSome = true := by
  obtain ⟨soaRec, hsoa, -, rfl⟩ := indexZone_ok h
  rw [(foldl_indexRecord z.records ⟨z.origin, soaRec, ∅, []⟩ nofun).2.1]
  have hreal : soaRec.asSOA.isSome = true := List.find?_some (p := fun r : Record => r.asSOA.isSome) hsoa
  have hmem : soaRec ∈ z.records.filter fun r => r.type = .soa :=
    mem_filter.mpr ⟨mem_of_find?_eq_some hsoa, by simpa using Record.type_of_asSOA (Option.some_get hreal).symm⟩
  rw [hr] at hmem
  obtain rfl := mem_singleton.mp hmem
  exact ⟨rfl, hreal⟩

theorem apex_indexZone (hvalid : z.origin.isValid)
    (hz : ∃ r, z.records.filter (fun r => r.type = .soa) = [r] ∧ r.name = z.origin) : idx.Apex := by
  obtain ⟨r, hsingle, hname⟩ := hz
  obtain ⟨hsoaRec, hreal⟩ := soaRec_indexZone h hsingle
  have horigin := origin_indexZone h
  refine ⟨horigin ▸ hvalid, ?_, hsoaRec ▸ hreal, ?_⟩
  · rw [hsoaRec, hname, horigin]
  · grind [recordsAt_eq, stored_indexZone, filter_comm]

end
theorem data_indexZone (hz : z.Proper) (h : indexZone z = .ok idx) : idx.Data ∧ idx.ExactNames := by
  obtain ⟨r, hsingle, hname⟩ := hz.single
  have hr : ∀ {r'}, r' ∈ z.records → r'.type = .soa → r' = r := fun hr' htype =>
    mem_singleton.mp (hsingle ▸ mem_filter.mpr ⟨hr', by simpa using htype⟩)
  have hvalid : z.origin.isValid = true := by
    have hmem : r ∈ z.records.filter fun r => r.type = .soa := by rw [hsingle]; exact mem_singleton_self r
    exact (hz.below r (mem_filter.mp hmem).1).1
  have horigin := origin_indexZone h
  refine ⟨⟨apex_indexZone h hvalid hz.single, dense_indexZone h, fun k r' hr' => ?_⟩, fun k => ?_⟩
  · rw [stored_indexZone h, mem_filter, decide_eq_true_eq] at hr'
    rw [horigin]
    have hbelow := hz.below r' hr'.1
    refine ⟨hr'.2, hbelow, fun hapex => ?_, fun hne htype => ?_⟩
    · obtain ⟨-, -, hnoAlias, -⟩ := indexZone_ok h
      exact hnoAlias r' hr'.1 (nameKey_injective hbelow.2.1 hvalid (hr'.2.trans hapex))
    · rw [hr hr'.1 htype, hname] at hr'
      exact hne hr'.2.symm
  · rw [mem_namesExist_indexZone h, horigin]
    constructor
    · rintro ⟨r', hr', hk⟩
      refine ⟨nameKey r'.name, r', ?_, (mem_keysUpTo (hz.below r' hr')).mp hk⟩
      rw [stored_indexZone h]
      exact mem_filter.mpr ⟨hr', by simp⟩
    · rintro ⟨k', r', hr', hk⟩
      rw [stored_indexZone h] at hr'
      have hmem := (mem_filter.mp hr').1
      exact ⟨r', hmem, (mem_keysUpTo (hz.below r' hmem)).mpr hk⟩

end Load

/-! ### Runs -/

section Runs

variable {cfg : Config} {good : Action → Prop} {s s' : State} {zoneName : Name} {q : Message}

variable {policy : UpdatePolicy} {zones : Zones} {zone : ZoneIndex}

theorem screenUpdate_eq_ok : screenUpdate cfg policy q = .ok zoneName ↔
    ∃ zoneQ, q.questions = [zoneQ] ∧ zoneQ.name = zoneName ∧ zoneQ.typ = .soa ∧
      ¬(cfg.maxUpdateRecords > 0 ∧ cfg.maxUpdateRecords < q.answers.length + q.authorities.length) ∧
      (policy.map fun permits => permits q).getD false = true ∧
      (∀ p ∈ q.answers, zoneName.Encloses p.name) ∧ ∀ u ∈ q.authorities, zoneName.Encloses u.name := by
  grind [inBailiwick, Recursive.inBailiwick_iff, screenUpdate]

theorem checkUpdate_eq_ok : checkUpdate zones zoneName q = .ok zone ↔
    zones.lookup (nameKey zoneName) = some zone ∧ evaluatePrereqs zone q.answers = .noError ∧
      ∀ u ∈ q.authorities, validUpdate zone u = true := by
  grind [validateUpdates, checkUpdate, RCODE.noError, RCODE.formErr]

theorem admitUpdate_eq_ok : admitUpdate cfg policy zones q = .ok zoneName ↔
    screenUpdate cfg policy q = .ok zoneName ∧ ∃ zone, checkUpdate zones zoneName q = .ok zone := by
  constructor
  · intro h
    obtain ⟨_, hscreen, h⟩ := bind_ok h
    obtain ⟨zone, hcheck, h⟩ := bind_ok h
    cases h
    exact ⟨hscreen, zone, hcheck⟩
  · rintro ⟨hscreen, zone, hcheck⟩
    rw [admitUpdate, hscreen]
    simp only [bind, Except.bind, hcheck]
    rfl

theorem commitUpdate_cases (cfg : Config) (zones : Zones) (zoneName : Name) (q : Message) :
    (∃ rcode, commitUpdate cfg zones zoneName q = (zones, .refused q rcode)) ∨
      ∃ zone, checkUpdate zones zoneName q = .ok zone ∧
        (commitUpdate cfg zones zoneName q).1 = zones.insert (nameKey zoneName) (zone.update q.authorities).1 := by
  unfold commitUpdate
  split
  · next rcode _ => exact .inl ⟨rcode, rfl⟩
  · next zone hcheck => exact .inr ⟨zone, hcheck, rfl⟩

theorem step_commit {i : Nat} (h : s.step cfg (.commit i) = some s') : ∃ zoneName q, (zoneName, q) ∈ s.waiting ∧
    s' = ⟨(commitUpdate cfg s.zones zoneName q).1, s.waiting.eraseIdx i,
      (commitUpdate cfg s.zones zoneName q).2 :: s.served⟩ := by
  grind [State.step]

/-- What `P` needs to hold in every run of good actions; `C` is what a good request says of its update section. -/
structure Maintains (good : Action → Prop) (P : ZoneIndex → Prop) (C : Name → Record → Prop) : Prop where
  valid : ∀ {z}, P z → z.origin.isValid = true
  dense : ∀ {z}, P z → z.Dense
  load : ∀ {z idx}, good (.load z) → indexZone z = .ok idx → P idx
  receive : ∀ {policy q zoneQ}, good (.receive policy q) → q.questions = [zoneQ] → ∀ u ∈ q.authorities, C zoneQ.name u
  update : ∀ {z updates}, P z →
    (∀ u ∈ updates, z.origin.Encloses u.name ∧ validUpdate z u = true ∧ C z.origin u) → P (z.update updates).1

variable {P : ZoneIndex → Prop} {C : Name → Record → Prop}

/-- Every way to change a zone keeps the property. -/
structure State.Keeps (P : ZoneIndex → Prop) (C : Name → Record → Prop) (s : State) : Prop where
  zones : ∀ k z, s.zones.lookup k = some z → k = nameKey z.origin ∧ P z
  waiting : ∀ w ∈ s.waiting, ∀ u ∈ w.2.authorities, w.1.Encloses u.name ∧ C w.1 u

theorem Maintains.updates (hm : Maintains good P C) (hs : s.Keeps P C) (hw : (zoneName, q) ∈ s.waiting)
    (hcheck : checkUpdate s.zones zoneName q = .ok zone) : P zone ∧ nameKey zoneName = nameKey zone.origin ∧
      ∀ u ∈ q.authorities, zone.origin.Encloses u.name ∧ validUpdate zone u = true ∧ C zone.origin u := by
  obtain ⟨hlookup, -, hvalid⟩ := checkUpdate_eq_ok.mp hcheck
  obtain ⟨hkey, hP⟩ := hs.zones _ _ hlookup
  refine ⟨hP, hkey, fun u hu => ?_⟩
  obtain ⟨hbelow, hC⟩ := hs.waiting _ hw u hu
  obtain rfl := nameKey_injective hbelow.1 (hm.valid hP) hkey
  exact ⟨hbelow, hvalid u hu, hC⟩

theorem Maintains.insert (hs : s.Keeps P C) {k : Bytes} {z : ZoneIndex} (hk : k = nameKey z.origin) (hz : P z)
    {waiting : List (Name × Message)} (hwaiting : ∀ w ∈ waiting, w ∈ s.waiting) (served : List Served) :
    State.Keeps P C ⟨s.zones.insert k z, waiting, served⟩ := by
  refine ⟨fun k' z' hlookup => ?_, fun w hw => hs.waiting w (hwaiting w hw)⟩
  rw [Table.lookup_insert_eq] at hlookup
  split at hlookup
  · next heq =>
    cases hlookup
    exact ⟨heq.trans hk, hz⟩
  · exact hs.zones k' z' hlookup

theorem Maintains.step (hm : Maintains good P C) (hs : s.Keeps P C) {a : Action} (ha : good a)
    (h : s.step cfg a = some s') : s'.Keeps P C := by
  cases a with
  | load z =>
    rw [State.step] at h
    split at h
    · cases h
      exact hs
    · next idx hidx =>
      cases h
      exact Maintains.insert hs (by rw [origin_indexZone hidx]) (hm.load ha hidx) (fun _ hw => hw) _
  | receive policy q =>
    rw [State.step] at h
    split at h
    · cases h
      exact ⟨hs.zones, hs.waiting⟩
    · next zoneName hadmitted =>
      cases h
      obtain ⟨zoneQ, hquestions, hname, -, -, -, -, hauthorities⟩ :=
        screenUpdate_eq_ok.mp (admitUpdate_eq_ok.mp hadmitted).1
      refine ⟨hs.zones, fun w hw u hu => ?_⟩
      rcases mem_cons.mp hw with rfl | hw
      · exact ⟨hauthorities u hu, hname ▸ hm.receive ha hquestions u hu⟩
      · exact hs.waiting w hw u hu
  | commit i =>
    obtain ⟨zoneName, q, hmem, hs'⟩ := step_commit h
    rw [hs']
    rcases commitUpdate_cases cfg s.zones zoneName q with ⟨rcode, hcommit⟩ | ⟨zone, hcheck, hzones⟩
    · rw [hcommit]
      exact ⟨hs.zones, fun w hw => hs.waiting w (mem_of_mem_eraseIdx hw)⟩
    · obtain ⟨hP, hkey, hupdates⟩ := hm.updates hs hmem hcheck
      have horigin := ZoneIndex.origin_update (hm.dense hP) q.authorities
      rw [hzones]
      exact Maintains.insert hs (hkey.trans (by rw [horigin])) (hm.update hP hupdates)
        (fun w hw => mem_of_mem_eraseIdx hw) _

theorem Maintains.reachable (hm : Maintains good P C) (h : Reachable cfg good s) : s.Keeps P C := by
  induction h with
  | initial => exact ⟨fun k z hlookup => (Option.not_mem_none z hlookup).elim, forall_mem_nil _⟩
  | step _ ha hstep ih => exact hm.step ih ha hstep

end Runs

/-! ### Soundness in every run -/

def AddsSOAAtApex (q : Message) : Prop :=
  ∀ zoneQ ∈ q.questions, ∀ u ∈ q.authorities, u.class_ = RRClass.classIN → u.type = .soa →
    u.name = zoneQ.name ∧ u.asSOA.isSome = true

def LoadsProper : Action → Prop
  | .load z => z.Proper
  | _ => True

/-- The zones that are loaded are proper, and the requests that arrive add SOAs only where they
belong. -/
def KeepsSOA : Action → Prop
  | .load z => z.Proper
  | .receive _ q => AddsSOAAtApex q
  | .commit _ => True

theorem class_of_validUpdate {z : ZoneIndex} {u : Record} (h : validUpdate z u = true) :
    u.class_ = RRClass.classANY ∨ u.class_ = RRClass.classNONE ∨
      u.class_ = RRClass.classIN ∧ (u.name = z.origin → isCNAMEOrDNAME u.type = false) := by
  grind [validUpdate, Name.equal]

theorem admissible_of_validUpdate {z : ZoneIndex} {u : Record} (hbelow : z.origin.Encloses u.name)
    (hvalid : validUpdate z u = true)
    (hsoa : u.class_ = RRClass.classIN → u.type = .soa → u.name = z.origin ∧ u.asSOA.isSome = true) :
    ZoneIndex.Admissible z.origin u := by
  rcases class_of_validUpdate hvalid with hany | hnone | ⟨hin, hapex⟩
  · exact ⟨hbelow, .inl hany, .inl hany⟩
  · exact ⟨hbelow, .inr (.inl hnone), .inr (.inl hnone)⟩
  · exact ⟨hbelow, .inr (.inr hapex), .inr (.inr (hsoa hin))⟩

theorem maintains_data : Maintains KeepsSOA (fun z => z.Data ∧ z.ExactNames)
    fun origin u => u.class_ = RRClass.classIN → u.type = .soa → u.name = origin ∧ u.asSOA.isSome = true where
  valid := fun hz => hz.1.valid
  dense := fun hz => hz.1.dense
  load := fun hz hidx => data_indexZone hz hidx
  receive := fun hq hquestions u hu => hq _ (hquestions ▸ mem_singleton_self _) u hu
  update := fun hz hupdates => hz.1.update hz.2 fun u hu =>
    admissible_of_validUpdate (hupdates u hu).1 (hupdates u hu).2.1 (hupdates u hu).2.2

/-- Every zone is sound if proper zones are loaded and SOAs are added only at the apex and with SOA rdata. -/
theorem zones_sound {cfg : Config} {s : State} (h : Reachable cfg KeepsSOA s) {k : Bytes} {z : ZoneIndex}
    (hz : s.zones.lookup k = some z) : k = nameKey z.origin ∧ z.Sound := by
  obtain ⟨hkey, hdata, hnames⟩ := (maintains_data.reachable h).zones k z hz
  exact ⟨hkey, hdata.sound hnames⟩

def sampleOrigin : Name := Name.Short.a

def sampleHost : Name := Name.Short.ba

def sampleSOA (name : Name) (serial : UInt32) : Record :=
  newRecord name 0 (.soa ⟨sampleOrigin, sampleOrigin, serial, 0, 0, 0, 0⟩)

def sampleZone : Zone := ⟨sampleOrigin, [sampleSOA sampleOrigin 1, newRecord sampleOrigin 0 (.ns sampleHost)]⟩

theorem proper_sampleZone : sampleZone.Proper where
  below := by
    have h : ∀ r ∈ sampleZone.records, inBailiwick sampleOrigin r.name = true := by decide
    exact fun r hr => Recursive.inBailiwick_iff.mp (h r hr)
  single := ⟨sampleSOA sampleOrigin 1, by decide, rfl⟩

def sampleUpdate (updates : List Record) : Message :=
  ⟨0, (0 : Flags).withOpcode .update, [newQuestion sampleOrigin .soa], [], updates, [], none⟩

def sampleActions (updates : List Record) : List Action :=
  [.load sampleZone, .receive (some fun _ => true) (sampleUpdate updates), .commit 0]

def zoneAfter (cfg : Config) (actions : List Action) : Option ZoneIndex :=
  (State.initial.run cfg actions).bind fun s => s.zones.lookup (nameKey sampleOrigin)

theorem zones_sound_sample : ∃ z, zoneAfter defaultConfig
    (sampleActions [newRecord sampleHost 0 (.ns sampleHost), sampleSOA sampleOrigin 5]) = some z ∧
      z.serial = some 6 ∧ z.Sound := by
  have hserial : (zoneAfter defaultConfig
      (sampleActions [newRecord sampleHost 0 (.ns sampleHost), sampleSOA sampleOrigin 5])).bind ZoneIndex.serial =
        some 6 := by decide +kernel
  obtain ⟨z, hafter, hz⟩ := Option.bind_eq_some_iff.mp hserial
  obtain ⟨s, hrun, hlookup⟩ := Option.bind_eq_some_iff.mp hafter
  refine ⟨z, hafter, hz, (zones_sound (Reachable.initial.run ?_ hrun) hlookup).2⟩
  intro a ha
  simp only [sampleActions, mem_cons, not_mem_nil, or_false] at ha
  rcases ha with rfl | rfl | rfl
  · exact proper_sampleZone
  · show ∀ zoneQ ∈ [newQuestion sampleOrigin .soa], ∀ u ∈ _, _
    decide
  · trivial

/-- An SOA that is added below the apex stays there, beside the one at the apex. -/
theorem zones_not_sound : ∃ s, Reachable defaultConfig LoadsProper s ∧
    ∃ z, s.zones.lookup (nameKey sampleOrigin) = some z ∧ ¬z.Sound := by
  have hstray : (zoneAfter defaultConfig (sampleActions [sampleSOA sampleHost 1])).map
      (fun z => z.origin.equal sampleOrigin && (z.stored (nameKey sampleHost)).any fun r => r.type = .soa) =
        some true := by decide +kernel
  obtain ⟨z, hafter, hz⟩ := Option.map_eq_some_iff.mp hstray
  obtain ⟨s, hrun, hlookup⟩ := Option.bind_eq_some_iff.mp hafter
  obtain ⟨horigin, hany⟩ := Bool.and_eq_true_iff.mp hz
  obtain ⟨r, hr, htype⟩ := any_eq_true.mp hany
  refine ⟨s, Reachable.initial.run ?_ hrun, z, hlookup, fun hsound => ?_⟩
  · intro a ha
    simp only [sampleActions, mem_cons, not_mem_nil, or_false] at ha
    rcases ha with rfl | rfl | rfl
    · exact proper_sampleZone
    · trivial
    · trivial
  · refine hsound.soaNowhereElse (nameKey sampleHost) ?_ r hr (of_decide_eq_true htype)
    rw [Name.equal_iff.mp horigin]
    decide

end Acidns.Authoritative
