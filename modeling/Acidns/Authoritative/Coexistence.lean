import Acidns.Authoritative.Serial

/-!
# What an update may add

RFC 2136 lets a CNAME stand next to nothing else and a record stand once under its owner, type and rdata.
`applyUpdate` of `authoritative/update.go` looks for neither: it appends what is not there with the same TTL. The
zone stays as it should as long as the updates ask for nothing that the code would have to refuse or replace.
-/

namespace Acidns.Authoritative

open List

/-- No CNAME beside other types, no rdata twice. -/
structure TidyRecords (recs : List Record) : Prop where
  sole : (∀ r ∈ recs, r.type = .cname) ∨ ∀ r ∈ recs, r.type ≠ .cname
  distinct : recs.Pairwise fun r r' => rdataEqual r.rd r'.rd = false

section

variable {recs recs' : List Record} {r u : Record}

theorem rdataEqual_of_type_ne (h : r.type ≠ u.type) : rdataEqual r.rd u.rd = false :=
  decide_eq_false fun heq => h heq.1

theorem TidyRecords.sublist (h : TidyRecords recs) (hsub : recs'.Sublist recs) : TidyRecords recs' :=
  ⟨h.sole.imp (fun h r hr => h r (hsub.mem hr)) (fun h r hr => h r (hsub.mem hr)), h.distinct.sublist hsub⟩

theorem TidyRecords.concat (h : TidyRecords recs) (halias : ∀ r ∈ recs, r.type = .cname ↔ u.type = .cname)
    (hdistinct : ∀ r ∈ recs, rdataEqual r.rd u.rd = false) : TidyRecords (recs ++ [u]) := by
  refine ⟨?_, pairwise_append.mpr ⟨h.distinct, pairwise_singleton _ _, fun r hr u' hu' => ?_⟩⟩
  · grind
  · rw [mem_singleton.mp hu']
    exact hdistinct r hr

theorem TidyRecords.replaceSOA {old newRec : Record} (h : TidyRecords recs)
    (hold : recs.filter (fun r => r.type = .soa) = [old]) (hnew : newRec.type = .soa) :
    TidyRecords (ZoneIndex.replaceSOA newRec recs) := by
  obtain ⟨hmem, hsoa⟩ := mem_filter.mp (hold ▸ mem_singleton_self old)
  have hplain : ∀ r ∈ recs, r.type ≠ .cname := by
    refine h.sole.resolve_left fun hall => ?_
    rw [hall old hmem] at hsoa
    cases hsoa
  refine ⟨.inr fun r hr => ?_, ?_⟩
  · rcases ZoneIndex.mem_replaceSOA hr with rfl | hr
    · rw [hnew]
      decide
    · exact hplain r hr
  have hdistinct := h.distinct
  clear hplain hsoa hmem h
  induction recs with
  | nil => exact pairwise_singleton _ _
  | cons r recs ih =>
    obtain ⟨hfirst, hrest⟩ := pairwise_cons.mp hdistinct
    rw [filter_cons] at hold
    rw [ZoneIndex.replaceSOA]
    split
    · next htype =>
      rw [if_pos (by simpa using htype)] at hold
      have hnone : ∀ r' ∈ recs, r'.type ≠ .soa := by simpa using (cons.inj hold).2
      refine pairwise_cons.mpr ⟨fun r' hr' => ?_, hrest⟩
      exact rdataEqual_of_type_ne fun heq => hnone r' hr' (heq.symm.trans hnew)
    · next htype =>
      rw [if_neg (by simpa using htype)] at hold
      refine pairwise_cons.mpr ⟨fun r' hr' => ?_, ih hold hrest⟩
      rcases ZoneIndex.mem_replaceSOA hr' with rfl | hr'
      · exact rdataEqual_of_type_ne fun heq => htype (heq.trans hnew)
      · exact hfirst r' hr'

end

theorem applyUpdates_fst (z : ZoneIndex) (updates : List Record) :
    (z.applyUpdates updates).1 = updates.foldl (fun z u => (z.applyUpdate u).1) z := by
  suffices h : ∀ (z : ZoneIndex) (changed : Bool),
      (updates.foldl (fun p u => ((p.1.applyUpdate u).1, p.2 || (p.1.applyUpdate u).2)) (z, changed)).1 =
        updates.foldl (fun z u => (z.applyUpdate u).1) z from h z false
  induction updates with
  | nil => exact fun _ _ => rfl
  | cons u updates ih => exact fun z changed => ih _ _

namespace ZoneIndex

variable {z : ZoneIndex} {u : Record} {updates : List Record}

/-- No name has a CNAME next to other data, and no record stands twice under its owner, type and rdata. -/
def Tidy (z : ZoneIndex) : Prop := ∀ k, TidyRecords (z.stored k)

/-- The record deletes, or it adds to records that are all CNAMEs if it is one and none otherwise, and its rdata is not
there with another TTL; the SOA at the apex is replaced anyway. -/
def Harmless (z : ZoneIndex) (u : Record) : Prop :=
  u.class_ = RRClass.classANY ∨ u.class_ = RRClass.classNONE ∨ (u.type = .soa → u.asSOA.isSome = true) ∧
    ∀ r ∈ z.recordsAt u.name, (r.type = .cname ↔ u.type = .cname) ∧
      (rdataEqual r.rd u.rd = true → r.ttl = u.ttl ∨ u.name = z.origin ∧ u.type = .soa)

/-- A harmless update leaves the zone tidy. -/
theorem Tidy.applyUpdate (hz : z.Tidy) (hdense : z.Dense) (h : z.Harmless u) : (z.applyUpdate u).1.Tidy := by
  intro k
  by_cases hdelete : u.class_ = RRClass.classANY ∨ u.class_ = RRClass.classNONE
  · have hdeletes := deletes_applyUpdate hdense hdelete
    unfold Deletes at hdeletes
    split at hdeletes
    · rw [hdeletes.2, stored_keep]
      split
      · exact (hz _).sublist filter_sublist
      · exact hz k
    · rw [hdeletes.2]
      exact hz k
  · obtain ⟨hany, hnone⟩ := not_or.mp hdelete
    obtain ⟨-, hadd⟩ := (h.resolve_left hany).resolve_left hnone
    rw [ZoneIndex.applyUpdate, if_neg hany, if_neg hnone, addRecord]
    split
    · exact hz k
    · next hdup =>
      split
      · next hsoa =>
        show TidyRecords (((z.replaceApexSOA (newRecord u.name u.ttl u.rd)).markExists u.name).stored k)
        rw [stored_markExists, stored_replaceApexSOA]
        split
        · refine ((hz _).sublist filter_sublist).concat (fun r hr => (hadd r (mem_of_mem_filter hr)).1) fun r hr => ?_
          exact rdataEqual_of_type_ne fun heq => of_decide_eq_true (mem_filter.mp hr).2 (heq.trans hsoa.2)
        · exact hz k
      · next hsoa =>
        rw [stored_markExists, stored_append]
        split
        · next hk =>
          subst hk
          refine (hz _).concat (fun r hr => (hadd r hr).1) fun r hr => Bool.eq_false_iff.mpr fun heq => ?_
          rcases (hadd r hr).2 heq with httl | hapex
          · have htype : r.type = u.type := (of_decide_eq_true heq).1
            exact hdup (any_eq_true.mpr ⟨r, hr, by simp [htype, httl, show rdataEqual r.rd u.rd = true from heq]⟩)
          · exact hsoa ⟨Name.equal_iff.mpr hapex.1, hapex.2⟩
        · exact hz k

/-- The apex is in order and every owner's records are tidy. -/
structure Orderly (z : ZoneIndex) : Prop extends Apex z where
  dense : z.Dense
  tidy : z.Tidy

/-- Each record is harmless for the zone that those before it leave. -/
def HarmlessAll : ZoneIndex → List Record → Prop
  | _, [] => True
  | z, u :: updates => z.Harmless u ∧ HarmlessAll (z.applyUpdate u).1 updates

theorem Orderly.applyUpdates (hz : z.Orderly) (hbelow : ∀ u ∈ updates, z.origin.Encloses u.name)
    (h : HarmlessAll z updates) : (z.applyUpdates updates).1.Orderly := by
  rw [applyUpdates_fst]
  induction updates generalizing z with
  | nil => exact hz
  | cons u updates ih =>
    have happlies := applies_applyUpdate hz.dense u
    have hapex := hz.toApex.applies happlies (hbelow u (.head _))
      (h.1.imp_right (Or.imp_right fun hadd htype _ => hadd.1 htype))
    refine ih ⟨hapex, happlies.dense hz.dense, hz.tidy.applyUpdate hz.dense h.1⟩ (fun v hv => ?_) h.2
    rw [happlies.origin]
    exact hbelow v (.tail _ hv)

theorem Orderly.bumpSOA (hz : z.Orderly) : z.bumpSOA.Orderly := by
  refine ⟨hz.toApex.bumpSOA, ?_, fun k => ?_⟩ <;> rcases bumpSOA_cases z with ⟨h, -⟩ | ⟨soa, -, h⟩ <;> rw [h]
  · exact hz.dense
  · exact hz.dense.insert (replaceSOA_ne_nil _ _)
  · exact hz.tidy k
  · refine Eq.subst (motive := TidyRecords) (stored_insert z (nameKey z.origin) _ k).symm ?_
    split
    · exact (hz.tidy _).replaceSOA hz.single rfl
    · exact hz.tidy k

theorem Orderly.update (hz : z.Orderly) (hbelow : ∀ u ∈ updates, z.origin.Encloses u.name)
    (h : HarmlessAll z updates) : (z.update updates).1.Orderly := by
  have happlied := hz.applyUpdates hbelow h
  unfold ZoneIndex.update
  split
  next z' changed happly =>
    rw [happly] at happlied
    split
    · exact ⟨⟨happlied.bumpSOA.valid, happlied.bumpSOA.owner, happlied.bumpSOA.real, happlied.bumpSOA.single⟩,
        happlied.bumpSOA.dense, happlied.bumpSOA.tidy⟩
    · exact happlied

end ZoneIndex

/-! ### Sequences of updates -/

/-- A sequence of updates, each on the zones the last one left. -/
def serveUpdates (cfg : Config) : Zones → List (UpdatePolicy × Message) → Zones
  | zones, [] => zones
  | zones, m :: ms => serveUpdates cfg (serveUpdate cfg m.1 zones m.2).1 ms

/-- Each accepted message has an update section that is harmless for its zone at that time. -/
def HarmlessUpdates (cfg : Config) : Zones → List (UpdatePolicy × Message) → Prop
  | _, [] => True
  | zones, m :: ms => (∀ zoneName zone, admitUpdate cfg m.1 zones m.2 = .ok zoneName →
      zones.lookup (nameKey zoneName) = some zone → zone.HarmlessAll m.2.authorities) ∧
    HarmlessUpdates cfg (serveUpdate cfg m.1 zones m.2).1 ms

def OrderlyZones (zones : Zones) : Prop :=
  ∀ k z, zones.lookup k = some z → k = nameKey z.origin ∧ z.Orderly

theorem OrderlyZones.serveUpdate {cfg : Config} {policy : UpdatePolicy} {zones : Zones} {q : Message}
    (hzones : OrderlyZones zones) (hq : ∀ zoneName zone, admitUpdate cfg policy zones q = .ok zoneName →
      zones.lookup (nameKey zoneName) = some zone → zone.HarmlessAll q.authorities) :
    OrderlyZones (serveUpdate cfg policy zones q).1 := by
  unfold Authoritative.serveUpdate
  split
  · exact hzones
  · next zoneName hadmit =>
    rcases commitUpdate_cases cfg zones zoneName q with ⟨rcode, hcommit⟩ | ⟨zone, hcheck, hcommit⟩
    · rw [hcommit]
      exact hzones
    · rw [hcommit]
      have hlookup := (checkUpdate_eq_ok.mp hcheck).1
      obtain ⟨hkey, hzone⟩ := hzones _ _ hlookup
      obtain ⟨zoneQ, -, -, -, -, -, -, hbelow⟩ := screenUpdate_eq_ok.mp (admitUpdate_eq_ok.mp hadmit).1
      have hbelow' : ∀ u ∈ q.authorities, zone.origin.Encloses u.name := fun u hu =>
        nameKey_injective (hbelow u hu).1 hzone.valid hkey ▸ hbelow u hu
      intro k z hz
      rw [Table.lookup_insert_eq] at hz
      split at hz
      · next hk =>
        cases hz
        rw [ZoneIndex.origin_update hzone.dense, hk]
        exact ⟨hkey, hzone.update hbelow' (hq _ _ hadmit hlookup)⟩
      · exact hzones k z hz

/-- In every sequence of updates in which each accepted one is harmless, the zones stay tidy. -/
theorem serveUpdates_tidy {cfg : Config} {zones : Zones} {ms : List (UpdatePolicy × Message)} (hzones : OrderlyZones zones)
    (hms : HarmlessUpdates cfg zones ms) {k : Bytes} {z : ZoneIndex}
    (hz : (serveUpdates cfg zones ms).lookup k = some z) : z.Tidy := by
  induction ms generalizing zones with
  | nil => exact (hzones k z hz).2.tidy
  | cons m ms ih => exact ih (hzones.serveUpdate hms.1) hms.2 hz

theorem orderly_sampleZone {z : ZoneIndex} (h : indexZone sampleZone = .ok z) : z.Orderly := by
  have hdata := (data_indexZone proper_sampleZone h).1
  refine ⟨hdata.toApex, hdata.dense, fun k => ?_⟩
  rw [stored_indexZone h]
  refine TidyRecords.sublist ⟨.inr ?_, ?_⟩ filter_sublist <;> decide +kernel

def sampleServer (z : ZoneIndex) : Zones := AList.insert (nameKey sampleOrigin) z ∅

def sampleServed (z : ZoneIndex) (updates : List Record) : Zones :=
  serveUpdates defaultConfig (sampleServer z) [(some fun _ => true, sampleUpdate updates)]

theorem serveUpdates_tidy_sample : ∃ z z', indexZone sampleZone = .ok z ∧
    (sampleServed z [newRecord sampleHost 0 (.ns sampleHost)]).lookup (nameKey sampleOrigin) = some z' ∧ z'.Tidy := by
  have hserved : ((indexZone sampleZone).toOption.bind fun z =>
      (sampleServed z [newRecord sampleHost 0 (.ns sampleHost)]).lookup (nameKey sampleOrigin)).isSome = true := by
    decide +kernel
  obtain ⟨z', hz'⟩ := Option.isSome_iff_exists.mp hserved
  obtain ⟨z, hz, hlookup⟩ := Option.bind_eq_some_iff.mp hz'
  have hindex := toOption_eq_some hz
  have hserver {k : Bytes} {zone : ZoneIndex} (h : (sampleServer z).lookup k = some zone) :
      k = nameKey sampleOrigin ∧ zone = z := by
    rw [sampleServer, Table.lookup_insert_eq] at h
    split at h
    · next hk =>
      cases h
      exact ⟨hk, rfl⟩
    · cases h
  have hharmless : HarmlessUpdates defaultConfig (sampleServer z)
      [(some fun _ => true, sampleUpdate [newRecord sampleHost 0 (.ns sampleHost)])] := by
    refine ⟨fun zoneName zone _ h => ⟨.inr (.inr ⟨by decide, fun r hr => ?_⟩), trivial⟩, trivial⟩
    have hnone : sampleZone.records.filter (fun r => nameKey r.name = nameKey sampleHost) = [] := by decide +kernel
    rw [(hserver h).2, ZoneIndex.recordsAt_eq, stored_indexZone hindex] at hr
    cases hnone ▸ hr
  refine ⟨z, z', hindex, hlookup, serveUpdates_tidy (fun k zone h => ?_) hharmless hlookup⟩
  obtain ⟨rfl, rfl⟩ := hserver h
  exact ⟨congrArg nameKey (origin_indexZone hindex).symm, orderly_sampleZone hindex⟩

def conflicting : List Record :=
  [newRecord sampleHost 0 (.ns sampleHost), newRecord sampleHost second (.ns sampleHost),
    newRecord sampleHost 0 (.cname sampleOrigin)]

/-- A CNAME joins another record, and a new TTL makes a second record. -/
theorem serveUpdates_not_tidy : ∃ z z', indexZone sampleZone = .ok z ∧ z.Orderly ∧
    (sampleServed z conflicting).lookup (nameKey sampleOrigin) = some z' ∧ z'.recordsAt sampleHost = conflicting := by
  have hserved : ((indexZone sampleZone).toOption.bind fun z => ((sampleServed z conflicting).lookup
      (nameKey sampleOrigin)).map fun z' => z'.recordsAt sampleHost) = some conflicting := by
    decide +kernel
  obtain ⟨z, hz, hserved⟩ := Option.bind_eq_some_iff.mp hserved
  obtain ⟨z', hlookup, hrecords⟩ := Option.map_eq_some_iff.mp hserved
  exact ⟨z, z', toOption_eq_some hz, orderly_sampleZone (toOption_eq_some hz), hlookup, hrecords⟩

end Acidns.Authoritative
