import Acidns.Authoritative.Invariant

/-!
# The serial of a zone under dynamic update

A request that has an effect moves the serial of the apex SOA by one, as long as the update section
does not itself bring an SOA for the apex and the SOA is one that `NewSOA` builds again.
-/

namespace Acidns.Authoritative

open List

variable {cfg : Config} {q : Message} {rcode : RCODE}

namespace ZoneIndex

variable {z : ZoneIndex} {updates : List Record}

/-- `NewSOA` accepts the SOA of the zone, whatever its serial. -/
def Renewable (z : ZoneIndex) : Prop := ∀ soa, z.soaRec.asSOA = some soa → (bumpedSOA soa).isOk = true

theorem isOk_bumpedSOA_serial (soa : SOA) (serial : UInt32) :
    (bumpedSOA { soa with serial := serial }).isOk = (bumpedSOA soa).isOk := by
  unfold bumpedSOA newSOA
  simp only [bind, Except.bind, pure, Except.pure]
  repeat' split
  all_goals first | rfl | simp_all

structure Serialized (z : ZoneIndex) : Prop extends Apex z where
  dense : z.Dense
  renewable : z.Renewable

/-- The update adds no SOA at the apex. -/
def LeavesSOA (origin : Name) (u : Record) : Prop :=
  u.class_ = RRClass.classANY ∨ u.class_ = RRClass.classNONE ∨ (u.type = .soa → u.name ≠ origin)

theorem Applies.soaRec {u : Record} {out : ZoneIndex × Bool} (h : Applies z u out) (hu : LeavesSOA z.origin u) :
    out.1.soaRec = z.soaRec := by
  cases h with
  | nothing => rfl
  | delete => exact soaRec_keep _ _ _
  | replace hadd hname htype => exact absurd hname ((hu.resolve_left hadd.1).resolve_left hadd.2 htype)
  | add => rfl

theorem soaRec_applyUpdates (hz : z.Dense) (hupdates : ∀ u ∈ updates, LeavesSOA z.origin u) :
    (z.applyUpdates updates).1.soaRec = z.soaRec := by
  have h := @applyUpdates_induct z (fun z' => z'.Dense ∧ z'.origin = z.origin ∧ z'.soaRec = z.soaRec)
    updates (fun _ h => h.1) (fun z' u hu h => ?_) ⟨hz, rfl, rfl⟩
  · exact h.1.2.2
  · have happlies := applies_applyUpdate h.1 u
    exact ⟨happlies.dense h.1, happlies.origin.trans h.2.1,
      (happlies.soaRec (h.2.1.symm ▸ hupdates u hu)).trans h.2.2⟩

theorem Apex.applyUpdates (hz : z.Apex) (hdense : z.Dense)
    (hupdates : ∀ u ∈ updates, z.origin.Encloses u.name ∧ LeavesSOA z.origin u) : (z.applyUpdates updates).1.Apex := by
  have h := @applyUpdates_induct z (fun z' => z'.Apex ∧ z'.Dense ∧ z'.origin = z.origin)
    updates (fun _ h => h.2.1) (fun z' u hu h => ?_) ⟨hz, hdense, rfl⟩
  · exact h.1.1
  · obtain ⟨hbelow, hleaves⟩ := hupdates u hu
    rw [← h.2.2] at hbelow hleaves
    have happlies := applies_applyUpdate h.2.1 u
    refine ⟨h.1.applies happlies hbelow ?_, happlies.dense h.2.1, happlies.origin.trans h.2.2⟩
    exact hleaves.imp_right fun hl => hl.imp_right fun hl htype hname => absurd hname (hl htype)

theorem Serialized.applyUpdates (hz : z.Serialized)
    (hupdates : ∀ u ∈ updates, z.origin.Encloses u.name ∧ LeavesSOA z.origin u) :
    (z.applyUpdates updates).1.Serialized := by
  refine ⟨hz.toApex.applyUpdates hz.dense hupdates, (origin_applyUpdates hz.dense updates).1, fun soa hsoa => ?_⟩
  rw [soaRec_applyUpdates hz.dense fun u hu => (hupdates u hu).2] at hsoa
  exact hz.renewable soa hsoa

theorem Serialized.bumpSOA (hz : z.Serialized) {old : UInt32} (hold : z.serial = some old) :
    z.bumpSOA.Serialized ∧ z.bumpSOA.serial = some (old + 1) := by
  obtain ⟨soa, hsoa, rfl⟩ := Option.map_eq_some_iff.mp hold
  have hrenew := hz.renewable soa hsoa
  rcases bumpSOA_cases z with ⟨-, hfails⟩ | ⟨soa', hsoa', hbump⟩
  · rw [hfails soa hsoa] at hrenew
    cases hrenew
  cases hsoa.symm.trans hsoa'
  refine ⟨⟨hz.toApex.bumpSOA, ?_, ?_⟩, ?_⟩
  · rw [hbump]
    exact hz.dense.insert (replaceSOA_ne_nil _ _)
  · intro soa' hsoa'
    rw [hbump] at hsoa'
    cases hsoa'
    exact (isOk_bumpedSOA_serial soa _).trans hrenew
  · rw [hbump]
    rfl

theorem Serialized.rebuildNamesExist (hz : z.Serialized) : z.rebuildNamesExist.Serialized :=
  ⟨⟨hz.valid, hz.owner, hz.real, hz.single⟩, hz.dense, hz.renewable⟩

theorem Serialized.update (hz : z.Serialized)
    (hupdates : ∀ u ∈ updates, z.origin.Encloses u.name ∧ LeavesSOA z.origin u) {old : UInt32} (hold : z.serial = some old) :
    (z.update updates).1.Serialized ∧ (z.applyUpdates updates).1.serial = some old ∧
      ((z.update updates).2 = false → (z.update updates).1 = z) ∧
      ((z.update updates).2 = true → (z.update updates).1.serial = some (old + 1)) := by
  have happlied := hz.applyUpdates hupdates
  have hserial : (z.applyUpdates updates).1.serial = some old := by
    rw [serial, soaRec_applyUpdates hz.dense fun u hu => (hupdates u hu).2]
    exact hold
  unfold ZoneIndex.update
  cases hchanged : (z.applyUpdates updates).2 with
  | false =>
    simp only [hchanged]
    exact ⟨happlied, hserial, fun _ => applyUpdates_unchanged hz.dense hchanged, nofun⟩
  | true =>
    simp only [hchanged, if_true]
    obtain ⟨hbumped, hnext⟩ := happlied.bumpSOA hserial
    exact ⟨hbumped.rebuildNamesExist, hserial, nofun, fun _ => hnext⟩

end ZoneIndex

open ZoneIndex

/-! ### Runs -/

end Acidns.Authoritative
