import Acidns.Authoritative.Update

/-!
# Prerequisites of an update

`evaluatePrereqs` of `authoritative/update.go` refuses a prerequisite of class ANY or NONE at once and gathers those of
class IN into sets, which it compares with the zone at the end. The verdict is that of a condition on the list as a
whole, in which the order of the prerequisites has no part.
-/

namespace Acidns.Authoritative

variable {z : ZoneIndex} {p : Record} {prereqs : List Record} {want : Wanted} {k : Bytes × RRType} {b : Bytes}

def ZoneIndex.HasPrereq (z : ZoneIndex) (p : Record) : Prop :=
  if p.type = .any then z.hasName p.name else z.hasType p.name p.type

/-- The zone is as the prerequisite asks. -/
structure ZoneIndex.Meets (z : ZoneIndex) (p : Record) : Prop where
  ttl : p.ttl = 0
  class_ : p.class_ = RRClass.classANY ∨ p.class_ = RRClass.classNONE ∨ p.class_ = RRClass.classIN
  empty : p.class_ ≠ RRClass.classIN → p.rd.packed = []
  present : p.class_ = RRClass.classANY → z.HasPrereq p
  absent : p.class_ = RRClass.classNONE → ¬z.HasPrereq p

/-- The prerequisite asks for the rdata `b` among the records under the key. -/
def AsksFor (k : Bytes × RRType) (b : Bytes) (p : Record) : Prop :=
  p.class_ = RRClass.classIN ∧ (nameKey p.name, p.type) = k ∧ p.rd.packed = b

def addWanted (want : Wanted) (p : Record) : Wanted :=
  if p.class_ = RRClass.classIN then
    want.insert (nameKey p.name, p.type) (insert p.rd.packed ((want.lookup (nameKey p.name, p.type)).getD ∅))
  else want

theorem classes_ne : RRClass.classANY ≠ RRClass.classIN ∧ RRClass.classNONE ≠ RRClass.classIN ∧
    RRClass.classANY ≠ RRClass.classNONE := by
  decide

theorem ZoneIndex.meets_iff : z.Meets p ↔ p.ttl = 0 ∧
    (p.class_ = RRClass.classANY ∧ hasRData p = false ∧ z.HasPrereq p ∨
      p.class_ = RRClass.classNONE ∧ hasRData p = false ∧ ¬z.HasPrereq p ∨ p.class_ = RRClass.classIN) := by
  have hdata : hasRData p = false ↔ p.rd.packed = [] := by simp [hasRData]
  obtain ⟨hany, hnone, hne⟩ := classes_ne
  constructor
  · rintro ⟨httl, hclass, hempty, hpresent, habsent⟩
    grind
  · rintro ⟨httl, hclass⟩
    constructor <;> grind

theorem scanPrereqs_cons_ok {w : Wanted} : scanPrereqs z (p :: prereqs) want = .ok w ↔
    z.Meets p ∧ scanPrereqs z prereqs (addWanted want p) = .ok w := by
  obtain ⟨hany, hnone, hne⟩ := classes_ne
  rw [ZoneIndex.meets_iff, scanPrereqs, addWanted, ZoneIndex.HasPrereq]
  split_ifs <;> simp_all

theorem scanPrereqs_ok {w : Wanted} : scanPrereqs z prereqs want = .ok w ↔
    (∀ p ∈ prereqs, z.Meets p) ∧ prereqs.foldl addWanted want = w := by
  induction prereqs generalizing want with
  | nil => simp [scanPrereqs]
  | cons p prereqs ih => rw [scanPrereqs_cons_ok, ih, List.forall_mem_cons, List.foldl_cons, and_assoc]

/-! ### The sets -/

theorem mem_addWanted : b ∈ ((addWanted want p).lookup k).getD ∅ ↔ b ∈ (want.lookup k).getD ∅ ∨ AsksFor k b p := by
  grind [addWanted, AsksFor, Table.lookup_insert_eq]

theorem mem_foldl_addWanted : b ∈ ((prereqs.foldl addWanted want).lookup k).getD ∅ ↔
    b ∈ (want.lookup k).getD ∅ ∨ ∃ p ∈ prereqs, AsksFor k b p := by
  induction prereqs generalizing want with
  | nil => simp
  | cons p prereqs ih => rw [List.foldl_cons, ih, mem_addWanted, List.exists_mem_cons_iff, or_assoc]

def Wanted.Filled (want : Wanted) : Prop := ∀ k set, want.lookup k = some set → set.Nonempty

theorem Wanted.Filled.addWanted (h : want.Filled) (p : Record) : (addWanted want p).Filled := by
  grind [addWanted, Table.lookup_insert_eq, Finset.insert_nonempty, Filled]

theorem Wanted.Filled.foldl (h : want.Filled) : (prereqs.foldl Authoritative.addWanted want).Filled := by
  induction prereqs generalizing want with
  | nil => exact h
  | cons p prereqs ih => exact ih (h.addWanted p)

theorem hasWanted_iff {set : Finset Bytes} (hset : set.Nonempty) : hasWanted z k set ↔
    ∀ b, b ∈ set ↔ ∃ r ∈ (z.byName.lookup k.1).getD [], r.type = k.2 ∧ r.rd.packed = b := by
  unfold hasWanted
  split
  · grind
  · next recs hrecs =>
    rw [hrecs, decide_eq_true_iff, Option.getD_some]
    have hgot (b : Bytes) : b ∈ ((recs.filter fun r => r.type = k.2).map fun r => r.rd.packed).toFinset ↔
        ∃ r ∈ recs, r.type = k.2 ∧ r.rd.packed = b := by simp [and_assoc]
    constructor
    · rintro ⟨hcard, hsub⟩ b
      rw [← hgot, Finset.eq_of_subset_of_card_le hsub (Nat.le_of_eq hcard)]
    · intro h
      have heq : set = _ := Finset.ext fun b => (h b).trans (hgot b).symm
      exact ⟨by rw [← heq], fun v hv => (hgot v).mpr ((h v).mp hv)⟩

/-- The sets asked for are those of the zone. -/
theorem hasWanted_all_iff : ((prereqs.foldl addWanted ∅).entries.all fun e => hasWanted z e.1 e.2) = true ↔
    ∀ p ∈ prereqs, p.class_ = RRClass.classIN → ∀ b, (∃ p' ∈ prereqs, AsksFor (nameKey p.name, p.type) b p') ↔
      ∃ r ∈ z.recordsAt p.name, r.type = p.type ∧ r.rd.packed = b := by
  have hfilled : (prereqs.foldl addWanted ∅).Filled := Wanted.Filled.foldl fun k set h => by cases h
  have hmem {k : Bytes × RRType} {set : Finset Bytes} (hset : (prereqs.foldl addWanted ∅).lookup k = some set) (b : Bytes) :
      b ∈ set ↔ ∃ p ∈ prereqs, AsksFor k b p := by
    have h := @mem_foldl_addWanted prereqs ∅ k b
    rw [hset] at h
    exact h.trans (or_iff_right (Finset.notMem_empty b))
  rw [List.all_eq_true]
  constructor
  · intro hall p hp hclass b
    have hasks : ∃ p' ∈ prereqs, AsksFor (nameKey p.name, p.type) p.rd.packed p' := ⟨p, hp, hclass, rfl, rfl⟩
    cases hset : (prereqs.foldl addWanted ∅).lookup (nameKey p.name, p.type) with
    | none =>
      have h := (@mem_foldl_addWanted prereqs ∅ _ _).mpr (.inr hasks)
      rw [hset] at h
      cases h
    | some set =>
      rw [← hmem hset]
      exact (hasWanted_iff (hfilled _ _ hset)).mp (hall ⟨_, set⟩ (AList.mem_lookup_iff.mp hset)) b
  · rintro h ⟨k, set⟩ hentry
    have hset := AList.mem_lookup_iff.mpr hentry
    obtain ⟨b, hb⟩ := hfilled k set hset
    obtain ⟨p, hp, hclass, rfl, -⟩ := (hmem hset b).mp hb
    exact (hasWanted_iff ⟨b, hb⟩).mpr fun b' => (hmem hset b').trans (h p hp hclass b')

theorem scanPrereqs_error {rcode : RCODE} (h : scanPrereqs z prereqs want = .error rcode) : rcode ≠ .noError := by
  rintro rfl
  induction prereqs generalizing want with
  | nil => cases h
  | cons p prereqs ih =>
    rw [scanPrereqs] at h
    split_ifs at h <;> first | exact ih h | cases h

/-- The prerequisites are met exactly if each by itself is and, for each of class IN, the rdata asked for under its name
and type are those of the zone. The order has no part in it. -/
theorem evaluatePrereqs_noError_iff (z : ZoneIndex) (prereqs : List Record) :
    (evaluatePrereqs z prereqs = .noError ↔ (∀ p ∈ prereqs, z.Meets p) ∧
      ∀ p ∈ prereqs, p.class_ = RRClass.classIN → ∀ b, (∃ p' ∈ prereqs, AsksFor (nameKey p.name, p.type) b p') ↔
        ∃ r ∈ z.recordsAt p.name, r.type = p.type ∧ r.rd.packed = b) ∧
    ∀ shuffled, shuffled.Perm prereqs →
      (evaluatePrereqs z shuffled = .noError ↔ evaluatePrereqs z prereqs = .noError) := by
  have hiff (ps : List Record) : evaluatePrereqs z ps = .noError ↔ (∀ p ∈ ps, z.Meets p) ∧
      ∀ p ∈ ps, p.class_ = RRClass.classIN → ∀ b, (∃ p' ∈ ps, AsksFor (nameKey p.name, p.type) b p') ↔
        ∃ r ∈ z.recordsAt p.name, r.type = p.type ∧ r.rd.packed = b := by
    rw [evaluatePrereqs, ← hasWanted_all_iff]
    cases hscan : scanPrereqs z ps ∅ with
    | error rcode =>
      refine iff_of_false (scanPrereqs_error hscan) fun h => ?_
      rw [scanPrereqs_ok.mpr ⟨h.1, rfl⟩] at hscan
      cases hscan
    | ok want =>
      obtain ⟨hmeets, rfl⟩ := scanPrereqs_ok.mp hscan
      rw [and_iff_right hmeets]
      have hne : RCODE.nxRRSet ≠ .noError := by decide
      simp only [ite_eq_left_iff, hne, imp_false, not_not]
  refine ⟨hiff prereqs, fun shuffled hperm => ?_⟩
  rw [hiff, hiff]
  simp only [hperm.mem_iff]

end Acidns.Authoritative
