import Mathlib.Data.Finset.Basic
import Acidns.Dnssec.Canonical
import Acidns.Wire.Record

/-!
# Zones signed with NSEC

What a signed zone says: its owner names with the types that each has, and the NSEC records, which link
the names the zone has authority over to a circle in canonical order.

A name exists in the zone if it or a name below it is an owner. Below a delegation point other servers
answer, and below the owner of a `DNAME` all names are redirected, so the zone itself denies nothing there.
-/

namespace Acidns

/-- A zone as its operator has it: owners and the types at each. -/
structure SignedZone where
  apex : Name
  owners : Finset Name
  types : Name → Finset RRType
  apex_mem : apex ∈ owners
  below : ∀ n ∈ owners, apex.Encloses n
  soa : ∀ n ∈ owners, .soa ∈ types n ↔ n = apex

namespace SignedZone

variable {z : SignedZone} {d e n q owner : Name} {nsec : NSEC}

/-- The names below `d` are not for the zone to deny: they are delegated or redirected. -/
def Occludes (z : SignedZone) (d : Name) : Prop :=
  d ∈ z.owners ∧ (d ≠ z.apex ∧ .ns ∈ z.types d ∨ .dname ∈ z.types d)

/-- The owner is not below a cut. -/
def Authoritative (z : SignedZone) (n : Name) : Prop := n ∈ z.owners ∧ ∀ d, z.Occludes d → d.Encloses n → d = n

/-- The owner is a cut. -/
def Delegation (z : SignedZone) (d : Name) : Prop := z.Authoritative d ∧ d ≠ z.apex ∧ .ns ∈ z.types d

/-- The name owns records or has a descendant that does. -/
def Exists (z : SignedZone) (n : Name) : Prop := ∃ m ∈ z.owners, n.Encloses m

/-- The zone itself answers for `q`, and `q` does not exist in it. -/
def Absent (z : SignedZone) (q : Name) : Prop := ¬z.Exists q ∧ ∀ d, z.Occludes d → ¬d.Encloses q

/-- The deepest existing ancestor. -/
def ClosestEncloser (z : SignedZone) (e q : Name) : Prop :=
  e.Encloses q ∧ z.Exists e ∧ ∀ n, n.Encloses q → z.Exists n → n.Encloses e

def IsWildcard (e w : Name) : Prop := w.isValid = true ∧ w.labels = [0x2a] :: e.labels

/-- `q` does not exist, and there is no wildcard from which it would be answered. -/
def NameError (z : SignedZone) (q : Name) : Prop :=
  z.Absent q ∧ ∀ e w, z.ClosestEncloser e q → IsWildcard e w → ¬z.Exists w

/-! ### The chain -/

def paths (z : SignedZone) : Set (List Bytes) := collectLabels '' {n | z.Authoritative n}

/-- The NSEC record at `owner`: the name that follows, and the types that the owner has. -/
structure IsNSEC (z : SignedZone) (owner : Name) (nsec : NSEC) : Prop where
  signed : z.Authoritative owner
  next : z.Authoritative nsec.next
  link : Chain.Link z.paths (collectLabels owner) (collectLabels nsec.next)
  types : ∀ t, t ∈ nsec.types ↔ t ∈ z.types owner

theorem isValid_of_mem (h : n ∈ z.owners) : n.isValid = true := (z.below n h).2.1

theorem Delegation.occludes (h : z.Delegation d) : z.Occludes d := ⟨h.1.1, .inl h.2⟩

theorem Occludes.exists_authoritative (h : z.Occludes d) (hdn : d.Encloses n) :
    ∃ d', z.Occludes d' ∧ z.Authoritative d' ∧ d'.Encloses n := by
  -- by induction on the depth of the occluding name: if it is occluded, go up
  induction hdepth : d.numLabels using Nat.strong_induction_on generalizing d with
  | h depth ih =>
    by_cases hauth : z.Authoritative d
    · exact ⟨d, h, hauth, hdn⟩
    · have habove : ∃ d', z.Occludes d' ∧ d'.Encloses d ∧ d' ≠ d := by
        by_contra hnone
        exact hauth ⟨h.1, fun d' hd' hle => by_contra fun hne => hnone ⟨d', hd', hle, hne⟩⟩
      obtain ⟨d', hd', hle, hne⟩ := habove
      exact ih d'.numLabels (hdepth ▸ hle.numLabels_lt hne.symm) hd' (hle.trans hdn) rfl

theorem Authoritative.mem_paths (h : z.Authoritative n) : collectLabels n ∈ z.paths := ⟨n, h, rfl⟩

theorem Occludes.leaf (h : z.Occludes d) : ∀ x ∈ z.paths, collectLabels d <+: x → x = collectLabels d := by
  grind [Name.encloses_iff_collectLabels, isValid_of_mem, Occludes, paths, Authoritative]

theorem reaches_iff (hn : n.isValid) : Chain.Reaches z.paths (collectLabels n) ↔ ∃ m, z.Authoritative m ∧ n.Encloses m := by
  grind [Name.encloses_iff_collectLabels, isValid_of_mem, Chain.Reaches, paths, Authoritative]

theorem exists_iff_reaches (hn : n.isValid) (hocc : ∀ d, z.Occludes d → ¬d.Encloses n) :
    z.Exists n ↔ Chain.Reaches z.paths (collectLabels n) := by
  rw [reaches_iff hn]
  constructor
  · rintro ⟨m, hm, hnm⟩
    by_cases hauth : z.Authoritative m
    · exact ⟨m, hauth, hnm⟩
    · have habove : ∃ d, z.Occludes d ∧ d.Encloses m := by
        by_contra hnone
        exact hauth ⟨hm, fun d hd hdm => absurd ⟨d, hd, hdm⟩ hnone⟩
      obtain ⟨d, hd, hdm⟩ := habove
      obtain ⟨d', hd', hauth', hdm'⟩ := hd.exists_authoritative hdm
      rcases hnm.total hdm' with hnd | hdn
      · exact ⟨d', hauth', hnd⟩
      · exact absurd hdn (hocc d' hd')
  · rintro ⟨m, hm, hnm⟩
    exact ⟨m, hm.1, hnm⟩

theorem authoritative_of_not_occludes (h : ∀ d ∈ z.owners, ¬z.Occludes d) (hn : n ∈ z.owners) : z.Authoritative n :=
  ⟨hn, fun d hd _ => absurd hd (h d hd.1)⟩

theorem isNSEC_of_gap (howner : z.Authoritative owner) (hnext : z.Authoritative nsec.next)
    (hgap : ∀ n ∈ z.owners, nameCoveredBy n owner nsec.next = false) (htypes : ∀ t, t ∈ nsec.types ↔ t ∈ z.types owner) :
    z.IsNSEC owner nsec := by
  refine ⟨howner, hnext, ⟨howner.mem_paths, hnext.mem_paths, ?_⟩, htypes⟩
  rintro x ⟨n, hn, rfl⟩ hcovers
  exact absurd (nameCoveredBy_iff.mpr hcovers) (Bool.eq_false_iff.mp (hgap n hn.1))

/-! ### What a covering record denies -/

/-- `owner` is not above `q` as a delegation or as a redirection, and the next name is not below `q`. -/
def Denies (owner : Name) (nsec : NSEC) (q : Name) : Prop :=
  ¬q.Encloses nsec.next ∧
    ¬(owner.Encloses q ∧ (.ns ∈ nsec.types ∧ .soa ∉ nsec.types ∨ .dname ∈ nsec.types))

section

variable (h : z.IsNSEC owner nsec)

include h

theorem IsNSEC.occludes_iff :
    z.Occludes owner ↔ .ns ∈ nsec.types ∧ .soa ∉ nsec.types ∨ .dname ∈ nsec.types := by
  have hmem := h.signed.1
  rw [h.types, h.types, h.types, z.soa owner hmem, Occludes]
  tauto

section

variable (hcov : nameCoveredBy q owner nsec.next)

include hcov

theorem IsNSEC.occludes_owner (hd : z.Occludes d) (hdq : d.Encloses q) : z.Occludes owner ∧ owner.Encloses q := by
  obtain ⟨d', hd', hauth, hdq'⟩ := hd.exists_authoritative hdq
  have hpath : collectLabels owner = collectLabels d' :=
    h.link.owner_eq_of_leaf (nameCoveredBy_iff.mp hcov) hauth.mem_paths hd'.leaf hdq'.collectLabels
  rw [Name.collectLabels_injective (isValid_of_mem h.signed.1) (isValid_of_mem hd'.1) hpath]
  exact ⟨hd', hdq'⟩

theorem IsNSEC.exists_iff (hocc : ∀ d, z.Occludes d → ¬d.Encloses q) (hnq : n.Encloses q) :
    z.Exists n ↔ n.Encloses owner ∨ n.Encloses nsec.next := by
  rw [exists_iff_reaches hnq.1 fun d hd hdn => hocc d hd (hdn.trans hnq),
    h.link.reaches_iff (nameCoveredBy_iff.mp hcov) hnq.collectLabels,
    Name.encloses_iff_collectLabels hnq.1 (isValid_of_mem h.signed.1),
    Name.encloses_iff_collectLabels hnq.1 (isValid_of_mem h.next.1)]

theorem IsNSEC.exists_self_iff (hq : q.isValid)
    (hocc : ∀ d, z.Occludes d → ¬d.Encloses q) : z.Exists q ↔ q.Encloses nsec.next := by
  rw [exists_iff_reaches hq hocc, h.link.reaches_self_iff (nameCoveredBy_iff.mp hcov),
    Name.encloses_iff_collectLabels hq (isValid_of_mem h.next.1)]

theorem IsNSEC.denies_iff (hq : q.isValid) : Denies owner nsec q ↔ z.Absent q := by
  constructor
  · rintro ⟨hnext, htypes⟩
    have hocc : ∀ d, z.Occludes d → ¬d.Encloses q := by
      intro d hd hdq
      obtain ⟨hoccludes, habove⟩ := h.occludes_owner hcov hd hdq
      exact htypes ⟨habove, h.occludes_iff.mp hoccludes⟩
    exact ⟨fun hexists => hnext ((h.exists_self_iff hcov hq hocc).mp hexists), hocc⟩
  · rintro ⟨hexists, hocc⟩
    refine ⟨fun hnext => hexists ⟨nsec.next, h.next.1, hnext⟩, ?_⟩
    rintro ⟨habove, htypes⟩
    exact hocc owner (h.occludes_iff.mpr htypes) habove

theorem IsNSEC.closestEncloser (hq : q.isValid)
    (habsent : z.Absent q) : z.ClosestEncloser (deeperAncestor q owner nsec.next) q := by
  have howner := isValid_of_mem h.signed.1
  have hnext := isValid_of_mem h.next.1
  have habove := encloses_deeperAncestor hq owner nsec.next
  have hiff : ∀ n, n.Encloses q → (z.Exists n ↔ n.Encloses (deeperAncestor q owner nsec.next)) := by
    intro n hnq
    rw [h.exists_iff hcov habsent.2 hnq, encloses_deeperAncestor_iff hq howner hnext hnq]
  refine ⟨habove, (hiff _ habove).mpr (.refl habove.1), ?_⟩
  intro n hnq hexists
  exact (hiff n hnq).mp hexists

end

end
theorem ClosestEncloser.unique {e' : Name} (h : z.ClosestEncloser e q) (h' : z.ClosestEncloser e' q) : e = e' :=
  (h'.2.2 e h.1 h.2.1).antisymm (h.2.2 e' h'.1 h'.2.1)

theorem IsWildcard.unique {w w' : Name} (h : IsWildcard e w) (h' : IsWildcard e w') : w = w' :=
  Name.ext_of_labels h.1 h'.1 (h.2.trans h'.2.symm)

theorem IsWildcard.encloses_self {w : Name} (h : IsWildcard e w) (he : e.isValid) : e.Encloses w :=
  ⟨he, h.1, h.2 ▸ List.suffix_cons _ _⟩

theorem IsWildcard.encloses {w : Name} (h : IsWildcard e w) (he : e.isValid) (hd : d.Encloses w) (hne : d ≠ w) :
    d.Encloses e := by
  have hsuffix := hd.2.2
  rw [h.2, List.suffix_cons_iff] at hsuffix
  rcases hsuffix with heq | hsuffix
  · exact absurd (Name.ext_of_labels hd.1 h.1 (heq.trans h.2.symm)) hne
  · exact ⟨hd.1, he, hsuffix⟩

end SignedZone

/-! ### Trees of zones -/

/-- Zones that fit together at their cuts. -/
structure ZoneTree where
  zones : Set SignedZone
  cut : ∀ z ∈ zones, ∀ c ∈ zones, z ≠ c → z.apex.Encloses c.apex → ∃ d, z.Delegation d ∧ d.Encloses c.apex

/-- The zone that answers for the name. -/
def ZoneTree.Authority (tree : ZoneTree) (z : SignedZone) (n : Name) : Prop :=
  z ∈ tree.zones ∧ z.apex.Encloses n ∧ ∀ d, z.Delegation d → ¬d.Encloses n

end Acidns
