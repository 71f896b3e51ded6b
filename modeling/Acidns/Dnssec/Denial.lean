import Acidns.Dnssec.SignedZone
import Acidns.Dnssec.Walker

/-!
# What the denial checks prove

The zone is honest and its keys verify no other NSEC records than its own, while the authority section may
hold any of them. A record that covers a name proves the name absent unless it is one of the exceptions of
`Denies`, which the checks do not look at; what they accept is right exactly if none of them is at hand.
-/

namespace Acidns

open List

open SignedZone (Denies IsWildcard)

namespace Walker

variable {w : Walker} {keys : List DNSKEY} {z : SignedZone} {msg : Message} {q : Name}

/-- The keys verify no NSEC records but those of the zone. -/
def Genuine (w : Walker) (keys : List DNSKEY) (z : SignedZone) : Prop :=
  ∀ set, w.Verified keys set → ∀ r ∈ set, r.type = .nsec → ∃ nsec, asNSEC r = some nsec ∧ z.IsNSEC r.name nsec

/-- The NSEC records of a section, with their owners. -/
def nsecs (authority : List Record) : List (Name × NSEC) := authority.filterMap fun r => (asNSEC r).map (r.name, ·)

theorem mem_nsecs {authority : List Record} {owner : Name} {nsec : NSEC} :
    (owner, nsec) ∈ nsecs authority ↔ ∃ r ∈ authority, asNSEC r = some nsec ∧ r.name = owner := by
  simp [nsecs]

theorem type_of_asNSEC {r : Record} {nsec : NSEC} (h : asNSEC r = some nsec) : r.type = .nsec := by
  grind [asNSEC, Record.type, RData.type]

theorem Genuine.isNSEC (hgen : w.Genuine keys z)
    (h : w.verifyGroups .nsec msg.authorities keys (groupRecordsByOwner (allNSEC msg.authorities)) = .ok ()) :
    ∀ owner nsec, (owner, nsec) ∈ nsecs msg.authorities → z.IsNSEC owner nsec := by
  intro owner nsec hmem
  obtain ⟨r, hr, hasNSEC, rfl⟩ := mem_nsecs.mp hmem
  have htype := type_of_asNSEC hasNSEC
  have hall : r ∈ allNSEC msg.authorities := mem_filter.mpr ⟨hr, decide_eq_true htype⟩
  obtain ⟨set, hset, hrset⟩ := mem_groupRecordsByOwner hall
  obtain ⟨nsec', hasNSEC', hzone⟩ := hgen set (verified_of_verifyGroups h set hset) r hrset htype
  cases hasNSEC.symm.trans hasNSEC'
  exact hzone

theorem mem_of_coveringNext {owner next : Name}
    (h : (allNSEC msg.authorities).findSome? (coveringNext q) = some (owner, next)) :
    ∃ nsec, (owner, nsec) ∈ nsecs msg.authorities ∧ nsec.next = next ∧ nameCoveredBy q owner nsec.next := by
  obtain ⟨r, hr, hcover⟩ := exists_of_findSome?_eq_some h
  unfold coveringNext at hcover
  split at hcover
  · cases hcover
  · next nsec hasNSEC =>
    split at hcover
    · next hcovered =>
      cases hcover
      exact ⟨nsec, mem_nsecs.mpr ⟨r, (mem_filter.mp hr).1, hasNSEC, rfl⟩, rfl, hcovered⟩
    · cases hcover

theorem mem_of_denyWildcard {wildcard encloser : Name} {records : List Record}
    (h : denyWildcard wildcard encloser records = .ok ()) :
    ∃ owner nsec, (owner, nsec) ∈ nsecs records ∧ nameCoveredBy wildcard owner nsec.next := by
  induction records with
  | nil => cases h
  | cons r records ih => grind [nsecs, denyWildcard]

/-! ### A zone with an empty non-terminal -/

namespace Sample

def nameA : Name := Name.Short.a
def star : Name := Name.Short.starA
def nameBA : Name := Name.Short.ba
def starBA : Name := Name.Short.starBA
def nameCBA : Name := Name.Short.cba
def nameDBA : Name := Name.Short.dba
def nameDA : Name := Name.Short.da

def typesOf (n : Name) : List RRType := if n = nameA then [.ns, .soa] else if n = star then [.txt] else [.a]

/-- `a.`, `*.a.` and `c.b.a.`, so `b.a.` exists without being an owner. -/
def zone : SignedZone where
  apex := nameA
  owners := {nameA, star, nameCBA}
  types n := (typesOf n).toFinset
  apex_mem := by decide
  below := by decide
  soa := by decide

def nsecAt (owner next : Name) : Record := newRecord owner 0 (.nsec ⟨next, typesOf owner⟩)

def chain : List Record := [nsecAt nameA star, nsecAt star nameCBA, nsecAt nameCBA nameA]

def key : DNSKEY := ⟨256, 3, 8, []⟩

def sig : RRSIG := ⟨.nsec, 8, 1, 0, 0, 0, keyTag key, nameA, []⟩

def walker : Walker where
  verify set _ _ := if set ⊆ chain then .ok () else .error "signature mismatch"
  sha1 := id
  now := 0
  skew := 0
  maxRRSIGsTry := 1

def message (authorities : List Record) : Message :=
  ⟨0, 0, [], [], authorities ++ [newRecord nameA 0 (.rrsig sig)], [], none⟩

theorem not_occludes : ∀ d ∈ zone.owners, ¬zone.Occludes d := by
  unfold SignedZone.Occludes
  decide

theorem isNSEC_chain : ∀ r ∈ chain, ∃ nsec, asNSEC r = some nsec ∧ zone.IsNSEC r.name nsec := by
  have hauth : ∀ n ∈ zone.owners, zone.Authoritative n := fun n => SignedZone.authoritative_of_not_occludes not_occludes
  have htypes : ∀ n t, t ∈ typesOf n ↔ t ∈ zone.types n := fun n t => mem_toFinset.symm
  have hlink : ∀ owner next, owner ∈ zone.owners → next ∈ zone.owners →
      (∀ n ∈ zone.owners, nameCoveredBy n owner next = false) → zone.IsNSEC owner ⟨next, typesOf owner⟩ :=
    fun owner next howner hnext hgap =>
      SignedZone.isNSEC_of_gap (hauth owner howner) (hauth next hnext) hgap (htypes owner)
  intro r hr
  rcases mem_cons.mp hr with rfl | hr
  · exact ⟨_, rfl, hlink nameA star (by decide) (by decide) (by decide)⟩
  rcases mem_cons.mp hr with rfl | hr
  · exact ⟨_, rfl, hlink star nameCBA (by decide) (by decide) (by decide)⟩
  obtain rfl := mem_singleton.mp hr
  exact ⟨_, rfl, hlink nameCBA nameA (by decide) (by decide) (by decide)⟩

theorem genuine : walker.Genuine [key] zone := by
  rintro set ⟨sig, key, -, hverify⟩ r hr -
  have hsubset : set ⊆ chain := by
    by_contra hnot
    rw [walker] at hverify
    dsimp only at hverify
    rw [if_neg hnot] at hverify
    cases hverify
  exact isNSEC_chain r (hsubset hr)

end Sample

/-! ### Names that do not exist -/

/-- No record of the section that covers `n` is one of the exceptions. -/
def DeniesAll (records : List (Name × NSEC)) (n : Name) : Prop :=
  ∀ owner nsec, (owner, nsec) ∈ records → nameCoveredBy n owner nsec.next → Denies owner nsec n

/-- No exception is at hand for `q`, nor for the wildcard below its closest encloser. -/
def Conclusive (records : List (Name × NSEC)) (q : Name) : Prop :=
  DeniesAll records q ∧ ∀ owner nsec, (owner, nsec) ∈ records → nameCoveredBy q owner nsec.next →
    ∀ wildcard, IsWildcard (deeperAncestor q owner nsec.next) wildcard → DeniesAll records wildcard

theorem validateNSECNXDomain_ok (h : w.validateNSECNXDomain q keys msg = .ok ()) :
    w.verifyGroups .nsec msg.authorities keys (groupRecordsByOwner (allNSEC msg.authorities)) = .ok () ∧
      ∃ owner nsec, (owner, nsec) ∈ nsecs msg.authorities ∧ nameCoveredBy q owner nsec.next ∧
        ∃ wildcard, IsWildcard (deeperAncestor q owner nsec.next) wildcard ∧
          ∃ owner' nsec', (owner', nsec') ∈ nsecs msg.authorities ∧ nameCoveredBy wildcard owner' nsec'.next := by
  unfold validateNSECNXDomain at h
  dsimp only at h
  split at h; · cases h
  split at h; · cases h
  next hverified =>
  refine ⟨hverified, ?_⟩
  split at h; · cases h
  next owner next hcover =>
  obtain ⟨nsec, hmem, rfl, hcovered⟩ := mem_of_coveringNext hcover
  refine ⟨owner, nsec, hmem, hcovered, ?_⟩
  split at h; · cases h
  next wildcard hwildcard =>
  obtain ⟨owner', nsec', hmem', hcovered'⟩ := mem_of_denyWildcard h
  refine ⟨wildcard, wildcardOf_spec hwildcard, owner', nsec', ?_, hcovered'⟩
  obtain ⟨r, hr, hasNSEC⟩ := mem_nsecs.mp hmem'
  exact mem_nsecs.mpr ⟨r, (mem_filter.mp hr).1, hasNSEC⟩

/-- An accepted denial is right exactly if the section holds none of the exceptions. -/
theorem validateNSECNXDomain_iff (hgen : w.Genuine keys z) (hq : z.apex.Encloses q)
    (h : w.validateNSECNXDomain q keys msg = .ok ()) : z.NameError q ↔ Conclusive (nsecs msg.authorities) q := by
  obtain ⟨hverified, owner, nsec, hmem, hcov, wildcard, hwild, owner', nsec', hmem', hcov'⟩ := validateNSECNXDomain_ok h
  have hzone := hgen.isNSEC hverified
  constructor
  · rintro ⟨habsent, hnone⟩
    refine ⟨fun o ns hns hcovers => ((hzone o ns hns).denies_iff hcovers hq.2.1).mpr habsent, ?_⟩
    intro o ns hns hcovers wildcard hwild o' ns' hns' hcovers'
    have hclosest := (hzone o ns hns).closestEncloser hcovers hq.2.1 habsent
    have hmissing := hnone _ wildcard hclosest hwild
    refine ((hzone o' ns' hns').denies_iff hcovers' hwild.1).mpr ⟨hmissing, ?_⟩
    -- what stands above the wildcard stands above its parent, and so above the name
    intro d hd hdw
    have hne : d ≠ wildcard := by
      rintro rfl
      exact hmissing ⟨d, hd.1, .refl hwild.1⟩
    exact habsent.2 d hd ((hwild.encloses hclosest.1.1 hdw hne).trans hclosest.1)
  · rintro ⟨hname, hwildcards⟩
    have habsent := ((hzone owner nsec hmem).denies_iff hcov hq.2.1).mp (hname owner nsec hmem hcov)
    have hclosest := (hzone owner nsec hmem).closestEncloser hcov hq.2.1 habsent
    have hdenies := hwildcards owner nsec hmem hcov wildcard hwild owner' nsec' hmem' hcov'
    have hmissing := ((hzone owner' nsec' hmem').denies_iff hcov' hwild.1).mp hdenies
    refine ⟨habsent, ?_⟩
    intro e wildcard' hclosest' hwild'
    obtain rfl := hclosest.unique hclosest'
    rw [hwild'.unique hwild]
    exact hmissing.1

open Sample in
theorem validateNSECNXDomain_sample :
    walker.validateNSECNXDomain nameDBA [key] (message chain) = .ok () ∧
      zone.NameError nameDBA := by
  have haccept : walker.validateNSECNXDomain nameDBA [key] (message chain) = .ok () := rfl
  have hdeny : ∀ n ∈ [nameDBA, starBA], ∀ p ∈ nsecs (message chain).authorities,
      nameCoveredBy n p.1 p.2.next → Denies p.1 p.2 n := by
    unfold SignedZone.Denies
    decide
  have hencloser : ∀ p ∈ nsecs (message chain).authorities, nameCoveredBy nameDBA p.1 p.2.next →
      deeperAncestor nameDBA p.1 p.2.next = nameBA := by
    decide
  refine ⟨haccept, (validateNSECNXDomain_iff genuine (by decide) haccept).mpr ⟨?_, ?_⟩⟩
  · exact fun owner nsec hmem => hdeny nameDBA (by decide) (owner, nsec) hmem
  · intro owner nsec hmem hcov wildcard hwild
    rw [hencloser (owner, nsec) hmem hcov] at hwild
    have hstar : IsWildcard nameBA starBA := ⟨by decide, by decide⟩
    rw [hwild.unique hstar]
    exact fun owner nsec hmem => hdeny starBA (by decide) (owner, nsec) hmem

open Sample in
/-- The record from `*.a.` to `c.b.a.` covers `b.a.` and `*.b.a.`, so `b.a.` is denied although a name below it exists.
-/
theorem validateNSECNXDomain_accepts_existing :
    walker.Genuine [key] zone ∧ zone.apex.Encloses nameBA ∧
      walker.validateNSECNXDomain nameBA [key] (message chain) = .ok () ∧
      zone.Exists nameBA ∧ ¬zone.NameError nameBA := by
  have hexists : zone.Exists nameBA := ⟨nameCBA, by decide, by decide⟩
  exact ⟨genuine, by decide, rfl, hexists, fun h => h.1.1 hexists⟩

/-! ### Names expanded from a wildcard -/

theorem isSome_wildcardSynthLabels {sigs : List RRSIG} (h : ∃ sig ∈ sigs, sig.labels.toNat < q.numLabels) :
    ∃ l, wildcardSynthLabels q sigs = some l := by
  have hkeep : ∀ (sigs : List RRSIG) (found : Option Nat),
      (found.isSome ∨ ∃ sig ∈ sigs, sig.labels.toNat < q.numLabels) →
        (sigs.foldl (synthStep q) found).isSome := by
    intro sigs
    induction sigs with
    | nil => exact fun found hfound => hfound.resolve_right (by rintro ⟨sig, hsig, -⟩; cases hsig)
    | cons sig sigs ih => grind [isSome_synthStep_of_isSome, isSome_synthStep_of_lt]
  exact Option.isSome_iff_exists.mp (hkeep sigs none (.inr h))

/-- The wildcard below `e` is the one that answers for `q`: no name further down on the way to `q` exists. -/
def ExpandsFrom (z : SignedZone) (e q : Name) : Prop := ∀ n, e.Encloses n → n ≠ e → n.Encloses q → ¬z.Exists n

theorem validateExpansion_ok {sigs : List RRSIG} (hsigs : ∃ sig ∈ sigs, sig.labels.toNat < q.numLabels)
    (hnsec3 : recordsOfType3 msg.authorities = []) (h : w.validateExpansion q sigs keys msg = .ok ()) :
    w.verifyGroups .nsec msg.authorities keys (groupRecordsByOwner (allNSEC msg.authorities)) = .ok () ∧
      ∃ owner nsec, (owner, nsec) ∈ nsecs msg.authorities ∧ nameCoveredBy q owner nsec.next := by
  obtain ⟨l, hl⟩ := isSome_wildcardSynthLabels hsigs
  rw [validateExpansion, hl] at h
  unfold validateWildcardNextCloser at h
  dsimp only at h
  rw [hnsec3] at h
  split at h; · cases h
  next hsome =>
  split at h
  · split at h; · cases h
    next hverified =>
    split at h
    · next hcover =>
      obtain ⟨⟨owner, next⟩, hcover⟩ := Option.isSome_iff_exists.mp hcover
      obtain ⟨nsec, hmem, rfl, hcovered⟩ := mem_of_coveringNext hcover
      exact ⟨hverified, owner, nsec, hmem, hcovered⟩
    · cases h
  · next hnone => exact absurd ⟨Nat.eq_zero_of_not_pos hnone, rfl⟩ hsome

/-- An accepted expansion is right exactly if the ends of the covering record share no more labels with the name than
the wildcard's parent does. -/
theorem validateExpansion_iff {e star : Name} {sigs : List RRSIG} (hgen : w.Genuine keys z)
    (hstar : z.Authoritative star) (hwild : IsWildcard e star) (hq : e.Encloses q) (hne : q ≠ e)
    (hsigs : ∃ sig ∈ sigs, sig.labels.toNat = e.numLabels) (hnsec3 : recordsOfType3 msg.authorities = [])
    (h : w.validateExpansion q sigs keys msg = .ok ()) :
    ExpandsFrom z e q ↔ ∀ owner nsec, (owner, nsec) ∈ nsecs msg.authorities → nameCoveredBy q owner nsec.next →
      (deeperAncestor q owner nsec.next).numLabels ≤ e.numLabels := by
  have hlt : e.numLabels < q.numLabels := hq.numLabels_lt hne
  have hsigs' : ∃ sig ∈ sigs, sig.labels.toNat < q.numLabels := by
    obtain ⟨sig, hsig, hlabels⟩ := hsigs
    exact ⟨sig, hsig, hlabels ▸ hlt⟩
  obtain ⟨hverified, owner, nsec, hmem, hcov⟩ := validateExpansion_ok hsigs' hnsec3 h
  have hzone := hgen.isNSEC hverified
  constructor
  · intro hnone o ns hns hcovers
    have hends := encloses_deeperAncestor_iff hq.2.1 (SignedZone.isValid_of_mem (hzone o ns hns).signed.1)
      (SignedZone.isValid_of_mem (hzone o ns hns).next.1) (encloses_deeperAncestor hq.2.1 o ns.next)
    have habove := encloses_deeperAncestor hq.2.1 o ns.next
    by_contra hdeeper
    have hbetween := hq.of_numLabels_le habove (Nat.le_of_not_le hdeeper)
    refine hnone _ hbetween ?_ habove ?_
    · intro heq
      exact hdeeper (heq ▸ Nat.le_refl _)
    · rcases hends.mp (.refl habove.1) with hown | hnext
      · exact ⟨o, (hzone o ns hns).signed.1, hown⟩
      · exact ⟨ns.next, (hzone o ns hns).next.1, hnext⟩
  · intro hshallow n hen hne' hnq hexists
    have hle := hshallow owner nsec hmem hcov
    have hends : ∀ m : Name, m.Encloses q →
        (m.Encloses (deeperAncestor q owner nsec.next) ↔ m.Encloses owner ∨ m.Encloses nsec.next) := fun m =>
      encloses_deeperAncestor_iff hq.2.1 (SignedZone.isValid_of_mem (hzone owner nsec hmem).signed.1)
        (SignedZone.isValid_of_mem (hzone owner nsec hmem).next.1)
    have hocc : ∀ d, z.Occludes d → ¬d.Encloses q := by
      intro d hd hdq
      obtain ⟨hoccludes, habove⟩ := (hzone owner nsec hmem).occludes_owner hcov hd hdq
      have hown : owner.Encloses (deeperAncestor q owner nsec.next) := (hends owner habove).mpr (.inl (.refl habove.1))
      have hownle : owner.numLabels ≤ e.numLabels := Nat.le_trans hown.numLabels_le hle
      -- the owner would stand above the wildcard, which the zone signs
      have hstarle : e.Encloses star := hwild.encloses_self hq.1
      have heq := hstar.2 owner hoccludes ((habove.of_numLabels_le hq hownle).trans hstarle)
      rw [heq, Name.numLabels, hwild.2, length_cons] at hownle
      exact Nat.not_succ_le_self _ hownle
    have hboth := (hends n hnq).mpr (((hzone owner nsec hmem).exists_iff hcov hocc hnq).mp hexists)
    exact Nat.not_lt.mpr (Nat.le_trans hboth.numLabels_le hle) (hen.numLabels_lt hne')

open Sample in
theorem validateExpansion_sample :
    walker.validateExpansion nameDA [sig] [key] (message chain) = .ok () ∧
      ExpandsFrom zone nameA nameDA := by
  have haccept :
      walker.validateExpansion nameDA [sig] [key] (message chain) = .ok () := rfl
  have hstar : zone.Authoritative star :=
    SignedZone.authoritative_of_not_occludes not_occludes (by decide)
  have hshallow : ∀ p ∈ nsecs (message chain).authorities, nameCoveredBy nameDA p.1 p.2.next →
      (deeperAncestor nameDA p.1 p.2.next).numLabels ≤ nameA.numLabels := by
    decide
  refine ⟨haccept, (validateExpansion_iff genuine hstar ⟨by decide, by decide⟩ (by decide) (by decide)
    ⟨sig, .head _, by decide⟩ (by decide) haccept).mpr ?_⟩
  exact fun owner nsec hmem => hshallow (owner, nsec) hmem

open Sample in
/-- The record from `c.b.a.` to the apex covers `d.b.a.`: an answer from `*.a.` is accepted, although `b.a.` stands
between. -/
theorem validateExpansion_accepts_shallow :
    walker.Genuine [key] zone ∧ zone.Authoritative star ∧
      IsWildcard nameA star ∧ nameA.Encloses nameDBA ∧
      sig.labels.toNat = nameA.numLabels ∧
      walker.validateExpansion nameDBA [sig] [key] (message chain) = .ok () ∧
      ¬ExpandsFrom zone nameA nameDBA := by
  refine ⟨genuine, SignedZone.authoritative_of_not_occludes not_occludes (by decide),
    ⟨by decide, by decide⟩, by decide, by decide, rfl, fun h => ?_⟩
  exact h nameBA (by decide) (by decide) (by decide) ⟨nameCBA, by decide, by decide⟩

end Walker

end Acidns
