import Mathlib.Order.WellFounded
import Acidns.Authoritative.Lookup

/-!
# Zone cuts and wildcards in a lookup

A name below the origin that has NS records is a zone cut. `lookup` refers to the deepest cut above the name that is
asked for and looks for none above the names that CNAME and DNAME records lead to. In a zone without these, the
answer is the one that the records of the name, the names that exist and the wildcard at the closest encloser give.
-/

namespace Acidns

theorem Name.exists_deepest (P : Name → Prop) {q : Name} (h : ∃ m, P m) (habove : ∀ m, P m → m.Encloses q) :
    ∃ d, P d ∧ ∀ m, P m → m.Encloses d := by
  obtain ⟨d, hd, hmax⟩ := (measure fun m : Name => q.numLabels - m.numLabels).wf.has_min {m | P m} h
  refine ⟨d, hd, fun m hm => (habove m hm).of_numLabels_le (habove d hd) ?_⟩
  have hle : ¬q.numLabels - m.numLabels < q.numLabels - d.numLabels := hmax m hm
  have hmq := (habove m hm).numLabels_le
  omega

namespace Authoritative

namespace ZoneIndex

open List

variable (z : ZoneIndex)

/-- The records of a name and type. -/
def rrset (name : Name) (t : RRType) : List Record := (z.recordsAt name).filter fun r => r.type = t

/-- A zone cut: a name strictly below the origin that owns NS records. -/
def IsCut (c : Name) : Prop := z.origin.Encloses c ∧ c ≠ z.origin ∧ z.rrset c .ns ≠ []

def IsCutAbove (c qname : Name) : Prop := z.IsCut c ∧ c.Encloses qname

instance (c : Name) : Decidable (z.IsCut c) := inferInstanceAs (Decidable (_ ∧ _ ∧ _))

instance (c qname : Name) : Decidable (z.IsCutAbove c qname) := inferInstanceAs (Decidable (_ ∧ _))

/-- The name is at or below a cut. -/
def Covered (name : Name) : Prop := ∃ c, z.IsCutAbove c name

variable {z : ZoneIndex} {qtype : RRType} {qname n m c d : Name} {left chain : Nat} {answer : List Record}

theorem delegationAt_of_ne (hne : n ≠ z.origin) :
    z.delegationAt n = if z.rrset n .ns ≠ [] then some (z.rrset n .ns) else none := by
  rw [delegationAt, if_neg (by rwa [Name.equal_iff])]
  rfl

theorem delegationAt_eq_none (h : z.origin.Encloses n) (hne : n ≠ z.origin) (hcut : ¬z.IsCut n) :
    z.delegationAt n = none := by
  rw [delegationAt_of_ne hne, if_neg fun hns => hcut ⟨h, hne, hns⟩]

theorem findDelegation_of_not_covered (hq : z.origin.Encloses qname) (h : ¬z.Covered qname) :
    z.findDelegation qname = [] := by
  have hat : z.delegationAt z.origin = some [] := by rw [delegationAt, if_pos (by rw [Name.equal_iff])]
  have hclimb : qname.climb z.delegationAt = some [] :=
    (Name.climb_eq_some_iff hq.2.1).mpr ⟨z.origin, hq, hat, fun m hm hle hne =>
      delegationAt_eq_none hle hne fun hcut => h ⟨m, hcut, hm⟩⟩
  rw [findDelegation, hclimb]
  rfl

/-! ### The owners of an answer -/

/-- The zero name has the key of the root, which is below no cut. -/
theorem Covered.congr (hn : z.Covered n) (h : nameKey n = nameKey m) : z.Covered m := by
  obtain ⟨c, ⟨hbelow, hne, hns⟩, hc⟩ := hn
  cases hm : m.isValid with
  | true => exact ⟨c, ⟨hbelow, hne, hns⟩, nameKey_injective hc.2.1 hm h ▸ hc⟩
  | false =>
    have hkey : nameKey m = nameKey .root := by
      rw [nameKey, Name.appendWire, hm]
      rfl
    have hroot : n = .root := nameKey_injective hc.2.1 (by decide) (h.trans hkey)
    have hlabels : c.labels = [] := by
      have hsuffix := hc.2.2
      rwa [hroot, Name.labels_root, suffix_nil] at hsuffix
    refine absurd (Name.ext_of_labels hc.1 hbelow.1 ?_) hne
    have hsuffix := hbelow.2.2
    rw [hlabels, suffix_nil] at hsuffix
    rw [hlabels, hsuffix]

theorem lookup_of_no_delegation (h : z.findDelegation qname = []) :
    z.lookup qname qtype = ⟨(z.lookupAuthoritative qname qtype).1, (z.lookupAuthoritative qname qtype).2.1, [],
      (z.lookupAuthoritative qname qtype).2.2, true⟩ :=
  if_neg (not_not_intro h)

theorem forall_stored {P : Bytes → Record → Prop} (h : ∀ e ∈ z.byName.entries, ∀ r ∈ e.2, P e.1 r) :
    ∀ k, ∀ r ∈ z.stored k, P k r := by
  intro k r hr
  cases hk : z.byName.lookup k with
  | none =>
    rw [stored, hk] at hr
    cases hr
  | some recs =>
    rw [stored, hk] at hr
    exact h ⟨k, recs⟩ (AList.mem_lookup_iff.mp hk) r hr

end ZoneIndex

namespace LookupSample

def ns (owner : Name) : Record := newRecord owner second (.ns .root)

def address (owner : Name) : Record := newRecord owner second (.a ⟨[192, 0, 2, 7], rfl⟩)

open Name.Short

end LookupSample

namespace ZoneIndex

open List

variable {z : ZoneIndex}

end ZoneIndex

theorem type_of_cnameTarget {r : Record} {target : Name} (h : Recursive.cnameTarget r = some target) :
    r.type = .cname := by
  grind [Recursive.cnameTarget, Record.type, RData.type]

theorem type_of_dnameTarget {r : Record} {target : Name} (h : dnameTarget r = some target) : r.type = .dname := by
  grind [dnameTarget, Record.type, RData.type]

namespace ZoneIndex

variable (z : ZoneIndex)

def Plain : Prop :=
  ∀ k, ∀ r ∈ z.stored k, isCNAMEOrDNAME r.type = false ∧ (r.type = .ns → k = nameKey z.origin)

/-- `e` is the longest proper ancestor that exists. -/
structure IsEncloser (qname e : Name) : Prop where
  above : e.Encloses qname ∧ e ≠ qname
  mem : nameKey e ∈ z.namesExist
  longest : ∀ m, m.Encloses qname ∧ m ≠ qname → nameKey m ∈ z.namesExist → m.Encloses e

def positive (recs : List Record) : LookupResult := ⟨recs, [], [], .noError, true⟩

def negative (rcode : RCODE) : LookupResult := ⟨[], [z.soaRec], [], rcode, true⟩

/-- What RFC 1034 asks of an answer, case by case. -/
structure Answers (qname : Name) (qtype : RRType) (res : LookupResult) : Prop where
  exact_ : z.rrset qname qtype ≠ [] → res = positive (z.rrset qname qtype)
  noData : z.rrset qname qtype = [] → nameKey qname ∈ z.namesExist → res = z.negative .noError
  wildcard : nameKey qname ∉ z.namesExist → ∀ e w, z.IsEncloser qname e → wildcardOf e = .ok w →
    (z.rrset w qtype ≠ [] → res = positive (rewriteOwners (z.rrset w qtype) qname)) ∧
    (z.rrset w qtype = [] → nameKey w ∈ z.namesExist → res = z.negative .noError) ∧
    (nameKey w ∉ z.namesExist → res = z.negative .nxDomain)

variable {z : ZoneIndex} {qtype : RRType} {qname n e w : Name}

theorem closestEncloser_eq (hq : qname.isValid) (h : z.IsEncloser qname e) : z.closestEncloser qname = some e := by
  refine (Name.parent_climb_eq_some_iff hq).mpr ⟨e, h.above, if_pos h.mem, fun m hm hle hne => if_neg fun hmem => ?_⟩
  exact hne ((h.longest m hm hmem).antisymm hle)

theorem exists_encloser (hapex : nameKey z.origin ∈ z.namesExist) (hq : z.origin.Encloses qname)
    (h : nameKey qname ∉ z.namesExist) : ∃ e w, z.IsEncloser qname e ∧ wildcardOf e = .ok w := by
  have hne : z.origin ≠ qname := fun heq => h (heq ▸ hapex)
  obtain ⟨e, he, hdeep⟩ := Name.exists_deepest (fun m => (m.Encloses qname ∧ m ≠ qname) ∧ nameKey m ∈ z.namesExist)
    ⟨z.origin, ⟨hq, hne⟩, hapex⟩ fun _ hm => hm.1.1
  obtain ⟨w, hw⟩ := wildcardOf_of_encloses he.1.1 he.1.2.symm
  exact ⟨e, w, ⟨he.1, he.2, fun m hm hmem => hdeep m ⟨hm, hmem⟩⟩, hw⟩

theorem recordsAt_of_lookup {recs : List Record} (h : z.byName.lookup (nameKey n) = some recs) : z.recordsAt n = recs := by
  rw [recordsAt, h]
  rfl

theorem Plain.matchRRSet (hz : z.Plain) {k : Bytes} {recs : List Record} (h : z.byName.lookup k = some recs) :
    matchRRSet recs qtype = (recs.filter (fun r => r.type = qtype), none) := by
  have hfind : (recs.findSome? fun r => (Recursive.cnameTarget r).map fun target => ([r], some target)) = none := by
    refine List.findSome?_eq_none_iff.mpr fun r hr => Option.map_eq_none_iff.mpr ?_
    refine Option.eq_none_iff_forall_ne_some.mpr fun target htarget => ?_
    have hplain := (hz k r (by rwa [stored, h])).1
    rw [type_of_cnameTarget htarget] at hplain
    cases hplain
  rw [Authoritative.matchRRSet, hfind]
  by_cases hmatched : recs.filter (fun r => r.type = qtype) = []
  · simp [hmatched]
  · rw [if_pos hmatched]

theorem Plain.findDNAMEAncestor (hz : z.Plain) : z.findDNAMEAncestor qname = none := by
  refine Option.eq_none_iff_forall_ne_some.mpr fun found hfound => ?_
  have hfound := Option.join_eq_some_iff.mp hfound
  obtain ⟨p, hp, -⟩ := Option.bind_eq_some_iff.mp hfound
  obtain ⟨m, -, hfound, -⟩ := (Name.parent_climb_eq_some_iff (Name.isValid_of_parent hp)).mp hfound
  obtain ⟨r, hr, hmap⟩ := List.exists_of_findSome?_eq_some hfound
  obtain ⟨target, htarget, -⟩ := Option.map_eq_some_iff.mp hmap
  have hplain := (hz _ r hr).1
  rw [type_of_dnameTarget htarget] at hplain
  cases hplain

theorem Plain.turn (hz : z.Plain) :
    z.turn qtype qname =
      match z.byName.lookup (nameKey qname) with
      | some _ => .done (z.rrset qname qtype)
      | none =>
        if nameKey qname ∈ z.namesExist then .done []
        else
          match z.wildcardRecords qname with
          | some recs => .done (rewriteOwners (recs.filter fun r => r.type = qtype) qname)
          | none => .missing := by
  rw [ZoneIndex.turn, hz.findDNAMEAncestor]
  cases hrecs : z.byName.lookup (nameKey qname) with
  | some recs =>
    simp only [hz.matchRRSet hrecs, rrset, recordsAt_of_lookup hrecs]
    rfl
  | none =>
    cases hwildcard : z.wildcardRecords qname with
    | some wcRecs =>
      obtain ⟨e, -, hrecs'⟩ := Option.bind_eq_some_iff.mp hwildcard
      simp only [hz.matchRRSet hrecs']
      rfl
    | none => rfl

theorem Plain.findDelegation (hz : z.Plain) (hq : z.origin.Encloses qname) : z.findDelegation qname = [] := by
  refine findDelegation_of_not_covered hq ?_
  rintro ⟨c, ⟨hbelow, hne, hns⟩, -⟩
  obtain ⟨r, hr⟩ := List.exists_mem_of_ne_nil _ hns
  obtain ⟨hmem, htype⟩ := List.mem_filter.mp hr
  exact hne (nameKey_injective hbelow.2.1 hbelow.1 ((hz _ r hmem).2 (of_decide_eq_true htype)))

theorem lookup_of_turn (h : z.findDelegation qname = []) (qtype : RRType) :
    (z.turn qtype qname = .missing → z.lookup qname qtype = z.negative .nxDomain) ∧
    ∀ recs, z.turn qtype qname = .done recs →
      z.lookup qname qtype = if recs ≠ [] then positive recs else z.negative .noError := by
  grind [lookup_of_no_delegation, lookupAuthoritative, maxCNAMEChain, lookupLoop, positive, negative]

theorem Plain.lookup_wildcard (hz : z.Plain) (hq : z.origin.Encloses qname) (howner : z.hasName qname = false)
    (hmissing : nameKey qname ∉ z.namesExist) (he : z.IsEncloser qname e) (hw : wildcardOf e = .ok w) :
    z.lookup qname qtype =
      if z.hasName w then
        if z.rrset w qtype ≠ [] then positive (rewriteOwners (z.rrset w qtype) qname) else z.negative .noError
      else z.negative .nxDomain := by
  have hrecs : z.byName.lookup (nameKey qname) = none := by simpa [hasName] using howner
  have hturn : z.turn qtype qname = _ := hz.turn
  have hlookup := lookup_of_turn (hz.findDelegation hq) qtype
  have hwildcard : z.wildcardRecords qname = z.byName.lookup (nameKey w) := by
    rw [wildcardRecords, closestEncloser_eq hq.2.1 he, Option.bind_some, wildcardKey, hw]
  rw [hrecs, hwildcard] at hturn
  simp only [if_neg hmissing] at hturn
  cases hrecs' : z.byName.lookup (nameKey w) with
  | none =>
    rw [hrecs'] at hturn
    rw [hlookup.1 hturn, hasName, hrecs']
    rfl
  | some recs =>
    rw [hrecs'] at hturn
    rw [hlookup.2 _ hturn, hasName, hrecs', rrset, recordsAt_of_lookup hrecs', rewriteOwners]
    simp

theorem Plain.lookup_exists (hz : z.Plain) (hq : z.origin.Encloses qname)
    (h : z.hasName qname = true ∨ nameKey qname ∈ z.namesExist) :
    z.lookup qname qtype = if z.rrset qname qtype ≠ [] then positive (z.rrset qname qtype) else z.negative .noError := by
  have hturn : z.turn qtype qname = _ := hz.turn
  refine (lookup_of_turn (hz.findDelegation hq) qtype).2 _ (hturn.trans ?_)
  cases hrecs : z.byName.lookup (nameKey qname) with
  | some recs => rfl
  | none =>
    have hexists : nameKey qname ∈ z.namesExist := h.resolve_left (by simp [hasName, hrecs])
    rw [rrset, recordsAt, hrecs]
    exact if_pos hexists

/-- In a zone without CNAME, DNAME and delegation the answer is the one of the wildcards, unless the wildcard of a name that does
not exist is itself an empty non-terminal. Of the closure of the names that exist, the apex and the owners are needed. -/
theorem lookup_answers_iff (hz : z.Plain) (hapex : nameKey z.origin ∈ z.namesExist)
    (howners : ∀ n, z.hasName n = true → nameKey n ∈ z.namesExist) (hq : z.origin.Encloses qname) (qtype : RRType) :
    (z.Answers qname qtype (z.lookup qname qtype) ↔ (nameKey qname ∉ z.namesExist → ∀ e w, z.IsEncloser qname e →
      wildcardOf e = .ok w → nameKey w ∈ z.namesExist → z.hasName w = true)) ∧
    (nameKey qname ∉ z.namesExist → ∃ e w, z.IsEncloser qname e ∧ wildcardOf e = .ok w) := by
  have hempty : ∀ {n}, z.hasName n = false → z.rrset n qtype = [] := by
    intro n hname
    have hrecs : z.byName.lookup (nameKey n) = none := by simpa [hasName] using hname
    rw [rrset, recordsAt, hrecs]
    rfl
  have hfull : ∀ {n}, z.rrset n qtype ≠ [] → z.hasName n = true := fun hrr => by
    by_contra hname
    exact hrr (hempty (Bool.eq_false_iff.mpr hname))
  have hfree : ∀ {n}, nameKey n ∉ z.namesExist → z.hasName n = false := fun h =>
    Bool.eq_false_iff.mpr fun hname => h (howners _ hname)
  refine ⟨⟨fun h hmissing e w he hw hwe => ?_, fun h => ⟨fun hrr => ?_, fun hrr hexists => ?_, ?_⟩⟩, exists_encloser hapex hq⟩
  · by_contra hname
    have hname := Bool.eq_false_iff.mpr hname
    have hlookup : z.lookup qname qtype = _ := hz.lookup_wildcard hq (hfree hmissing) hmissing he hw
    rw [(h.wildcard hmissing e w he hw).2.1 (hempty hname) hwe, hname] at hlookup
    exact absurd (congrArg LookupResult.rcode hlookup) (by simp [negative]; decide)
  · rw [hz.lookup_exists hq (.inl (hfull hrr)), if_pos hrr]
  · rw [hz.lookup_exists hq (.inr hexists), if_neg (not_not_intro hrr)]
  · intro hmissing e w he hw
    rw [hz.lookup_wildcard hq (hfree hmissing) hmissing he hw]
    refine ⟨fun hrr => ?_, fun hrr hwe => ?_, fun hwe => ?_⟩
    · rw [if_pos (hfull hrr), if_pos hrr]
    · rw [if_pos (h hmissing e w he hw hwe), if_neg (not_not_intro hrr)]
    · rw [hfree hwe]
      rfl

end ZoneIndex

namespace LookupSample

open Name.Short

def cStarA : Name := ⟨[1, 0x63, 1, 0x2a, 1, 0x61, 0], .inr (by decide)⟩

theorem isEncloser_a {z : ZoneIndex} (h : nameKey a ∈ z.namesExist) : z.IsEncloser ba a where
  above := by decide +kernel
  mem := h
  longest := fun m hm _ => (Name.encloses_parent_iff (by decide) (by decide)).mpr hm

end LookupSample

open LookupSample Name.Short in
theorem lookup_answers_sample : (zoneOf [address starA]).lookup ba .a = ZoneIndex.positive [address ba] := by
  have hplain : (zoneOf [address starA]).Plain := ZoneIndex.forall_stored (by decide +kernel)
  have howners : ∀ k ∈ (zoneOf [address starA]).byName.keys, k ∈ (zoneOf [address starA]).namesExist := by
    decide +kernel
  have hnames : ∀ k ∈ (zoneOf [address starA]).namesExist, ((zoneOf [address starA]).byName.lookup k).isSome = true := by
    decide +kernel
  have hanswers := (ZoneIndex.lookup_answers_iff hplain (by decide +kernel)
    (fun n hn => howners _ (AList.lookup_isSome.mp hn)) (by decide +kernel : a.Encloses ba) .a).1.mpr
      fun _ e w _ _ hw => hnames _ hw
  have hwildcard := hanswers.wildcard (by decide +kernel) a starA (isEncloser_a (by decide +kernel)) (by decide +kernel)
  rw [hwildcard.1 (by decide +kernel)]
  decide +kernel

open LookupSample Name.Short in
/-- A record below the wildcard `*.a.`, which has none: the answer is NXDOMAIN though the wildcard exists. -/
theorem lookup_wildcard_nonterminal :
    (zoneOf [address cStarA]).lookup ba .a = (zoneOf [address cStarA]).negative .nxDomain ∧
    (zoneOf [address cStarA]).IsEncloser ba a ∧ wildcardOf a = .ok starA ∧
    nameKey ba ∉ (zoneOf [address cStarA]).namesExist ∧ nameKey starA ∈ (zoneOf [address cStarA]).namesExist := by
  refine ⟨by decide +kernel, isEncloser_a (by decide +kernel), ?_⟩
  decide +kernel

end Authoritative

end Acidns
