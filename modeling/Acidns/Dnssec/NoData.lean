import Acidns.Dnssec.Denial
import Acidns.Dnssec.SecureAnswer

/-!
# Proofs of a missing type

A name without records of the queried type exists as an owner of other types, as an empty non-terminal between
owners, or by synthesis from a wildcard. `validateNoDataNSEC` takes the record at the name as a proof, and a
record that leads over the name from one above it to one below it. The owner that stands before an empty
non-terminal need not be above it; the code asks for that on purpose.
-/

namespace Acidns

open List

variable {part : List (Record × RRSIG)} {nsec : NSEC} {owner : Name}

open SignedZone (IsWildcard)
open Walker (nsecs mem_nsecs)

/-! ### Names above names, by their text -/

theorem isSuffixOf_text_of_encloses {parent sub : Name} (h : parent.Encloses sub) (hne : sub ≠ parent)
    (hroot : parent.labels ≠ []) : (0x2e :: parent.text).isSuffixOf sub.text = true := by
  obtain ⟨front, hlabels⟩ := h.2.2
  have hfront : front ≠ [] := by
    rintro rfl
    exact hne (Name.ext_of_labels h.2.1 h.1 hlabels.symm)
  have hsub : sub.labels ≠ [] := by
    rw [← hlabels]
    exact append_ne_nil_of_right_ne_nil _ hroot
  obtain ⟨front, l, rfl⟩ : ∃ front' l, front = front' ++ [l] := ⟨_, _, (dropLast_concat_getLast hfront).symm⟩
  rw [isSuffixOf_iff_suffix, Name.text_eq h.2.1, if_neg hsub, ← hlabels, Name.text_eq h.1, if_neg hroot]
  refine ⟨front.flatMap RawName.escapeLabel ++ l.flatMap RawName.escapeByte, ?_⟩
  simp [RawName.escapeLabel]

theorem nameSuffixEqualOrSubdomain_of_encloses {parent sub : Name} (h : parent.Encloses sub) :
    nameSuffixEqualOrSubdomain sub parent = true := by
  grind [nameSuffixEqualOrSubdomain, isSuffixOf_text_of_encloses, Name.text_eq, Name.Encloses, Name.equal]

namespace SignedZone

variable {z : SignedZone} {q : Name} {qtype : RRType} {records : List (Name × NSEC)}

/-- The NSEC records for a name without the type (RFC 4035, section 3.1.3): the one at the name; the one that covers an
empty non-terminal; the one at the wildcard with the one that covers the name. -/
inductive NoDataProof (z : SignedZone) (q : Name) (qtype : RRType) (records : List (Name × NSEC)) : Prop where
  | owner {nsec : NSEC} (hq : z.Authoritative q) (htype : qtype ∉ z.types q) (hcname : .cname ∉ z.types q)
      (hnsec : (q, nsec) ∈ records)
  | nonTerminal {owner : Name} {nsec : NSEC} (hq : z.Exists q) (hnot : q ∉ z.owners)
      (hocc : ∀ d, z.Occludes d → ¬d.Encloses q) (hnsec : (owner, nsec) ∈ records)
      (hcov : nameCoveredBy q owner nsec.next)
  | wildcard {e star owner : Name} {nsec nsec' : NSEC} (hq : z.Absent q) (hclosest : z.ClosestEncloser e q)
      (hstar : IsWildcard e star) (hauth : z.Authoritative star) (htype : qtype ∉ z.types star)
      (hcname : .cname ∉ z.types star) (hnsec : (star, nsec) ∈ records) (hnsec' : (owner, nsec') ∈ records)
      (hcov : nameCoveredBy q owner nsec'.next)

/-- An NSEC record leads from above the name to below it. -/
def LeadsOver (q : Name) (records : List (Name × NSEC)) : Prop :=
  ∃ owner nsec, (owner, nsec) ∈ records ∧ owner ≠ q ∧ nsec.next ≠ q ∧
    nameSuffixEqualOrSubdomain q owner = true ∧ nameSuffixEqualOrSubdomain nsec.next q = true

theorem leadsOver_of_encloses (hz : z.IsNSEC owner nsec) (hmem : (owner, nsec) ∈ records)
    (hcov : nameCoveredBy q owner nsec.next) (hq : z.Exists q) (hnot : q ∉ z.owners)
    (hocc : ∀ d, z.Occludes d → ¬d.Encloses q) (habove : owner.Encloses q) : LeadsOver q records := by
  have hbelow : q.Encloses nsec.next := (hz.exists_self_iff hcov habove.2.1 hocc).mp hq
  refine ⟨owner, nsec, hmem, ?_, ?_, nameSuffixEqualOrSubdomain_of_encloses habove,
    nameSuffixEqualOrSubdomain_of_encloses hbelow⟩
  · rintro rfl
    exact hnot hz.signed.1
  · rintro rfl
    exact hnot hz.next.1

end SignedZone

namespace ChainWalker

open SignedZone (LeadsOver)

variable {cw : ChainWalker} {z : SignedZone} {q : Name} {qtype : RRType} {keys : List DNSKEY} {msg : Message}
  {chain : List ChainStep}

theorem mem_allNSEC {authority : List Record} :
    (owner, nsec) ∈ nsecs authority ↔ ∃ r ∈ allNSEC authority, asNSEC r = some nsec ∧ r.name = owner := by
  grind [Walker.type_of_asNSEC, Walker.nsecs, allNSEC, asNSEC]

theorem any_provesNoData_iff : (allNSEC msg.authorities).any (provesNoData q qtype) = true ↔
    ∃ nsec, (q, nsec) ∈ nsecs msg.authorities ∧ qtype ∉ nsec.types ∧ .cname ∉ nsec.types := by
  grind [mem_allNSEC, provesNoData, Name.equal_iff, Option.any_eq_true, Walker.bitmapHas]

theorem any_provesNonTerminal_iff : (allNSEC msg.authorities).any (provesNonTerminal q) = true ↔
    LeadsOver q (nsecs msg.authorities) := by
  grind [mem_allNSEC, provesNonTerminal, Option.any_eq_true, Name.equal_iff, SignedZone.LeadsOver]

theorem validateNoDataNSEC_eq_some_iff (hsigned : cw.SignedSection .nsec keys msg.authorities (allNSEC msg.authorities))
    (hne : allNSEC msg.authorities ≠ []) :
    cw.validateNoDataNSEC q qtype keys msg chain = some ⟨.secure, [], .noError, chain, none⟩ ↔
      (∃ nsec, (q, nsec) ∈ nsecs msg.authorities ∧ qtype ∉ nsec.types ∧ .cname ∉ nsec.types) ∨
        LeadsOver q (nsecs msg.authorities) := by
  rw [← any_provesNoData_iff, ← any_provesNonTerminal_iff, validateNoDataNSEC,
    if_neg (mt length_eq_zero_iff.mp hne), hsigned.verifyGroups]
  dsimp only
  split
  · next hnoData => exact iff_of_true rfl (.inl hnoData)
  next hnoData =>
    split
    · next hover => exact iff_of_true rfl (.inr hover)
    · next hover => exact iff_of_false (by simp) (not_or_intro hnoData hover)

/-- An authority section with records of the zone that prove the type missing, all of them signed. -/
structure NoDataSection (cw : ChainWalker) (z : SignedZone) (keys : List DNSKEY) (authority : List Record) (q : Name)
    (qtype : RRType) : Prop where
  signed : cw.SignedSection .nsec keys authority (allNSEC authority)
  honest : ∀ owner nsec, (owner, nsec) ∈ nsecs authority → z.IsNSEC owner nsec
  proves : z.NoDataProof q qtype (nsecs authority)

theorem NoDataSection.not_encloses_of_occludes (h : cw.NoDataSection z keys msg.authorities q qtype)
    (hexists : z.Exists q) (hnot : q ∉ z.owners) : ∀ d, z.Occludes d → ¬d.Encloses q := by
  cases h.proves with
  | owner hq _ _ _ => exact absurd hq.1 hnot
  | nonTerminal _ _ hocc _ _ => exact hocc
  | wildcard hq _ _ _ _ _ _ _ _ => exact absurd hexists hq.1

/-! ### Two empty non-terminals -/

namespace NsecSample

open SignedSample (nameA key record sigOf response walker sectionOf SignedAs)

def star : Name := Name.Short.starA
def nameBA : Name := Name.Short.ba
def nameFA : Name := ⟨[1, 0x66, 1, 0x61, 0], .inr (by decide)⟩
def nameCBA : Name := Name.Short.cba
def nameDCBA : Name := ⟨[1, 0x64, 1, 0x63, 1, 0x62, 1, 0x61, 0], .inr (by decide)⟩
def nameEDCBA : Name := ⟨[1, 0x65, 1, 0x64, 1, 0x63, 1, 0x62, 1, 0x61, 0], .inr (by decide)⟩

def typesOf (n : Name) : List RRType :=
  if n = nameA then [.ns, .soa, .rrsig, .nsec, .dnskey] else if n = star then [.txt, .rrsig, .nsec] else [.a, .rrsig, .nsec]

/-- `a.`, `*.a.`, `c.b.a.` and `e.d.c.b.a.`; `b.a.` and `d.c.b.a.` are empty. -/
def zone : SignedZone where
  apex := nameA
  owners := {nameA, star, nameCBA, nameEDCBA}
  types n := (typesOf n).toFinset
  apex_mem := by decide
  below := by decide
  soa := by decide

def nsecAt (owner next : Name) : Record := record owner (.nsec ⟨next, typesOf owner⟩)

def starSig : RRSIG :=
  sigOf .nsec 1 nameA 0xefddfa242648c490846fedbf83b76568c0477db634b99e011fdb5db9393f25a5
    0xdb96e46ab28f9829ae78f753629b6e5bbc8c2c40ec8cbeb05b22d1b242404102

def cSig : RRSIG :=
  sigOf .nsec 3 nameA 0x2e6c80b2ca11f9bf7e273cf83050beec3dc52f1e992fb8574f206050681a4dc4
    0x5c7811719274b9c9f416bd2f2ee2011bb1f1fee92424310d566cf5485ca37b0b

def eSig : RRSIG :=
  sigOf .nsec 5 nameA 0x50ec93e9f4cab565a60885c0034d74102f6b3455550be8cf0e353df97da42f74
    0xf384a5dbccd40cc4b2670c9a02ba52fa1dc8a04c90446e559d4c6622d8b8640c

def starSet : Record × RRSIG := (nsecAt star nameCBA, starSig)
def cSet : Record × RRSIG := (nsecAt nameCBA nameEDCBA, cSig)
def eSet : Record × RRSIG := (nsecAt nameEDCBA nameA, eSig)

def sets : List (Record × RRSIG) := [starSet, cSet, eSet]

def zoneWalker : ChainWalker := walker (sets.map fun e => ([e.1], e.2)) fun _ _ => .error "no answer"

def noData (sets : List (Record × RRSIG)) : Message := response 0 [] (sectionOf sets)

theorem authoritative {n : Name} (h : n ∈ zone.owners) : zone.Authoritative n := by
  refine SignedZone.authoritative_of_not_occludes ?_ h
  unfold SignedZone.Occludes
  decide

theorem isNSEC {next : Name} (howner : owner ∈ zone.owners) (hnext : next ∈ zone.owners)
    (hgap : ∀ n ∈ zone.owners, nameCoveredBy n owner next = false) : zone.IsNSEC owner ⟨next, typesOf owner⟩ :=
  SignedZone.isNSEC_of_gap (authoritative howner) (authoritative hnext) hgap fun _ => mem_toFinset.symm

theorem isNSEC_sets : ∀ e ∈ sets, ∀ nsec, asNSEC e.1 = some nsec → zone.IsNSEC e.1.name nsec := by
  have hlink : ∀ {owner next : Name}, zone.IsNSEC owner ⟨next, typesOf owner⟩ →
      ∀ nsec, asNSEC (nsecAt owner next) = some nsec → zone.IsNSEC owner nsec := by
    rintro owner next h nsec ⟨⟩
    exact h
  refine forall_mem_cons.mpr ⟨?_, forall_mem_cons.mpr ⟨?_, forall_mem_singleton.mpr ?_⟩⟩
  · exact hlink (isNSEC (by decide) (by decide) (by decide))
  · exact hlink (isNSEC (by decide) (by decide) (by decide))
  · exact hlink (isNSEC (by decide) (by decide) (by decide))

theorem isNSEC_noData (hsub : part ⊆ sets) (owner : Name) (nsec : NSEC)
    (h : (owner, nsec) ∈ nsecs (noData part).authorities) : zone.IsNSEC owner nsec := by
  obtain ⟨r, hr, hnsec, rfl⟩ := mem_nsecs.mp h
  obtain ⟨e, he, hr⟩ := mem_flatMap.mp hr
  rcases mem_cons.mp hr with rfl | hr
  · exact isNSEC_sets e (hsub he) nsec hnsec
  · obtain rfl := mem_singleton.mp hr
    cases hnsec

theorem signedSection (hsub : part ⊆ sets)
    (hnodup : (part.map fun e => e.1.name).Nodup) (hlength : part.length ≤ 8) :
    zoneWalker.SignedSection .nsec [key] (noData part).authorities (allNSEC (noData part).authorities) := by
  have hall : ∀ e ∈ sets, SignedAs .nsec e := by decide +kernel
  exact SignedSample.signedSection (by decide) (fun e he => hall e (hsub he)) (fun e he => mem_map_of_mem (hsub he)) hnodup
    hlength

theorem not_occludes {d : Name} (h : zone.Occludes d) : False := by
  have hall : ∀ d ∈ zone.owners, ¬zone.Occludes d := by
    unfold SignedZone.Occludes
    decide
  exact hall d h.1 h

theorem noDataSection {q : Name} (hsub : part ⊆ sets)
    (hnodup : (part.map fun e => e.1.name).Nodup) (hlength : part.length ≤ 8)
    (h : zone.NoDataProof q .a (nsecs (noData part).authorities)) :
    zoneWalker.NoDataSection zone [key] (noData part).authorities q .a :=
  ⟨signedSection hsub hnodup hlength, isNSEC_noData hsub, h⟩

theorem nonTerminalSection {q m : Name} {e : Record × RRSIG} (he : [e] ⊆ sets) (hm : m ∈ zone.owners)
    (hqm : q.Encloses m) (hnot : q ∉ zone.owners) (hmem : (e.1.name, nsec) ∈ nsecs (noData [e]).authorities)
    (hcov : nameCoveredBy q e.1.name nsec.next) : zoneWalker.NoDataSection zone [key] (noData [e]).authorities q .a :=
  noDataSection he (nodup_singleton _) (by simp)
    (.nonTerminal ⟨m, hm, hqm⟩ hnot (fun _ hd => absurd hd not_occludes) hmem hcov)

end NsecSample

/-- **Proofs of no data.** For a name that exists the proof is accepted exactly if the name is an owner or a record
leads over it. The record that covers an empty non-terminal does if its owner is above the name. -/
theorem validateNoDataNSEC_iff (h : cw.NoDataSection z keys msg.authorities q qtype) (hexists : z.Exists q) :
    (cw.validateNoDataNSEC q qtype keys msg chain = some ⟨.secure, [], .noError, chain, none⟩ ↔
      q ∈ z.owners ∨ LeadsOver q (nsecs msg.authorities)) ∧
    (q ∉ z.owners → ∀ owner nsec, (owner, nsec) ∈ nsecs msg.authorities → nameCoveredBy q owner nsec.next →
      owner.Encloses q → LeadsOver q (nsecs msg.authorities)) := by
  refine ⟨?_, fun hnot owner nsec hmem hcov habove => SignedZone.leadsOver_of_encloses (h.honest owner nsec hmem) hmem
    hcov hexists hnot (h.not_encloses_of_occludes hexists hnot) habove⟩
  obtain ⟨hsigned, hzone, hproof⟩ := h
  have hne : allNSEC msg.authorities ≠ [] := by
    obtain ⟨owner, nsec, hmem⟩ : ∃ owner nsec, (owner, nsec) ∈ nsecs msg.authorities := by
      cases hproof with
      | owner _ _ _ hnsec => exact ⟨_, _, hnsec⟩
      | nonTerminal _ _ _ hnsec _ => exact ⟨_, _, hnsec⟩
      | wildcard _ _ _ _ _ _ hnsec _ _ => exact ⟨_, _, hnsec⟩
    obtain ⟨r, hr, -⟩ := mem_allNSEC.mp hmem
    exact ne_nil_of_mem hr
  rw [validateNoDataNSEC_eq_some_iff hsigned hne]
  refine or_congr ⟨?_, ?_⟩ Iff.rfl
  · rintro ⟨nsec, hmem, -⟩
    exact (hzone q nsec hmem).signed.1
  · intro howner
    cases hproof with
    | @owner nsec _ htype hcname hnsec =>
      have htypes := (hzone q nsec hnsec).types
      exact ⟨nsec, hnsec, mt (htypes qtype).mp htype, mt (htypes .cname).mp hcname⟩
    | nonTerminal _ hnot _ _ _ => exact absurd howner hnot
    | wildcard hq _ _ _ _ _ _ _ _ => exact absurd hexists hq.1

open NsecSample in
theorem validateNoDataNSEC_sample : zoneWalker.validateNoDataNSEC nameDCBA .a [SignedSample.key] (noData [cSet]) [] =
    some ⟨.secure, [], .noError, [], none⟩ := by
  have hsub : [cSet] ⊆ sets := by decide +kernel
  have hmem : (nameCBA, ⟨nameEDCBA, typesOf nameCBA⟩) ∈ nsecs (noData [cSet]).authorities := .head _
  have hexists : zone.Exists nameDCBA := ⟨nameEDCBA, by decide, by decide⟩
  have hsection : zoneWalker.NoDataSection zone [SignedSample.key] (noData [cSet]).authorities nameDCBA .a :=
    nonTerminalSection (m := nameEDCBA) hsub (by decide) (by decide) (by decide) hmem (by decide)
  obtain ⟨hiff, hcovered⟩ := @validateNoDataNSEC_iff zoneWalker zone nameDCBA .a [SignedSample.key] (noData [cSet]) []
    hsection hexists
  exact hiff.mpr (.inr (hcovered (by decide) nameCBA _ hmem (by decide) (by decide)))

open NsecSample in
open SignedSample in
/-- Before `b.a.` stands `*.a.`, which is not above it; and `f.a.` is synthesized from `*.a.`. -/
theorem validateNoDataNSEC_refuses :
    (zoneWalker.NoDataSection zone [key] (noData [starSet]).authorities nameBA .a ∧
      zoneWalker.validateNoDataNSEC nameBA .a [key] (noData [starSet]) [] ≠
        some ⟨.secure, [], .noError, [], none⟩) ∧
    zoneWalker.NoDataSection zone [key] (noData [starSet, eSet]).authorities nameFA .a ∧
      zoneWalker.validateNoDataNSEC nameFA .a [key] (noData [starSet, eSet]) [] ≠
        some ⟨.secure, [], .noError, [], none⟩ := by
  have hbefore : (star, ⟨nameCBA, typesOf star⟩) ∈ nsecs (noData [starSet]).authorities := .head _
  have hone : zoneWalker.NoDataSection zone [key] (noData [starSet]).authorities nameBA .a :=
    nonTerminalSection (m := nameCBA) (by decide +kernel) (by decide) (by decide) (by decide) hbefore (by decide)
  have hstar : (star, ⟨nameCBA, typesOf star⟩) ∈ nsecs (noData [starSet, eSet]).authorities := .head _
  have hcover : (nameEDCBA, ⟨nameA, typesOf nameEDCBA⟩) ∈ nsecs (noData [starSet, eSet]).authorities :=
    .tail _ (.head _)
  have hsub : [starSet, eSet] ⊆ sets := by decide +kernel
  have habsent : zone.Absent nameFA :=
    ⟨by unfold SignedZone.Exists; decide, fun _ hd => absurd hd not_occludes⟩
  have hclosest := (isNSEC_noData hsub _ _ hcover).closestEncloser (q := nameFA) (by decide) (by decide) habsent
  have htwo : zoneWalker.NoDataSection zone [key] (noData [starSet, eSet]).authorities nameFA .a :=
    noDataSection hsub (by decide) (by decide)
      (.wildcard habsent hclosest ⟨by decide, by decide⟩ (authoritative (by decide)) (by decide) (by decide) hstar hcover
        (by decide))
  refine ⟨⟨hone, ?_⟩, htwo, ?_⟩
  · rw [Ne, validateNoDataNSEC_eq_some_iff hone.signed (by decide), ← any_provesNoData_iff, ← any_provesNonTerminal_iff]
    decide
  · rw [Ne, validateNoDataNSEC_eq_some_iff htwo.signed (by decide), ← any_provesNoData_iff, ← any_provesNonTerminal_iff]
    decide

end ChainWalker

end Acidns
