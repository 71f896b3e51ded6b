import Acidns.Dnssec.NoData

/-!
# Proofs of a missing name

The walk asks for DS records at every name between the anchor and the queried one. In a zone without delegations
the honest answers deny them, and the walk comes to the missing name only if all names above it are owners: for an
empty non-terminal there is no record at the name to be classified, and a name that is missing further up is taken
for a broken chain.
-/

namespace Acidns

open List

variable {nsec : NSEC} {owner : Name} {k : Nat}

open SignedZone (IsWildcard)
open Walker (nsecs mem_nsecs)

namespace SignedZone

/-- The NSEC records for a name that does not exist (RFC 4035, section 3.1.3): one covers the name, one the wildcard
below its closest encloser. -/
structure NameErrorProof (z : SignedZone) (n : Name) (records : List (Name × NSEC)) : Prop where
  cover : ∃ owner nsec, (owner, nsec) ∈ records ∧ nameCoveredBy n owner nsec.next
  wildcard : ∀ e w, z.ClosestEncloser e n → IsWildcard e w →
    ∃ owner nsec, (owner, nsec) ∈ records ∧ nameCoveredBy w owner nsec.next

end SignedZone

namespace Walker

variable {w : Walker} {z : SignedZone} {n : Name} {keys : List DNSKEY} {msg : Message}

/-- The section's NSEC records are signed and true of the zone. -/
structure HonestSection (w : Walker) (z : SignedZone) (keys : List DNSKEY) (authority : List Record) : Prop where
  signed : w.SignedSection .nsec keys authority (allNSEC authority)
  honest : ∀ r ∈ allNSEC authority, ∃ nsec, asNSEC r = some nsec ∧ z.IsNSEC r.name nsec
  noNSEC3 : recordsOfType3 authority = []

theorem HonestSection.isNSEC {authority : List Record} (h : w.HonestSection z keys authority) (hmem : (owner, nsec) ∈ nsecs authority) : z.IsNSEC owner nsec := by
  obtain ⟨r, hr, hnsec, rfl⟩ := ChainWalker.mem_allNSEC.mp hmem
  obtain ⟨nsec', hnsec', hzone⟩ := h.honest r hr
  cases hnsec.symm.trans hnsec'
  exact hzone

theorem findSome?_coveringNext (hmem : (owner, nsec) ∈ nsecs msg.authorities)
    (hcov : nameCoveredBy n owner nsec.next) :
    ∃ p, (allNSEC msg.authorities).findSome? (coveringNext n) = some p := by
  obtain ⟨r, hr, hnsec, rfl⟩ := ChainWalker.mem_allNSEC.mp hmem
  refine Option.isSome_iff_exists.mp (List.findSome?_isSome_iff.mpr ⟨r, hr, ?_⟩)
  rw [coveringNext, hnsec]
  exact Option.isSome_iff_exists.mpr ⟨_, if_pos hcov⟩

theorem denyWildcard_of_cover {wildcard encloser : Name} {records : List Record}
    (hnot : ∀ o ns, (o, ns) ∈ nsecs records → o ≠ wildcard) (hmem : (owner, nsec) ∈ nsecs records)
    (hcov : nameCoveredBy wildcard owner nsec.next) : denyWildcard wildcard encloser records = .ok () := by
  induction records with
  | nil => cases hmem
  | cons r records ih =>
    have hrest : ∀ o ns, (o, ns) ∈ nsecs records → (o, ns) ∈ nsecs (r :: records) := by
      intro o ns h
      obtain ⟨r', hr', hns⟩ := mem_nsecs.mp h
      exact mem_nsecs.mpr ⟨r', .tail _ hr', hns⟩
    obtain ⟨r', hr', hnsec, hname⟩ := mem_nsecs.mp hmem
    rw [denyWildcard]
    split
    · next hnone =>
      refine ih (fun o ns h => hnot o ns (hrest o ns h)) (mem_nsecs.mpr ⟨r', ?_, hnsec, hname⟩)
      rcases mem_cons.mp hr' with rfl | hr'
      · rw [hnsec] at hnone
        cases hnone
      · exact hr'
    · next ns hns =>
      have hne : ¬r.name.equal wildcard = true := fun heq =>
        hnot r.name ns (mem_nsecs.mpr ⟨r, .head _, hns, rfl⟩) (Name.equal_iff.mp heq)
      rw [if_neg hne]
      split
      · rfl
      · next huncovered =>
        refine ih (fun o ns h => hnot o ns (hrest o ns h)) (mem_nsecs.mpr ⟨r', ?_, hnsec, hname⟩)
        rcases mem_cons.mp hr' with rfl | hr'
        · cases hnsec.symm.trans hns
          rw [hname] at huncovered
          exact absurd hcov huncovered
        · exact hr'

theorem HonestSection.validateNSECNXDomain (h : w.HonestSection z keys msg.authorities) (hn : n.isValid)
    (hname : z.NameError n) (hproof : z.NameErrorProof n (nsecs msg.authorities)) :
    w.validateNSECNXDomain n keys msg = .ok () := by
  obtain ⟨owner, nsec, hmem, hcov⟩ := hproof.cover
  obtain ⟨⟨owner', next⟩, hfind⟩ := findSome?_coveringNext hmem hcov
  obtain ⟨nsec', hmem', rfl, hcov'⟩ := mem_of_coveringNext hfind
  have hclosest := (h.isNSEC hmem').closestEncloser hcov' hn hname.1
  have hne : n ≠ deeperAncestor n owner' nsec'.next := by
    intro heq
    refine hname.1.1 ?_
    rw [heq]
    exact hclosest.2.1
  obtain ⟨wildcard, hwildcard⟩ := wildcardOf_of_encloses hclosest.1 hne
  have hspec : IsWildcard (deeperAncestor n owner' nsec'.next) wildcard := wildcardOf_spec hwildcard
  obtain ⟨owner'', nsec'', hmem'', hcov''⟩ := hproof.wildcard _ _ hclosest hspec
  obtain ⟨r, hr, hnsec, hrname⟩ := ChainWalker.mem_allNSEC.mp hmem''
  have hall : (owner'', nsec'') ∈ nsecs (allNSEC msg.authorities) := mem_nsecs.mpr ⟨r, hr, hnsec, hrname⟩
  -- no record is at the wildcard, for it does not exist
  have hmissing : ∀ o ns, (o, ns) ∈ nsecs (allNSEC msg.authorities) → o ≠ wildcard := by
    rintro o ns hons rfl
    obtain ⟨r, hr, hns⟩ := mem_nsecs.mp hons
    have hzone := h.isNSEC (ChainWalker.mem_allNSEC.mpr ⟨r, hr, hns⟩)
    exact hname.2 _ _ hclosest hspec ⟨o, hzone.signed.1, .refl hspec.1⟩
  unfold Walker.validateNSECNXDomain
  rw [if_neg (mt length_eq_zero_iff.mp (ne_nil_of_mem hr)), h.signed.verifyGroups]
  rw [hfind]
  dsimp only
  rw [hwildcard]
  exact denyWildcard_of_cover hmissing hall hcov''

end Walker

namespace ChainWalker

variable {cw : ChainWalker} {z : SignedZone} {n parentZone q : Name} {qtype : RRType} {keys : List DNSKEY} {msg : Message}
  {anchor : Anchor}

inductive Denied (cw : ChainWalker) (z : SignedZone) (keys : List DNSKEY) (n : Name) (t : RRType) (msg : Message) :
    Prop where
  | nameError (hsection : cw.HonestSection z keys msg.authorities) (hrcode : msg.flags.rcode = .nxDomain)
      (hname : z.NameError n) (hproof : z.NameErrorProof n (nsecs msg.authorities))
  | noData (hsection : cw.HonestSection z keys msg.authorities) (hrcode : msg.flags.rcode = .noError)
      (hanswers : msg.answers = []) (hexists : z.Exists n) (hproof : z.NoDataProof n t (nsecs msg.authorities))

/-! ### How the answers are classified -/

theorem recordsOfType_nsec (authority : List Record) (n : Name) :
    recordsOfType authority .nsec n = ownedBy (allNSEC authority) n := by
  rw [recordsOfType, ownedBy, allNSEC, filter_filter]
  congr 1
  funext r
  rw [Bool.and_comm, Bool.eq_iff_iff]
  simp [Name.equal_iff]

theorem classifyDSResponse_nameError (hn : n.isValid) (hsection : cw.HonestSection z keys msg.authorities)
    (hrcode : msg.flags.rcode = .nxDomain) (hname : z.NameError n)
    (hproof : z.NameErrorProof n (nsecs msg.authorities)) :
    cw.classifyDSResponse n parentZone keys msg = .ok .nxdomain := by
  have haccept := hsection.validateNSECNXDomain hn hname hproof
  obtain ⟨owner, nsec, hmem, -⟩ := hproof.cover
  obtain ⟨r, hr, -⟩ := mem_allNSEC.mp hmem
  rw [classifyDSResponse, if_pos hrcode, validateNXDomain, if_pos (length_pos_of_mem hr), haccept]
  rfl

theorem classifyTypes_nonCut {types : List RRType} (hns : .ns ∉ types) (hds : .ds ∉ types) :
    classifyTypes types = some .nonCut := by
  simp [classifyTypes, Walker.bitmapHas, hns, hds]

section

variable (hsection : cw.HonestSection z keys msg.authorities)

include hsection

theorem classifyDSViaNSEC_owner (hns : .ns ∉ z.types n) (hds : .ds ∉ z.types n)
    (hmem : (n, nsec) ∈ nsecs msg.authorities) :
    cw.classifyDSViaNSEC n keys msg = some (.ok .nonCut) := by
  obtain ⟨r, hr, hnsec, hname⟩ := mem_allNSEC.mp hmem
  have howned : r ∈ ownedBy (allNSEC msg.authorities) n := mem_filter.mpr ⟨hr, decide_eq_true hname⟩
  have hne := ne_nil_of_mem howned
  obtain ⟨hsigs, hverify⟩ := hsection.signed.verifyRRsetWithKeys hne
  -- every record at the name has the types of the name
  have hclassify : ∀ r ∈ ownedBy (allNSEC msg.authorities) n,
      ((asNSEC r).bind fun nsec => classifyTypes nsec.types) = (asNSEC r).map fun _ => .nonCut := by
    intro r hr
    obtain ⟨hr, hname⟩ := mem_filter.mp hr
    cases hnsec : asNSEC r with
    | none => rfl
    | some nsec =>
      have hname : r.name = n := by simpa using hname
      have htypes := (hsection.isNSEC (mem_allNSEC.mpr ⟨r, hr, hnsec, hname⟩)).types
      exact classifyTypes_nonCut (mt (htypes .ns).mp hns) (mt (htypes .ds).mp hds)
  have hfind : (ownedBy (allNSEC msg.authorities) n).findSome?
      (fun r => (asNSEC r).bind fun nsec => classifyTypes nsec.types) = some .nonCut := by
    have hsome : ((ownedBy (allNSEC msg.authorities) n).findSome?
        fun r => (asNSEC r).bind fun nsec => classifyTypes nsec.types).isSome := by
      refine List.findSome?_isSome_iff.mpr ⟨r, howned, ?_⟩
      rw [hclassify r howned, hnsec]
      rfl
    obtain ⟨outcome, houtcome⟩ := Option.isSome_iff_exists.mp hsome
    obtain ⟨r', hr', hr''⟩ := exists_of_findSome?_eq_some houtcome
    rw [hclassify r' hr', Option.map_eq_some_iff] at hr''
    obtain ⟨-, -, rfl⟩ := hr''
    exact houtcome
  unfold classifyDSViaNSEC
  simp only [recordsOfType_nsec, Walker.rrsigsForTypeAndOwner_eq_sectionSigs, length_eq_zero_iff, hne, hsigs,
    if_false, hverify, hfind]

theorem classifyDSResponse_owner (hrcode : msg.flags.rcode = .noError) (hanswers : msg.answers = [])
    (hns : .ns ∉ z.types n) (hds : .ds ∉ z.types n) (hmem : (n, nsec) ∈ nsecs msg.authorities) :
    cw.classifyDSResponse n parentZone keys msg = .ok .nonCut := by
  grind [classifyDSResponse, recordsOfType, classifyDSViaNSEC_owner, RCODE.noError, RCODE.nxDomain]

theorem classifyDSResponse_nonTerminal (hrcode : msg.flags.rcode = .noError) (hanswers : msg.answers = [])
    (hnot : n ∉ z.owners) :
    cw.classifyDSResponse n parentZone keys msg = .error .missingProof := by
  have hnx : ¬msg.flags.rcode = .nxDomain := by rw [hrcode]; decide
  have hnone : ownedBy (allNSEC msg.authorities) n = [] := by
    refine filter_eq_nil_iff.mpr fun r hr hname => ?_
    obtain ⟨nsec, -, hzone⟩ := hsection.honest r hr
    have hname : r.name = n := by simpa using hname
    exact hnot (hname ▸ hzone.signed.1)
  have hnsec : cw.classifyDSViaNSEC n keys msg = none := by
    simp only [classifyDSViaNSEC, filterNSECByOwner, recordsOfType_nsec, hnone, length_nil, if_true]
  have hnsec3 : cw.classifyDSViaNSEC3 n parentZone keys msg = none := by
    simp only [classifyDSViaNSEC3, hsection.noNSEC3, length_nil, if_true]
  rw [classifyDSResponse, if_neg hnx, hanswers]
  dsimp only [recordsOfType, filter_nil, length_nil]
  rw [if_neg (Nat.lt_irrefl 0), hnsec, hnsec3]

end

/-! ### The walk through the zone -/

/-- The walker finds the anchor of the zone with its keys, no negative trust anchor, and at each name below the apex an
honest denial of DS records. -/
structure HonestSource (cw : ChainWalker) (z : SignedZone) (anchor : Anchor) (keys : List DNSKEY) (q : Name) : Prop where
  closest : closestAnchor cw.anchors q = some anchor
  apex : anchor.name = z.apex
  verified : cw.fetchAndVerifyDNSKEY anchor.name anchor.dss = .ok keys
  cuts : 0 < cw.maxZoneCuts
  ntas : ∀ n, n.Encloses q → cw.ntas.covers n = false
  noDelegation : ∀ d, ¬z.Delegation d
  denied : ∀ n, z.apex.Encloses n → n.Encloses q → n ≠ z.apex →
    ∃ msg, cw.source false n .ds = .ok msg ∧ cw.Denied z keys n .ds msg

def passed (anchor : Anchor) (keys : List DNSKEY) (q : Name) (k : Nat) : WalkState :=
  ⟨[⟨anchor.name, keys, anchor.dss, .secure⟩], keys, truncateNameTo q k⟩

namespace HonestSource

section

variable (h : cw.HonestSource z anchor keys q)

include h

section

variable (hq : z.apex.Encloses q) (hk : z.apex.numLabels ≤ k)

include hq hk

theorem asks (hlt : k < q.numLabels) : ∃ msg, cw.Asks q (passed anchor keys q k) msg ∧
      cw.Denied z keys (nextCandidate q (passed anchor keys q k)) .ds msg ∧
      z.apex.Encloses (nextCandidate q (passed anchor keys q k)) ∧ (nextCandidate q (passed anchor keys q k)).Encloses q ∧
      (nextCandidate q (passed anchor keys q k)).numLabels = k + 1 := by
  have hzone : (passed anchor keys q k).zone.numLabels = k := (truncateNameTo_spec hq.2.1 (Nat.le_of_lt hlt)).2
  have hnext : nextCandidate q (passed anchor keys q k) = truncateNameTo q (k + 1) := by
    rw [nextCandidate, hzone]
  obtain ⟨hcandidate, hcount⟩ := truncateNameTo_spec hq.2.1 (show k + 1 ≤ q.numLabels from hlt)
  have habove : z.apex.Encloses (truncateNameTo q (k + 1)) := hq.of_numLabels_le hcandidate (by omega)
  have hne : truncateNameTo q (k + 1) ≠ z.apex := by
    intro heq
    rw [heq] at hcount
    omega
  obtain ⟨msg, hsource, hdenied⟩ := h.denied _ habove hcandidate hne
  rw [hnext]
  refine ⟨msg, ⟨by rw [hzone]; exact hlt, h.cuts, ?_, ?_⟩, hdenied, habove, hcandidate, hcount⟩
  · rw [hnext]
    exact h.ntas _ hcandidate
  · rw [hnext]
    exact hsource

theorem walkStep_owner (hlt : k < q.numLabels) (howner : nextCandidate q (passed anchor keys q k) ∈ z.owners) :
    cw.walkStep q (passed anchor keys q k) = .inl (passed anchor keys q (k + 1)) := by
  obtain ⟨msg, hasks, hdenied, habove, hcandidate, hcount⟩ := h.asks hq hk hlt
  have hne : nextCandidate q (passed anchor keys q k) ≠ z.apex := by
    intro heq
    rw [heq] at hcount
    omega
  have hclassify : cw.classifyDSResponse (nextCandidate q (passed anchor keys q k)) (passed anchor keys q k).zone keys
      msg = .ok .nonCut := by
    cases hdenied with
    | nameError _ _ hname _ => exact absurd ⟨_, howner, .refl habove.2.1⟩ hname.1.1
    | noData hsection hrcode hanswers hexists hproof =>
      cases hproof with
      | owner hauth htype _ hnsec =>
        exact classifyDSResponse_owner hsection hrcode hanswers (fun hns => h.noDelegation _ ⟨hauth, hne, hns⟩) htype
          hnsec
      | nonTerminal _ hnot _ _ _ => exact absurd howner hnot
      | wildcard habsent _ _ _ _ _ _ _ _ => exact absurd hexists habsent.1
  have hnext : nextCandidate q (passed anchor keys q k) = truncateNameTo q (k + 1) := by
    rw [← hcount, truncateNameTo_eq hcandidate]
  rw [hasks.walkStep_eq, show (passed anchor keys q k).parentKeys = keys from rfl, hclassify]
  rw [hnext]
  rfl

theorem reaches (hlt : k ≤ q.numLabels)
    (howners : ∀ n, z.apex.Encloses n → n.Encloses q → n.numLabels ≤ k → n ∈ z.owners) :
    cw.Reaches anchor q (passed anchor keys q k) := by
  induction k, hk using Nat.le_induction with
  | base =>
    have hstart := @Reaches.start cw anchor q keys h.verified
    rw [passed, truncateNameTo_eq hq, ← h.apex]
    exact hstart
  | succ k hk ih =>
    obtain ⟨-, -, -, habove, hcandidate, hcount⟩ := h.asks hq hk hlt
    have howner := howners _ habove hcandidate (Nat.le_of_eq hcount)
    have hrest := ih (Nat.le_of_succ_le hlt) fun n hn hnq hle => howners n hn hnq (Nat.le_succ_of_le hle)
    exact hrest.step (h.walkStep_owner hq hk hlt howner)

theorem walkStep_fails (hlt : k + 1 < q.numLabels) (hnot : nextCandidate q (passed anchor keys q k) ∉ z.owners) :
    ∃ err, err ≠ .nxdomainAtCandidate ∧
      cw.walkStep q (passed anchor keys q k) = .inr ⟨(passed anchor keys q k).chain, [], .zero, some err⟩ := by
  obtain ⟨msg, hasks, hdenied, habove, hcandidate, hcount⟩ := h.asks hq hk (by omega)
  rw [hasks.walkStep_eq, show (passed anchor keys q k).parentKeys = keys from rfl]
  cases hdenied with
  | nameError hsection hrcode hname hproof =>
    have hne : ¬(nextCandidate q (passed anchor keys q k)).equal q = true := by
      intro heq
      rw [Name.equal_iff.mp heq] at hcount
      omega
    rw [classifyDSResponse_nameError habove.2.1 hsection hrcode hname hproof]
    rw [if_neg hne]
    exact ⟨.nxdomainAtStep _, nofun, rfl⟩
  | noData hsection hrcode hanswers _ _ =>
    rw [classifyDSResponse_nonTerminal hsection hrcode hanswers hnot]
    exact ⟨.dsClassify _ .missingProof, nofun, rfl⟩

theorem walkStep_nameError (hlt : k + 1 = q.numLabels) (hname : z.NameError q) :
    cw.walkStep q (passed anchor keys q k) = .inr ⟨(passed anchor keys q k).chain ++ [⟨q, [], [], .secure⟩], keys, q,
      some .nxdomainAtCandidate⟩ := by
  obtain ⟨msg, hasks, hdenied, habove, hcandidate, hcount⟩ := h.asks hq hk (by omega)
  have hnext : nextCandidate q (passed anchor keys q k) = q := by
    rw [← truncateNameTo_eq hcandidate, hcount, hlt, truncateNameTo_eq (.refl hq.2.1)]
  rw [hnext] at hdenied
  rw [hasks.walkStep_eq, show (passed anchor keys q k).parentKeys = keys from rfl, hnext]
  cases hdenied with
  | nameError hsection hrcode _ hproof =>
    rw [classifyDSResponse_nameError hq.2.1 hsection hrcode hname hproof]
    rw [if_pos (Name.equal_iff.mpr rfl)]
  | noData _ _ _ hexists _ => exact absurd hexists hname.1.1

end

end
theorem apex_numLabels_lt (hq : z.apex.Encloses q) (hname : z.NameError q) : z.apex.numLabels < q.numLabels := by
  refine hq.numLabels_lt ?_
  rintro rfl
  exact hname.1.1 ⟨z.apex, z.apex_mem, hq⟩

theorem resolve_secure (h : cw.HonestSource z anchor keys q) (hq : z.apex.Encloses q) (hname : z.NameError q)
    (howners : ∀ n, z.apex.Encloses n → n.Encloses q → n ≠ q → n ∈ z.owners) :
    cw.resolve q qtype = (⟨.secure, [], .nxDomain, [⟨anchor.name, keys, anchor.dss, .secure⟩, ⟨q, [], [], .secure⟩],
      none⟩, none) := by
  have hlt := apex_numLabels_lt hq hname
  have hreaches : cw.Reaches anchor q (passed anchor keys q (q.numLabels - 1)) := by
    refine h.reaches hq (by omega) (by omega) fun n hn hnq hle => howners n hn hnq ?_
    rintro rfl
    omega
  have hstep := h.walkStep_nameError hq (k := q.numLabels - 1) (by omega) (by omega) hname
  rw [resolve_eq hq.2.1 (h.ntas q (.refl hq.2.1)) h.closest, hreaches.walkChain_eq_of_inr hq.2.1 hstep]
  rfl

/-- An ancestor that owns nothing makes the walk fail. -/
theorem resolve_bogus (h : cw.HonestSource z anchor keys q) (hq : z.apex.Encloses q) {n : Name} (hn : z.apex.Encloses n)
    (hnq : n.Encloses q) (hne : n ≠ q) (hnot : n ∉ z.owners) : (cw.resolve q qtype).1.result = .bogus := by
  induction hdepth : n.numLabels using Nat.strong_induction_on generalizing n with
  | h depth ih =>
    by_cases hfirst : ∃ m, z.apex.Encloses m ∧ m.Encloses q ∧ m.numLabels < n.numLabels ∧ m ∉ z.owners
    · obtain ⟨m, hm, hmq, hshorter, hmnot⟩ := hfirst
      have hmne : m ≠ q := by
        rintro rfl
        exact Nat.not_lt.mpr hnq.numLabels_le hshorter
      exact ih m.numLabels (hdepth ▸ hshorter) hm hmq hmne hmnot rfl
    · have hapex : z.apex.numLabels < n.numLabels := by
        refine hn.numLabels_lt ?_
        rintro rfl
        exact hnot z.apex_mem
      have hbelow : n.numLabels < q.numLabels := hnq.numLabels_lt (Ne.symm hne)
      have hreaches : cw.Reaches anchor q (passed anchor keys q (n.numLabels - 1)) := by
        refine h.reaches hq (by omega) (by omega) fun m hm hmq hle => ?_
        by_contra hmnot
        exact hfirst ⟨m, hm, hmq, by omega, hmnot⟩
      have hcandidate : nextCandidate q (passed anchor keys q (n.numLabels - 1)) = n := by
        obtain ⟨-, -, -, -, habove, hcount⟩ := h.asks hq (k := n.numLabels - 1) (by omega) (by omega)
        rw [← truncateNameTo_eq habove, hcount, Nat.sub_add_cancel (by omega), truncateNameTo_eq hnq]
      obtain ⟨err, herr, hstep⟩ := h.walkStep_fails hq (k := n.numLabels - 1) (by omega) (by omega)
        (by rwa [hcandidate])
      rw [resolve_eq hq.2.1 (h.ntas q (.refl hq.2.1)) h.closest, hreaches.walkChain_eq_of_inr hq.2.1 hstep]
      unfold resolveFrom
      split
      · next heq => exact absurd (Option.some.inj heq) herr
      · rfl
      · next heq => cases heq

end HonestSource

/-! ### A zone of two owners -/

namespace LeafSample

open SignedSample (nameA key ds record sigOf response walker sectionOf SignedAs)

def nameBA : Name := Name.Short.ba
def nameCA : Name := Name.Short.ca
def nameDBA : Name := Name.Short.dba
def nameDCA : Name := ⟨[1, 0x64, 1, 0x63, 1, 0x61, 0], .inr (by decide)⟩
def starA : Name := Name.Short.starA
def starBA : Name := Name.Short.starBA

def typesOf (n : Name) : List RRType :=
  if n = nameA then [.ns, .soa, .rrsig, .nsec, .dnskey] else [.a, .rrsig, .nsec]

def zone : SignedZone where
  apex := nameA
  owners := {nameA, nameBA}
  types n := (typesOf n).toFinset
  apex_mem := by decide
  below := by decide
  soa := by decide

def nsecA : NSEC := ⟨nameBA, typesOf nameA⟩
def nsecB : NSEC := ⟨nameA, typesOf nameBA⟩

def aSig : RRSIG :=
  sigOf .nsec 1 nameA 0x7105ba157a320b81429b8ae3fda97aee27a84c37d787a86d4ff3a3f5cd461fb5
    0x73f308773e4b8549fdf9a8e91fb801bb7db6d8c8de77fdea8098e3478a0ebe09

def bSig : RRSIG :=
  sigOf .nsec 2 nameA 0x36bc345d544080a98010d102f19e69bb6a126757edcf55c88afd00dd04722757
    0xd503a14350d8853ffa328b3bfd7a41144f215ac6ebffad8a637348a3e28d8b02

def sets : List (Record × RRSIG) := [(record nameA (.nsec nsecA), aSig), (record nameBA (.nsec nsecB), bSig)]

/-- All questions are answered with both records; only `b.a.` exists below the apex. -/
def answer (n : Name) : Message := response (if n = nameBA then 0 else 3) [] (sectionOf sets)

def zoneWalker : ChainWalker := walker (sets.map fun e => ([e.1], e.2)) fun n _ => .ok (answer n)

theorem authoritative {n : Name} (h : n ∈ zone.owners) : zone.Authoritative n := by
  refine SignedZone.authoritative_of_not_occludes ?_ h
  unfold SignedZone.Occludes
  decide

theorem isNSEC_A : zone.IsNSEC nameA nsecA :=
  SignedZone.isNSEC_of_gap (authoritative (by decide)) (authoritative (by decide)) (by decide) fun _ =>
    mem_toFinset.symm

theorem isNSEC_B : zone.IsNSEC nameBA nsecB :=
  SignedZone.isNSEC_of_gap (authoritative (by decide)) (authoritative (by decide)) (by decide) fun _ =>
    mem_toFinset.symm

theorem honestSection (n : Name) : zoneWalker.HonestSection zone [key] (answer n).authorities := by
  have hall : ∀ e ∈ sets, SignedAs .nsec e := by decide +kernel
  refine ⟨SignedSample.signedSection (by decide) hall (fun e he => mem_map_of_mem he) (by decide) (by decide), ?_, rfl⟩
  refine forall_mem_cons.mpr ⟨⟨nsecA, rfl, isNSEC_A⟩, forall_mem_singleton.mpr ⟨nsecB, rfl, isNSEC_B⟩⟩

theorem not_occludes {d : Name} (h : zone.Occludes d) : False := by
  have hall : ∀ d ∈ zone.owners, ¬zone.Occludes d := by
    unfold SignedZone.Occludes
    decide
  exact hall d h.1 h

theorem closestEncloser {n : Name} (hn : n.isValid) (hcov : nameCoveredBy n nameBA nsecB.next)
    (habsent : ¬zone.Exists n) : zone.ClosestEncloser (deeperAncestor n nameBA nameA) n :=
  isNSEC_B.closestEncloser hcov hn ⟨habsent, fun _ hd => absurd hd not_occludes⟩

theorem denied_nameError {n e star : Name} (hn : n.isValid) (hne : n ≠ nameBA)
    (hcov : nameCoveredBy n nameBA nsecB.next) (habsent : ¬zone.Exists n)
    (he : deeperAncestor n nameBA nameA = e) (hstar : IsWildcard e star) (hmissing : ¬zone.Exists star)
    (hmem : (owner, nsec) ∈ nsecs (answer n).authorities) (hcov' : nameCoveredBy star owner nsec.next) :
    zone.NameError n ∧ zoneWalker.Denied zone [key] n .ds (answer n) := by
  have hclosest := closestEncloser hn hcov habsent
  rw [he] at hclosest
  have hname : zone.NameError n := by
    refine ⟨⟨habsent, fun _ hd => absurd hd not_occludes⟩, fun e' w he' hw => ?_⟩
    obtain rfl := hclosest.unique he'
    rw [hw.unique hstar]
    exact hmissing
  have hrcode : (answer n).flags.rcode = .nxDomain := by
    rw [answer, if_neg hne]
    rfl
  refine ⟨hname, .nameError (honestSection n) hrcode hname ⟨⟨nameBA, nsecB, ?_, hcov⟩, fun e' w he' hw => ?_⟩⟩
  · exact .tail _ (.head _)
  · obtain rfl := hclosest.unique he'
    rw [hw.unique hstar]
    exact ⟨owner, nsec, hmem, hcov'⟩

theorem covers_nil (now : Int) (n : Name) : NTAStore.covers ⟨[], now⟩ n = false := by
  have hscan : ∀ fuel n, NTAStore.coverScan ⟨[], now⟩ fuel n = false := by
    intro fuel
    induction fuel with
    | zero => exact fun _ => rfl
    | succ fuel ih =>
      intro n
      rw [NTAStore.coverScan]
      cases n.parent with
      | none => rfl
      | some parent => exact ih parent
  rw [NTAStore.covers, hscan, Bool.and_false]

def zoneAnchor : Anchor := ⟨nameA, [ds]⟩

theorem honestSource {q : Name} (hclosest : closestAnchor [zoneAnchor] q = some zoneAnchor)
    (hdenied : ∀ k, 1 < k → k ≤ q.numLabels →
      zoneWalker.Denied zone [key] (truncateNameTo q k) .ds (answer (truncateNameTo q k))) :
    zoneWalker.HonestSource zone zoneAnchor [key] q where
  closest := hclosest
  apex := rfl
  verified := by decide +kernel
  cuts := by decide
  ntas n _ := covers_nil 0 n
  noDelegation d hd := not_occludes hd.occludes
  denied n hn hnq hne := by
    refine ⟨answer n, if_neg fun h => absurd h.2 (by decide), ?_⟩
    rw [← truncateNameTo_eq hnq]
    exact hdenied n.numLabels (hn.numLabels_lt hne) hnq.numLabels_le

theorem denied_nameBA : zoneWalker.Denied zone [key] nameBA .ds (answer nameBA) :=
  .noData (honestSection nameBA) rfl rfl ⟨nameBA, by decide, by decide⟩
    (.owner (authoritative (by decide)) (by decide) (by decide) (.tail _ (.head _)))

theorem denied_nameDBA : zone.NameError nameDBA ∧ zoneWalker.Denied zone [key] nameDBA .ds (answer nameDBA) := by
  have hmem : (nameBA, nsecB) ∈ nsecs (answer nameDBA).authorities := .tail _ (.head _)
  have hstar : IsWildcard nameBA starBA := ⟨by decide, by decide⟩
  exact denied_nameError (by decide) (by decide) (by decide) (by unfold SignedZone.Exists; decide) (by decide) hstar
    (by unfold SignedZone.Exists; decide) hmem (by decide)

theorem denied_nameCA : zone.NameError nameCA ∧ zoneWalker.Denied zone [key] nameCA .ds (answer nameCA) := by
  have hmem : (nameA, nsecA) ∈ nsecs (answer nameCA).authorities := .head _
  have hstar : IsWildcard nameA starA := ⟨by decide, by decide⟩
  exact denied_nameError (by decide) (by decide) (by decide) (by unfold SignedZone.Exists; decide) (by decide) hstar
    (by unfold SignedZone.Exists; decide) hmem (by decide)

theorem denied_nameDCA : zone.NameError nameDCA ∧ zoneWalker.Denied zone [key] nameDCA .ds (answer nameDCA) := by
  have hmem : (nameA, nsecA) ∈ nsecs (answer nameDCA).authorities := .head _
  have hstar : IsWildcard nameA starA := ⟨by decide, by decide⟩
  exact denied_nameError (by decide) (by decide) (by decide) (by unfold SignedZone.Exists; decide) (by decide) hstar
    (by unfold SignedZone.Exists; decide) hmem (by decide)

theorem honestSource_nameDBA : zoneWalker.HonestSource zone zoneAnchor [key] nameDBA := by
  refine honestSource rfl fun k hk hle => ?_
  obtain rfl | rfl : k = 2 ∨ k = 3 := by
    have hthree : nameDBA.numLabels = 3 := by decide
    omega
  · exact denied_nameBA
  · exact denied_nameDBA.2

theorem honestSource_nameDCA : zoneWalker.HonestSource zone zoneAnchor [key] nameDCA := by
  refine honestSource rfl fun k hk hle => ?_
  obtain rfl | rfl : k = 2 ∨ k = 3 := by
    have hthree : nameDCA.numLabels = 3 := by decide
    omega
  · exact denied_nameCA.2
  · exact denied_nameDCA.2

end LeafSample

/-- A missing name is securely denied exactly if all names above it, down from the apex, are owners. -/
theorem resolve_nameError_iff (h : cw.HonestSource z anchor keys q) (hq : z.apex.Encloses q) (hname : z.NameError q) :
    (cw.resolve q qtype).1.result = .secure ∧ (cw.resolve q qtype).1.rcode = .nxDomain ↔
      ∀ n, z.apex.Encloses n → n.Encloses q → n ≠ q → n ∈ z.owners := by
  constructor
  · rintro ⟨hsecure, -⟩ n hn hnq hne
    by_contra hnot
    rw [h.resolve_bogus hq hn hnq hne hnot] at hsecure
    cases hsecure
  · intro howners
    rw [h.resolve_secure hq hname howners]
    exact ⟨rfl, rfl⟩

open LeafSample in
theorem resolve_nameError_sample :
    (zoneWalker.resolve nameDBA .a).1.result = .secure ∧ (zoneWalker.resolve nameDBA .a).1.rcode = .nxDomain := by
  refine (resolve_nameError_iff honestSource_nameDBA (by decide) denied_nameDBA.1).mpr ?_
  intro n hn hnq hne
  have hcount := hn.numLabels_le
  have hlt := hnq.numLabels_lt (Ne.symm hne)
  have hthree : nameDBA.numLabels = 3 := by decide
  have hone : zone.apex.numLabels = 1 := by decide
  rw [← truncateNameTo_eq hnq]
  obtain h | h : n.numLabels = 1 ∨ n.numLabels = 2 := by omega
  · rw [h]
    decide
  · rw [h]
    decide

open LeafSample in
/-- Both `d.c.a.` and `c.a.` do not exist, and the honest denials of both are taken for a broken chain. -/
theorem resolve_nameError_bogus : zoneWalker.HonestSource zone zoneAnchor [SignedSample.key] nameDCA ∧
    zone.apex.Encloses nameDCA ∧ zone.NameError nameDCA ∧ (zoneWalker.resolve nameDCA .a).1.result = .bogus :=
  ⟨honestSource_nameDCA, by decide, denied_nameDCA.1,
    honestSource_nameDCA.resolve_bogus (n := nameCA) (by decide) (by decide) (by decide) (by decide) (by decide)⟩

end ChainWalker

end Acidns
