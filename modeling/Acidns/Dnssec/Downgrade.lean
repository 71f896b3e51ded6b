import Acidns.Dnssec.SecureAnswer

/-!
# Denials that are no proof

NSEC3 records with the opt-out flag, or with more iterations than the validator is ready for, do not prove a denial;
the answer is then insecure, not bogus. `nsec3ProveDenial` tells the two from a failure, and what it says passes
through several functions. Two of them drop it: the classification of a DS response with the code NXDOMAIN, and for
opt-out the check of an answer without data.
-/

namespace Acidns.ChainWalker

open Walker (NSEC3DenialKind)

variable {cw : ChainWalker} {anchor : Anchor} {q n zone : Name} {qtype t : RRType} {keys : List DNSKEY} {msg : Message}
  {chain : List ChainStep} {kind : NSEC3DenialKind}

/-- A denial by NSEC3 that makes the answer insecure. -/
structure Downgrades (cw : ChainWalker) (n zone : Name) (t : RRType) (keys : List DNSKEY) (authority : List Record)
    (kind : NSEC3DenialKind) : Prop where
  nonempty : recordsOfType3 authority ≠ []
  verified : cw.verifyNSEC3Set (recordsOfType3 authority) authority keys = .ok ()
  proves : (Walker.nsec3ProveDenial cw.sha1 n t zone (recordsOfType3 authority)).kind = kind
  downgrade : kind = .optOut ∨ kind = .iterationsExceeded

theorem Downgrades.length (h : cw.Downgrades n zone t keys msg.authorities kind) :
    ¬(recordsOfType3 msg.authorities).length = 0 := mt List.length_eq_zero_iff.mp h.nonempty

/-! ### What the functions make of them -/

theorem Downgrades.validateNXDomain (h : cw.Downgrades n zone 0 keys msg.authorities kind)
    (hnsec : allNSEC msg.authorities = []) :
    cw.validateNXDomain n zone keys msg = .error (if kind = .optOut then .optOut else .iterations) := by
  grind [length, validateNXDomain, validateNSEC3NXDomain, verified, proves, downgrade]

theorem Downgrades.classifyDSViaNSEC3 (h : cw.Downgrades n zone .ds keys msg.authorities kind) :
    cw.classifyDSViaNSEC3 n zone keys msg = some (.ok .insecure) := by
  grind [classifyDSViaNSEC3, length, verified, proves, downgrade]

theorem Downgrades.validateNoDataNSEC3 (h : cw.Downgrades n (deepestSecureZone chain) t keys msg.authorities kind)
    (hzone : (deepestSecureZone chain).isValid = true)
    (hsigner : foreignSigner (deepestSecureZone chain) (signerOf msg.authorities) = false) :
    cw.validateNoDataNSEC3 n t keys msg chain =
      if kind = .optOut then none else some ⟨.insecure, msg.answers, .noError, chain, none⟩ := by
  grind [validateNoDataNSEC3, length, verified, proves, downgrade]

/-! ### Where denials are consulted -/

/-- The four places at which a denial is consulted. -/
inductive Place where
  | dsNameError
  | dsNoData
  | nameError
  | noData

/-- The walk gets to the place and asks for a denial there. -/
inductive Consulted (cw : ChainWalker) (anchor : Anchor) (q : Name) (qtype : RRType) :
    Place → NSEC3DenialKind → Prop where
  | dsNameError {s : WalkState} {msg : Message} {kind : NSEC3DenialKind} (hs : cw.Reaches anchor q s)
      (hasks : cw.Asks q s msg) (hrcode : msg.flags.rcode = .nxDomain) (hnsec : allNSEC msg.authorities = [])
      (h : cw.Downgrades (nextCandidate q s) s.zone 0 s.parentKeys msg.authorities kind) :
      Consulted cw anchor q qtype .dsNameError kind
  | dsNoData {s : WalkState} {msg : Message} {kind : NSEC3DenialKind} (hs : cw.Reaches anchor q s)
      (hasks : cw.Asks q s msg) (hrcode : msg.flags.rcode ≠ .nxDomain)
      (hds : recordsOfType msg.answers .ds (nextCandidate q s) = [])
      (hnsec : recordsOfType msg.authorities .nsec (nextCandidate q s) = [])
      (h : cw.Downgrades (nextCandidate q s) s.zone .ds s.parentKeys msg.authorities kind) :
      Consulted cw anchor q qtype .dsNoData kind
  | nameError {s : WalkState} {msg : Message} {kind : NSEC3DenialKind} (hs : cw.Reaches anchor q s)
      (hend : cw.walkStep q s = .inr ⟨s.chain, s.parentKeys, .zero, none⟩)
      (hmsg : cw.source true q qtype = .ok msg) (hrcode : msg.flags.rcode = .nxDomain)
      (hnsec : allNSEC msg.authorities = []) (hzone : (deepestSecureZone s.chain).isValid = true)
      (hsigner : foreignSigner (deepestSecureZone s.chain) (signerOf msg.authorities) = false)
      (h : cw.Downgrades q (deepestSecureZone s.chain) 0 s.parentKeys msg.authorities kind) :
      Consulted cw anchor q qtype .nameError kind
  | noData {s : WalkState} {msg : Message} {kind : NSEC3DenialKind} (hs : cw.Reaches anchor q s)
      (hend : cw.walkStep q s = .inr ⟨s.chain, s.parentKeys, .zero, none⟩)
      (hmsg : cw.source true q qtype = .ok msg) (hrcode : msg.flags.rcode ≠ .nxDomain)
      (hrecords : msg.flags.rcode = .noError → recordsOfType msg.answers qtype q = [])
      (hnsec : cw.validateNoDataNSEC q qtype s.parentKeys msg s.chain = none)
      (hzone : (deepestSecureZone s.chain).isValid = true)
      (hsigner : foreignSigner (deepestSecureZone s.chain) (signerOf msg.authorities) = false)
      (h : cw.Downgrades q (deepestSecureZone s.chain) qtype s.parentKeys msg.authorities kind) :
      Consulted cw anchor q qtype .noData kind

theorem resolveFrom_of_ok (hmsg : cw.source true q qtype = .ok msg) :
    cw.resolveFrom q qtype ⟨chain, keys, .zero, none⟩ = cw.validateAnswer q qtype keys msg chain := by
  rw [resolveFrom, hmsg]
  rfl

theorem validateAnswer_nameError (hrcode : msg.flags.rcode = .nxDomain) (hnsec : allNSEC msg.authorities = [])
    (hzone : (deepestSecureZone chain).isValid = true)
    (hsigner : foreignSigner (deepestSecureZone chain) (signerOf msg.authorities) = false)
    (h : cw.Downgrades q (deepestSecureZone chain) 0 keys msg.authorities kind) :
    (cw.validateAnswer q qtype keys msg chain).1.result = .insecure := by
  have hanswers : ¬(msg.flags.rcode = .noError ∧ msg.answers.length > 0) := by
    rw [hrcode]
    exact fun hno => absurd hno.1 (by decide)
  rw [validateAnswer, if_neg hanswers, validateNegative, if_neg (not_not_intro hrcode)]
  dsimp only
  rw [hzone, hsigner, h.validateNXDomain hnsec]
  rcases h.downgrade with rfl | rfl <;> rfl

theorem validateAnswer_noData (hrcode : msg.flags.rcode ≠ .nxDomain)
    (hrecords : msg.flags.rcode = .noError → recordsOfType msg.answers qtype q = []) :
    cw.validateAnswer q qtype keys msg chain = cw.validateNoData q qtype keys msg chain := by
  grind [validateAnswer, validateNegative]

theorem walkChain_dsNameError (hq : q.isValid = true) {s : WalkState} (hs : cw.Reaches anchor q s)
    (hasks : cw.Asks q s msg) (hrcode : msg.flags.rcode = .nxDomain) (hnsec : allNSEC msg.authorities = [])
    (h : cw.Downgrades (nextCandidate q s) s.zone 0 s.parentKeys msg.authorities kind) :
    cw.walkChain anchor q = ⟨s.chain, [], .zero, some (.dsClassify (nextCandidate q s)
      (.nxdomainProof (if kind = .optOut then .optOut else .iterations)))⟩ := by
  have hstep := hasks.walkStep_eq
  rw [classifyDSResponse, if_pos hrcode, h.validateNXDomain hnsec] at hstep
  exact hs.walkChain_eq_of_inr hq hstep

/-! ### A zone with opt-out -/

namespace OptOutSample

open SignedSample (nameA key ds record sigOf response walker sectionOf SignedAs)
open Walker.HashedSample (sha1 params)

def nameDA : Name := Name.Short.da

def nsec3 : Record :=
  record ((nameFromLabels [base32HexEncode (params.hash sha1 nameA), [0x61]]).toOption.getD .zero)
    (.nsec3 ⟨nsec3HashSHA1, 1, 0, [], params.hash sha1 nameA, [.ns, .soa, .rrsig, .dnskey, .nsec3param]⟩)

def nsec3Sig : RRSIG :=
  sigOf .nsec3 2 nameA 0x7ee288d360c5d93f2903ca2b06b2c2a3fce42e6e8ad0df958ffbb8bd7eaeae4e
    0xad9dc12d86bb8d27ee0c3f48b12ceaa0b74e8daccba6791e01bb26eeb8101006

def sets : List (Record × RRSIG) := [(nsec3, nsec3Sig)]

def zoneWalker (flags : Flags) : ChainWalker :=
  walker (sets.map fun e => ([e.1], e.2)) fun _ _ => .ok (response flags [] (sectionOf sets))

def zoneAnchor : Anchor := ⟨nameA, [ds]⟩

def start : WalkState := ⟨[⟨nameA, [key], [ds], .secure⟩], [key], nameA⟩

variable {flags : Flags} {t : RRType}

theorem reaches_start (h : flags = 0 ∨ flags = 3) : (zoneWalker flags).Reaches zoneAnchor nameDA start := by
  rcases h with rfl | rfl <;> exact .start (by decide +kernel)

theorem downgrades (hproves : (Walker.nsec3ProveDenial sha1 nameDA t nameA [nsec3]).kind = .optOut) :
    (zoneWalker flags).Downgrades nameDA nameA t [key] (sectionOf sets) .optOut := by
  have hall : ∀ e ∈ sets, SignedAs .nsec3 e := by decide +kernel
  have hsection : (zoneWalker flags).SignedSection .nsec3 [key] (sectionOf sets) (recordsOfType3 (sectionOf sets)) :=
    SignedSample.signedSection (by decide) hall (fun e he => List.mem_map_of_mem he) (List.nodup_singleton _) (by decide)
  have hrecords : recordsOfType3 (sectionOf sets) = [nsec3] := SignedSample.filter_sectionOf (by decide) hall
  refine ⟨?_, hsection.verifyGroups, ?_, .inl rfl⟩
  · rw [hrecords]
    exact List.cons_ne_nil _ _
  · rw [hrecords]
    exact hproves

theorem asks : (zoneWalker flags).Asks nameDA start (response flags [] (sectionOf sets)) where
  above := by decide
  cuts := show 1 ≤ 16 by decide
  nta := show NTAStore.covers ⟨[], 0⟩ (nextCandidate nameDA start) = false by decide +kernel
  answered := rfl

end OptOutSample

/-- The denial leads to insecurity wherever it is consulted, but for a DS response with NXDOMAIN, and for opt-out in a
last response without data. -/
theorem insecure_of_downgrade_iff {place : Place} (hq : q.isValid = true) (hnta : cw.ntas.covers q = false)
    (hanchor : closestAnchor cw.anchors q = some anchor) (h : cw.Consulted anchor q qtype place kind) :
    ((cw.resolve q qtype).1.result = .insecure ∨ ∃ text, (cw.resolve q qtype).1.reason = some (.lookup text)) ↔
      place ≠ .dsNameError ∧ ¬(place = .noData ∧ kind = .optOut) := by
  rw [resolve_eq hq hnta hanchor]
  cases h with
  | @dsNameError s msg _ hs hasks hrcode hnsec h =>
    rw [walkChain_dsNameError hq hs hasks hrcode hnsec h]
    simp [resolveFrom, bogus]
  | @dsNoData s msg _ hs hasks hrcode hds hnsec h =>
    have hclassify : cw.classifyDSResponse (nextCandidate q s) s.zone s.parentKeys msg = .ok .insecure := by
      have hviaNSEC : cw.classifyDSViaNSEC (nextCandidate q s) s.parentKeys msg = none := by
        simp only [classifyDSViaNSEC, filterNSECByOwner, hnsec, List.length_nil, if_true]
      rw [classifyDSResponse, if_neg hrcode, hds, hviaNSEC, h.classifyDSViaNSEC3]
      rfl
    have hstep := hasks.walkStep_eq
    rw [hclassify] at hstep
    have hvalid : (nextCandidate q s).isValid = true := (truncateNameTo_spec hq hasks.above).1.1
    rw [hs.walkChain_eq_of_inr hq hstep]
    cases hsource : cw.source true q qtype with
    | ok msg => simp [resolveFrom, hsource, hvalid]
    | error text => simp [resolveFrom, hsource, hvalid, bogus]
  | @nameError s msg _ hs hend hmsg hrcode hnsec hzone hsigner h =>
    rw [hs.walkChain_eq_of_inr hq hend, resolveFrom_of_ok hmsg]
    simp [validateAnswer_nameError hrcode hnsec hzone hsigner h]
  | @noData s msg _ hs hend hmsg hrcode hrecords hnsec hzone hsigner h =>
    rw [hs.walkChain_eq_of_inr hq hend, resolveFrom_of_ok hmsg, validateAnswer_noData hrcode hrecords, validateNoData,
      hnsec, h.validateNoDataNSEC3 hzone hsigner]
    rcases h.downgrade with rfl | rfl <;> simp [bogus]

open OptOutSample in
theorem insecure_of_downgrade_sample : ((zoneWalker 0).resolve nameDA .a).1.result = .insecure ∨
    ∃ text, ((zoneWalker 0).resolve nameDA .a).1.reason = some (.lookup text) := by
  have hconsulted : (zoneWalker 0).Consulted zoneAnchor nameDA .a .dsNoData .optOut :=
    .dsNoData (reaches_start (.inl rfl)) asks (by decide) rfl (by decide +kernel) (downgrades (by decide +kernel))
  exact (insecure_of_downgrade_iff (by decide) (by decide +kernel) rfl hconsulted).mpr ⟨nofun, nofun⟩

open OptOutSample in
open SignedSample in
/-- The same records with the code NXDOMAIN, as for any name that is missing in a zone with opt-out. -/
theorem bogus_of_downgrade : (zoneWalker 3).Consulted zoneAnchor nameDA .a .dsNameError .optOut ∧
    closestAnchor (zoneWalker 3).anchors nameDA = some zoneAnchor ∧
    ((zoneWalker 3).resolve nameDA .a).1.result = .bogus ∧
    ((zoneWalker 3).resolve nameDA .a).1.reason = some (.dsClassify nameDA (.nxdomainProof .optOut)) := by
  have hdowngrades : (zoneWalker 3).Downgrades nameDA nameA 0 [key]
      (sectionOf sets) .optOut := downgrades (by decide +kernel)
  have hnsec : allNSEC (response 3 [] (sectionOf sets)).authorities = [] := by decide +kernel
  have hanchor : closestAnchor (zoneWalker 3).anchors nameDA = some zoneAnchor := rfl
  have hnta : (zoneWalker 3).ntas.covers nameDA = false := by decide +kernel
  have hresolve : (zoneWalker 3).resolve nameDA .a = (zoneWalker 3).bogus start.chain
      (.dsClassify nameDA (.nxdomainProof .optOut)) := by
    rw [resolve_eq (by decide) hnta hanchor,
      walkChain_dsNameError (by decide) (reaches_start (.inr rfl)) asks rfl hnsec hdowngrades]
    rfl
  rw [hresolve]
  exact ⟨.dsNameError (reaches_start (.inr rfl)) asks rfl hnsec hdowngrades, rfl, rfl, rfl⟩

end Acidns.ChainWalker
