import Acidns.Dnssec.Nsec3Proof
import Acidns.Dnssec.Signature

/-!
# The walk along the chain of trust

`validator/walker.go` with the anchors and negative trust anchors of `anchor.go` and `nta.go`: from a
configured anchor the walker goes down to the queried name label by label, asks at each for DS records, and
verifies the answer, or the denial of one, with the keys of the deepest signed zone. `dnssec.Verify` and
`dnssec.VerifyDS` are parameters and the clock stands still during a call.
-/

namespace Acidns

/-- `strings.ToLower` does nothing to a stored name. -/
def nameSuffixEqualOrSubdomain (sub parent : Name) : Bool :=
  if sub.equal parent then true
  else if parent.text = [0x2e] then true
  else (0x2e :: parent.text).isSuffixOf sub.text

def recordsOfType (records : List Record) (t : RRType) (owner : Name) : List Record :=
  records.filter fun r => r.type = t && r.name.equal owner

def filterNSECByOwner (records : List Record) (target : Name) : List Record := recordsOfType records .nsec target

/-- The signer of the first RRSIG. -/
def signerOf (records : List Record) : Name := ((records.findSome? asRRSIG).map RRSIG.signerName).getD .zero

def asDNSKEY (r : Record) : Option DNSKEY :=
  match r.rd with
  | .dnskey k => some k
  | _ => none

def asDS (r : Record) : Option DS :=
  match r.rd with
  | .ds d => some d
  | _ => none

/-! ### Anchors -/

/-- A zone that is trusted by its DS records. -/
structure Anchor where
  name : Name
  dss : List DS

def Anchor.isValid (a : Anchor) : Bool := a.name.isValid && a.dss.length > 0

/-- The anchor with the most labels of those that cover `qname`; of two with as many, the first. -/
def closestAnchorLoop (qname : Name) : List Anchor → (best : Option Anchor) → Option Anchor
  | [], best => best
  | a :: anchors, best =>
    if !nameSuffixEqualOrSubdomain qname a.name then closestAnchorLoop qname anchors best
    else if best.all fun b => a.name.numLabels > b.name.numLabels then closestAnchorLoop qname anchors (some a)
    else closestAnchorLoop qname anchors best

/-- The deepest anchor above the name. -/
def closestAnchor (anchors : List Anchor) (qname : Name) : Option Anchor :=
  (closestAnchorLoop qname anchors none).filter Anchor.isValid

/-- The active entries of an `NTAStore`, under the wire form of their names. -/
structure NTAStore where
  set : List (Bytes × Int)
  now : Int

/-- The scan of the ancestors; a name has no more than labels. -/
def NTAStore.coverScan (s : NTAStore) : (fuel : Nat) → (cur : Name) → Bool
  | 0, _ => false
  | fuel + 1, cur =>
    if (s.set.lookup (cur.appendWire [])).any fun expiresAt => expiresAt > s.now then true
    else
      match cur.parent with
      | none => false
      | some parent => s.coverScan fuel parent

/-- A negative anchor stands at the name or above it. -/
def NTAStore.covers (s : NTAStore) (n : Name) : Bool := n.isValid && s.coverScan (n.numLabels + 1) n

/-! ### Outcomes -/

/-- The verdict on an answer (RFC 4035). -/
inductive Result where
  | secure
  | insecure
  | bogus
  | indeterminate
  deriving DecidableEq

inductive BogusPolicy where
  | returnSERVFAIL
  | returnAnswer

/-- One zone of the chain of trust, with the keys found there. -/
structure ChainStep where
  zone : Name
  keys : List DNSKEY
  dss : List DS
  res : Result
  deriving DecidableEq

inductive KeyError where
  | lookup (text : String)
  | noDNSKEY
  /-- `ErrIterationLimit`, for the records before the filter and for the keys behind it. -/
  | tooMany (count cap : Nat)
  | badRData
  | noUsable
  /-- `ErrIterationLimit`. -/
  | tooManyAlgorithms
  | noMatch
  | noRRSIG
  | rrsig (cause : VerifyError)
  /-- `ErrAlgorithmIncomplete`. -/
  | algorithmIncomplete (alg : UInt8)
  deriving DecidableEq

inductive AlgsError where
  | rrsig (cause : VerifyError)
  | emptyRRset
  /-- `ErrAlgorithmIncomplete`. -/
  | incomplete (alg : UInt8)
  deriving DecidableEq

inductive NXDomainError where
  | nsec (cause : Walker.DenialError)
  | nsec3RRSIG (cause : Walker.DenialError)
  /-- `errInsecureNSEC3OptOut`. -/
  | optOut
  /-- `errInsecureNSEC3Iterations`. -/
  | iterations
  | notProved (qname : Name)
  | noNSEC3
  | noNSECOrNSEC3
  deriving DecidableEq

inductive DSError where
  | nxdomainProof (cause : NXDomainError)
  | badRData
  | noRRSIG
  | rrsig (cause : VerifyError)
  | nsecLacksRRSIG
  | nsecRRSIG (cause : VerifyError)
  | nsecNotProved
  | nsec3RRSIG (cause : Walker.DenialError)
  | nsec3NotProved
  | missingProof
  deriving DecidableEq

inductive ChainError where
  | invalidQname
  | ntaCovers
  | noTrustAnchor
  | anchor (zone : Name) (cause : KeyError)
  | iterationLimit
  | dsLookup (candidate : Name) (text : String)
  | dnskey (candidate : Name) (cause : KeyError)
  | dsClassify (candidate : Name) (cause : DSError)
  | nxdomainAtStep (candidate : Name)
  /-- `errNXDomainAtCandidate`. -/
  | nxdomainAtCandidate
  /-- Not an error of the code: the walk takes no more steps than the name has labels. -/
  | outOfFuel
  | lookup (text : String)
  | answerLookup (text : String)
  | unsignedAnswer
  | answerRRSIG (cause : AlgsError)
  | wildcardNextCloser (cause : Walker.DenialError)
  | noDataProof
  | noSecureZone
  | signerNotInChain (signer zone : Name)
  | nxdomainProof (cause : NXDomainError)
  deriving DecidableEq

/-- What `Resolve` returns. -/
structure Answer where
  result : Result
  records : List Record
  rcode : RCODE
  chain : List ChainStep
  reason : Option ChainError
  deriving DecidableEq

/-- What `walkChain` returns: `insecureFrom` is the zero name if the chain is secure throughout. -/
structure WalkEnd where
  chain : List ChainStep
  parentKeys : List DNSKEY
  insecureFrom : Name
  err : Option ChainError

/-- The validator with its source, anchors and bounds. -/
structure ChainWalker extends Walker where
  /-- `Source`. The answer is looked up last and may differ from an earlier answer to the same question. -/
  source : (final : Bool) → Name → RRType → Except String Message
  verifyDS : Name → DS → DNSKEY → Except String Unit
  anchors : List Anchor
  ntas : NTAStore
  bogusPolicy : BogusPolicy
  maxZoneCuts : Nat
  maxAlgs : Nat
  maxKeys : Nat

/-! ### Algorithms -/

namespace Walker

/-- The inner loop of `tryAlgorithm`: `.error` is what it returns, `.ok` the number of calls so far. -/
def tryAlgorithmKeys (w : Walker) (set : List Record) (sig : RRSIG) (alg : UInt8) :
    List DNSKEY → (tries : Nat) → Except Bool Nat
  | [], tries => .ok tries
  | key :: keys, tries =>
    if keyTag key ≠ sig.keyTag ∨ key.algorithm ≠ alg then tryAlgorithmKeys w set sig alg keys tries
    else if tries + 1 > w.maxRRSIGsTry then .error false
    else
      match w.verify set sig key with
      | .ok () => .error true
      | .error _ => tryAlgorithmKeys w set sig alg keys (tries + 1)

def tryAlgorithmSigs (w : Walker) (set : List Record) (keys : List DNSKEY) (alg : UInt8) :
    List RRSIG → (tries : Nat) → Bool
  | [], _ => false
  | sig :: sigs, tries =>
    if sig.algorithm ≠ alg then tryAlgorithmSigs w set keys alg sigs tries
    else if !rrsigValidNowWithSkew sig w.now w.skew then tryAlgorithmSigs w set keys alg sigs tries
    else
      match w.tryAlgorithmKeys set sig alg keys tries with
      | .error verified => verified
      | .ok tries => tryAlgorithmSigs w set keys alg sigs tries

/-- One signature of the algorithm verifies. -/
def tryAlgorithm (w : Walker) (set : List Record) (sigs : List RRSIG) (keys : List DNSKEY) (alg : UInt8) : Bool :=
  w.tryAlgorithmSigs set keys alg sigs 0

/-- The algorithms stand in a map; the one that an error names is any that fails. -/
def verifyRRsetAllAlgs (w : Walker) (set : List Record) (sigs : List RRSIG) (keys : List DNSKEY)
    (requiredAlgs : List UInt8) : Except AlgsError Unit :=
  if requiredAlgs.length = 0 then (w.verifyRRsetWithKeys set sigs keys).mapError .rrsig
  else if set.length = 0 then .error .emptyRRset
  else
    match requiredAlgs.find? fun alg => !w.tryAlgorithm set sigs keys alg with
    | some alg => .error (.incomplete alg)
    | none => .ok ()

end Walker

/-- The last secure zone of the chain. -/
def deepestSecureZone (chain : List ChainStep) : Name :=
  ((chain.reverse.find? fun v => v.res = .secure).map ChainStep.zone).getD .zero

/-- The algorithms of the last secure zone with DS records. -/
def signingAlgorithms (chain : List ChainStep) : List UInt8 :=
  match chain.reverse.find? fun v => v.res = .secure && v.dss.length ≠ 0 with
  | some v => (v.dss.map DS.algorithm).dedup
  | none => []

namespace ChainWalker

/-! ### Keys -/

/-- A zone key that is not revoked. -/
def usableKey (k : DNSKEY) : Bool :=
  !(k.protocol ≠ 3 || k.flags &&& Dnssec.dnskeyFlagRevoke ≠ 0) && k.flags &&& Dnssec.dnskeyFlagZone ≠ 0

/-- The key whose digest is the DS record's. -/
def keyForDS (cw : ChainWalker) (zone : Name) (keys : List DNSKEY) (ds : DS) : Option DNSKEY :=
  keys.find? fun key =>
    !(keyTag key ≠ ds.keyTag || key.algorithm ≠ ds.algorithm) && (cw.verifyDS zone ds key).isOk

/-- The keys of a zone, vouched for by its DS records. -/
def fetchAndVerifyDNSKEY (cw : ChainWalker) (zone : Name) (dss : List DS) : Except KeyError (List DNSKEY) := do
  let msg ← (cw.source false zone .dnskey).mapError .lookup
  let dnskeyRRs := recordsOfType msg.answers .dnskey zone
  refuseIf (dnskeyRRs.length = 0) .noDNSKEY
  refuseIf (cw.maxKeys * 4 > 0 ∧ dnskeyRRs.length > cw.maxKeys * 4) (.tooMany dnskeyRRs.length (cw.maxKeys * 4))
  refuseIf ((dnskeyRRs.any fun r => (asDNSKEY r).isNone) = true) .badRData
  let keys := (dnskeyRRs.filterMap asDNSKEY).filter usableKey
  refuseIf (keys.length = 0) .noUsable
  refuseIf (keys.length > cw.maxKeys) (.tooMany keys.length cw.maxKeys)
  let parentAlgs := (dss.map DS.algorithm).dedup
  refuseIf (parentAlgs.length > cw.maxAlgs) .tooManyAlgorithms
  let trustedKSKs := dss.filterMap (cw.keyForDS zone keys)
  refuseIf (trustedKSKs.length = 0) .noMatch
  let sigs := rrsigsForTypeAndOwner (extractRRSIGs msg.answers) .dnskey zone
  refuseIf (sigs.length = 0) .noRRSIG
  (cw.verifyRRsetWithKeys dnskeyRRs sigs trustedKSKs).mapError .rrsig
  match parentAlgs.find? fun alg => !cw.tryAlgorithm dnskeyRRs sigs keys alg with
  | some alg => .error (.algorithmIncomplete alg)
  | none => .ok keys

/-! ### Names that do not exist -/

def validateNSEC3NXDomain (cw : ChainWalker) (qname parentZone : Name) (parentKeys : List DNSKEY) (msg : Message) :
    Except NXDomainError Unit :=
  let nsec3RRs := recordsOfType3 msg.authorities
  if nsec3RRs.length = 0 then .error .noNSEC3
  else
    match cw.verifyNSEC3Set nsec3RRs msg.authorities parentKeys with
    | .error cause => .error (.nsec3RRSIG cause)
    | .ok () =>
      match (Walker.nsec3ProveDenial cw.sha1 qname 0 parentZone nsec3RRs).kind with
      | .nxdomain => .ok ()
      | .optOut => .error .optOut
      | .iterationsExceeded => .error .iterations
      | _ => .error (.notProved qname)

/-- A name error by NSEC, or else by NSEC3. -/
def validateNXDomain (cw : ChainWalker) (qname parentZone : Name) (parentKeys : List DNSKEY) (msg : Message) :
    Except NXDomainError Unit :=
  if (allNSEC msg.authorities).length > 0 then (cw.validateNSECNXDomain qname parentKeys msg).mapError .nsec
  else if (recordsOfType3 msg.authorities).length > 0 then cw.validateNSEC3NXDomain qname parentZone parentKeys msg
  else .error .noNSECOrNSEC3

/-! ### DS records -/

/-- What the answer to a DS question says of the name. -/
inductive DSOutcome where
  | cut (dss : List DS)
  | insecure
  | nonCut
  | nxdomain
  deriving DecidableEq

def classifyTypes (types : List RRType) : Option DSOutcome :=
  if Walker.bitmapHas types .ns && !Walker.bitmapHas types .ds && !Walker.bitmapHas types .soa then some .insecure
  else if !Walker.bitmapHas types .ds then some .nonCut
  else none

def classifyDSViaNSEC (cw : ChainWalker) (candidate : Name) (parentKeys : List DNSKEY) (msg : Message) :
    Option (Except DSError DSOutcome) :=
  let nsecRRs := recordsOfType msg.authorities .nsec candidate
  let nsecRRs := if nsecRRs.length = 0 then filterNSECByOwner msg.authorities candidate else nsecRRs
  if nsecRRs.length = 0 then none
  else
    let sigs := rrsigsForTypeAndOwner (extractRRSIGs msg.authorities) .nsec candidate
    if sigs.length = 0 then some (.error .nsecLacksRRSIG)
    else
      match cw.verifyRRsetWithKeys nsecRRs sigs parentKeys with
      | .error cause => some (.error (.nsecRRSIG cause))
      | .ok () =>
        match nsecRRs.findSome? fun r => (asNSEC r).bind fun nsec => classifyTypes nsec.types with
        | some outcome => some (.ok outcome)
        | none => some (.error .nsecNotProved)

def classifyDSViaNSEC3 (cw : ChainWalker) (candidate parentZone : Name) (parentKeys : List DNSKEY) (msg : Message) :
    Option (Except DSError DSOutcome) :=
  let nsec3RRs := recordsOfType3 msg.authorities
  if nsec3RRs.length = 0 then none
  else
    match cw.verifyNSEC3Set nsec3RRs msg.authorities parentKeys with
    | .error cause => some (.error (.nsec3RRSIG cause))
    | .ok () =>
      match (Walker.nsec3ProveDenial cw.sha1 candidate .ds parentZone nsec3RRs).kind with
      | .insecureDelegation => some (.ok .insecure)
      | .optOut => some (.ok .insecure)
      | .iterationsExceeded => some (.ok .insecure)
      | .noData => some (.ok .nonCut)
      | _ => some (.error .nsec3NotProved)

def verifyDSSet (cw : ChainWalker) (candidate : Name) (parentKeys : List DNSKEY) (msg : Message)
    (dsRRs : List Record) : Except DSError DSOutcome :=
  if dsRRs.any fun r => (asDS r).isNone then .error .badRData
  else
    let sigs := rrsigsForTypeAndOwner (extractRRSIGs msg.answers) .ds candidate
    if sigs.length = 0 then .error .noRRSIG
    else
      match cw.verifyRRsetWithKeys dsRRs sigs parentKeys with
      | .error cause => .error (.rrsig cause)
      | .ok () => .ok (.cut (dsRRs.filterMap asDS))

/-- A cut, an insecure cut, no cut, or no name. -/
def classifyDSResponse (cw : ChainWalker) (candidate parentZone : Name) (parentKeys : List DNSKEY) (msg : Message) :
    Except DSError DSOutcome :=
  if msg.flags.rcode = .nxDomain then
    match cw.validateNXDomain candidate parentZone parentKeys msg with
    | .error cause => .error (.nxdomainProof cause)
    | .ok () => .ok .nxdomain
  else
    let dsRRs := recordsOfType msg.answers .ds candidate
    if dsRRs.length > 0 then cw.verifyDSSet candidate parentKeys msg dsRRs
    else
      match cw.classifyDSViaNSEC candidate parentKeys msg with
      | some outcome => outcome
      | none =>
        match cw.classifyDSViaNSEC3 candidate parentZone parentKeys msg with
        | some outcome => outcome
        | none => .error .missingProof

/-! ### The walk -/

/-- Where the walk stands: the steps so far, and the name reached, which need not be a zone cut. -/
structure WalkState where
  chain : List ChainStep
  parentKeys : List DNSKEY
  zone : Name

/-- One label down from the zone at hand. -/
def walkStep (cw : ChainWalker) (qname : Name) (s : WalkState) : WalkState ⊕ WalkEnd :=
  if s.zone.equal qname then .inr ⟨s.chain, s.parentKeys, .zero, none⟩
  else if s.chain.length > cw.maxZoneCuts then .inr ⟨s.chain, [], .zero, some .iterationLimit⟩
  else if s.zone.numLabels + 1 > qname.numLabels then .inr ⟨s.chain, s.parentKeys, .zero, none⟩
  else
    let candidate := truncateNameTo qname (s.zone.numLabels + 1)
    if cw.ntas.covers candidate then .inr ⟨s.chain, s.parentKeys, candidate, none⟩
    else
      match cw.source false candidate .ds with
      | .error text => .inr ⟨s.chain, [], .zero, some (.dsLookup candidate text)⟩
      | .ok dsMsg =>
        match cw.classifyDSResponse candidate s.zone s.parentKeys dsMsg with
        | .error cause => .inr ⟨s.chain, [], .zero, some (.dsClassify candidate cause)⟩
        | .ok (.cut dss) =>
          match cw.fetchAndVerifyDNSKEY candidate dss with
          | .error cause => .inr ⟨s.chain, [], .zero, some (.dnskey candidate cause)⟩
          | .ok childKeys => .inl ⟨s.chain ++ [⟨candidate, childKeys, dss, .secure⟩], childKeys, candidate⟩
        | .ok .insecure => .inr ⟨s.chain ++ [⟨candidate, [], [], .insecure⟩], s.parentKeys, candidate, none⟩
        | .ok .nonCut => .inl { s with zone := candidate }
        | .ok .nxdomain =>
          if candidate.equal qname then
            .inr ⟨s.chain ++ [⟨candidate, [], [], .secure⟩], s.parentKeys, candidate, some .nxdomainAtCandidate⟩
          else .inr ⟨s.chain, [], .zero, some (.nxdomainAtStep candidate)⟩

/-- Steps until one of them ends the walk. -/
def walkLoop (cw : ChainWalker) (qname : Name) : (fuel : Nat) → WalkState → WalkEnd
  | 0, s => ⟨s.chain, [], .zero, some .outOfFuel⟩
  | fuel + 1, s =>
    match cw.walkStep qname s with
    | .inl s => cw.walkLoop qname fuel s
    | .inr out => out

/-- The walk from the anchor, whose keys are checked first. -/
def walkChain (cw : ChainWalker) (anchor : Anchor) (qname : Name) : WalkEnd :=
  match cw.fetchAndVerifyDNSKEY anchor.name anchor.dss with
  | .error cause => ⟨[], [], .zero, some (.anchor anchor.name cause)⟩
  | .ok keys =>
    cw.walkLoop qname (qname.numLabels + 1) ⟨[⟨anchor.name, keys, anchor.dss, .secure⟩], keys, anchor.name⟩

/-! ### Answers -/

/-- The answer and the error that `Resolve` returns beside it. -/
abbrev Resolved := Answer × Option ChainError

/-- A bogus answer. The error wraps `ErrBogus`, and is not returned if the policy asks for the answer. -/
def bogus (cw : ChainWalker) (chain : List ChainStep) (err : ChainError) : Resolved :=
  (⟨.bogus, [], .noError, chain, some err⟩,
    match cw.bogusPolicy with
    | .returnAnswer => none
    | .returnSERVFAIL => some err)

/-- The NSEC at the name lacks the type. -/
def provesNoData (qname : Name) (qtype : RRType) (r : Record) : Bool :=
  r.name.equal qname &&
    (asNSEC r).any fun nsec => !Walker.bitmapHas nsec.types qtype && !Walker.bitmapHas nsec.types .cname

/-- The NSEC points below the name, so it exists without records. -/
def provesNonTerminal (qname : Name) (r : Record) : Bool :=
  (asNSEC r).any fun nsec =>
    !nsec.next.equal qname && nameSuffixEqualOrSubdomain qname r.name && !r.name.equal qname &&
      nameSuffixEqualOrSubdomain nsec.next qname

def validateNoDataNSEC (cw : ChainWalker) (qname : Name) (qtype : RRType) (parentKeys : List DNSKEY) (msg : Message)
    (chain : List ChainStep) : Option Answer :=
  let allNSECs := allNSEC msg.authorities
  if allNSECs.length = 0 then none
  else
    match cw.verifyGroups .nsec msg.authorities parentKeys (groupRecordsByOwner allNSECs) with
    | .error _ => none
    | .ok () =>
      if allNSECs.any (provesNoData qname qtype) then some ⟨.secure, [], .noError, chain, none⟩
      else if allNSECs.any (provesNonTerminal qname) then some ⟨.secure, [], .noError, chain, none⟩
      else none

/-- The zone is neither the signer nor below it. -/
def foreignSigner (zone respSigner : Name) : Bool :=
  respSigner.isValid && !nameSuffixEqualOrSubdomain zone respSigner && !respSigner.equal zone

def validateNoDataNSEC3 (cw : ChainWalker) (qname : Name) (qtype : RRType) (parentKeys : List DNSKEY) (msg : Message)
    (chain : List ChainStep) : Option Answer :=
  let nsec3RRs := recordsOfType3 msg.authorities
  if nsec3RRs.length = 0 then none
  else
    match cw.verifyNSEC3Set nsec3RRs msg.authorities parentKeys with
    | .error _ => none
    | .ok () =>
      let zone := deepestSecureZone chain
      if !zone.isValid then none
      else if foreignSigner zone (signerOf msg.authorities) then none
      else
        match (Walker.nsec3ProveDenial cw.sha1 qname qtype zone nsec3RRs).kind with
        | .noData => some ⟨.secure, [], .noError, chain, none⟩
        | .iterationsExceeded => some ⟨.insecure, msg.answers, .noError, chain, none⟩
        | _ => none

def validateNoData (cw : ChainWalker) (qname : Name) (qtype : RRType) (parentKeys : List DNSKEY) (msg : Message)
    (chain : List ChainStep) : Resolved :=
  match cw.validateNoDataNSEC qname qtype parentKeys msg chain with
  | some ans => (ans, none)
  | none =>
    match cw.validateNoDataNSEC3 qname qtype parentKeys msg chain with
    | some ans => (ans, none)
    | none => cw.bogus chain .noDataProof

/-- A response without answers, by its response code. -/
def validateNegative (cw : ChainWalker) (qname : Name) (qtype : RRType) (parentKeys : List DNSKEY) (msg : Message)
    (chain : List ChainStep) : Resolved :=
  if msg.flags.rcode ≠ .nxDomain then cw.validateNoData qname qtype parentKeys msg chain
  else
    let zone := deepestSecureZone chain
    if !zone.isValid then cw.bogus chain .noSecureZone
    else if foreignSigner zone (signerOf msg.authorities) then
      cw.bogus chain (.signerNotInChain (signerOf msg.authorities) zone)
    else
      match cw.validateNXDomain qname zone parentKeys msg with
      | .ok () => (⟨.secure, [], .nxDomain, chain, none⟩, none)
      | .error .iterations => (⟨.insecure, [], .nxDomain, chain, some (.nxdomainProof .iterations)⟩, none)
      | .error .optOut => (⟨.insecure, [], .nxDomain, chain, some (.nxdomainProof .optOut)⟩, none)
      | .error cause => cw.bogus chain (.nxdomainProof cause)

/-- The answer's own set, with the proof an expansion needs. -/
def validatePositive (cw : ChainWalker) (qname : Name) (qtype : RRType) (parentKeys : List DNSKEY) (msg : Message)
    (chain : List ChainStep) (records : List Record) : Resolved :=
  let sigs := rrsigsForTypeAndOwner (extractRRSIGs msg.answers) qtype qname
  if sigs.length = 0 then cw.bogus chain .unsignedAnswer
  else
    match cw.verifyRRsetAllAlgs records sigs parentKeys (signingAlgorithms chain) with
    | .error cause => cw.bogus chain (.answerRRSIG cause)
    | .ok () =>
      match cw.validateExpansion qname sigs parentKeys msg with
      | .ok () => (⟨.secure, records, msg.flags.rcode, chain, none⟩, none)
      | .error .optOut => (⟨.insecure, records, msg.flags.rcode, chain, some (.wildcardNextCloser .optOut)⟩, none)
      | .error cause => cw.bogus chain (.wildcardNextCloser cause)

/-- The answer of a zone whose keys are `parentKeys`. -/
def validateAnswer (cw : ChainWalker) (qname : Name) (qtype : RRType) (parentKeys : List DNSKEY) (msg : Message)
    (chain : List ChainStep) : Resolved :=
  if msg.flags.rcode = .noError ∧ msg.answers.length > 0 then
    let records := recordsOfType msg.answers qtype qname
    if records.length = 0 then cw.validateNoData qname qtype parentKeys msg chain
    else cw.validatePositive qname qtype parentKeys msg chain records
  else cw.validateNegative qname qtype parentKeys msg chain

def resolveFrom (cw : ChainWalker) (qname : Name) (qtype : RRType) (out : WalkEnd) : Resolved :=
  match out.err with
  | some .nxdomainAtCandidate => (⟨.secure, [], .nxDomain, out.chain, none⟩, none)
  | some err => cw.bogus out.chain err
  | none =>
    match cw.source true qname qtype with
    | .error text => cw.bogus out.chain (if out.insecureFrom.isValid then .lookup text else .answerLookup text)
    | .ok msg =>
      if out.insecureFrom.isValid then (⟨.insecure, msg.answers, msg.flags.rcode, out.chain, none⟩, none)
      else cw.validateAnswer qname qtype out.parentKeys msg out.chain

/-- The zero `Answer`, which is also returned for an invalid name, is a secure one without records. -/
def resolve (cw : ChainWalker) (qname : Name) (qtype : RRType) : Resolved :=
  if !qname.isValid then (⟨.secure, [], .noError, [], none⟩, some .invalidQname)
  else if cw.ntas.covers qname then (⟨.indeterminate, [], .noError, [], some .ntaCovers⟩, none)
  else
    match closestAnchor cw.anchors qname with
    | none => (⟨.indeterminate, [], .noError, [], some .noTrustAnchor⟩, some .noTrustAnchor)
    | some anchor => cw.resolveFrom qname qtype (cw.walkChain anchor qname)

end ChainWalker

end Acidns
