import Acidns.Dnssec.Walk

/-!
# What stands behind a secure answer

The records of a secure answer are verified by a signature of the response, in its time, with a key of the
deepest signed zone of the chain, once in each algorithm of its DS records. The name of the signer is not
compared with the name of that zone: the walker selects signatures by the covered type and keys by tag and
algorithm, and `dnssec.Verify` only hashes the name. A zone may so sign for its own records in the name of another.
-/

namespace Acidns

open List

variable {ans : Answer} {err : Option ChainError}

namespace Walker

variable {w : Walker} {keys : List DNSKEY} {set : List Record} {sigs : List RRSIG} {alg : UInt8}

variable {tries : Nat} {requiredAlgs : List UInt8}

theorem exists_of_tryAlgorithmKeys {sig : RRSIG}
    (h : w.tryAlgorithmKeys set sig alg keys tries = .error true) :
    ∃ key ∈ keys, w.verify set sig key = .ok () := by
  induction keys generalizing tries with
  | nil => cases h
  | cons key keys ih => grind [tryAlgorithmKeys]

theorem verifiedBy_of_tryAlgorithmSigs (h : w.tryAlgorithmSigs set keys alg sigs tries = true) :
    w.VerifiedBy (sigs.filter (·.algorithm = alg)) keys set := by
  induction sigs generalizing tries with
  | nil => cases h
  | cons sig sigs ih =>
    rw [tryAlgorithmSigs] at h
    split at h
    · next halg =>
      rw [filter_cons_of_neg (by simpa using halg)]
      exact ih h
    next halg =>
      rw [filter_cons_of_pos (by simpa using halg)]
      split at h
      · exact (ih h).mono (subset_cons_self _ _)
      next hvalid =>
        split at h
        · next hkeys =>
          subst h
          exact ⟨sig, .head _, by simpa using hvalid, exists_of_tryAlgorithmKeys hkeys⟩
        · exact (ih h).mono (subset_cons_self _ _)

theorem tryAlgorithmSigs_filter :
    w.tryAlgorithmSigs set keys alg (sigs.filter (·.algorithm = alg)) tries =
      w.tryAlgorithmSigs set keys alg sigs tries := by
  induction sigs generalizing tries with
  | nil => rfl
  | cons sig sigs ih => grind [tryAlgorithmSigs]

theorem tryAlgorithm_congr {sigs' : List RRSIG}
    (h : sigs.filter (·.algorithm = alg) = sigs'.filter (·.algorithm = alg)) :
    w.tryAlgorithm set sigs keys alg = w.tryAlgorithm set sigs' keys alg := by
  unfold tryAlgorithm
  rw [← tryAlgorithmSigs_filter, h, tryAlgorithmSigs_filter]

theorem tryAlgorithm_of_verifyRRsetAllAlgs (h : w.verifyRRsetAllAlgs set sigs keys requiredAlgs = .ok ()) :
    ∀ alg ∈ requiredAlgs, w.tryAlgorithm set sigs keys alg = true := by
  grind [verifyRRsetAllAlgs]

theorem verifiedBy_of_verifyRRsetAllAlgs (h : w.verifyRRsetAllAlgs set sigs keys requiredAlgs = .ok ()) :
    ∀ alg ∈ requiredAlgs, w.VerifiedBy (sigs.filter (·.algorithm = alg)) keys set :=
  fun alg halg => verifiedBy_of_tryAlgorithmSigs (tryAlgorithm_of_verifyRRsetAllAlgs h alg halg)

end Walker

namespace ChainWalker

variable {cw : ChainWalker} {qname : Name} {qtype : RRType} {keys : List DNSKEY} {msg : Message}
  {chain : List ChainStep}

theorem validateNoData_records (hsecure : (cw.validateNoData qname qtype keys msg chain).1.result = .secure) :
    (cw.validateNoData qname qtype keys msg chain).1.records = [] := by
  grind [validateNoData, validateNoDataNSEC, validateNoDataNSEC3, bogus]

theorem validateNegative_records (hsecure : (cw.validateNegative qname qtype keys msg chain).1.result = .secure) :
    (cw.validateNegative qname qtype keys msg chain).1.records = [] := by
  grind [validateNegative, validateNoData_records, bogus]

/-! ### Records are verified -/

theorem validatePositive_secure {records : List Record}
    (hsecure : (cw.validatePositive qname qtype keys msg chain records).1.result = .secure) :
    cw.validatePositive qname qtype keys msg chain records =
        (⟨.secure, records, msg.flags.rcode, chain, none⟩, none) ∧
      cw.verifyRRsetAllAlgs records (rrsigsForTypeAndOwner (extractRRSIGs msg.answers) qtype qname) keys
        (signingAlgorithms chain) = .ok () := by
  grind [validatePositive, bogus]

theorem validateAnswer_secure (h : cw.validateAnswer qname qtype keys msg chain = (ans, err))
    (hsecure : ans.result = .secure) (hrecords : ans.records ≠ []) :
    ans.chain = chain ∧ ans.records = recordsOfType msg.answers qtype qname ∧
      cw.verifyRRsetAllAlgs ans.records (rrsigsForTypeAndOwner (extractRRSIGs msg.answers) qtype qname) keys
        (signingAlgorithms chain) = .ok () := by
  grind [validateAnswer, validateNoData_records, validatePositive_secure, validateNegative_records]

theorem resolveFrom_secure {out : WalkEnd}
    (h : cw.resolveFrom qname qtype out = (ans, err)) (hsecure : ans.result = .secure) (hrecords : ans.records ≠ []) :
    out.err = none ∧ out.insecureFrom.isValid = false ∧
      ∃ msg, cw.source true qname qtype = .ok msg ∧ ans.chain = out.chain ∧
        ans.records = recordsOfType msg.answers qtype qname ∧
        cw.verifyRRsetAllAlgs ans.records (rrsigsForTypeAndOwner (extractRRSIGs msg.answers) qtype qname) out.parentKeys
          (signingAlgorithms out.chain) = .ok () := by
  grind [resolveFrom, validateAnswer_secure, bogus]

theorem signingAlgorithms_concat {front : List ChainStep} {step : ChainStep} (hres : step.res = .secure)
    (hdss : step.dss ≠ []) : signingAlgorithms (front ++ [step]) = (step.dss.map DS.algorithm).dedup := by
  simp [signingAlgorithms, hres, hdss]

theorem dss_ne_nil_of_fetchAndVerifyDNSKEY {zone : Name} {dss : List DS}
    (h : cw.fetchAndVerifyDNSKEY zone dss = .ok keys) : dss ≠ [] := by
  rintro rfl
  unfold fetchAndVerifyDNSKEY at h
  -- the lookup and the checks before the keys are matched
  iterate 7 obtain ⟨_, -, h⟩ := bind_ok h
  obtain ⟨_, hmatch, -⟩ := bind_ok h
  exact refuseIf_ok.mp hmatch rfl

theorem mem_of_closestAnchorLoop {anchors : List Anchor} {best : Option Anchor} {a : Anchor}
    (h : closestAnchorLoop qname anchors best = some a) : a ∈ anchors ∨ best = some a := by
  induction anchors generalizing best with
  | nil => exact .inr h
  | cons b anchors ih => grind [closestAnchorLoop]

/-- The walk goes from the anchor through zones at or above the name. -/
theorem Reaches.zone_of_mem {anchor : Anchor} {s : WalkState} (hq : qname.isValid) (hs : cw.Reaches anchor qname s) :
    ∀ step ∈ s.chain, step.zone = anchor.name ∨ step.zone.Encloses qname := by
  induction hs with
  | start h => exact forall_mem_singleton.mpr (.inl rfl)
  | step hs h ih =>
    obtain ⟨hlabels, hzone, hrest⟩ := walkStep_inl h
    rcases hrest with ⟨hchain, -⟩ | ⟨dss, -, hchain⟩
    · rwa [hchain]
    · rw [hchain, forall_mem_append, forall_mem_singleton]
      exact ⟨ih, .inr (hzone ▸ (truncateNameTo_spec hq hlabels).1)⟩

/-- A zone whose keys the walk may ask for: an anchor, or a zone at or above the name. -/
def OnTheWay (cw : ChainWalker) (qname zone : Name) : Prop := (∃ a ∈ cw.anchors, zone = a.name) ∨ zone.Encloses qname

/-- Where a secure answer comes from: a chain of secure zones and a verified set. -/
theorem resolve_secure (h : cw.resolve qname qtype = (ans, err)) (hsecure : ans.result = .secure)
    (hrecords : ans.records ≠ []) :
    ∃ msg, cw.source true qname qtype = .ok msg ∧ ans.records = recordsOfType msg.answers qtype qname ∧
      ∃ front step, ans.chain = front ++ [step] ∧ step.res = .secure ∧ cw.OnTheWay qname step.zone ∧
      step.dss ≠ [] ∧ cw.fetchAndVerifyDNSKEY step.zone step.dss = .ok step.keys ∧
      cw.verifyRRsetAllAlgs ans.records (rrsigsForTypeAndOwner (extractRRSIGs msg.answers) qtype qname) step.keys
        (step.dss.map DS.algorithm).dedup = .ok () := by
  unfold resolve at h
  split at h
  · cases h
    exact absurd rfl hrecords
  next hq =>
    have hvalid : qname.isValid = true := by simpa using hq
    split at h
    · cases h
      cases hsecure
    split at h
    · cases h
      cases hsecure
    next anchor hanchor =>
      obtain ⟨herr, hinsecure, msg, hmsg, hchain, hanswer, hverify⟩ := resolveFrom_secure h hsecure hrecords
      rcases @walkChain_spec cw anchor qname hvalid with ⟨cause, hout⟩ | ⟨s, hs, hstep⟩
      · rw [hout] at herr
        cases herr
      -- the walk ends with the keys of its last step
      obtain ⟨front, step, hfront, hres, hkeys, hfetch⟩ := hs.atZone
      have hout : cw.walkChain anchor qname = ⟨s.chain, s.parentKeys, .zero, none⟩ := by grind [walkStep_inr]
      have hdss := dss_ne_nil_of_fetchAndVerifyDNSKEY hfetch
      have hzone : cw.OnTheWay qname step.zone := by
        rcases hs.zone_of_mem hvalid step (hfront ▸ mem_concat_self) with heq | habove
        · rcases mem_of_closestAnchorLoop (Option.filter_eq_some_iff.mp hanchor).1 with hmem | hnone
          · exact .inl ⟨anchor, hmem, heq⟩
          · cases hnone
        · exact .inr habove
      rw [hout] at hchain hverify
      dsimp only at hchain hverify
      rw [hfront] at hchain
      rw [hfront, signingAlgorithms_concat hres hdss, ← hkeys] at hverify
      exact ⟨msg, hmsg, hanswer, front, step, hchain, hres, hzone, hdss, hfetch, hverify⟩

/-- A signature by which the answer may be secure. -/
def AcceptableSig (cw : ChainWalker) (answers : List Record) (qtype : RRType) (keys : List DNSKEY)
    (records : List Record) (sig : RRSIG) : Prop :=
  sig ∈ extractRRSIGs answers ∧ sig.typeCovered = qtype ∧ rrsigValidNowWithSkew sig cw.now cw.skew = true ∧
    ∃ key ∈ keys, cw.verify records sig key = .ok ()

theorem acceptableSig_of_verifyRRsetAllAlgs {records : List Record} {requiredAlgs : List UInt8}
    (h : cw.verifyRRsetAllAlgs records (rrsigsForTypeAndOwner (extractRRSIGs msg.answers) qtype qname) keys
      requiredAlgs = .ok ()) {alg : UInt8} (halg : alg ∈ requiredAlgs) :
    ∃ sig, sig.algorithm = alg ∧ cw.AcceptableSig msg.answers qtype keys records sig := by
  obtain ⟨sig, hsig, htime, hkey⟩ := Walker.verifiedBy_of_verifyRRsetAllAlgs h alg halg
  obtain ⟨hsig, hsigAlg⟩ := mem_filter.mp hsig
  obtain ⟨hsig, htype⟩ := mem_filter.mp hsig
  exact ⟨sig, by simpa using hsigAlg, hsig, by simpa using htype, htime, hkey⟩

/-! ### A signed zone -/

namespace SignedSample

open Octets (bigEndian)

def nameA : Name := Name.Short.a
def key : DNSKEY := ⟨0x0101, 3, 15, bigEndian 32 0x79b5562e8fe654f94078b112e8a98ba7901f853ae695bed7e0e3910bad049664⟩

def ds : DS := ⟨36560, 15, 2, bigEndian 32 0x9727da5c4c2fb7aa11c77b6b3d8fab3aefa750593fe32093257b6badf45fde67⟩

def record (owner : Name) (rd : RData) : Record := newRecord owner (3600 * second) rd

def sigOf (typeCovered : RRType) (labels : UInt8) (signer : Name) (r s : Nat) : RRSIG :=
  ⟨typeCovered, 15, labels, 3600, 1800000000, 1700000000, 36560, signer, bigEndian 32 r ++ bigEndian 32 s⟩

def crypto (signed : List (List Record × RRSIG)) : Dnssec.Crypto where
  verifyRSA _ _ _ _ := .error "dnssecbb: signature mismatch"
  verifyECDSAP256 _ _ _ := .error "dnssecbb: signature mismatch"
  verifyECDSAP384 _ _ _ := .error "dnssecbb: signature mismatch"
  verifyEd25519 pub data sig :=
    if pub = key.pubkey ∧ signed.any fun e => e.2.signature = sig && Dnssec.signedData e.1 e.2 = .ok data then
      .ok ()
    else .error "dnssecbb: signature mismatch"
  digest digestType data :=
    if digestType = 2 ∧ data = nameA.appendWire [] ++ dnskeyWire key then some ds.digest else none

def keySet : List Record := [record nameA (.dnskey key)]

def keySig : RRSIG :=
  sigOf .dnskey 1 nameA 0x45dd86c9c6cb131062d3349519554d3256a14b2d2d01f5450f2d9b4b6b0197da
    0x24d0be525b9bb383f5664c18af465b2316863a9ba0af95d9ec750c74bf1d7f09

def response (flags : Flags) (answers authorities : List Record) : Message :=
  ⟨0, flags, [], answers, authorities, [], none⟩

def walker (signed : List (List Record × RRSIG)) (source : Name → RRType → Except String Message) :
    ChainWalker where
  verify := Dnssec.verify (crypto ((keySet, keySig) :: signed))
  sha1 := Walker.HashedSample.sha1
  now := 1750000000 * second
  skew := 0
  maxRRSIGsTry := 8
  source _ n t :=
    if n = nameA ∧ t = .dnskey then .ok (response 0 (keySet ++ [record nameA (.rrsig keySig)]) []) else source n t
  verifyDS := Dnssec.verifyDS (crypto [])
  anchors := [⟨nameA, [ds]⟩]
  ntas := ⟨[], 0⟩
  bogusPolicy := .returnSERVFAIL
  maxZoneCuts := 16
  maxAlgs := 4
  maxKeys := 16

theorem signedData_isOk {set : List Record} {sig : RRSIG} (h : set ≠ []) :
    ∃ data, Dnssec.signedData set sig = .ok data := by
  obtain ⟨r, rs, rfl⟩ := exists_cons_of_ne_nil h
  exact ⟨_, rfl⟩

theorem verify_of_mem {signed : List (List Record × RRSIG)} {set : List Record} {sig : RRSIG}
    (h : (set, sig) ∈ signed) (hset : set ≠ []) (halg : sig.algorithm = 15) (htag : sig.keyTag = 36560) :
    Dnssec.verify (crypto signed) set sig key = .ok () := by
  obtain ⟨data, hdata⟩ := @signedData_isOk set sig hset
  have hkey : Dnssec.validateDNSKEY key = .ok () := by decide +kernel
  have hkeyTag : keyTag key = 36560 := by decide +kernel
  have hany : signed.any (fun e => e.2.signature = sig.signature && Dnssec.signedData e.1 e.2 = .ok data) = true :=
    any_eq_true.mpr ⟨_, h, by simp [hdata]⟩
  have hed25519 : (crypto signed).verifyEd25519 key.pubkey data sig.signature = .ok () := if_pos ⟨rfl, hany⟩
  rw [Dnssec.verify, hkey, hdata, halg, htag, hkeyTag]
  exact hed25519

/-! Sections of records that are each signed by themselves. -/

def sectionOf (sets : List (Record × RRSIG)) : List Record :=
  sets.flatMap fun e => [e.1, record e.1.name (.rrsig e.2)]

def SignedAs (t : RRType) (e : Record × RRSIG) : Prop :=
  e.1.type = t ∧ e.2.typeCovered = t ∧ e.2.algorithm = 15 ∧ e.2.keyTag = 36560 ∧
    rrsigValidNowWithSkew e.2 (1750000000 * second) 0 = true

instance (t : RRType) (e : Record × RRSIG) : Decidable (SignedAs t e) := inferInstanceAs (Decidable (_ ∧ _))

variable {t : RRType} {sets : List (Record × RRSIG)} {signed : List (List Record × RRSIG)}
  {source : Name → RRType → Except String Message}

theorem filter_sectionOf (ht : t ≠ .rrsig) (h : ∀ e ∈ sets, SignedAs t e) :
    (sectionOf sets).filter (fun r => r.type = t) = sets.map Prod.fst := by
  induction sets with
  | nil => rfl
  | cons e sets ih =>
    obtain ⟨⟨htype, -⟩, hrest⟩ := forall_mem_cons.mp h
    have hsig : ¬(record e.1.name (.rrsig e.2)).type = t := Ne.symm ht
    have hfirst : [e.1, record e.1.name (.rrsig e.2)].filter (fun r => r.type = t) = [e.1] := by simp [htype, hsig]
    rw [sectionOf, flatMap_cons, filter_append, hfirst, ← sectionOf, ih hrest]
    rfl

theorem sectionSigs_sectionOf (ht : t ≠ .rrsig) (h : ∀ e ∈ sets, SignedAs t e) :
    Walker.sectionSigs t (sectionOf sets) = sets.map Prod.snd := by
  induction sets with
  | nil => rfl
  | cons e sets ih =>
    obtain ⟨⟨htype, hcovered, -⟩, hrest⟩ := forall_mem_cons.mp h
    have hnot : asRRSIG e.1 = none := by
      unfold asRRSIG
      split
      · next sig hrd =>
        rw [Record.type, hrd] at htype
        exact absurd htype.symm ht
      · rfl
    have hfirst : Walker.sectionSigs t [e.1, record e.1.name (.rrsig e.2)] = [e.2] := by
      rw [Walker.sectionSigs, extractRRSIGs, filterMap_cons_none hnot]
      simp [asRRSIG, record, newRecord, hcovered]
    have happend : Walker.sectionSigs t (sectionOf (e :: sets)) =
        Walker.sectionSigs t [e.1, record e.1.name (.rrsig e.2)] ++ Walker.sectionSigs t (sectionOf sets) := by
      simp only [Walker.sectionSigs, extractRRSIGs, sectionOf, flatMap_cons, filterMap_append,
        filter_append]
    rw [happend, hfirst, ih hrest]
    rfl

theorem ownedBy_map_fst (hnodup : (sets.map fun e => e.1.name).Nodup) {e : Record × RRSIG} (he : e ∈ sets) :
    ownedBy (sets.map Prod.fst) e.1.name = [e.1] := by
  induction sets with
  | nil => cases he
  | cons d sets ih =>
    obtain ⟨hnot, hnodup⟩ := nodup_cons.mp hnodup
    rw [map_cons, ownedBy, filter_cons]
    rcases mem_cons.mp he with rfl | he
    · rw [if_pos (decide_eq_true rfl), filter_eq_nil_iff.mpr]
      intro r hr hname
      obtain ⟨d, hd, rfl⟩ := mem_map.mp hr
      exact hnot (mem_map.mpr ⟨d, hd, by simpa using hname⟩)
    · have hne : d.1.name ≠ e.1.name := fun heq => hnot (mem_map.mpr ⟨e, he, heq.symm⟩)
      rw [if_neg (by simpa using hne)]
      exact ih hnodup he

theorem attempts_map_snd (h : ∀ e ∈ sets, SignedAs t e) :
    (walker signed source).attempts (sets.map Prod.snd) [key] = sets.length := by
  induction sets with
  | nil => rfl
  | cons e sets ih =>
    obtain ⟨⟨-, -, halg, htag, htime⟩, hrest⟩ := forall_mem_cons.mp h
    have hmatches : Walker.keyMatches e.2 key = true := by
      have hkeyTag : keyTag key = 36560 := by decide +kernel
      rw [Walker.keyMatches, hkeyTag, htag, halg]
      rfl
    have htime' : rrsigValidNowWithSkew e.2 (walker signed source).now (walker signed source).skew = true := htime
    rw [map_cons, Walker.attempts_cons, ih hrest, if_pos htime', countP_cons_of_pos hmatches,
      countP_nil, length_cons, Nat.add_comm]

theorem signedSection (ht : t ≠ .rrsig) (h : ∀ e ∈ sets, SignedAs t e)
    (hsigned : ∀ e ∈ sets, ([e.1], e.2) ∈ signed) (hnodup : (sets.map fun e => e.1.name).Nodup)
    (hlength : sets.length ≤ 8) : (walker signed source).SignedSection t [key] (sectionOf sets)
      ((sectionOf sets).filter fun r => r.type = t) := by
  rw [filter_sectionOf ht h]
  constructor
  · intro n hn
    obtain ⟨r, hr⟩ := exists_mem_of_ne_nil _ hn
    obtain ⟨hr, hname⟩ := mem_filter.mp hr
    obtain ⟨e, he, rfl⟩ := mem_map.mp hr
    obtain rfl : e.1.name = n := by simpa using hname
    obtain ⟨-, -, halg, htag, htime⟩ := h e he
    have hkeyTag : keyTag key = 36560 := by decide +kernel
    have hverify : (walker signed source).verify [e.1] e.2 key = .ok () :=
      verify_of_mem (.tail _ (hsigned e he)) (cons_ne_nil _ _) halg htag
    rw [sectionSigs_sectionOf ht h, ownedBy_map_fst hnodup he]
    refine ⟨e.2, mem_map_of_mem he, htime, key, .head _, ?_, hverify⟩
    rw [Walker.keyMatches, hkeyTag, htag, halg]
    rfl
  · rw [sectionSigs_sectionOf ht h, attempts_map_snd h]
    exact hlength

def addressSet : List Record := [record nameA (.a ⟨[192, 0, 2, 1], rfl⟩)]

def addressWalker (sig : RRSIG) : ChainWalker :=
  walker [(addressSet, sig)] fun _ _ => .ok (response 0 (addressSet ++ [record nameA (.rrsig sig)]) [])

def ownSig : RRSIG :=
  sigOf .a 1 nameA 0xa5e2940b759799747556e64f057bb3e13c904d6bcd1668d4c61986f06c3ad8a2
    0xfe920126c6e60c16cf78dc82921115b1281e6a743e074f2348b3e779cf030b00

end SignedSample

/-- Each algorithm of the parent's DS records verifies the records of a secure answer. Which algorithms do so is a
matter of their own signatures, whatever stands between these in the response. -/
theorem resolve_secure_algorithms (h : cw.resolve qname qtype = (ans, err)) (hsecure : ans.result = .secure)
    (hrecords : ans.records ≠ []) :
    ∃ msg, cw.source true qname qtype = .ok msg ∧
      ∃ step, (ans.chain.reverse.find? fun v => v.res = .secure && v.dss.length ≠ 0) = some step ∧
        cw.fetchAndVerifyDNSKEY step.zone step.dss = .ok step.keys ∧
        (∀ ds ∈ step.dss, ∃ sig, sig.algorithm = ds.algorithm ∧
          cw.AcceptableSig msg.answers qtype step.keys ans.records sig) ∧
        ∀ (answers : List Record) (alg : UInt8),
          (extractRRSIGs answers).filter (·.algorithm = alg) = (extractRRSIGs msg.answers).filter (·.algorithm = alg) →
          cw.tryAlgorithm ans.records (rrsigsForTypeAndOwner (extractRRSIGs answers) qtype qname) step.keys alg =
            cw.tryAlgorithm ans.records (rrsigsForTypeAndOwner (extractRRSIGs msg.answers) qtype qname) step.keys alg := by
  obtain ⟨msg, hmsg, -, front, step, hchain, hres, -, hdss, hfetch, hverify⟩ := resolve_secure h hsecure hrecords
  refine ⟨msg, hmsg, step, ?_, hfetch, ?_, ?_⟩
  · simp [hchain, hres, hdss]
  · exact fun ds hds => acceptableSig_of_verifyRRsetAllAlgs hverify (mem_dedup.mpr (mem_map_of_mem hds))
  · grind [Walker.tryAlgorithm_congr, rrsigsForTypeAndOwner, filter_comm]

open SignedSample in
/-- The algorithm of the one DS record verifies the address, also behind a signature of another algorithm. -/
theorem resolve_secure_algorithms_sample :
    (∃ sig, sig.algorithm = 15 ∧
        (addressWalker ownSig).AcceptableSig (addressSet ++ [record nameA (.rrsig ownSig)]) .a [key] addressSet sig) ∧
      (addressWalker ownSig).tryAlgorithm addressSet [{ ownSig with algorithm := 8 }, ownSig] [key] 15 =
        (addressWalker ownSig).tryAlgorithm addressSet [ownSig] [key] 15 := by
  have hresolve : (addressWalker ownSig).resolve nameA .a =
      (⟨.secure, addressSet, .noError, [⟨nameA, [key], [ds], .secure⟩], none⟩, none) := by decide +kernel
  obtain ⟨msg, hmsg, step, hstep, -, hverified, hother⟩ := resolve_secure_algorithms hresolve rfl (cons_ne_nil _ _)
  cases hmsg
  cases hstep
  exact ⟨hverified ds (.head _), hother [record nameA (.rrsig { ownSig with algorithm := 8 }),
    record nameA (.rrsig ownSig)] 15 (by decide +kernel)⟩

end ChainWalker

end Acidns
